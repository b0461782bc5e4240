import Milpa.Types.Lockfile

/-!
# The data of an index

`Index` of `registry.rs` and what it is made of. `epoch_commitment_status` is left out:
`Index::parse` does not compute it, and nothing here looks at it.
-/

namespace Milpa

/-- `Provenance`: of its kinds, the two that an index can hold. -/
inductive Provenance where
  | git (url refSpec : Str) (commitSha : Option Str)
  | oci (registry repository digest : Str) (sourceUrl : Option Str)
  deriving DecidableEq, Repr

/-- `EntryAttestation`. -/
structure EntryAttestation where
  kind : AttestationKind
  rekor : Option RekorRef
  bundlePin : Option Str
  deriving DecidableEq, Repr

/-- `IndexVersion`. -/
structure IndexVersion where
  version : Str
  contentHash : Str
  provenances : List Provenance
  depDecl : Option Str
  depDeclSchemaVersion : Option ℤ
  attestation : Option EntryAttestation
  «namespace» : Str
  publishedAt : Option Timestamp
  yanked : Bool
  yankedAt : Option Timestamp
  yankedReason : Option Str
  publishedAtRaw : Option Str
  deriving DecidableEq, Repr

/-- `Package`. -/
structure Package where
  name : Str
  «namespace» : Str
  versions : List IndexVersion
  deriving DecidableEq, Repr

/-- `BareLookup`. -/
inductive BareLookup where
  | found (pkg : Package)
  | ambiguous (namespaces : List Str)
  | notFound
  deriving DecidableEq, Repr

/-- `Index`. -/
structure Index where
  packages : List Package
  deriving DecidableEq, Repr

/-- `TrustPolicy`. -/
inductive TrustPolicy where
  | off
  | warn
  | strict
  deriving DecidableEq, Repr

end Milpa

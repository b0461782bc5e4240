import Milpa.Types.Source
import Milpa.Types.Timestamp

/-!
# The data of a lockfile

`Lockfile` of `milpa_types` and what it is made of.
-/

namespace Milpa

/-- `RekorRef`. -/
structure RekorRef where
  uuid : Str
  logIndex : Str
  integratedTime : Str
  deriving DecidableEq, Repr

/-- `AttestationKind`. -/
inductive AttestationKind where
  | authorSigned (signer : Str)
  | milpaVendored
  deriving DecidableEq, Repr

/-- `LockAttestation`. -/
structure LockAttestation where
  kind : AttestationKind
  rekor : Option RekorRef
  bundlePin : Option Str
  «namespace» : Str
  deriving DecidableEq, Repr

/-- `ProvenanceRecord`. -/
inductive ProvenanceRecord where
  | git (url : Str) (refSpec commitSha : Option Str) (origin : Str) (submoduleShas : List (Str × Str))
  | tarball (url : Str) (sha256 : Option Str) (origin : Str)
  | local (path : Str) (origin : Str)
  | member (name : Str) (origin : Str)
  | oci (registry repository digest : Str) (origin : Str)
  | root (name : Str) (origin : Str)
  deriving DecidableEq, Repr

/-- `origin`. -/
def ProvenanceRecord.origin : ProvenanceRecord → Str
  | .git _ _ _ origin _ => origin
  | .tarball _ _ origin => origin
  | .local _ origin => origin
  | .member _ origin => origin
  | .oci _ _ _ origin => origin
  | .root _ origin => origin

/-- `Predicate`: a clause of a condition. -/
structure Predicate where
  name : Str
  values : List Str
  negated : Bool
  deriving DecidableEq, Repr

/-- `CondRequire`. -/
structure CondRequire where
  name : Str
  predicates : List Predicate
  deriving DecidableEq, Repr

/-- `LockedDep`. -/
structure LockedDep where
  name : Str
  «namespace» : Option Str
  identity : Option Str
  version : Str
  srcDir : Str
  requires : List Str
  provenances : List ProvenanceRecord
  activeFlags : List Str
  depDecl : Option Str
  condRequires : List CondRequire
  aliases : List Str
  attestation : Option LockAttestation
  declaredVersionSource : Option Str
  sourceId : Option SourceId
  deriving DecidableEq, Repr

/-- `LOCKFILE_SCHEMA_VERSION`. -/
def lockfileSchemaVersion : ℕ := 1

/-- `Lockfile`. -/
structure Lockfile where
  version : ℕ
  strategy : Str
  excludeNewer : Option Timestamp
  deps : List LockedDep
  deriving DecidableEq, Repr

end Milpa

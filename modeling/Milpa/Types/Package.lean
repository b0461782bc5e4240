import Milpa.Order.BTreeMap
import Milpa.Types.Manifest

/-!
# Fetched packages

What a fetch leaves in `_deps/`, as far as the resolver reads it, and what it is asked
for: `NimbleManifest` of `milpa_manifest::nimble`, `Receipt` of `fetch.rs`, and the
`Provenance` of `milpa_types` with all its kinds.
-/

namespace Milpa

/-- `VersionSource`: where a declared version was read. -/
inductive VersionSource where
  | manifest
  | nimble
  | tag
  /-- `Annotation`: the version that the dependency line notes. -/
  | annotated
  deriving DecidableEq, Repr

/-- `NimbleRequirement`, without the verbatim text. -/
inductive NimbleRequirement where
  | url (url : Str) (refSpec : Option Str) (predicates : List Predicate)
  | named (name : Str) (constraint : Option Str) (predicates : List Predicate)
  deriving DecidableEq, Repr

/-- `NimbleManifest`. -/
structure NimbleManifest where
  requires : List NimbleRequirement
  srcDir : Option Str
  version : Option Version
  deriving DecidableEq, Repr

/-- The directory of a fetched package: what the resolver reads of it. -/
structure PackageTree where
  /-- What `compute_content_hash` gives for it. -/
  contentHash : Str
  /-- `milpa.kdl`, where there is one, and the manifest in it, where it can be read and parsed. -/
  milpaKdl : Option (Option Manifest)
  /-- The `.nimble` files by their file names, each with what it says, where it can be read. -/
  nimbleFiles : BTreeMap Str (Option NimbleManifest)

namespace PackageTree

/-- The manifest of the package. -/
def manifest? (tree : PackageTree) : Option Manifest := tree.milpaKdl.join

/-- `find_nimble`: the file named like the package, else the first one. -/
def findNimble (tree : PackageTree) (hint : Str) : Option (Option NimbleManifest) :=
  match tree.nimbleFiles.get? (hint ++ ".nimble") with
  | some file => some file
  | none => (tree.nimbleFiles.entries.head?).map Prod.snd

end PackageTree

/-- `Provenance`, where a fetch is to get a package. -/
inductive Transport where
  | git (url refSpec : Str) (commitSha : Option Str)
  | tarball (url : Str) (expectedSha256 : Option Str) (stripComponents : UInt32)
  | local (path : Str)
  | oci (registry repository digest : Str) (sourceUrl : Option Str)
  deriving DecidableEq, Repr

/-- The provenance of an index entry, as a transport. -/
def Provenance.transport : Provenance → Transport
  | git url refSpec commitSha => .git url refSpec commitSha
  | oci registry repository digest sourceUrl => .oci registry repository digest sourceUrl

/-- `Receipt`, without the identity that the resolver computes itself. -/
structure Receipt where
  resolvedRef : Option Str
  archiveSha256 : Option Str
  submoduleShas : List (Str × Str)
  committerDate : Option Timestamp
  deriving DecidableEq, Repr

/-- The receipt that says nothing. -/
def Receipt.empty : Receipt := ⟨none, none, [], none⟩

/-- `opt`: the empty string is no value. -/
def opt (s : Str) : Option Str := if s.isEmpty then none else some s

/-- `transport_to_record`. -/
def transportToRecord : Transport → ProvenanceRecord
  | .git url refSpec commitSha => .git url (opt refSpec) commitSha "observed" []
  | .tarball url expectedSha256 _ => .tarball url expectedSha256 "observed"
  | .local path => .local path "observed"
  | .oci registry repository digest _ => .oci registry repository digest "observed"

end Milpa

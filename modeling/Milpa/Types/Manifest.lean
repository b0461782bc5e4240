import Milpa.Solver.VersionSet
import Milpa.Types.EdgeSet
import Milpa.Types.Registry

/-!
# The data of a manifest

`Manifest` and `Workspace` of `milpa_manifest` and what they are made of.
-/

namespace Milpa

open Solver

/-- `Strategy`. -/
inductive Strategy where
  | maxver
  | minver
  | semver
  | lowestDirect
  deriving DecidableEq, Repr

/-- `UrlDep`. -/
structure UrlDep where
  name : Str
  git : Str
  gitRef : Str
  mirrors : List Str
  predicates : List Predicate
  flagRequests : List FlagRequest
  optional : Bool
  version : Option Version
  subpath : Option Str
  deriving DecidableEq, Repr

/-- `url_dep_with_subpath`. -/
def urlDepWithSubpath (name git gitRef : Str) (version : Option Version) (subpath : Option Str) : UrlDep :=
  ⟨name, git, gitRef, [], [], [], false, version, subpath⟩

/-- `url_dep`. -/
def urlDep (name git gitRef : Str) (version : Option Version) : UrlDep := urlDepWithSubpath name git gitRef version none

/-- `NamedDep`. -/
structure NamedDep where
  name : Str
  /-- The constraint as written; `none` for any version. -/
  constraint : Option Str
  parsedConstraint : Option VersionSet
  flagRequests : List FlagRequest
  optional : Bool
  predicates : List Predicate
  «namespace» : Option Str
  deriving DecidableEq, Repr

/-- `LocalDep`. -/
structure LocalDep where
  name : Str
  path : Str
  predicates : List Predicate
  version : Option Version
  deriving DecidableEq, Repr

/-- `TarballDep`. -/
structure TarballDep where
  name : Str
  url : Str
  sha256 : Option Str
  stripComponents : UInt32
  predicates : List Predicate
  version : Option Version
  subpath : Option Str
  deriving DecidableEq, Repr

/-- `MemberDep`. -/
structure MemberDep where
  name : Str
  predicates : List Predicate
  deriving DecidableEq, Repr

/-- `Dep`: a declared dependency, in one of its five forms. -/
inductive Dep where
  | url (dep : UrlDep)
  | named (dep : NamedDep)
  | local (dep : LocalDep)
  | tarball (dep : TarballDep)
  | member (dep : MemberDep)
  deriving DecidableEq, Repr

namespace Dep

/-- `name`. -/
def name : Dep → Str
  | url d => d.name
  | named d => d.name
  | «local» d => d.name
  | tarball d => d.name
  | member d => d.name

/-- `predicates`. -/
def predicates : Dep → List Predicate
  | url d => d.predicates
  | named d => d.predicates
  | «local» d => d.predicates
  | tarball d => d.predicates
  | member d => d.predicates

/-- The namespace of a dependency: only a named one can have one. -/
def namespace? : Dep → Option Str
  | named d => d.namespace
  | _ => none

/-- The key of a dependency. -/
def key (d : Dep) : DepKey := ⟨d.name, d.namespace?⟩

end Dep

/-- `OverrideTarget`. -/
inductive OverrideTarget where
  | git (url gitRef : Str) (subpath : Option Str)
  | local (path : Str)
  | member (memberName : Str)
  | oci (registry repository digest : Str) (subpath : Option Str)
  | tarball (url : Str) (sha256 : Option Str) (stripComponents : UInt32) (subpath : Option Str)
  | registry (name : Str) («namespace» : Option Str)
  deriving DecidableEq, Repr

/-- Whether a target is a workspace member. -/
def OverrideTarget.isMember : OverrideTarget → Bool
  | member _ => true
  | _ => false

/-- `Override`. -/
structure Override where
  name : Str
  target : OverrideTarget
  version : Option Version
  deriving DecidableEq, Repr

/-- `CrossPkgEnable`. -/
structure CrossPkgEnable where
  dep : Str
  flagRequests : List FlagRequest
  deriving DecidableEq, Repr

/-- `FlagDecl`. -/
structure FlagDecl where
  name : Str
  default : Bool
  description : Str
  defines : List Str
  enablesSamePkg : List Str
  enablesCrossPkg : List CrossPkgEnable
  conflicts : List Str
  deriving DecidableEq, Repr

/-- `Resolution`. -/
structure Resolution where
  strategy : Option Strategy
  excludeNewer : Option Timestamp
  deriving DecidableEq, Repr

/-- `Manifest`. -/
structure Manifest where
  name : Option Str
  kind : Str
  srcDir : Str
  deps : List Dep
  devDeps : List Dep
  overrides : List Override
  flags : List FlagDecl
  selfMirrors : List Str
  casDir : Str
  specVersion : ℤ
  specVersionExplicit : Bool
  version : Option Version
  attestationPolicy : TrustPolicy
  indexTrustPolicy : TrustPolicy
  indexTrustSigner : Option Str
  indexTrustBundle : Option Str
  indexTrustPolicyExplicit : Bool
  entryTrustPolicy : TrustPolicy
  entryTrustPolicyExplicit : Bool
  indexHistoryPolicy : TrustPolicy
  indexHistoryPolicyExplicit : Bool
  optionalAutoFlags : List Str
  resolution : Option Resolution
  provides : List Str
  deriving DecidableEq, Repr

/-- The values that `parse_manifest_doc` starts from. -/
def Manifest.initial : Manifest where
  name := none
  kind := "library"
  srcDir := []
  deps := []
  devDeps := []
  overrides := []
  flags := []
  selfMirrors := []
  casDir := []
  specVersion := 1
  specVersionExplicit := false
  version := none
  attestationPolicy := .warn
  indexTrustPolicy := .strict
  indexTrustSigner := none
  indexTrustBundle := none
  indexTrustPolicyExplicit := false
  entryTrustPolicy := .strict
  entryTrustPolicyExplicit := false
  indexHistoryPolicy := .warn
  indexHistoryPolicyExplicit := false
  optionalAutoFlags := []
  resolution := none
  provides := []

/-- `Workspace`. -/
structure Workspace where
  members : List Str
  overrides : List Override
  flags : List FlagDecl
  name : Option Str
  indexTrustPolicy : TrustPolicy
  indexTrustSigner : Option Str
  indexTrustBundle : Option Str
  indexTrustPolicyExplicit : Bool
  entryTrustPolicy : TrustPolicy
  entryTrustPolicyExplicit : Bool
  indexHistoryPolicy : TrustPolicy
  indexHistoryPolicyExplicit : Bool
  resolution : Option Resolution
  deriving DecidableEq, Repr

end Milpa

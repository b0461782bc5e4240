import Milpa.Core.Seed
import Milpa.Solver.ParseVersion

/-!
# Conditional dependencies

`FilterCtx` and `filter_manifest` of `resolver.rs`: the dependencies of a manifest that a
profile and a set of flags leave. There are two gates, one for the predicates on the target
and one for those on flags; without a profile and without active flags nothing is filtered.
-/

namespace Milpa.Core.Resolver

open Solver

/-- `Profile`, with the axes that are looked at. -/
structure Profile where
  platform : Option Str
  arch : Option Str
  nimVersion : Option Version
  milpaVersion : Option Version

/-- `normalize_constraint`: a space after a comparison. -/
def normalizeConstraint (s : Str) : Str :=
  let ops : List Str := [">=", "<=", "==", "!=", ">", "<", "~", "^"]
  (ops.findSome? fun op => (s.stripPrefix op).map fun rest => op ++ ' ' :: rest.dropWhile Str.isWhitespace).getD s

/-- `version_satisfies`. -/
def versionSatisfies (actual : Version) (declared : Str) : Bool :=
  if declared.head?.any fun c => decide (c ∈ ['>', '<', '=', '!', '~', '^']) then
    match VersionSet.fromConstraint (some (normalizeConstraint declared)) with
    | .ok vs => vs.contains actual
    | .error _ => false
  else (parseVersion declared).any fun v => v == actual

/-- The axis of a predicate: which of its values match, if the profile has the axis. -/
def Profile.axis (profile : Profile) (name : Str) : Option (Str → Bool) :=
  if name = "platform".toList then profile.platform.map fun actual v => decide (v = actual)
  else if name = "arch".toList then profile.arch.map fun actual v => decide (v = actual)
  else if name = "nim".toList then profile.nimVersion.map versionSatisfies
  else if name = "milpa".toList then profile.milpaVersion.map versionSatisfies
  else none

/-- `predicate_satisfied_profile_only`: an axis that is absent satisfies nothing, negated or not. -/
def predicateSatisfiedProfileOnly (pred : Predicate) (profile : Profile) : Bool :=
  match profile.axis pred.name with
  | some matching => if pred.negated then !pred.values.any matching else pred.values.any matching
  | none => false

/-- `FilterCtx`. -/
structure FilterCtx where
  profile : Option Profile
  activeFlags : List Str

/-- The flags that are on by default. -/
def defaultSeed (flags : List FlagDecl) : List Str := (flags.filter FlagDecl.default).map FlagDecl.name

/-- `FilterCtx::build`: without a selection of features, the defaults. -/
def FilterCtx.build (manifest : Manifest) (profile : Option Profile) (cliSeed : Option (List Str)) : FilterCtx :=
  let seed := cliSeed.getD (defaultSeed manifest.flags)
  ⟨profile, if seed.isEmpty then [] else flagEnablesClosure manifest.flags seed⟩

/-- The gate of the profile. -/
def passesProfile (profile : Profile) (dep : Dep) : Bool :=
  dep.predicates.all fun pred => decide (pred.name = "flag".toList) || predicateSatisfiedProfileOnly pred profile

/-- `dep_passes`: both gates. -/
def FilterCtx.passes (fctx : FilterCtx) (dep : Dep) : Bool :=
  fctx.profile.all (passesProfile · dep) && depPassesFlagPredicates dep fctx.activeFlags

/-- A manifest with the dependencies that pass. -/
def retainDeps (keep : Dep → Bool) (manifest : Manifest) : Manifest :=
  { manifest with deps := manifest.deps.filter keep, devDeps := manifest.devDeps.filter keep }

/-- `filter_manifest`. -/
def filterManifest (manifest : Manifest) (fctx : FilterCtx) : Manifest :=
  if fctx.profile.isNone && fctx.activeFlags.isEmpty then manifest else retainDeps fctx.passes manifest

end Milpa.Core.Resolver

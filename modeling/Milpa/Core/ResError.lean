import Mathlib.Data.Finset.Insert
import Milpa.Core.Binding
import Milpa.Core.Registry
import Milpa.Types.EdgeSet

/-!
# The errors of a resolve

One constructor for each message of the resolver, with the values that the message
quotes. Failures of code that is not modelled (the fetchers and the artifact store) are
carried by their code and text.
-/

namespace Milpa.Core

open Solver

/-- The errors that the functions of `resolver.rs`, `binding.rs` and `edge_sources.rs` raise. -/
inductive ResError where
  /-- `SRC-ID-MALFORMED`. -/
  | sourceId (e : SourceIdError)
  /-- `RES-BINDING-CONFLICT`, of two transitive claims. -/
  | binding (e : BindingConflict)
  /-- `RES-BINDING-CONFLICT`: `package {name} is declared at the root more than once with disagreeing sources`. -/
  | rootConflict (name : Str) (prior claimed : SourceId)
  /-- A failed assertion of `BindingResolver`. -/
  | assertion
  /-- An error of the index. -/
  | tng (e : TngError)
  /-- `RES-EXCLUDE-NEWER-EMPTY`. -/
  | excludeNewerEmpty (name : Str) (dropped : ℕ) (bound : Timestamp)
  /-- `TNG-NO-IDENTITY`. -/
  | noIdentity (name version : Str)
  /-- `RES-ROOT-SELF-VERSION-CONSTRAINT`. -/
  | rootSelfVersionConstraint (name : Str) (rootVersion : Version)
  /-- `RES-REGISTRY-SHADOW`. -/
  | registryShadow (name : Str) (owning : List Str) (claimed : SourceId)
  /-- `MAN-NIMBLE-CONSTRAINT`. -/
  | nimbleConstraint (constraint : Str) (e : VersionSet.ConstraintError)
  /-- `MAN-SRC-DIR-UNSAFE`. -/
  | srcDirUnsafe (name srcDir : Str)
  /-- `RES-NO-INDEX`: `unsafe package name {name} derived from URL {url}`. -/
  | unsafeUrlName (name url : Str)
  /-- `MILPA-INTERNAL`: `canonical_for({key}) has no binding`. -/
  | canonicalUnbound (key : DepKey)
  /-- `MILPA-INTERNAL`: `edge_cache seal/lookup for {name} has no source_id bound`. -/
  | edgeCacheUnbound (name : Str)
  /-- `MILPA-INTERNAL`: the fixpoint exceeded its bound on activations. -/
  | fixpointActivations
  /-- `MILPA-INTERNAL`: the fixpoint did not converge. -/
  | fixpointIterations
  /-- `RES-MEMBER-OUTSIDE-WORKSPACE`. -/
  | memberOutsideWorkspace (name : Str)
  /-- `RES-WS-OVERRIDE-MEMBER-COLLISION`. -/
  | overrideMemberCollision (names : List Str)
  /-- `RES-WS-MEMBER-REF-UNKNOWN`. -/
  | memberRefUnknown (memberName depName : Str)
  /-- `RES-WS-MEMBER-VERSION-CONSTRAINT`. -/
  | memberVersionConstraint (name : Str) (constraint : Option Str) (version : Version)
  /-- `RESOLVE-FLAG-CONFLICT`. -/
  | flagConflict (dep flagA flagB : Str) (sourcesA sourcesB : Finset ActivationSource)
  /-- `TNG-DEPDECL-SCHEMA-UNSUPPORTED`. -/
  | depDeclSchemaUnsupported (name : Str) (found : ℤ)
  /-- `TNG-DEPDECL-SCHEMA-MISMATCH`. -/
  | depDeclSchemaMismatch (name : Str) (found expected : ℤ)
  /-- `FETCH-ALL-FAILED`, with the last failure. -/
  | fetchAllFailed (name : Str) (candidates : ℕ) (last : Option (Str × Str))
  /-- `FETCH-PROVENANCE-DIVERGENCE`. -/
  | provenanceDivergence (name expected got : Str)
  /-- `RES-EXCLUDE-NEWER-PIN`. -/
  | excludeNewerPin (name : Str) (resolvedRef : Option Str) (committerDate bound : Timestamp)
  /-- An error of the artifact store or of the artifact. -/
  | depDecl (code message : Str)
  /-- An error of a fetch. -/
  | fetch (code message : Str)
  /-- `RES-UNATTESTED-METADATA`. -/
  | unattestedMetadata (names : List Str)
  /-- `FROZEN-ACTIVE-FLAGS-MISMATCH`: `feature {feature} not declared in root manifest's flags block`. -/
  | featureUndeclared (feature : Str)
  /-- `FROZEN-ACTIVE-FLAGS-MISMATCH`: `feature {feature} not declared in workspace root flags block`. -/
  | workspaceFeatureUndeclared (feature : Str)
  /-- `RES-NO-INDEX`: `manifest has named dep(s) {names} but no tianguis index was provided`. -/
  | noIndex (names : List Str)
  /-- `RES-WS-NO-INDEX`. -/
  | workspaceNoIndex (names : List Str)
  /-- `MILPA-INTERNAL-IO`. -/
  | internalIo (message : Str)
  /-- `SOLVE-CONFLICT`, with its narration. -/
  | solveConflict (narration : Str)
  /-- `RES-VERSION-UNKNOWN-CONSTRAINED`; the remedy is another one for what the root declares. -/
  | versionUnknownConstrained (package : Str) (constrainers : List (Str × Str)) (rootDeclared : Bool)
  /-- An error of the check of import slots. -/
  | importSlot (code message : Str)
  deriving DecidableEq

/-- An error of `normalize_source`, in a function that raises others too. -/
def liftSourceId {α : Type} : Except SourceIdError α → Except ResError α
  | .ok a => .ok a
  | .error e => .error (.sourceId e)

@[simp] theorem liftSourceId_eq_ok {α : Type} {x : Except SourceIdError α} {a : α} :
    liftSourceId x = .ok a ↔ x = .ok a := by
  cases x <;> simp [liftSourceId]

/-- `normalize_source`, where the resolver calls it. -/
def normalizeSourceRes (raw : SourceId) : Except ResError SourceId := liftSourceId (normalizeSource raw)

theorem normalizeSourceRes_eq_ok {raw sid : SourceId} :
    normalizeSourceRes raw = .ok sid ↔ Accepted raw ∧ sid = normalForm raw := by
  rw [normalizeSourceRes, liftSourceId_eq_ok, normalizeSource_eq_ok]

/-- `canonical_for`, where the resolver calls it. -/
def canonicalForRes (r : BindingResolver) (key : DepKey) : Except ResError SolverKey :=
  match r.canonicalFor key with
  | some k => .ok k
  | none => .error (.canonicalUnbound key)

theorem canonicalForRes_eq_ok {r : BindingResolver} {key : DepKey} {k : SolverKey} :
    canonicalForRes r key = .ok k ↔ r.canonicalFor key = some k := by
  unfold canonicalForRes
  cases r.canonicalFor key <;> simp

end Milpa.Core

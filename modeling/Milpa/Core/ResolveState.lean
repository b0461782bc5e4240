import Milpa.Core.Extracted
import Milpa.Types.VersionMap

/-!
# The state of a resolve

`Candidate` and the cells of `ResolveProvider`, with the small operations on them: a
candidate that is stored, the flags of a package, and what more flags admit.

`_deps/` is part of the state: the directories that fetches have filled, read again by
later steps.
-/

namespace Milpa.Core

open Solver

/-- `Candidate`. -/
structure Candidate where
  name : Str
  version : Version
  identity : Str
  srcDir : Str
  requiresNames : List Str
  deps : List SolverDep
  provenance : Option ProvenanceRecord
  declaredMirrorUrls : List Str
  depDecl : Option Str
  requiresPredicates : BTreeMap Str (List (List Predicate))
  attestation : Option EntryAttestation
  isRegistry : Bool
  registryNamespace : Str
  versionUnknown : Bool
  declaredVersionSource : Option VersionSource

instance lawfulBEqUrlKey : LawfulBEq (Str × Str × Option Str) := inferInstance

/-- The cells of `ResolveProvider`, and `_deps/`. -/
structure ResolveState where
  binding : BindingResolver
  candidates : BTreeMap Str (VersionMap Candidate)
  stubs : BTreeMap Str (VersionMap IndexVersion)
  edgeCache : EdgeCache
  seenUrl : List (Str × Str × Option Str)
  seenNamed : List DepKey
  seenLocal : List Str
  seenTarball : List Str
  seenOci : List Str
  discoveryOrder : List Str
  flagRequestsByName : BTreeMap Str (List FlagRequest)
  depActiveFlags : BTreeMap Str ActiveFlags
  memberManifests : BTreeMap Str Manifest
  depsDir : BTreeMap Str PackageTree

namespace ResolveState

/-- `ResolveProvider::new`. -/
def new (binding : BindingResolver) : ResolveState where
  binding := binding
  candidates := BTreeMap.empty
  stubs := BTreeMap.empty
  edgeCache := fun _ => BTreeMap.empty
  seenUrl := []
  seenNamed := []
  seenLocal := []
  seenTarball := []
  seenOci := []
  discoveryOrder := []
  flagRequestsByName := BTreeMap.empty
  depActiveFlags := BTreeMap.empty
  memberManifests := BTreeMap.empty
  depsDir := BTreeMap.empty

variable (σ : ResolveState)

/-- `record_discovery`. -/
def recordDiscovery (key : Str) : ResolveState :=
  if key ∈ σ.discoveryOrder then σ else { σ with discoveryOrder := σ.discoveryOrder ++ [key] }

/-- The versions of a package for which there is a candidate. -/
def candidatesOf (package : Str) : VersionMap Candidate := (σ.candidates.get? package).getD BTreeMap.empty

/-- The versions of a package for which there is a stub. -/
def stubsOf (package : Str) : VersionMap IndexVersion := (σ.stubs.get? package).getD BTreeMap.empty

/-- `store_candidate`. -/
def storeCandidate (c : Candidate) : ResolveState :=
  { σ with candidates := σ.candidates.insert c.name ((σ.candidatesOf c.name).insert c.version c) }

/-- `values().next()`: the candidate of the least version. -/
def firstCandidate (package : Str) : Option Candidate := (σ.candidatesOf package).entries.head?.map fun e => e.2.2

/-- The identity of a package, empty where there is none. -/
def identityOf (package : Str) : Str := ((σ.firstCandidate package).map Candidate.identity).getD []

/-- `depkey_for_solved_name`. -/
def depkeyForSolvedName (name : Str) : DepKey := ((σ.binding.solverkeyIndex name).map SolverKey.display).getD (.fromSolverVar name)

/-- `source_id_for_edge_cache`. -/
def sourceIdForEdgeCache (name : Str) : Except ResError SourceId :=
  match σ.binding.bindings (σ.depkeyForSolvedName name) with
  | some sid => .ok sid
  | none => .error (.edgeCacheUnbound name)

/-- The manifest in a directory of `_deps/`. -/
def manifestIn (dir : Str) : Option Manifest := (σ.depsDir.get? dir).bind PackageTree.manifest?

/-- The directory of a solver variable. -/
def dirOf (package : Str) : Str :=
  let dk := σ.depkeyForSolvedName package
  depDirName dk.name dk.namespace

/-- The flags that are recorded as active for an identity. -/
def flagsOf (identity : Str) : ActiveFlags := (σ.depActiveFlags.get? identity).getD BTreeMap.empty

/-- `dep_active_flags.insert`, unless there is no identity or no active flag. -/
def recordFlags (identity : Str) (active : ActiveFlags) : ResolveState :=
  if identity.isEmpty || active.entries.isEmpty then σ
  else { σ with depActiveFlags := σ.depActiveFlags.insert identity active }

/-- The flags of an identity, with more of them. -/
def uniteFlags (identity : Str) (active : ActiveFlags) : ResolveState :=
  { σ with depActiveFlags := σ.depActiveFlags.insert identity ((σ.flagsOf identity).union active) }

/-- A term of a candidate that it does not have yet. -/
def extendTerms (c : Candidate) (k : SolverKey) (vs : VersionSet) : Candidate :=
  if k.identity ∈ c.requiresNames then c
  else { c with deps := c.deps ++ [⟨k, vs⟩], requiresNames := c.requiresNames ++ [k.identity] }

/-- A term more for the candidate of the least version of a package. -/
def extendFirst (package : Str) (k : SolverKey) (vs : VersionSet) : ResolveState :=
  match (σ.candidatesOf package).entries.head? with
  | none => σ
  | some (key, v, c) =>
    { σ with candidates := σ.candidates.insert package (BTreeMap.insert key (v, extendTerms c k vs) (σ.candidatesOf package)) }

end ResolveState

/-! ### What more flags admit -/

/-- The term of a dependency that is admitted late. -/
def ResolveCtx.lateTerm (ctx : ResolveCtx) : Dep → VersionSet
  | .named n =>
    if (ctx.overrideOf n.name).isSome then .full
    else
      match VersionSet.fromConstraint (n.constraint.filter fun c => !c.isEmpty) with
      | .ok vs => vs
      | .error _ => .full
  | _ => .full

/-- The item of a dependency that is admitted late, unless it was seen. -/
def ResolveCtx.lateItem (ctx : ResolveCtx) (σ : ResolveState) : Dep → Option Item
  | .url u => if (u.git, u.gitRef, u.subpath) ∈ σ.seenUrl then none else some (.url u)
  | .named n =>
    if (⟨n.name, n.namespace⟩ : DepKey) ∈ σ.seenNamed then none
    else some (.named n.name (ctx.lateTerm (.named n)) n.namespace)
  | .local l => if l.path ∈ σ.seenLocal then none else some (.local l)
  | .tarball t => if t.url ∈ σ.seenTarball then none else some (.tarball t)
  | .member _ => none

/-- The solver key of a dependency that is admitted late. -/
def ResolveCtx.lateKey (ctx : ResolveCtx) (r : BindingResolver) : Dep → Except ResError SolverKey
  | .named n => ctx.requirementKey r n.name n.namespace none none
  | .url u => ctx.requirementKey r u.name none (some u.git) (some u.gitRef)
  | d => ctx.requirementKey r d.name none none none

/-- A dependency of the package that more flags admit: a term for the package, and an item. -/
def ResolveCtx.admitLate (ctx : ResolveCtx) (package : Str) (acc : ResolveState × List Item) (d : Dep) :
    Except ResError (ResolveState × List Item) := do
  let k ← ctx.lateKey acc.1.binding d
  return (acc.1.extendFirst package k (ctx.lateTerm d), acc.2 ++ (ctx.lateItem acc.1 d).toList)

/-- The dependencies of a manifest that new flags admit and old ones did not. -/
def newlyAdmitted (manifest : Manifest) (old new : List Str) : List Dep :=
  manifest.deps.filter fun d => depPassesFlagPredicates d new && !depPassesFlagPredicates d old

/-- The loop over the dependencies, in `process_url` and in `run_s4a_fixpoint`. -/
def ResolveCtx.admitNewly (ctx : ResolveCtx) (package : Str) (manifest : Manifest) (old new : List Str) (σ : ResolveState) :
    Except ResError (ResolveState × List Item) :=
  (newlyAdmitted manifest old new).foldlM (ctx.admitLate package) (σ, [])

end Milpa.Core

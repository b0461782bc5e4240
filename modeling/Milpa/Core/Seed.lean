import Milpa.Core.Resolver

/-!
# Seeding a resolve

`seed_root` and `seed_workspace` of `resolver.rs`: the candidates that are there before
anything is fetched, and the first items of the queue, each with where it comes from. The
manifests are those that the profile and the selected features have left
(`filter_manifest`); a member keeps the manifest it was loaded with beside the filtered one.
-/

namespace Milpa.Core.Resolver

open Solver

/-- Where an item of the queue comes from. -/
inductive ItemOrigin where
  | root
  | member
  | override
  /-- The manifest, or another list of requirements, of a package that was fetched. -/
  | transitive
  deriving DecidableEq, Repr

/-- An item with its origin. -/
abbrev Queued := ItemOrigin × Item

/-- The variables of a seeding loop: the terms are those of the root, or of the member at hand. -/
structure Seeding where
  state : ResolveState
  deps : List SolverDep
  requires : List Str
  queue : List Queued

namespace Seeding

/-- A term. -/
def addTerm (acc : Seeding) (svar : SolverKey) (vs : VersionSet) : Seeding :=
  { acc with deps := acc.deps ++ [⟨svar, vs⟩], requires := acc.requires ++ [svar.identity] }

/-- `record_discovery`. -/
def discover (acc : Seeding) (svar : SolverKey) : Seeding := { acc with state := acc.state.recordDiscovery svar.identity }

/-- An item for the queue. -/
def enqueue (acc : Seeding) (origin : ItemOrigin) (item : Item) : Seeding := { acc with queue := acc.queue ++ [(origin, item)] }

/-- A term, and an item, for a name that is discovered. -/
def seed (acc : Seeding) (svar : SolverKey) (vs : VersionSet) (origin : ItemOrigin) (item : Item) : Seeding :=
  ((acc.addTerm svar vs).discover svar).enqueue origin item

/-- Flag requests for a solver variable: `requests` from what is there and what is new. -/
def requestFlags (acc : Seeding) (svar : Str) (requests : List FlagRequest → List FlagRequest) : Seeding :=
  { acc with
    state := { acc.state with
      flagRequestsByName := acc.state.flagRequestsByName.insert svar (requests ((acc.state.flagRequestsByName.get? svar).getD [])) } }

end Seeding

/-- The term of an item that an override leads to: only one for the registry can ask for a version. -/
def itemTerm : Item → VersionSet
  | .named _ constraint _ => constraint
  | _ => .full

/-- What the override of a root name seeds, other than one to a repository or to a member: the `local` branches of the seeding
loops, and `seed_extended_override_target`. -/
def seedOverride (acc : Seeding) (svar : SolverKey) (name : Str) (ov : Override) : Option Seeding :=
  match ov.target with
  | .local _ | .tarball .. | .oci .. | .registry .. =>
    (overrideEffectiveItem name ov).map fun item => acc.seed svar (itemTerm item) .override item
  | .git .. | .member _ => none

/-! ### A package -/

/-- `member_candidate_version`. -/
def memberCandidateVersion (name : Str) (manifest : Manifest) (tree : PackageTree) : Version × Option VersionSource :=
  match manifest.version with
  | some v => (v, some .manifest)
  | none =>
    let ctx : EdgeSourceCtx :=
      { tree, depName := name, depDecl := none, isOverridden := false, hasMilpaKdl := false, depDeclSchemaVersion := none,
        activeFlags := [], ref := none, version := none }
    match declaredVersionFor ctx with
    | some (v, source) => (v, some source)
    | none => (urlDepVersion, none)

/-- The candidate that nothing is fetched for. -/
def seededCandidate (name : Str) (version : Version) (identity srcDir : Str) (requires : List Str) (deps : List SolverDep)
    (provenance : Option ProvenanceRecord) (source : Option VersionSource) : Candidate where
  name := name
  version := version
  identity := identity
  srcDir := srcDir
  requiresNames := requires
  deps := deps
  provenance := provenance
  declaredMirrorUrls := []
  depDecl := none
  requiresPredicates := BTreeMap.empty
  attestation := none
  isRegistry := false
  registryNamespace := []
  versionUnknown := false
  declaredVersionSource := source

/-- The solver key of a declaration of the root: an override binds the bare name. -/
def rootKey (ctx : ResolveCtx) (r : BindingResolver) (dep : Dep) : Except ResError SolverKey :=
  canonicalForRes r (if (ctx.overrideOf dep.name).isSome then .bare dep.name else dep.key)

/-- One round of `seed_root`. -/
def seedRootDep (ctx : ResolveCtx) (acc : Seeding) (dep : Dep) : Except ResError Seeding :=
  match dep with
  | .tarball t => do
    let svar ← canonicalForRes acc.state.binding (.bare t.name)
    return acc.seed svar .full .root (.tarball t)
  | .local l => do
    let svar ← canonicalForRes acc.state.binding (.bare l.name)
    return acc.seed svar .full .root (.local l)
  | .url u => do
    let svar ← canonicalForRes acc.state.binding (.bare u.name)
    match (ctx.overrideOf u.name).bind (seedOverride acc svar u.name) with
    | some acc => return acc
    | none => return acc.seed svar .full .root (.url u)
  | .named n => do
    let vs := n.parsedConstraint.getD .full
    let svar ← rootKey ctx acc.state.binding dep
    let acc := if n.flagRequests.isEmpty then acc else acc.requestFlags svar.identity fun _ => n.flagRequests
    match ctx.overrideOf n.name with
    | none => return acc.seed svar vs .root (.named n.name vs n.namespace)
    | some ov =>
      match seedOverride acc svar n.name ov with
      | some acc => return acc
      | none => return acc.seed svar (if ov.target.isMember then vs else .full) .root (.named n.name vs n.namespace)
  | .member md => .error (.memberOutsideWorkspace md.name)

/-- The candidate of the root for its own name. -/
def seedRootSelf (manifest : Manifest) (tree : PackageTree) (σ : ResolveState) : Except ResError ResolveState :=
  match manifest.name with
  | none => .ok σ
  | some name => do
    let (version, source) := memberCandidateVersion name manifest tree
    let svar ← canonicalForRes σ.binding (.bare name)
    return σ.storeCandidate
      (seededCandidate svar.identity version [] manifest.srcDir [] [] (some (.root name "observed")) source)

/-- The synthetic root. -/
def storeRoot (acc : Seeding) : ResolveState :=
  acc.state.storeCandidate (seededCandidate root rootVersion [] [] acc.requires acc.deps none none)

/-- `seed_root`, from the resolver that `ResolveProvider::new` makes. -/
def seedRoot (ctx : ResolveCtx) (binding : BindingResolver) (manifest : Manifest) (tree : PackageTree) :
    Except ResError (ResolveState × List Queued) := do
  let acc ← (rootDeps manifest).foldlM (seedRootDep ctx) ⟨.new binding, [], [], []⟩
  let σ ← seedRootSelf manifest tree acc.state
  return (storeRoot { acc with state := σ }, acc.queue)

/-! ### A workspace -/

/-- The directory of each member, and the manifest that the filters have left of its own. -/
structure MemberView where
  tree : Str → PackageTree
  filtered : LoadedMember → Manifest

/-- The version of a member's candidate. -/
def memberVersion (workspace : LoadedWorkspace) (view : MemberView) (name : Str) : Option Version :=
  (workspace.members.reverse.find? fun m => decide (m.name = name)).map fun m =>
    (memberCandidateVersion m.name m.manifest (view.tree m.name)).1

/-- The check on a dependency that a member satisfies. -/
def checkMemberConstraint (workspace : LoadedWorkspace) (view : MemberView) : Dep → Except ResError Unit
  | .named n =>
    match n.parsedConstraint, memberVersion workspace view n.name with
    | some vs, some v => rejectIf (vs.contains v = false) (.memberVersionConstraint n.name n.constraint v)
    | _, _ => .ok ()
  | _ => .ok ()

/-- A member satisfies the dependency. -/
def satisfiedByMember (workspace : LoadedWorkspace) : Dep → Bool
  | .member _ => true
  | dep => decide (dep.name ∈ workspace.memberNames)

/-- One round of the inner loop of `seed_workspace`. -/
def seedMemberDep (ctx : ResolveCtx) (workspace : LoadedWorkspace) (view : MemberView) (acc : Seeding) (dep : Dep) :
    Except ResError Seeding :=
  if satisfiedByMember workspace dep then do
    checkMemberConstraint workspace view dep
    let svar ← canonicalForRes acc.state.binding (.bare dep.name)
    return acc.addTerm svar .full
  else
    match ctx.overrideOf dep.name with
    | some ov => do
      let svar ← canonicalForRes acc.state.binding (.bare dep.name)
      match seedOverride acc svar dep.name ov with
      | some acc => return acc
      | none =>
        if ov.target.isMember then return acc.addTerm svar .full
        else return (acc.addTerm svar .full).enqueue .member (.named dep.name .full none)
    | none =>
      match dep with
      | .url u => do
        let svar ← canonicalForRes acc.state.binding (.bare u.name)
        return acc.seed svar .full .member (.url u)
      | .local l => do
        let svar ← canonicalForRes acc.state.binding (.bare l.name)
        return acc.seed svar .full .member (.local l)
      | .tarball t => do
        let svar ← canonicalForRes acc.state.binding (.bare t.name)
        return acc.seed svar .full .member (.tarball t)
      | .named n => do
        let vs := n.parsedConstraint.getD .full
        let svar ← rootKey ctx acc.state.binding dep
        let acc := if n.flagRequests.isEmpty then acc else acc.requestFlags svar.identity fun old => old ++ n.flagRequests
        return acc.seed svar vs .member (.named n.name vs n.namespace)
      | .member _ => return acc

/-- One round of the outer loop of `seed_workspace`: `acc` has the terms of the root. -/
def seedMember (ctx : ResolveCtx) (workspace : LoadedWorkspace) (view : MemberView) (acc : Seeding) (member : LoadedMember) :
    Except ResError Seeding := do
  let own ← (rootDeps (view.filtered member)).foldlM (seedMemberDep ctx workspace view) { acc with deps := [], requires := [] }
  let tree := view.tree member.name
  let (version, source) := memberCandidateVersion member.name member.manifest tree
  let svar ← canonicalForRes own.state.binding (.bare member.name)
  let σ := own.state.storeCandidate (seededCandidate svar.identity version tree.contentHash member.manifest.srcDir own.requires
    own.deps (some (.member member.name "observed")) source)
  return Seeding.addTerm { own with state := σ, deps := acc.deps, requires := acc.requires } svar .full

/-- The loop of `flag_enables_closure`: the flags that are active, and those still to be followed. -/
def flagEnablesLoop (flags : List FlagDecl) : ℕ → List Str → List Str → List Str
  | 0, active, _ => active
  | _ + 1, active, [] => active
  | n + 1, active, f :: worklist =>
    let found := ((enabledBy flags f).filter fun g => decide (g ∉ active) && (flagByName flags g).isSome).dedup
    flagEnablesLoop flags n (active ++ found) (found ++ worklist)

/-- `flag_enables_closure`: a flag is followed once, so the steps are as many as the flags. -/
def flagEnablesClosure (flags : List FlagDecl) (seed : List Str) : List Str :=
  flagEnablesLoop flags (seed.length + flags.length + 1) seed seed

/-- The requests that the active flags of the workspace itself make. -/
def seedWorkspaceFlags (ctx : ResolveCtx) (workspace : LoadedWorkspace) (σ : ResolveState) : Except ResError ResolveState :=
  let active := flagEnablesClosure workspace.flags ((workspace.flags.filter FlagDecl.default).map FlagDecl.name)
  let enables := active.flatMap fun f => ((flagByName workspace.flags f).map FlagDecl.enablesCrossPkg).getD []
  enables.foldlM (fun σ cpe => do
    let svar ← ctx.requirementKey σ.binding cpe.dep none none none
    return { σ with
      flagRequestsByName :=
        σ.flagRequestsByName.insert svar.identity ((σ.flagRequestsByName.get? svar.identity).getD [] ++ cpe.flagRequests) }) σ

/-- The flags of a member that are active by default, and its manifest for the flag fixpoint. -/
def seedMemberFlags (σ : ResolveState) (member : LoadedMember) : Except ResError ResolveState :=
  let flags := member.manifest.flags
  let active := flagEnablesClosure flags ((flags.filter FlagDecl.default).map FlagDecl.name)
  if active.isEmpty then .ok σ
  else do
    let svar ← canonicalForRes σ.binding (.bare member.name)
    let identity := σ.identityOf svar.identity
    if identity.isEmpty then return σ
    else
      let recorded := active.foldl (fun m f => m.activate f .default) (σ.flagsOf identity)
      return { σ with
        depActiveFlags := σ.depActiveFlags.insert identity recorded
        memberManifests := σ.memberManifests.insert svar.identity member.manifest }

/-- `seed_workspace`, from the resolver that `ResolveProvider::new` makes. -/
def seedWorkspace (ctx : ResolveCtx) (binding : BindingResolver) (workspace : LoadedWorkspace) (view : MemberView) :
    Except ResError (ResolveState × List Queued) := do
  let acc ← workspace.members.foldlM (seedMember ctx workspace view) ⟨.new binding, [], [], []⟩
  let σ ← seedWorkspaceFlags ctx workspace acc.state
  let σ ← workspace.members.foldlM seedMemberFlags σ
  return (storeRoot { acc with state := σ }, acc.queue)

end Milpa.Core.Resolver

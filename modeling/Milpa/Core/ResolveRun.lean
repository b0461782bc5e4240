import Milpa.Core.Seed

/-!
# Runs of the resolver

The flag fixpoint of `resolver.rs`, and the resolver as a transition system.

`process_items` admits all of its items and then dispatches those that are left, and every
worker ends by calling it on what it has found; so the calls that are still to be made form
a stack, and a configuration is the state with this stack (`Config`). The phases are those
of `resolve_with_features`: the walk from the seeds, the rounds of the fixpoint, the solver.
The solver is not part of the model: a step of the last phase is any query it may make.

A configuration also keeps what was admitted and what was dispatched so far. No step looks
at these two lists; the properties of runs are about them.
-/

namespace Milpa.Core.Resolver

open Solver

/-! ### The flag fixpoint -/

/-- The manifest of a candidate in `_deps/`. -/
def fetchedManifest (σ : ResolveState) (package : Str) : Option Manifest :=
  if package ∈ σ.candidates.keys ∧ package ≠ root then σ.manifestIn (σ.dirOf package) else none

/-- `dep_manifests`: the manifest of a candidate in `_deps/`, else that of a member. -/
def depManifest (σ : ResolveState) (package : Str) : Option Manifest :=
  fetchedManifest σ package <|> σ.memberManifests.get? package

/-- The packages of `dep_manifests`. -/
def manifestPackages (σ : ResolveState) : List Str :=
  (σ.candidates.keys ++ σ.memberManifests.keys).dedup.filter fun package => (depManifest σ package).isSome

/-- The `enables` rules for other packages that the active flags of a package fire. -/
def firedEnables (σ : ResolveState) (package : Str) : List CrossPkgEnable :=
  let identity := σ.identityOf package
  match depManifest σ package with
  | some manifest =>
    if identity.isEmpty then []
    else (manifest.flags.filter fun fd => decide ((σ.flagsOf identity).Active fd.name)).flatMap FlagDecl.enablesCrossPkg
  | none => []

/-- One more rule: its requests, for the solver key of its target. -/
def addRequests (ctx : ResolveCtx) (r : BindingResolver) (requests : BTreeMap Str (List FlagRequest)) (cpe : CrossPkgEnable) :
    Except ResError (BTreeMap Str (List FlagRequest)) := do
  let svar ← ctx.requirementKey r cpe.dep none none none
  return requests.insert svar.identity ((requests.get? svar.identity).getD [] ++ cpe.flagRequests)

/-- `additional_requests`. -/
def additionalRequests (ctx : ResolveCtx) (σ : ResolveState) : Except ResError (BTreeMap Str (List FlagRequest)) :=
  ((manifestPackages σ).flatMap (firedEnables σ)).foldlM (addRequests ctx σ.binding) BTreeMap.empty

/-- The variables of a round. -/
structure Round where
  state : ResolveState
  items : List Queued
  anyChange : Bool
  activations : ℕ

/-- `MAX_TOTAL_ACTIVATIONS`. -/
def maxTotalActivations : ℕ := 10000

/-- `MAX_ITERS`. -/
def maxIters : ℕ := 50

/-- Where the items that a package's manifest gives late come from. -/
def lateOrigin (σ : ResolveState) (package : Str) : ItemOrigin :=
  if (fetchedManifest σ package).isSome then .transitive else .member

/-- The loop body of a round, for one target: `σ₀` is the state at the start of the round. -/
def roundTarget (ctx : ResolveCtx) (σ₀ : ResolveState) (acc : Round) (target : Str × List FlagRequest) : Except ResError Round :=
  match depManifest σ₀ target.1 with
  | none => .ok acc
  | some manifest =>
    let identity := acc.state.identityOf target.1
    let old := (acc.state.flagsOf identity).keys
    let newActive := computeDepActiveFlags manifest.flags target.2
    let added := newActive.keys.filter fun f => decide (f ∉ old)
    if identity.isEmpty || added.isEmpty then .ok acc
    else if maxTotalActivations < acc.activations + added.length then .error .fixpointActivations
    else do
      let (σ, items) ← ctx.admitNewly target.1 manifest old (old ++ added) (acc.state.uniteFlags identity newActive)
      return ⟨σ, acc.items ++ items.map fun item => (lateOrigin σ₀ target.1, item), true, acc.activations + added.length⟩

/-- One iteration of `run_s4a_fixpoint`, from the number of activations so far. -/
def fixpointRound (ctx : ResolveCtx) (σ : ResolveState) (activations : ℕ) : Except ResError Round := do
  let requests ← additionalRequests ctx σ
  requests.entries.foldlM (roundTarget ctx σ) ⟨σ, [], false, activations⟩

/-- What `check_s4c_flag_conflicts` does for one package. -/
def checkConflictsOf (σ : ResolveState) (package : Str) : Except ResError Unit :=
  match fetchedManifest σ package with
  | some manifest =>
    let recorded := σ.flagsOf (σ.identityOf package)
    let active := if recorded.entries.isEmpty then computeDepActiveFlags manifest.flags [] else recorded
    raiseIfFlagConflicts (σ.depkeyForSolvedName package).solverVar manifest.flags active
  | none => .ok ()

/-- `check_s4c_flag_conflicts`. -/
def checkFlagConflicts (σ : ResolveState) : Except ResError Unit :=
  σ.candidates.keys.foldlM (fun _ package => checkConflictsOf σ package) ()

/-! ### Configurations -/

/-- A call that is still to be made. -/
inductive Task where
  /-- The first loop of `process_items`: the items still to be admitted, and those to be dispatched after them. -/
  | gate (items survivors : List Queued)
  | dispatch (item : Queued)
  deriving DecidableEq

/-- How far `resolve_with_features` has come. -/
inductive Phase where
  | walk
  /-- The fixpoint, with the iterations and the activations so far. -/
  | fixpoint (iters activations : ℕ)
  | solve
  deriving DecidableEq

/-- A configuration. -/
structure Config where
  state : ResolveState
  tasks : List Task
  phase : Phase
  /-- What was admitted, in the form in which it is dispatched. -/
  admitted : List Queued
  dispatched : List Queued

namespace Config

/-- The start: the queue of the seeds. -/
def start (σ : ResolveState) (queue : List Queued) : Config := ⟨σ, [.gate queue []], .walk, [], []⟩

/-- The origin of an item after `apply_override`. -/
def admittedOrigin (ctx : ResolveCtx) (q : Queued) : ItemOrigin := if applyOverride ctx q.2 = q.2 then q.1 else .override

end Config

open Config

/-- A step of the resolver. -/
inductive Step (ctx : ResolveCtx) : Config → Config → Prop
  /-- `gate_only` lets an item through. -/
  | gate {c : Config} {q : Queued} {items survivors : List Queued} {rest : List Task} {item : Item} {σ : ResolveState}
      (htasks : c.tasks = .gate (q :: items) survivors :: rest) (hgate : gateOnly ctx c.state q.2 = .ok (some item, σ)) :
      Step ctx c { c with
        state := σ
        tasks := .gate items (survivors ++ [(admittedOrigin ctx q, item)]) :: rest
        admitted := c.admitted ++ [(admittedOrigin ctx q, item)] }
  /-- `gate_only` suppresses an item. -/
  | suppress {c : Config} {q : Queued} {items survivors : List Queued} {rest : List Task} {σ : ResolveState}
      (htasks : c.tasks = .gate (q :: items) survivors :: rest) (hgate : gateOnly ctx c.state q.2 = .ok (none, σ)) :
      Step ctx c { c with state := σ, tasks := .gate items survivors :: rest }
  /-- All items are admitted. -/
  | admitted {c : Config} {survivors : List Queued} {rest : List Task} (htasks : c.tasks = .gate [] survivors :: rest) :
      Step ctx c { c with tasks := survivors.map .dispatch ++ rest }
  /-- A worker. -/
  | dispatch {c : Config} {q : Queued} {rest : List Task} {σ : ResolveState} {items : List Item}
      (htasks : c.tasks = .dispatch q :: rest) (hwork : dispatch ctx c.state q.2 = .ok (σ, items)) :
      Step ctx c { c with
        state := σ
        tasks := .gate (items.map fun item => (.transitive, item)) [] :: rest
        dispatched := c.dispatched ++ [q] }
  /-- The walk is over. -/
  | startFixpoint {c : Config} (htasks : c.tasks = []) (hphase : c.phase = .walk) : Step ctx c { c with phase := .fixpoint 0 0 }
  /-- An iteration of the fixpoint that changes something. -/
  | round {c : Config} {iters activations : ℕ} {r : Round} (htasks : c.tasks = []) (hphase : c.phase = .fixpoint iters activations)
      (hiters : iters < maxIters) (hround : fixpointRound ctx c.state activations = .ok r) (hchange : r.anyChange = true) :
      Step ctx c { c with state := r.state, tasks := [.gate r.items []], phase := .fixpoint (iters + 1) r.activations }
  /-- The fixpoint is reached. -/
  | startSolve {c : Config} {iters activations : ℕ} {r : Round} (htasks : c.tasks = [])
      (hphase : c.phase = .fixpoint iters activations) (hiters : iters < maxIters)
      (hround : fixpointRound ctx c.state activations = .ok r) (hchange : r.anyChange = false)
      (hconflicts : checkFlagConflicts c.state = .ok ()) : Step ctx c { c with phase := .solve }
  /-- A query of the solver, or of `finalize`. -/
  | query {c : Config} {package : Str} {version : Version} {σ : ResolveState} {items : List Item} (htasks : c.tasks = [])
      (hphase : c.phase = .solve) (hquery : query ctx c.state package version = .ok (σ, items)) :
      Step ctx c { c with state := σ, tasks := [.gate (items.map fun item => (.transitive, item)) []] }

/-- A run: steps one after the other. -/
def Run (ctx : ResolveCtx) : Config → Config → Prop := Relation.ReflTransGen (Step ctx)

/-! ### Where a resolve starts -/

/-- The context of a resolve of a package. -/
def packageCtx (env : ResolveCtx) (manifest : Manifest) (tree : PackageTree) : ResolveCtx :=
  { env with
    overrides := manifest.overrides
    memberNames := []
    rootSelfName := manifest.name
    rootSelfVersion := manifest.name.map fun name => (memberCandidateVersion name manifest tree).1 }

/-- A resolve of a package starts. -/
def startPackage (env : ResolveCtx) (manifest : Manifest) (tree : PackageTree) : Except ResError Config := do
  let ctx := packageCtx env manifest tree
  let binding ← buildSingleBindingResolver manifest ctx.index
  let (σ, queue) ← seedRoot ctx binding manifest tree
  return Config.start σ queue

/-- The context of a resolve of a workspace: declarations from the index are not used. -/
def workspaceCtx (env : ResolveCtx) (workspace : LoadedWorkspace) : ResolveCtx :=
  { env with
    overrides := workspace.overrides
    depDeclStore := none
    memberNames := workspace.memberNames
    rootSelfName := none
    rootSelfVersion := none }

/-- A resolve of a workspace starts. -/
def startWorkspace (env : ResolveCtx) (workspace : LoadedWorkspace) (view : MemberView) : Except ResError Config := do
  let ctx := workspaceCtx env workspace
  let binding ← resolveWorkspaceBinding workspace ctx.index
  let (σ, queue) ← seedWorkspace ctx binding workspace view
  return Config.start σ queue

/-- A resolve, of a package or of a workspace, with its context and its start. -/
inductive Starts : ResolveCtx → Config → Prop
  | package {env : ResolveCtx} {manifest : Manifest} {tree : PackageTree} {c : Config}
      (hstart : startPackage env manifest tree = .ok c) : Starts (packageCtx env manifest tree) c
  | workspace {env : ResolveCtx} {workspace : LoadedWorkspace} {view : MemberView} {c : Config}
      (hstart : startWorkspace env workspace view = .ok c) : Starts (workspaceCtx env workspace) c

/-- A configuration that a resolve reaches. -/
def Reachable (ctx : ResolveCtx) (c : Config) : Prop := ∃ c₀, Starts ctx c₀ ∧ Run ctx c₀ c

end Milpa.Core.Resolver

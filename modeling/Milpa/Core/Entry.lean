import Milpa.Core.Attestation
import Milpa.Core.Filter
import Milpa.Solver.Refutation

/-!
# The entry points

`resolve_with_features` and `resolve_with_cert` of `resolver.rs`, and their counterparts for
a workspace: each is a copy of the same steps, and the second one of each pair also gives a
certificate.

What is not the resolver's own is a parameter (`Host`): the directory that is created, the
check of import slots, and PubGrub, which asks the provider in its own order and ends, if it
ends, with a result, the state of the provider and the error that the provider has captured.
A walk that has not ended after `fuel` steps is given up.
-/

namespace Milpa.Core.Resolver

open Solver

/-! ### What is given -/

/-- What `pubgrub::resolve` returns. -/
inductive PubGrubResult where
  | solution (selected : Solution)
  | versionUnknownConstrained (package : Str) (constrainers : List (Str × Str))
  /-- The tree that `collapse_no_versions` leaves. -/
  | noSolution (tree : DerivationTree)
  | other (message : Str)

/-- `SolverError`. -/
inductive SolverError where
  | conflict (narration : Str)
  | versionUnknownConstrained (package : Str) (constrainers : List (Str × Str))

/-- What is asked for, beside the manifest. -/
structure ResolveOpts where
  prior : Option Lockfile
  strategy : Strategy
  strategyExplicit : Bool
  requireAttestedMetadata : Bool
  entryTrust : Option EntryTrust
  excludeNewer : Option Timestamp

/-- `features`, in their order, `no_default_features` and `all_features`. -/
structure FeatureSelection where
  features : List Str
  noDefaultFeatures : Bool
  allFeatures : Bool

/-- No selection. -/
def FeatureSelection.none : FeatureSelection := ⟨[], false, false⟩

/-- `has_cli_features`. -/
def FeatureSelection.given (sel : FeatureSelection) : Bool := !sel.features.isEmpty || sel.noDefaultFeatures || sel.allFeatures

/-- How PubGrub ends at the work on a provider. -/
structure Search where
  result : PubGrubResult
  state : ResolveState
  error : Option ResError

/-- What a resolve finds around it. -/
structure Host where
  index : Option Index
  depDeclStore : Option DepDeclStore
  fetch : Str → Transport → Except (Str × Str) (PackageTree × Receipt)
  /-- The directory of the root. -/
  rootTree : PackageTree
  /-- The directories of the members. -/
  memberTree : Str → PackageTree
  /-- `create_dir_all`: the message of its failure. -/
  createDirAll : Option Str
  /-- `pubgrub::resolve`; it may not end. -/
  pubgrub : ResolveCtx → Strategy → Bool → ResolveState → Option Search
  /-- `DefaultStringReporter`. -/
  report : DerivationTree → Str
  /-- `check_import_slot_collisions`, on the graph. -/
  checkImportSlots : List ResolvedDep → Except (Str × Str) Unit
  fuel : ℕ

/-- A computation that may fail, or never end. -/
abbrev Outcome (ε α : Type) := ExceptT ε Option α

/-- A step that ends. -/
instance {ε : Type} : MonadLift (Except ε) (Outcome ε) := ⟨fun x => ExceptT.mk (some x)⟩

variable (host : Host) (opts : ResolveOpts)

/-! ### The provider -/

/-- `effective_trust_policy`, without an override from the environment. -/
def effectiveTrustPolicy (manifestPolicy : TrustPolicy) (flag : Bool) : TrustPolicy :=
  if manifestPolicy = .off then .off else if flag then .strict else manifestPolicy

/-- What a resolve is given, without what the manifest or the workspace adds to it. -/
def Host.env (strictAttestation : Bool) : ResolveCtx where
  index := host.index.getD ⟨[]⟩
  overrides := []
  prior := opts.prior
  depDeclStore := host.depDeclStore
  strictAttestation := strictAttestation
  excludeNewer := opts.excludeNewer
  memberNames := []
  rootSelfName := none
  rootSelfVersion := none
  fetch := host.fetch

/-- `create_dir_all`. -/
def Host.makeDepsDir : Except ResError Unit :=
  match host.createDirAll with
  | some message => .error (.internalIo message)
  | none => .ok ()

/-- `Dep::Named`. -/
def isNamedDep : Dep → Bool
  | .named _ => true
  | _ => false

/-- The named dependencies that nothing but an index provides. -/
def unresolvable (deps : List Dep) (provided : List Str) : List Str :=
  (deps.filter fun d => isNamedDep d && decide (d.name ∉ provided)).map Dep.name

/-- The check that there is an index where one is needed. -/
def Host.checkIndex (names : List Str) (e : List Str → ResError) : Except ResError Unit :=
  rejectIf (host.index = none ∧ names ≠ []) (e names)

/-- A provider with its queue: what is strict, and what the root declares. -/
structure Provider where
  ctx : ResolveCtx
  config : Config
  strict : Bool
  rootAuthority : List Str

/-- `root_authority`, of a package. -/
def rootAuthorityOf (manifest : Manifest) : List Str :=
  (rootDeps manifest).map Dep.name ++ manifest.overrides.map Override.name ++ manifest.name.toList

/-- The effective policy of a package is strict. -/
def ResolveOpts.isStrict (manifest : Manifest) : Bool :=
  decide (effectiveTrustPolicy manifest.attestationPolicy opts.requireAttestedMetadata = .strict)

/-- `build_single_provider` and `seed_root`. -/
def buildSingleProvider (manifest : Manifest) : Except ResError Provider := do
  host.checkIndex (unresolvable (rootDeps manifest) (manifest.overrides.map Override.name)) .noIndex
  host.makeDepsDir
  let env := host.env opts (opts.isStrict manifest)
  let config ← startPackage env manifest host.rootTree
  return ⟨packageCtx env manifest host.rootTree, config, opts.isStrict manifest, rootAuthorityOf manifest⟩

/-- The checks on the overrides and the members of a workspace. -/
def checkWorkspace (workspace : LoadedWorkspace) : Except ResError Unit := do
  rejectIf (memberCollisions workspace ≠ []) (.overrideMemberCollision (sortByKey id ((memberCollisions workspace).map Override.name)))
  for m in workspace.members do
    for d in rootDeps m.manifest do
      match d with
      | .member md => rejectIf (md.name ∉ workspace.memberNames) (.memberRefUnknown m.name md.name)
      | _ => pure ()

/-- `workspace_any_member_strict`, or the flag. -/
def ResolveOpts.isWorkspaceStrict (workspace : LoadedWorkspace) : Bool :=
  (workspace.members.any fun m => decide (m.manifest.attestationPolicy = .strict)) || opts.requireAttestedMetadata

/-- What the filters leave of the members. -/
def memberView (profile : Option Profile) (cliSeed : Option (List Str)) : MemberView :=
  ⟨host.memberTree, fun m => filterManifest m.manifest (.build m.manifest profile cliSeed)⟩

/-- `root_authority`, of a workspace. -/
def workspaceAuthority (workspace : LoadedWorkspace) (view : MemberView) : List Str :=
  workspace.memberNames ++ workspace.overrides.map Override.name ++
    (workspace.members.flatMap fun m => rootDeps (view.filtered m)).map Dep.name

/-- The named dependencies of a workspace that nothing but an index provides. -/
def workspaceUnresolvable (workspace : LoadedWorkspace) : List Str :=
  unresolvable (workspace.members.flatMap fun m => rootDeps m.manifest) (workspace.overrides.map Override.name ++ workspace.memberNames)

/-! ### Running it -/

/-- The walk and the fixpoint, to the point where the solver decides: `process_items`, `run_s4a_fixpoint` and
`check_s4c_flag_conflicts`. -/
def exhaust (ctx : ResolveCtx) : ℕ → Config → Outcome ResError Config
  | 0, _ => ExceptT.mk none
  | n + 1, c =>
    match next ctx c with
    | .error e => throw e
    | .ok none => return c
    | .ok (some c) => exhaust ctx n c

/-- PubGrub at work on a provider. -/
def Host.search (p : Provider) (c : Config) : Outcome ResError Search :=
  ExceptT.mk ((host.pubgrub p.ctx opts.strategy opts.strategyExplicit c.state).map .ok)

/-- `solve`. -/
def solve : PubGrubResult → Except SolverError Solution
  | .solution selected => .ok selected
  | .versionUnknownConstrained package constrainers => .error (.versionUnknownConstrained package constrainers)
  | .noSolution tree => .error (.conflict (host.report tree))
  | .other message => .error (.conflict message)

/-- `solve_with_refutation`. -/
def solveWithRefutation : PubGrubResult → Except (SolverError × List RefutationEntry) Solution
  | .solution selected => .ok selected
  | .versionUnknownConstrained package constrainers => .error (.versionUnknownConstrained package constrainers, [])
  | .noSolution tree => .error (.conflict (host.report tree), extractRefutation tree)
  | .other message => .error (.conflict message, [])

/-- `version_unknown_constrained_err`. -/
def versionUnknownConstrainedErr (σ : ResolveState) (rootAuthority : List Str) (package : Str) (constrainers : List (Str × Str)) :
    ResError :=
  let pkg := shownName σ package
  .versionUnknownConstrained pkg (constrainers.map fun c => (shownName σ c.1, c.2)) (decide (pkg ∈ rootAuthority))

/-- `take_error`. -/
def takeError : Option ResError → Except ResError Unit
  | some e => .error e
  | none => .ok ()

/-- `get_or_materialize`, for a package of the solution. -/
def getOrMaterialize (ctx : ResolveCtx) (c : Config) (e : Str × Version) : Outcome ResError Config :=
  if e.1 = root then return c
  else do
    let (σ, items) ← query ctx c.state e.1 e.2
    exhaust ctx host.fuel { c with state := σ, tasks := [.gate (items.map fun item => (.transitive, item)) []] }

/-- `finalize`, with the error that it may capture. -/
def finalizeSolved (p : Provider) (c : Config) (σ : ResolveState) (solution : Solution) :
    Outcome ResError (ResolveState × BTreeMap Str (List Str)) := do
  let c ← solution.entries.foldlM (getOrMaterialize host p.ctx) { c with state := σ }
  return finalize c.state solution

/-- `check_import_slot_collisions`. -/
def Host.checkImportSlotCollisions (graph : List ResolvedDep) : Except ResError Unit :=
  match host.checkImportSlots graph with
  | .error (code, message) => .error (.importSlot code message)
  | .ok () => .ok ()

/-! ### Certificates -/

/-- `WitnessEntry`. -/
structure WitnessEntry where
  package : Str
  version : Str
  constraint : Str
  satisfiedBy : Str
  deriving DecidableEq, Repr

/-- `SuccessCert`. -/
structure SuccessCert where
  resolved : List (Str × Str)
  witness : List WitnessEntry
  deriving DecidableEq, Repr

/-- `FailureCert`. -/
structure FailureCert where
  message : Str
  refutation : List RefutationEntry
  deriving DecidableEq, Repr

/-- The order of the witness. -/
def witnessKey (w : WitnessEntry) : Str ×ₗ Str := toLex (w.package, w.satisfiedBy)

/-- The witnesses of a package: its terms on packages of the solution. -/
def witnessesOf (σ : ResolveState) (solution : Solution) (depender : Str) : List WitnessEntry :=
  (((picked σ solution depender).map Candidate.deps).getD []).filterMap fun dep =>
    (solution.get? dep.package.identity).map fun v => ⟨dep.package.identity, v.display, dep.constraint.toConstraintStr, depender⟩

/-- `build_success_cert`. -/
def buildSuccessCert (σ : ResolveState) (solution : Solution) : SuccessCert :=
  { resolved := solution.entries.map fun e => (e.1, e.2.display)
    witness := sortByKey witnessKey (solution.keys.flatMap (witnessesOf σ solution)).reverse.dedup.reverse }

/-- The name of a package in a certificate. -/
def certName (σ : ResolveState) (package : Str) : Str := if package = root then package else shownName σ package

/-- `project_success_cert`. -/
def projectSuccessCert (σ : ResolveState) (cert : SuccessCert) : SuccessCert :=
  { resolved := sortByKey Prod.fst (cert.resolved.map fun r => (certName σ r.1, r.2))
    witness := sortByKey witnessKey (cert.witness.map fun w =>
      { w with package := certName σ w.package, satisfiedBy := certName σ w.satisfiedBy }) }

/-- `project_refutation`. -/
def projectRefutation (σ : ResolveState) (refutation : List RefutationEntry) : List RefutationEntry :=
  refutation.map fun e => { e with package := certName σ e.package }

/-- The certificate of a failure that is not one of the solver. -/
def FailureCert.empty : FailureCert := ⟨[], []⟩

/-- A step of an entry point with a certificate. -/
def noCert {α : Type} (x : Outcome ResError α) : Outcome (ResError × FailureCert) α := x.adapt fun e => (e, FailureCert.empty)

/-! ### The tails of the entry points -/

/-- `resolve_with_features` and `resolve_workspace_inner`, after PubGrub has found a solution. -/
def conclude (p : Provider) (c : Config) (search : Search) (solution : Solution) : Outcome ResError (List ResolvedDep) := do
  takeError search.error
  let (σ, aliases) ← finalizeSolved host p c search.state solution
  enforceAttestationPolicyStrict σ p.strict
  let graph ← buildGraph σ solution opts.entryTrust aliases
  host.checkImportSlotCollisions graph
  return graph

/-- `resolve_with_cert` and `resolve_workspace_with_cert`, after PubGrub has found a solution. -/
def concludeWithCert (p : Provider) (c : Config) (search : Search) (solution : Solution) :
    Outcome (ResError × FailureCert) (List ResolvedDep × SuccessCert) := do
  noCert (takeError search.error)
  let (σ, aliases) ← noCert (finalizeSolved host p c search.state solution)
  noCert (enforceAttestationPolicyStrict σ p.strict)
  let cert := projectSuccessCert σ (buildSuccessCert σ solution)
  let graph ← noCert (buildGraph σ solution opts.entryTrust aliases)
  noCert (host.checkImportSlotCollisions graph)
  return (graph, cert)

/-- What the plain entry points do with a provider. -/
def runProvider (p : Provider) : Outcome ResError (List ResolvedDep) := do
  let c ← exhaust p.ctx host.fuel p.config
  let search ← host.search opts p c
  match solve host search.result with
  | .ok solution => conclude host opts p c search solution
  | .error (.versionUnknownConstrained package constrainers) =>
    throw (versionUnknownConstrainedErr search.state p.rootAuthority package constrainers)
  | .error (.conflict narration) => throw (.solveConflict narration)

/-- What the entry points with a certificate do with a provider. -/
def runProviderWithCert (p : Provider) : Outcome (ResError × FailureCert) (List ResolvedDep × SuccessCert) := do
  let c ← noCert (exhaust p.ctx host.fuel p.config)
  let search ← noCert (host.search opts p c)
  match solveWithRefutation host search.result with
  | .ok solution => concludeWithCert host opts p c search solution
  | .error (.versionUnknownConstrained package constrainers, _) =>
    throw (versionUnknownConstrainedErr search.state p.rootAuthority package constrainers, FailureCert.empty)
  | .error (.conflict narration, refutation) =>
    throw (.solveConflict narration, ⟨narration, projectRefutation search.state refutation⟩)

/-! ### A package -/

/-- The features that a selection makes active: `cli_seed`, and `ws_cli_seed`. -/
def cliSeed (flags : List FlagDecl) (sel : FeatureSelection) : List Str :=
  if sel.allFeatures then flags.map FlagDecl.name
  else if sel.noDefaultFeatures then sel.features
  else defaultSeed flags ++ sel.features

/-- The check that the features are declared. -/
def checkFeatures (flags : List FlagDecl) (sel : FeatureSelection) (e : Str → ResError) : Except ResError Unit :=
  match sel.features.find? fun f => decide (f ∉ flags.map FlagDecl.name) with
  | some f => .error (e f)
  | none => .ok ()

/-- `root_cli_active_map`. -/
def rootCliActiveMap (flags : List FlagDecl) (seed : List Str) : ActiveFlags :=
  ((flagEnablesClosure flags seed).filter fun f => decide (f ∉ seed)).foldl (fun m f => m.activate f .enablesRule)
    (seed.foldl (fun m f => m.activate f .cli) BTreeMap.empty)

/-- The check on the features of the root. -/
def checkRootFlags (manifest : Manifest) (seed : List Str) : Except ResError Unit :=
  if seed.isEmpty || manifest.flags.isEmpty then .ok ()
  else raiseIfFlagConflicts (manifest.name.getD root) manifest.flags (rootCliActiveMap manifest.flags seed)

/-- The checks on a selection of features, and what it makes active. -/
def selectFeatures (manifest : Manifest) (sel : FeatureSelection) : Except ResError (Option (List Str)) :=
  if sel.given then do
    checkFeatures manifest.flags sel .featureUndeclared
    checkRootFlags manifest (cliSeed manifest.flags sel)
    return some (cliSeed manifest.flags sel)
  else .ok none

/-- The filter of `resolve_with_features`: without a profile, only for selected features. -/
def filterWithFeatures (manifest : Manifest) (profile : Option Profile) (seed : Option (List Str)) : Manifest :=
  match profile, seed with
  | some p, _ => filterManifest manifest (.build manifest (some p) seed)
  | none, some seed => retainDeps (depPassesFlagPredicates · (flagEnablesClosure manifest.flags seed)) manifest
  | none, none => manifest

/-- The filter of `resolve_with_cert`. -/
def filterWithCert (manifest : Manifest) (profile : Option Profile) : Manifest :=
  filterManifest manifest (.build manifest profile none)

/-- `resolve_with_features`. -/
def resolveWithFeatures (manifest : Manifest) (profile : Option Profile) (sel : FeatureSelection) :
    Outcome ResError (List ResolvedDep) := do
  let seed ← selectFeatures manifest sel
  let p ← buildSingleProvider host opts (filterWithFeatures manifest profile seed)
  runProvider host opts p

/-- `resolve_with_cert`. -/
def resolveWithCert (manifest : Manifest) (profile : Option Profile) :
    Outcome (ResError × FailureCert) (List ResolvedDep × SuccessCert) := do
  let p ← noCert (buildSingleProvider host opts (filterWithCert manifest profile))
  runProviderWithCert host opts p

/-! ### A workspace -/

/-- `ws_cli_seed`. -/
def selectWorkspaceFeatures (workspace : LoadedWorkspace) (sel : FeatureSelection) : Except ResError (Option (List Str)) :=
  if sel.given then do
    checkFeatures workspace.flags sel .workspaceFeatureUndeclared
    return some (cliSeed workspace.flags sel)
  else .ok none

/-- The provider of a workspace, whose members were filtered. -/
def workspaceProvider (workspace : LoadedWorkspace) (view : MemberView) (config : Config) : Provider :=
  ⟨workspaceCtx (host.env opts (opts.isWorkspaceStrict workspace)) workspace, config, opts.isWorkspaceStrict workspace,
    workspaceAuthority workspace view⟩

/-- `seed_workspace`, as a configuration. -/
def seedConfig (workspace : LoadedWorkspace) (view : MemberView) (binding : BindingResolver) : Except ResError Config := do
  let (σ, queue) ← seedWorkspace (workspaceCtx (host.env opts (opts.isWorkspaceStrict workspace)) workspace) binding workspace view
  return Config.start σ queue

/-- `resolve_workspace_inner`. -/
def resolveWorkspaceInner (workspace : LoadedWorkspace) (profile : Option Profile) (seed : Option (List Str)) :
    Outcome ResError (List ResolvedDep) := do
  checkWorkspace workspace
  host.checkIndex (workspaceUnresolvable workspace) .workspaceNoIndex
  host.makeDepsDir
  let binding ← buildWorkspaceBindingResolver workspace (host.index.getD ⟨[]⟩)
  let config ← seedConfig host opts workspace (memberView host profile seed) binding
  runProvider host opts (workspaceProvider host opts workspace (memberView host profile seed) config)

/-- `resolve_workspace_with_features`. -/
def resolveWorkspaceWithFeatures (workspace : LoadedWorkspace) (profile : Option Profile) (sel : FeatureSelection) :
    Outcome ResError (List ResolvedDep) := do
  let seed ← selectWorkspaceFeatures workspace sel
  resolveWorkspaceInner host opts workspace profile seed

/-- `resolve_workspace_with_cert`. -/
def resolveWorkspaceWithCert (workspace : LoadedWorkspace) (profile : Option Profile) (sel : FeatureSelection) :
    Outcome (ResError × FailureCert) (List ResolvedDep × SuccessCert) := do
  let seed ← noCert (selectWorkspaceFeatures workspace sel)
  noCert (checkWorkspace workspace)
  noCert (host.checkIndex (workspaceUnresolvable workspace) .workspaceNoIndex)
  noCert host.makeDepsDir
  let binding ← noCert (buildWorkspaceBindingResolver workspace (host.index.getD ⟨[]⟩))
  let config ← noCert (seedConfig host opts workspace (memberView host profile seed) binding)
  runProviderWithCert host opts (workspaceProvider host opts workspace (memberView host profile seed) config)

end Milpa.Core.Resolver

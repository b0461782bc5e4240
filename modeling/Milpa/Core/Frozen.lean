import Milpa.Core.DepsView
import Milpa.Core.FrozenSources
import Milpa.Solver.ParseVersion

/-!
# Frozen resolves

`resolve_frozen` and `resolve_workspace_frozen` of `frozen.rs`: a graph is made of a
lockfile and of what is in the store, without a fetch and without a solver, and `_deps/` is
rebuilt from it. A lockfile that does not fit what the root declares, or the store, is
refused (`resolveFrozen_eq_ok`).
-/

namespace Milpa

/-- `Strategy::as_str`. -/
def Strategy.asStr : Strategy → Str
  | .maxver => "maxver"
  | .minver => "minver"
  | .semver => "semver"
  | .lowestDirect => "lowest-direct"

theorem Strategy.asStr_injective : Function.Injective Strategy.asStr := fun a b h => by
  cases a <;> cases b <;> first | rfl | exact absurd h (by decide)

namespace Core.Frozen

open DepsView (DepsDir StoreTrees rebuildDepsView)
open ImportSlot (ImportCollision SymbolProvider checkImportSlotCollisions)
open Solver (parseVersion)

/-- The errors of `frozen.rs`. -/
inductive FrozenError where
  /-- `FROZEN-STRATEGY-MISMATCH`. -/
  | strategyMismatch (locked requested : Str)
  /-- `FROZEN-EXCLUDE-NEWER-MISMATCH`. -/
  | excludeNewerMismatch (recorded requested : Option Timestamp)
  /-- `FROZEN-MANIFEST-DEP-NOT-IN-LOCK`. -/
  | manifestDepNotInLock (key : Str)
  /-- `FROZEN-LOCKED-VERSION-UNPARSEABLE`. -/
  | lockedVersionUnparseable (name version : Str)
  /-- `FROZEN-CONSTRAINT-UNSATISFIED`. -/
  | constraintUnsatisfied (name version constraint : Str)
  /-- An error of the check of sources. -/
  | source (e : FrozenSourceError)
  /-- `FROZEN-IDENTITY-NOT-IN-STORE`: `cannot create deps dir`. -/
  | noDepsDir
  /-- `FROZEN-MEMBER-DEP`. -/
  | memberDep (name : Str)
  /-- `FROZEN-LOCAL-DEP`. -/
  | localDep (name : Str)
  /-- `FROZEN-MEMBER-NOT-IN-WORKSPACE`. -/
  | memberNotInWorkspace (name : Str)
  /-- `FROZEN-MEMBER-IDENTITY-DRIFT`. -/
  | memberIdentityDrift (name : Str)
  /-- An error of `compute_content_hash`. -/
  | memberHash (e : HashError)
  /-- `FROZEN-IDENTITY-NOT-IN-STORE`. -/
  | identityNotInStore (name identity : Str)
  /-- `FROZEN-IDENTITY-NOT-IN-STORE`: `lockfile entry has no provenance record`. -/
  | noRecord (name : Str)
  /-- An error of the check of import slots. -/
  | importSlot (e : ImportCollision)

/-! ### Preconditions -/

/-- `frozen_baseline_strategy`. -/
def frozenBaselineStrategy (resolution : Option Resolution) : Strategy := (resolution.bind Resolution.strategy).getD .maxver

/-- `check_strategy`. -/
def checkStrategy (strategy : Strategy) (lock : Lockfile) : Except FrozenError Unit :=
  rejectIf (strategy.asStr ≠ lock.strategy) (.strategyMismatch lock.strategy strategy.asStr)

/-- `frozen_baseline_exclude_newer`. -/
def frozenBaselineExcludeNewer (resolution : Option Resolution) : Option Timestamp := resolution.bind Resolution.excludeNewer

/-- `check_exclude_newer`. -/
def checkExcludeNewer (baseline : Option Timestamp) (lock : Lockfile) : Except FrozenError Unit :=
  rejectIf (baseline ≠ lock.excludeNewer) (.excludeNewerMismatch lock.excludeNewer baseline)

/-- `find_locked`: under a qualified name, or under a bare name or an alias. -/
def findLocked (lock : Lockfile) (name : Str) («namespace» : Option Str) : Option LockedDep :=
  if «namespace».isSome then lock.deps.find? fun d => decide (d.name = name ∧ d.namespace = «namespace»)
  else lock.deps.find? fun d => decide (d.name = name ∧ d.namespace = none ∨ name ∈ d.aliases)

/-- The constraint of a named dependency, against what is locked. -/
def checkConstraint (d : Dep) (locked : LockedDep) : Except FrozenError Unit :=
  match d with
  | .named n =>
    match n.parsedConstraint with
    | some vset =>
      match parseVersion locked.version with
      | some version =>
        rejectIf (vset.contains version = false) (.constraintUnsatisfied n.name locked.version (n.constraint.getD "any"))
      | none => .error (.lockedVersionUnparseable n.name locked.version)
    | none => .ok ()
  | _ => .ok ()

/-- One round of the loop over the declarations. -/
def checkDeclared (lock : Lockfile) (d : Dep) : Except FrozenError Unit :=
  match findLocked lock d.name d.namespace? with
  | some locked => checkConstraint d locked
  | none => .error (.manifestDepNotInLock (depDirName d.name d.namespace?))

/-- `check_manifest_alignment`. -/
def checkManifestAlignment (manifest : Manifest) (lock : Lockfile) : Except FrozenError Unit :=
  (rootDeps manifest).forM (checkDeclared lock)

/-! ### Nodes -/

/-- A node with the version that is parsed. -/
def nodeAt (locked : LockedDep) (version : Version) : ResolvedDep where
  name := locked.name
  «namespace» := locked.namespace
  identity := locked.identity.getD []
  version := version
  srcDir := locked.srcDir
  requires := locked.requires
  provenances := locked.provenances
  depDecl := locked.depDecl
  condRequires := []
  aliases := locked.aliases
  activeFlags := locked.activeFlags
  attestation := locked.attestation.map fun a => ⟨a.kind, a.rekor, a.bundlePin⟩
  declaredVersionSource := locked.declaredVersionSource
  sourceId := locked.sourceId

/-- `resolved_from_locked`. -/
def resolvedFromLocked (locked : LockedDep) : Except FrozenError ResolvedDep :=
  match parseVersion locked.version with
  | some version => if locked.provenances = [] then .error (.noRecord locked.name) else .ok (nodeAt locked version)
  | none => .error (.lockedVersionUnparseable locked.name locked.version)

/-- What is on the disk: the store with its trees, the trees of the members, what the packages provide, and whether
`_deps/` is there or can be made. -/
structure Disk where
  store : CaStore
  trees : StoreTrees
  memberTree : Str → DiskTree
  provider : SymbolProvider
  depsDirMade : Bool

/-- `contains`, of an identity that may be missing. -/
def Disk.inStore (disk : Disk) (identity : Option Str) : Bool :=
  match identity with
  | some id => !id.isEmpty && ((disk.store.pathFor id).toOption.bind disk.trees).isSome
  | none => false

/-- The check of the store. -/
def checkInStore (disk : Disk) (locked : LockedDep) : Except FrozenError Unit :=
  rejectIf (disk.inStore locked.identity = false) (.identityNotInStore locked.name (locked.identity.getD "<none>"))

/-- What `resolve_frozen` asks of the first record of a dependency. -/
def checkRecord (disk : Disk) (locked : LockedDep) : Except FrozenError Unit :=
  match locked.provenances.head? with
  | some (.member ..) => .error (.memberDep locked.name)
  | some (.local ..) => .error (.localDep locked.name)
  | some (.root ..) => .ok ()
  | _ => checkInStore disk locked

/-- The check of a member. -/
def checkMember (disk : Disk) (workspace : LoadedWorkspace) (locked : LockedDep) (name : Str) : Except FrozenError Unit := do
  rejectIf (name ∉ workspace.memberNames) (.memberNotInWorkspace name)
  let actual ← (computeContentHash (disk.memberTree name)).mapError .memberHash
  rejectIf (some actual ≠ locked.identity) (.memberIdentityDrift name)

/-- What `resolve_workspace_frozen` asks of it. -/
def checkWorkspaceRecord (disk : Disk) (workspace : LoadedWorkspace) (locked : LockedDep) : Except FrozenError Unit :=
  match locked.provenances.head? with
  | some (.member name _) => checkMember disk workspace locked name
  | some (.local ..) => .error (.localDep locked.name)
  | some (.root ..) => .ok ()
  | _ => checkInStore disk locked

/-- One round of the loop over the lockfile, with the check of the record. -/
def resolveLocked (check : LockedDep → Except FrozenError Unit) (locked : LockedDep) : Except FrozenError ResolvedDep := do
  check locked
  resolvedFromLocked locked

/-- What both resolves do after their preconditions: the nodes, the check of the graph, and the view. -/
def rebuild (disk : Disk) (check : LockedDep → Except FrozenError Unit) (lock : Lockfile) (deps : DepsDir) :
    Except FrozenError (List ResolvedDep × DepsDir) := do
  rejectIf (disk.depsDirMade = false) .noDepsDir
  let graph ← lock.deps.mapM (resolveLocked check)
  (checkImportSlotCollisions disk.provider (some disk.store) graph).mapError .importSlot
  return (graph, rebuildDepsView disk.store disk.trees graph deps)

/-- `resolve_frozen`: the graph, and what is in `_deps/` afterwards. -/
def resolveFrozen (disk : Disk) (manifest : Manifest) (lock : Lockfile) (deps : DepsDir) :
    Except FrozenError (List ResolvedDep × DepsDir) := do
  checkStrategy (frozenBaselineStrategy manifest.resolution) lock
  checkExcludeNewer (frozenBaselineExcludeNewer manifest.resolution) lock
  checkManifestAlignment manifest lock
  (checkSourceIdPreconditionsStandalone manifest lock.deps).mapError .source
  rebuild disk (checkRecord disk) lock deps

/-- `resolve_workspace_frozen`. -/
def resolveWorkspaceFrozen (disk : Disk) (workspace : LoadedWorkspace) (resolution : Option Resolution) (lock : Lockfile)
    (deps : DepsDir) : Except FrozenError (List ResolvedDep × DepsDir) := do
  checkStrategy (frozenBaselineStrategy resolution) lock
  checkExcludeNewer (frozenBaselineExcludeNewer resolution) lock
  workspace.members.forM fun m => checkManifestAlignment m.manifest lock
  (checkSourceIdPreconditionsWorkspace workspace lock.deps).mapError .source
  rebuild disk (checkWorkspaceRecord disk workspace) lock deps

/-! ### What is accepted -/

/-- The constraint of a declaration. -/
def constraintOf : Dep → Option Solver.VersionSet
  | .named n => n.parsedConstraint
  | _ => none

/-- A declaration has an entry in the lockfile, whose version is in the constraint that is declared. -/
def Held (lock : Lockfile) (d : Dep) : Prop :=
  ∃ locked, findLocked lock d.name d.namespace? = some locked ∧
    ∀ vset ∈ constraintOf d, ∃ v, parseVersion locked.version = some v ∧ vset.contains v = true

theorem checkConstraint_eq_ok {d : Dep} {locked : LockedDep} : checkConstraint d locked = .ok () ↔
    ∀ vset ∈ constraintOf d, ∃ v, parseVersion locked.version = some v ∧ vset.contains v = true := by
  unfold checkConstraint constraintOf
  cases d with
  | named n =>
    dsimp only
    cases n.parsedConstraint with
    | none => simp
    | some vset => cases parseVersion locked.version <;> simp
  | _ => simp

theorem checkDeclared_eq_ok {lock : Lockfile} {d : Dep} : checkDeclared lock d = .ok () ↔ Held lock d := by
  unfold checkDeclared Held
  cases findLocked lock d.name d.namespace? with
  | none => simp
  | some locked => simp [checkConstraint_eq_ok]

theorem checkManifestAlignment_eq_ok {manifest : Manifest} {lock : Lockfile} :
    checkManifestAlignment manifest lock = .ok () ↔ ∀ d ∈ rootDeps manifest, Held lock d := by
  rw [checkManifestAlignment, Result.forM_eq_ok]
  exact forall₂_congr fun d _ => checkDeclared_eq_ok

/-- A node is made of a dependency that has a record and a version that is parsed. -/
def Restores (locked : LockedDep) (d : ResolvedDep) : Prop :=
  locked.provenances ≠ [] ∧ ∃ v, parseVersion locked.version = some v ∧ d = nodeAt locked v

theorem resolvedFromLocked_eq_ok {locked : LockedDep} {d : ResolvedDep} : resolvedFromLocked locked = .ok d ↔ Restores locked d := by
  unfold resolvedFromLocked Restores
  cases parseVersion locked.version with
  | none => simp
  | some v =>
    dsimp only
    split_ifs with h
    · simp [h]
    · simp [h, eq_comm]

theorem mapM_eq_ok_iff {ε α β : Type} {f : α → Except ε β} {l : List α} {r : List β} :
    l.mapM f = .ok r ↔ List.Forall₂ (fun a b => f a = .ok b) l r := by
  induction l generalizing r with
  | nil => simp [Result.pure_eq_ok]
  | cons a l ih =>
    simp only [List.mapM_cons, Result.bind_eq_ok, Result.pure_eq_ok, List.forall₂_cons_left_iff]
    constructor
    · rintro ⟨b, hb, bs, hbs, rfl⟩
      exact ⟨b, bs, hb, ih.mp hbs, rfl⟩
    · rintro ⟨b, bs, hb, hbs, rfl⟩
      exact ⟨b, hb, bs, ih.mpr hbs, rfl⟩

/-- A lockfile that is made into a graph, with the view that is left of it. -/
structure Rebuilt (disk : Disk) (check : LockedDep → Except FrozenError Unit) (lock : Lockfile) (deps : DepsDir)
    (graph : List ResolvedDep) (deps' : DepsDir) : Prop where
  made : disk.depsDirMade = true
  checked : ∀ locked ∈ lock.deps, check locked = .ok ()
  nodes : List.Forall₂ Restores lock.deps graph
  slots : checkImportSlotCollisions disk.provider (some disk.store) graph = .ok ()
  view : deps' = rebuildDepsView disk.store disk.trees graph deps

theorem rebuild_eq_ok {disk : Disk} {check : LockedDep → Except FrozenError Unit} {lock : Lockfile} {deps deps' : DepsDir}
    {graph : List ResolvedDep} : rebuild disk check lock deps = .ok (graph, deps') ↔ Rebuilt disk check lock deps graph deps' := by
  have hnode : ∀ locked d, resolveLocked check locked = .ok d ↔ check locked = .ok () ∧ Restores locked d := fun locked d => by
    rw [resolveLocked, Result.bind_eq_ok]
    simp only [Unique.exists_iff, resolvedFromLocked_eq_ok]
  have hnodes : ∀ graph, lock.deps.mapM (resolveLocked check) = .ok graph ↔
      (∀ locked ∈ lock.deps, check locked = .ok ()) ∧ List.Forall₂ Restores lock.deps graph := fun graph => by
    rw [mapM_eq_ok_iff, ← List.forall₂_and_left]
    exact ⟨fun h => h.imp fun locked d => (hnode locked d).mp, fun h => h.imp fun locked d => (hnode locked d).mpr⟩
  rw [rebuild]
  constructor
  · intro h
    obtain ⟨_, hmade, h⟩ := Result.bind_eq_ok.mp h
    obtain ⟨graph', hgraph, h⟩ := Result.bind_eq_ok.mp h
    obtain ⟨_, hslots, h⟩ := Result.bind_eq_ok.mp h
    obtain ⟨rfl, rfl⟩ := Prod.mk.inj (Result.pure_eq_ok.mp h)
    obtain ⟨hchecked, hrestored⟩ := (hnodes _).mp hgraph
    exact ⟨by simpa using rejectIf_eq_ok.mp hmade, hchecked, hrestored, Result.mapError_eq_ok.mp hslots, rfl⟩
  · rintro ⟨hmade, hchecked, hrestored, hslots, rfl⟩
    refine Result.bind_eq_ok.mpr ⟨(), rejectIf_eq_ok.mpr (by simp [hmade]), ?_⟩
    refine Result.bind_eq_ok.mpr ⟨graph, (hnodes _).mpr ⟨hchecked, hrestored⟩, ?_⟩
    exact Result.bind_eq_ok.mpr ⟨(), Result.mapError_eq_ok.mpr hslots, rfl⟩

/-- What `resolve_frozen` takes: the lockfile was written under what the manifest says of the resolve, has every declared dependency,
and the sources that are declared, and is made into a graph. -/
structure Accepts (disk : Disk) (manifest : Manifest) (lock : Lockfile) (deps : DepsDir) (graph : List ResolvedDep)
    (deps' : DepsDir) : Prop where
  strategy : lock.strategy = (frozenBaselineStrategy manifest.resolution).asStr
  excludeNewer : lock.excludeNewer = frozenBaselineExcludeNewer manifest.resolution
  held : ∀ d ∈ rootDeps manifest, Held lock d
  sources : checkSourceIdPreconditionsStandalone manifest lock.deps = .ok ()
  rebuilt : Rebuilt disk (checkRecord disk) lock deps graph deps'

/-- What `resolve_workspace_frozen` takes. -/
structure WorkspaceAccepts (disk : Disk) (workspace : LoadedWorkspace) (resolution : Option Resolution) (lock : Lockfile)
    (deps : DepsDir) (graph : List ResolvedDep) (deps' : DepsDir) : Prop where
  strategy : lock.strategy = (frozenBaselineStrategy resolution).asStr
  excludeNewer : lock.excludeNewer = frozenBaselineExcludeNewer resolution
  held : ∀ m ∈ workspace.members, ∀ d ∈ rootDeps m.manifest, Held lock d
  sources : checkSourceIdPreconditionsWorkspace workspace lock.deps = .ok ()
  rebuilt : Rebuilt disk (checkWorkspaceRecord disk workspace) lock deps graph deps'

theorem checkStrategy_eq_ok {strategy : Strategy} {lock : Lockfile} : checkStrategy strategy lock = .ok () ↔ lock.strategy = strategy.asStr := by
  rw [checkStrategy, rejectIf_eq_ok, not_not, eq_comm]

theorem checkExcludeNewer_eq_ok {baseline : Option Timestamp} {lock : Lockfile} :
    checkExcludeNewer baseline lock = .ok () ↔ lock.excludeNewer = baseline := by
  rw [checkExcludeNewer, rejectIf_eq_ok, not_not, eq_comm]

theorem resolveFrozen_eq_ok {disk : Disk} {manifest : Manifest} {lock : Lockfile} {deps deps' : DepsDir} {graph : List ResolvedDep} :
    resolveFrozen disk manifest lock deps = .ok (graph, deps') ↔ Accepts disk manifest lock deps graph deps' := by
  have hsteps : resolveFrozen disk manifest lock deps = .ok (graph, deps') ↔
      checkStrategy (frozenBaselineStrategy manifest.resolution) lock = .ok () ∧
        checkExcludeNewer (frozenBaselineExcludeNewer manifest.resolution) lock = .ok () ∧ checkManifestAlignment manifest lock = .ok () ∧
          checkSourceIdPreconditionsStandalone manifest lock.deps = .ok () ∧
            rebuild disk (checkRecord disk) lock deps = .ok (graph, deps') := by
    simp only [resolveFrozen, Result.bind_eq_ok, Unique.exists_iff, Result.mapError_eq_ok]
  rw [hsteps, checkStrategy_eq_ok, checkExcludeNewer_eq_ok, checkManifestAlignment_eq_ok, rebuild_eq_ok]
  exact ⟨fun ⟨hs, he, hd, hc, hr⟩ => ⟨hs, he, hd, hc, hr⟩, fun ⟨hs, he, hd, hc, hr⟩ => ⟨hs, he, hd, hc, hr⟩⟩

theorem resolveWorkspaceFrozen_eq_ok {disk : Disk} {workspace : LoadedWorkspace} {resolution : Option Resolution} {lock : Lockfile}
    {deps deps' : DepsDir} {graph : List ResolvedDep} :
    resolveWorkspaceFrozen disk workspace resolution lock deps = .ok (graph, deps') ↔
      WorkspaceAccepts disk workspace resolution lock deps graph deps' := by
  have hsteps : resolveWorkspaceFrozen disk workspace resolution lock deps = .ok (graph, deps') ↔
      checkStrategy (frozenBaselineStrategy resolution) lock = .ok () ∧
        checkExcludeNewer (frozenBaselineExcludeNewer resolution) lock = .ok () ∧
          (workspace.members.forM fun m => checkManifestAlignment m.manifest lock) = .ok () ∧
            checkSourceIdPreconditionsWorkspace workspace lock.deps = .ok () ∧
              rebuild disk (checkWorkspaceRecord disk workspace) lock deps = .ok (graph, deps') := by
    simp only [resolveWorkspaceFrozen, Result.bind_eq_ok, Unique.exists_iff, Result.mapError_eq_ok]
  rw [hsteps, checkStrategy_eq_ok, checkExcludeNewer_eq_ok, Result.forM_eq_ok, rebuild_eq_ok]
  simp only [checkManifestAlignment_eq_ok]
  exact ⟨fun ⟨hs, he, hd, hc, hr⟩ => ⟨hs, he, hd, hc, hr⟩, fun ⟨hs, he, hd, hc, hr⟩ => ⟨hs, he, hd, hc, hr⟩⟩

end Core.Frozen

end Milpa

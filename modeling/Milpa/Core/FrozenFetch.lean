import Milpa.Core.Frozen
import Milpa.Core.FrozenFlags
import Milpa.Core.StoreRuns

/-!
# Frozen fetches

`cmd_fetch` with `--frozen`: the lockfile is read, its names are held against the selected
features, a graph is made of it, and the lockfile of that graph is written in its place.
What is written is the lockfile that was read just where nothing in it is conditional and
the command line does not override the strategy and the time bound that the root declares
(`frozen_fetch_keeps_lock_iff`); and one fetch after another is accepted just where no
fetch but the last overrides them (`frozen_fetches_iff`).
-/

namespace Milpa.Core.Frozen

open DepsView (DepsDir rebuildDepsView)
open Kdl (KdlNode Conforms)
open Resolver (FeatureSelection FrozenFlagsError checkFrozenActiveFlagsMismatch hasFlagPred cliSeed defaultSeed flagEnablesClosure)
open Solver (parseVersion)

/-! ### The features of a workspace -/

/-- `FROZEN-ACTIVE-FLAGS-MISMATCH`, in a workspace. -/
inductive WorkspaceFlagsError where
  | featureUndeclared (feature : Str)
  | mismatch (memberName depName : Str)
  deriving DecidableEq, Repr

/-- `ws_cli_seed`: nothing where the command line selects nothing and no flag of the workspace is on by default. -/
def workspaceSeed (flags : List FlagDecl) (sel : FeatureSelection) : Option (List Str) :=
  if sel.given then some (cliSeed flags sel)
  else if defaultSeed flags = [] then none else some (defaultSeed flags)

/-- `member_active`. -/
def memberActive (manifest : Manifest) (seed : Option (List Str)) : List Str :=
  flagEnablesClosure manifest.flags (seed.getD (defaultSeed manifest.flags))

/-- `check_workspace_frozen_active_flags_mismatch`. -/
def checkWorkspaceFrozenActiveFlagsMismatch (workspace : LoadedWorkspace) (lock : Lockfile) (sel : FeatureSelection) :
    Except WorkspaceFlagsError Unit :=
  match sel.features.find? fun f => decide (f ∉ workspace.flags.map FlagDecl.name) with
  | some f => .error (.featureUndeclared f)
  | none =>
    let lockedNames := lock.deps.map LockedDep.name
    workspace.members.forM fun m =>
      let active := memberActive m.manifest (workspaceSeed workspace.flags sel)
      match (rootDeps m.manifest).find? fun dep =>
          hasFlagPred dep && decide (depPassesFlagPredicates dep active ≠ decide (dep.name ∈ lockedNames)) with
      | some dep => .error (.mismatch m.name dep.name)
      | none => .ok ()

/-! ### The command -/

/-- `resolve_effective_strategy`, with its default. -/
def effectiveStrategy (cli : Option Strategy) (resolution : Option Resolution) : Strategy :=
  (cli.or (resolution.bind Resolution.strategy)).getD .maxver

/-- `resolve_effective_exclude_newer`. -/
def effectiveExcludeNewer (cli : Option Timestamp) (resolution : Option Resolution) (prior : Option Lockfile) : Option Timestamp :=
  (cli.or (resolution.bind Resolution.excludeNewer)).or (prior.bind Lockfile.excludeNewer)

/-- The root of a frozen fetch: what it says of a resolve, and what it asks of a lockfile. -/
structure Root where
  resolution : Option Resolution
  checkFlags : Lockfile → FeatureSelection → Except (FrozenFlagsError ⊕ WorkspaceFlagsError) Unit
  checkLock : Lockfile → Except FrozenError Unit
  checkRecord : LockedDep → Except FrozenError Unit

/-- A package. -/
def packageRoot (disk : Disk) (manifest : Manifest) : Root where
  resolution := manifest.resolution
  checkFlags lock sel := (checkFrozenActiveFlagsMismatch manifest lock sel).mapError .inl
  checkLock lock := do
    checkManifestAlignment manifest lock
    (checkSourceIdPreconditionsStandalone manifest lock.deps).mapError .source
  checkRecord := checkRecord disk

/-- A workspace. -/
def workspaceRoot (disk : Disk) (workspace : LoadedWorkspace) (resolution : Option Resolution) : Root where
  resolution := resolution
  checkFlags lock sel := (checkWorkspaceFrozenActiveFlagsMismatch workspace lock sel).mapError .inr
  checkLock lock := do
    workspace.members.forM fun m => checkManifestAlignment m.manifest lock
    (checkSourceIdPreconditionsWorkspace workspace lock.deps).mapError .source
  checkRecord := checkWorkspaceRecord disk workspace

/-- The frozen resolve of a root. -/
def Root.resolve (root : Root) (disk : Disk) (lock : Lockfile) (deps : DepsDir) : Except FrozenError (List ResolvedDep × DepsDir) := do
  checkStrategy (frozenBaselineStrategy root.resolution) lock
  checkExcludeNewer (frozenBaselineExcludeNewer root.resolution) lock
  root.checkLock lock
  rebuild disk root.checkRecord lock deps

theorem resolve_packageRoot (disk : Disk) (manifest : Manifest) (lock : Lockfile) (deps : DepsDir) :
    (packageRoot disk manifest).resolve disk lock deps = resolveFrozen disk manifest lock deps := by
  simp only [Root.resolve, packageRoot, resolveFrozen, bind_assoc]

theorem resolve_workspaceRoot (disk : Disk) (workspace : LoadedWorkspace) (resolution : Option Resolution) (lock : Lockfile)
    (deps : DepsDir) : (workspaceRoot disk workspace resolution).resolve disk lock deps =
      resolveWorkspaceFrozen disk workspace resolution lock deps := by
  simp only [Root.resolve, workspaceRoot, resolveWorkspaceFrozen, bind_assoc]

/-- What `cmd_fetch` reports. -/
inductive FetchError where
  /-- `FROZEN-NO-LOCKFILE`. -/
  | noLockfile
  /-- An error of `load_lockfile`. -/
  | lock (e : LockError)
  | flags (e : FrozenFlagsError ⊕ WorkspaceFlagsError)
  | frozen (e : FrozenError)
  /-- A failed assertion of the formatter. -/
  | assertion

/-- What the command line says of a fetch. -/
structure FetchArgs where
  strategy : Option Strategy
  excludeNewer : Option Timestamp
  features : FeatureSelection

/-- What a fetch finds and leaves: the text of `milpa.lock`, and `_deps/`. -/
structure Workdir where
  lockText : Option Str
  deps : DepsDir

/-- The lockfile of a graph is written in the place of the one that was read. -/
def writeGraph (root : Root) (args : FetchArgs) (graph : List ResolvedDep) (deps : DepsDir) : Except FetchError Workdir :=
  let strategy := effectiveStrategy args.strategy root.resolution
  let excludeNewer := effectiveExcludeNewer args.excludeNewer root.resolution none
  match (fromGraph graph strategy.asStr excludeNewer).bind formatLockfile with
  | some text => .ok ⟨some text, deps⟩
  | none => .error .assertion

/-- `cmd_fetch` with `--frozen`. -/
def cmdFetchFrozen (kdlParse : Str → Except Str (List KdlNode)) (disk : Disk) (root : Root) (w : Workdir) (args : FetchArgs) :
    Except FetchError Workdir :=
  match w.lockText with
  | none => .error .noLockfile
  | some text => do
    let lock ← (parseLockfile kdlParse text).mapError .lock
    (root.checkFlags lock args.features).mapError .flags
    let resolved ← (root.resolve disk lock w.deps).mapError .frozen
    writeGraph root args resolved.1 resolved.2

/-! ### What is written -/

variable {kdlParse : Str → Except Str (List KdlNode)} {disk : Disk} {root : Root} {lock : Lockfile} {graph : List ResolvedDep}
  {deps deps' : DepsDir} {w w' : Workdir} {args : FetchArgs} {text : Str}

/-- A frozen resolve is accepted. -/
structure Replays (disk : Disk) (root : Root) (lock : Lockfile) (deps : DepsDir) (graph : List ResolvedDep) (deps' : DepsDir) : Prop where
  strategy : lock.strategy = (frozenBaselineStrategy root.resolution).asStr
  excludeNewer : lock.excludeNewer = frozenBaselineExcludeNewer root.resolution
  checked : root.checkLock lock = .ok ()
  rebuilt : Rebuilt disk root.checkRecord lock deps graph deps'

theorem resolve_eq_ok : root.resolve disk lock deps = .ok (graph, deps') ↔ Replays disk root lock deps graph deps' := by
  have hsteps : root.resolve disk lock deps = .ok (graph, deps') ↔
      checkStrategy (frozenBaselineStrategy root.resolution) lock = .ok () ∧
        checkExcludeNewer (frozenBaselineExcludeNewer root.resolution) lock = .ok () ∧ root.checkLock lock = .ok () ∧
          rebuild disk root.checkRecord lock deps = .ok (graph, deps') := by
    simp only [Root.resolve, Result.bind_eq_ok, Unique.exists_iff]
  rw [hsteps, checkStrategy_eq_ok, checkExcludeNewer_eq_ok, rebuild_eq_ok]
  exact ⟨fun ⟨hs, he, hc, hr⟩ => ⟨hs, he, hc, hr⟩, fun ⟨hs, he, hc, hr⟩ => ⟨hs, he, hc, hr⟩⟩

/-- A dependency as it is written again: what is conditional is lost. -/
def replayedDep (locked : LockedDep) : LockedDep := { locked with condRequires := [] }

/-- What is written of a graph that was made of the lockfile. -/
def replayedLock (lock : Lockfile) (strategy : Strategy) (excludeNewer : Option Timestamp) : Lockfile :=
  { lock with strategy := strategy.asStr, excludeNewer := excludeNewer, deps := lock.deps.map replayedDep }

/-- A lockfile as `from_graph` makes it: in its order, with the texts of versions and requirements that are written. -/
structure Canonical (lock : Lockfile) : Prop where
  sorted : SortedByKey lockedKey lock.deps
  versions : ∀ d ∈ lock.deps, ∀ v, parseVersion d.version = some v → v.display = d.version
  requires : ∀ d ∈ lock.deps, sortByKey id (d.requires.map reqNameToLockfile) = d.requires
  attestation : ∀ d ∈ lock.deps, ∀ att ∈ d.attestation, att.namespace = attestationNamespace d.sourceId

theorem lockedFromResolved_nodeAt {locked : LockedDep} {v : Version} (hidentity : ∀ i ∈ locked.identity, i ≠ []) (hv : v.display = locked.version)
    (hrequires : sortByKey id (locked.requires.map reqNameToLockfile) = locked.requires)
    (hatt : ∀ att ∈ locked.attestation, att.namespace = attestationNamespace locked.sourceId) :
    lockedFromResolved (nodeAt locked v) = some (replayedDep locked) := by
  have hid : opt (locked.identity.getD []) = locked.identity := by
    cases h : locked.identity with
    | none => rfl
    | some i => simp [opt, hidentity i h]
  have hattested : ((nodeAt locked v).attestation.map fun a =>
      (⟨a.kind, a.rekor, a.bundlePin, attestationNamespace (nodeAt locked v).sourceId⟩ : LockAttestation)) = locked.attestation := by
    show (locked.attestation.map _).map _ = _
    cases h : locked.attestation with
    | none => rfl
    | some att => simp [nodeAt, ← hatt att h]
  show some (lockedDep (nodeAt locked v) []) = _
  rw [lockedDep, hattested]
  simp only [nodeAt, hid, hv, hrequires]
  rfl

theorem parseIdentity_nil : ∀ r, parseIdentity [] ≠ .ok r := by
  rintro ⟨algorithm, digest⟩ h
  exact absurd (parseIdentity_eq_ok h).1 (by simp)

theorem ne_nil_of_valid (h : ValidLock lock) : ∀ d ∈ lock.deps, ∀ i ∈ d.identity, i ≠ [] := by
  intro d hd i hi hnil
  obtain ⟨r, hr⟩ := (h.deps d hd).identity i hi
  exact parseIdentity_nil r (hnil ▸ hr)

/-- What is written of the graph of a lockfile that is canonical. -/
theorem fromGraph_of_restores (hvalid : ValidLock lock) (hc : Canonical lock) (hnodes : List.Forall₂ Restores lock.deps graph)
    (strategy : Strategy) (excludeNewer : Option Timestamp) :
    fromGraph graph strategy.asStr excludeNewer = some (replayedLock lock strategy excludeNewer) := by
  have hdeps : graph.mapM lockedFromResolved = some (lock.deps.map replayedDep) := by
    have hidentity := ne_nil_of_valid hvalid
    obtain ⟨-, hversions, hrequires, hattestation⟩ := hc
    generalize lock.deps = locked at hnodes hidentity hversions hrequires hattestation
    induction hnodes with
    | nil => rfl
    | cons hnode _ ih =>
      obtain ⟨-, v, hv, rfl⟩ := hnode
      obtain ⟨hi, hidentity⟩ := List.forall_mem_cons.mp hidentity
      obtain ⟨hd, hversions⟩ := List.forall_mem_cons.mp hversions
      obtain ⟨hr, hrequires⟩ := List.forall_mem_cons.mp hrequires
      obtain ⟨ha, hattestation⟩ := List.forall_mem_cons.mp hattestation
      rw [List.mapM_cons, lockedFromResolved_nodeAt hi (hd v hv) hr ha, ih hidentity hversions hrequires hattestation]
      rfl
  have hsorted : SortedByKey lockedKey (lock.deps.map replayedDep) := List.pairwise_map.mpr hc.sorted
  rw [fromGraph, hdeps]
  show some (Lockfile.mk lockfileSchemaVersion strategy.asStr excludeNewer (sortByKey lockedKey (lock.deps.map replayedDep))) = _
  rw [sortByKey_eq_self hsorted, replayedLock, hvalid.version]

theorem exists_formatLockfile_replayedLock (lock : Lockfile) (strategy : Strategy) (excludeNewer : Option Timestamp) :
    ∃ text, formatLockfile (replayedLock lock strategy excludeNewer) = some text := by
  have hwritable : WritableLock (replayedLock lock strategy excludeNewer) := by
    intro d hd
    obtain ⟨locked, -, rfl⟩ := List.mem_map.mp hd
    exact fun cr hcr => absurd hcr List.not_mem_nil
  rw [formatLockfile, formatLines_eq hwritable]
  exact ⟨_, rfl⟩

theorem cmdFetchFrozen_eq_ok (hparse : parseLockfile kdlParse text = .ok lock) (hc : Canonical lock) :
    cmdFetchFrozen kdlParse disk root ⟨some text, deps⟩ args = .ok w' ↔
      root.checkFlags lock args.features = .ok () ∧ ∃ graph deps', Replays disk root lock deps graph deps' ∧
        formatLockfile (replayedLock lock (effectiveStrategy args.strategy root.resolution)
          (effectiveExcludeNewer args.excludeNewer root.resolution none)) = w'.lockText ∧ deps' = w'.deps := by
  obtain ⟨written, hwritten⟩ := exists_formatLockfile_replayedLock lock (effectiveStrategy args.strategy root.resolution)
    (effectiveExcludeNewer args.excludeNewer root.resolution none)
  rw [hwritten]
  have hgraph : ∀ graph deps', Replays disk root lock deps graph deps' →
      writeGraph root args graph deps' = .ok ⟨some written, deps'⟩ := fun graph deps' h => by
    rw [writeGraph, fromGraph_of_restores (validLock_of_parseLockfile hparse) hc h.rebuilt.nodes, Option.bind_some, hwritten]
  unfold cmdFetchFrozen
  constructor
  · intro h
    obtain ⟨lock', hlock, h⟩ := Result.bind_eq_ok.mp h
    obtain rfl : lock = lock' := Except.ok.inj (hparse.symm.trans (Result.mapError_eq_ok.mp hlock))
    obtain ⟨_, hflags, h⟩ := Result.bind_eq_ok.mp h
    obtain ⟨⟨graph, deps'⟩, hresolve, h⟩ := Result.bind_eq_ok.mp h
    have hreplays := resolve_eq_ok.mp (Result.mapError_eq_ok.mp hresolve)
    rw [hgraph graph deps' hreplays] at h
    obtain rfl := Except.ok.inj h
    exact ⟨Result.mapError_eq_ok.mp hflags, graph, deps', hreplays, rfl, rfl⟩
  · rintro ⟨hflags, graph, deps', hreplays, htext, rfl⟩
    refine Result.bind_eq_ok.mpr ⟨lock, Result.mapError_eq_ok.mpr hparse, ?_⟩
    refine Result.bind_eq_ok.mpr ⟨(), Result.mapError_eq_ok.mpr hflags, ?_⟩
    refine Result.bind_eq_ok.mpr ⟨(graph, _), Result.mapError_eq_ok.mpr (resolve_eq_ok.mpr hreplays), ?_⟩
    rw [hgraph graph _ hreplays, htext]

/-- What a frozen resolve takes, a fetch takes where the features fit. -/
theorem exists_cmdFetchFrozen_iff (hparse : parseLockfile kdlParse text = .ok lock) (hc : Canonical lock)
    (hreplays : Replays disk root lock deps graph deps') :
    (∃ w', cmdFetchFrozen kdlParse disk root ⟨some text, deps⟩ args = .ok w') ↔ root.checkFlags lock args.features = .ok () := by
  obtain ⟨written, hwritten⟩ := exists_formatLockfile_replayedLock lock (effectiveStrategy args.strategy root.resolution)
    (effectiveExcludeNewer args.excludeNewer root.resolution none)
  constructor
  · rintro ⟨w', h⟩
    exact ((cmdFetchFrozen_eq_ok hparse hc).mp h).1
  · intro hflags
    exact ⟨⟨some written, deps'⟩, (cmdFetchFrozen_eq_ok hparse hc).mpr ⟨hflags, graph, deps', hreplays, hwritten, rfl⟩⟩

/-! ### One fetch -/

/-- The command line keeps to what the root declares. -/
structure Honours (root : Root) (args : FetchArgs) : Prop where
  strategy : effectiveStrategy args.strategy root.resolution = frozenBaselineStrategy root.resolution
  excludeNewer : effectiveExcludeNewer args.excludeNewer root.resolution none = frozenBaselineExcludeNewer root.resolution

theorem validLock_replayedLock (hvalid : ValidLock lock) (strategy : Strategy) {excludeNewer : Option Timestamp}
    (hnanos : ∀ ts ∈ excludeNewer, ts.nanos < 10 ^ 9) : ValidLock (replayedLock lock strategy excludeNewer) where
  version := hvalid.version
  nanos := hnanos
  deps := List.forall_mem_map.mpr fun d hd => { hvalid.deps d hd with conds := fun _ hcr => absurd hcr List.not_mem_nil }

/-- The time bound of a fetch is one that was parsed, if that of the command line is. -/
theorem nanos_effectiveExcludeNewer (hvalid : ValidLock lock) (hlock : lock.excludeNewer = frozenBaselineExcludeNewer root.resolution)
    (hargs : ∀ ts ∈ args.excludeNewer, ts.nanos < 10 ^ 9) :
    ∀ ts ∈ effectiveExcludeNewer args.excludeNewer root.resolution none, ts.nanos < 10 ^ 9 := by
  have hroot : ∀ ts ∈ root.resolution.bind Resolution.excludeNewer, ts.nanos < 10 ^ 9 := fun ts hts =>
    hvalid.nanos ts (by rw [hlock]; exact hts)
  intro ts hts
  unfold effectiveExcludeNewer at hts
  cases hcli : args.excludeNewer with
  | none =>
    rw [hcli] at hts
    simp only [Option.none_or, Option.bind_none, Option.or_none] at hts
    exact hroot ts hts
  | some cli =>
    rw [hcli] at hts
    simp only [Option.some_or, Option.mem_def, Option.some.injEq] at hts
    exact hts ▸ hargs cli hcli

theorem replayedLock_eq_self (hconds : ∀ d ∈ lock.deps, d.condRequires = []) {strategy : Strategy} {excludeNewer : Option Timestamp}
    (hstrategy : lock.strategy = strategy.asStr) (hexclude : lock.excludeNewer = excludeNewer) :
    replayedLock lock strategy excludeNewer = lock := by
  have hdeps : lock.deps.map replayedDep = lock.deps := by
    conv_rhs => rw [← List.map_id lock.deps]
    refine List.map_congr_left fun d hd => ?_
    rw [replayedDep, ← hconds d hd]
    rfl
  rw [replayedLock, hdeps, ← hstrategy, ← hexclude]

/-- What is read of a lockfile that was written again. -/
theorem parse_replayed (hk : Conforms kdlParse) (hvalid : ValidLock lock) {strategy : Strategy} {excludeNewer : Option Timestamp}
    (hnanos : ∀ ts ∈ excludeNewer, ts.nanos < 10 ^ 9) (htext : formatLockfile (replayedLock lock strategy excludeNewer) = some text)
    {lock' : Lockfile} (hparse : parseLockfile kdlParse text = .ok lock') :
    lock' = rereadLock (replayedLock lock strategy excludeNewer) := by
  obtain ⟨written, hwritten, hread, herror⟩ := parseLockfile_formatLockfile hk (validLock_replayedLock hvalid strategy hnanos)
  obtain rfl := Option.some.inj (htext.symm.trans hwritten)
  by_cases hr : Readable (replayedLock lock strategy excludeNewer)
  · exact Except.ok.inj (hparse.symm.trans (hread hr))
  · obtain ⟨e, he⟩ := herror hr
    rw [hparse] at he
    cases he

/-- **A frozen fetch leaves the lockfile as it is just where nothing in it is conditional, and the command line keeps to what the root
declares**: what is conditional is lost, and the strategy and the time bound of the command line are written without a resolve under them. -/
theorem frozen_fetch_keeps_lock_iff (hk : Conforms kdlParse) (htext : formatLockfile lock = some text)
    (hparse : parseLockfile kdlParse text = .ok lock) (hc : Canonical lock) (hargs : ∀ ts ∈ args.excludeNewer, ts.nanos < 10 ^ 9)
    (h : cmdFetchFrozen kdlParse disk root ⟨some text, deps⟩ args = .ok w') :
    w'.lockText = some text ↔ Honours root args ∧ ∀ d ∈ lock.deps, d.condRequires = [] := by
  obtain ⟨-, graph, deps', hreplays, hwritten, -⟩ := (cmdFetchFrozen_eq_ok hparse hc).mp h
  have hvalid := validLock_of_parseLockfile hparse
  rw [← hwritten]
  constructor
  · intro hsame
    have hlock := parse_replayed hk hvalid (nanos_effectiveExcludeNewer hvalid hreplays.excludeNewer hargs) hsame hparse
    have hstrategy : lock.strategy = _ := congrArg Lockfile.strategy hlock
    have hexclude : lock.excludeNewer = _ := congrArg Lockfile.excludeNewer hlock
    refine ⟨⟨?_, ?_⟩, fun d hd => ?_⟩
    · exact Strategy.asStr_injective (hstrategy.symm.trans hreplays.strategy)
    · exact hexclude.symm.trans hreplays.excludeNewer
    · rw [hlock] at hd
      obtain ⟨replayed, hreplayed, rfl⟩ := List.mem_map.mp hd
      obtain ⟨locked, -, rfl⟩ := List.mem_map.mp hreplayed
      rfl
  · rintro ⟨hhonours, hconds⟩
    rw [hhonours.strategy, hhonours.excludeNewer, replayedLock_eq_self hconds hreplays.strategy hreplays.excludeNewer, htext]

/-- A package that depends on one other package. -/
def frozenUser : Manifest := { Manifest.initial with name := some "app", deps := [.url (urlDep "lib" "https://h/lib" "main" none)] }

/-- The node of that package, whose content is an empty directory. -/
def frozenNode : ResolvedDep where
  name := "lib"
  «namespace» := none
  identity := Store.emptyIdentity
  version := .release 1 0 0
  srcDir := []
  requires := []
  provenances := [.git "https://h/lib" (some "main") none "observed" []]
  depDecl := none
  condRequires := []
  aliases := []
  activeFlags := []
  attestation := none
  declaredVersionSource := none
  sourceId := some (.fetchable (.git "https://h/lib" (some "main") none))

/-- Its lockfile. -/
def frozenLock : Lockfile := ⟨lockfileSchemaVersion, "maxver", none, [lockedDep frozenNode []]⟩

/-- The text of it. -/
def frozenText : Str := (formatLockfile frozenLock).getD []

/-- A store with its tree, which provides no module. -/
def frozenDisk : Disk where
  store := Store.raceStore
  trees path := if path = Store.racePath then some BTreeMap.empty else none
  memberTree _ := BTreeMap.empty
  provider _ _ := ⟨[], List.nodup_nil⟩
  depsDirMade := true

/-- A command line that selects nothing. -/
def plainArgs : FetchArgs := ⟨none, none, .none⟩

theorem formatLockfile_frozenLock : formatLockfile frozenLock = some frozenText := by decide +kernel

theorem parseLockfile_frozenText : parseLockfile Kdl.read frozenText = .ok frozenLock := by decide +kernel

theorem canonical_frozenLock : Canonical frozenLock where
  sorted := List.pairwise_singleton _ _
  versions := by
    intro d hd v hv
    obtain rfl := List.mem_singleton.mp hd
    obtain rfl : Version.release 1 0 0 = v := Option.some.inj ((by decide : parseVersion _ = some (Version.release 1 0 0)).symm.trans hv)
    rfl
  requires := by decide
  attestation := by decide

theorem exists_replays_frozenLock :
    ∃ graph deps', Replays frozenDisk (packageRoot frozenDisk frozenUser) frozenLock BTreeMap.empty graph deps' := by
  have hok : ((packageRoot frozenDisk frozenUser).resolve frozenDisk frozenLock BTreeMap.empty).isOk = true := by decide +kernel
  obtain ⟨⟨graph, deps'⟩, h⟩ := Result.isOk_iff.mp hok
  exact ⟨graph, deps', resolve_eq_ok.mp h⟩

theorem frozen_fetch_keeps_lock_iff_plain : ∃ w',
    cmdFetchFrozen Kdl.read frozenDisk (packageRoot frozenDisk frozenUser) ⟨some frozenText, BTreeMap.empty⟩ plainArgs = .ok w' ∧
      (w'.lockText = some frozenText ↔
        Honours (packageRoot frozenDisk frozenUser) plainArgs ∧ ∀ d ∈ frozenLock.deps, d.condRequires = []) := by
  obtain ⟨graph, deps', hreplays⟩ := exists_replays_frozenLock
  have hflags : (packageRoot frozenDisk frozenUser).checkFlags frozenLock plainArgs.features = .ok () := by decide
  obtain ⟨w', h⟩ := (exists_cmdFetchFrozen_iff parseLockfile_frozenText canonical_frozenLock hreplays).mpr hflags
  exact ⟨w', h, frozen_fetch_keeps_lock_iff Kdl.conforms_read formatLockfile_frozenLock parseLockfile_frozenText canonical_frozenLock
    (by decide) h⟩

/-! ### One fetch after another -/

theorem rebuildDepsView_rebuildDepsView (store : CaStore) (trees : DepsView.StoreTrees) (graph : List ResolvedDep) (deps : DepsDir) :
    rebuildDepsView store trees graph (rebuildDepsView store trees graph deps) = rebuildDepsView store trees graph deps := by
  refine BTreeMap.ext_get? fun slot => ?_
  rw [DepsView.get?_rebuildDepsView, DepsView.get?_rebuildDepsView]
  cases ((Resolver.depsView graph).get? slot).bind (DepsView.linkTo store trees) with
  | some e => rfl
  | none =>
    rw [Option.none_or, Option.none_or]
    split_ifs <;> rfl

/-- What a frozen resolve takes does not depend on what is in `_deps/`. -/
theorem Replays.again (h : Replays disk root lock deps graph deps') : Replays disk root lock deps' graph deps' := by
  have hview : deps' = rebuildDepsView disk.store disk.trees graph deps' := by
    conv_rhs => rw [h.rebuilt.view, rebuildDepsView_rebuildDepsView, ← h.rebuilt.view]
  exact ⟨h.strategy, h.excludeNewer, h.checked, h.rebuilt.made, h.rebuilt.checked, h.rebuilt.nodes, h.rebuilt.slots, hview⟩

/-- Fetches, one after another. -/
def fetches (kdlParse : Str → Except Str (List KdlNode)) (disk : Disk) (root : Root) (w : Workdir) (args : List FetchArgs) :
    Except FetchError Workdir :=
  args.foldlM (cmdFetchFrozen kdlParse disk root) w

/-- After a fetch under another strategy or another time bound, the next one is refused. -/
theorem honours_of_next (hk : Conforms kdlParse) (hvalid : ValidLock lock)
    (hlock : lock.excludeNewer = frozenBaselineExcludeNewer root.resolution) (hargs : ∀ ts ∈ args.excludeNewer, ts.nanos < 10 ^ 9)
    {w₁ : Workdir} (htext : formatLockfile (replayedLock lock (effectiveStrategy args.strategy root.resolution)
      (effectiveExcludeNewer args.excludeNewer root.resolution none)) = w₁.lockText)
    {next : FetchArgs} (h : cmdFetchFrozen kdlParse disk root w₁ next = .ok w') : Honours root args := by
  unfold cmdFetchFrozen at h
  cases hw : w₁.lockText with
  | none =>
    rw [hw] at h
    cases h
  | some text =>
    rw [hw] at h htext
    obtain ⟨lock', hparse, h⟩ := Result.bind_eq_ok.mp h
    obtain ⟨_, -, h⟩ := Result.bind_eq_ok.mp h
    obtain ⟨⟨graph', deps₂⟩, hresolve, -⟩ := Result.bind_eq_ok.mp h
    have hagain := resolve_eq_ok.mp (Result.mapError_eq_ok.mp hresolve)
    have hread := parse_replayed hk hvalid (nanos_effectiveExcludeNewer hvalid hlock hargs) htext (Result.mapError_eq_ok.mp hparse)
    subst hread
    exact ⟨Strategy.asStr_injective hagain.strategy, hagain.excludeNewer⟩

/-- A fetch that keeps to what the root declares leaves the lockfile. -/
theorem cmdFetchFrozen_of_honours (htext : formatLockfile lock = some text) (hparse : parseLockfile kdlParse text = .ok lock)
    (hc : Canonical lock) (hconds : ∀ d ∈ lock.deps, d.condRequires = []) (hreplays : Replays disk root lock deps graph deps')
    (hflags : root.checkFlags lock args.features = .ok ()) (hhonours : Honours root args) :
    cmdFetchFrozen kdlParse disk root ⟨some text, deps⟩ args = .ok ⟨some text, deps'⟩ := by
  refine (cmdFetchFrozen_eq_ok hparse hc).mpr ⟨hflags, graph, deps', hreplays, ?_, rfl⟩
  rw [hhonours.strategy, hhonours.excludeNewer, replayedLock_eq_self hconds hreplays.strategy hreplays.excludeNewer, htext]

/-- **Frozen fetches, one after another, of a lockfile that a frozen resolve takes**: they are all accepted just where the features of each
of them fit the lockfile and none but the last one overrides what the root declares. Where the last one does not either, they leave the lockfile
as it was, and `_deps/` as the first one does. -/
theorem frozen_fetches_iff (hk : Conforms kdlParse) (htext : formatLockfile lock = some text)
    (hparse : parseLockfile kdlParse text = .ok lock) (hc : Canonical lock) (hconds : ∀ d ∈ lock.deps, d.condRequires = [])
    (hreplays : Replays disk root lock deps graph deps') {runs : List FetchArgs}
    (hargs : ∀ args ∈ runs, ∀ ts ∈ args.excludeNewer, ts.nanos < 10 ^ 9) :
    ((∃ w', fetches kdlParse disk root ⟨some text, deps⟩ runs = .ok w') ↔
      (∀ args ∈ runs, root.checkFlags lock args.features = .ok ()) ∧ ∀ args ∈ runs.dropLast, Honours root args) ∧
    ((∀ args ∈ runs, root.checkFlags lock args.features = .ok () ∧ Honours root args) → runs ≠ [] →
      fetches kdlParse disk root ⟨some text, deps⟩ runs = .ok ⟨some text, deps'⟩) := by
  have hvalid := validLock_of_parseLockfile hparse
  induction runs generalizing deps with
  | nil => simp [fetches, pure, Except.pure]
  | cons args runs ih =>
    obtain ⟨hnanos, hargs⟩ := List.forall_mem_cons.mp hargs
    have hstep : ∀ w', fetches kdlParse disk root ⟨some text, deps⟩ (args :: runs) = .ok w' ↔
        ∃ w₁, cmdFetchFrozen kdlParse disk root ⟨some text, deps⟩ args = .ok w₁ ∧ fetches kdlParse disk root w₁ runs = .ok w' :=
      fun w' => Result.bind_eq_ok
    obtain ⟨hiff, hsame⟩ := ih hreplays.again hargs
    cases runs with
    | nil =>
      refine ⟨?_, fun hall _ => ?_⟩
      · have hone : ∀ w', fetches kdlParse disk root ⟨some text, deps⟩ [args] = .ok w' ↔
            cmdFetchFrozen kdlParse disk root ⟨some text, deps⟩ args = .ok w' := by
          intro w'
          rw [hstep]
          constructor
          · rintro ⟨w₁, h, hend⟩
            obtain rfl := Except.ok.inj hend
            exact h
          · intro h
            exact ⟨w', h, rfl⟩
        rw [exists_congr hone, exists_cmdFetchFrozen_iff hparse hc hreplays]
        simp
      · obtain ⟨hflags, hhonours⟩ := hall args List.mem_cons_self
        exact (hstep _).mpr ⟨_, cmdFetchFrozen_of_honours htext hparse hc hconds hreplays hflags hhonours, rfl⟩
    | cons next rest =>
      have hdrop : (args :: next :: rest).dropLast = args :: (next :: rest).dropLast := rfl
      refine ⟨?_, fun hall _ => ?_⟩
      · rw [hdrop]
        constructor
        · rintro ⟨w', h⟩
          obtain ⟨w₁, hfirst, hrest⟩ := (hstep w').mp h
          obtain ⟨hflags, graph₁, deps₁, hreplays₁, hwritten, -⟩ := (cmdFetchFrozen_eq_ok hparse hc).mp hfirst
          obtain ⟨w₂, hnext, -⟩ := Result.bind_eq_ok.mp hrest
          -- The next fetch is accepted, so this one has kept to what the root declares.
          have hhonours := honours_of_next hk hvalid hreplays.excludeNewer hnanos hwritten hnext
          have hkept := cmdFetchFrozen_of_honours htext hparse hc hconds hreplays hflags hhonours
          obtain rfl := Except.ok.inj (hfirst.symm.trans hkept)
          obtain ⟨hflags', hhonours'⟩ := hiff.mp ⟨w', hrest⟩
          exact ⟨List.forall_mem_cons.mpr ⟨hflags, hflags'⟩, List.forall_mem_cons.mpr ⟨hhonours, hhonours'⟩⟩
        · rintro ⟨hflags, hhonours⟩
          obtain ⟨hflags, hflags'⟩ := List.forall_mem_cons.mp hflags
          obtain ⟨hhonours, hhonours'⟩ := List.forall_mem_cons.mp hhonours
          obtain ⟨w', hrest⟩ := hiff.mpr ⟨hflags', hhonours'⟩
          exact ⟨w', (hstep w').mpr ⟨_, cmdFetchFrozen_of_honours htext hparse hc hconds hreplays hflags hhonours, hrest⟩⟩
      · obtain ⟨⟨hflags, hhonours⟩, hall⟩ := List.forall_mem_cons.mp hall
        exact (hstep _).mpr ⟨_, cmdFetchFrozen_of_honours htext hparse hc hconds hreplays hflags hhonours,
          hsame hall (List.cons_ne_nil _ _)⟩

/-- A command line that overrides the strategy. -/
def minverArgs : FetchArgs := ⟨some .minver, none, .none⟩

/-- Two fetches of the package, the second one under another strategy. -/
theorem frozen_fetches_iff_override : ∃ w',
    fetches Kdl.read frozenDisk (packageRoot frozenDisk frozenUser) ⟨some frozenText, BTreeMap.empty⟩ [plainArgs, minverArgs] = .ok w' := by
  obtain ⟨graph, deps', hreplays⟩ := exists_replays_frozenLock
  refine (frozen_fetches_iff Kdl.conforms_read formatLockfile_frozenLock parseLockfile_frozenText canonical_frozenLock (by decide) hreplays
    (by decide)).1.mpr ⟨by decide, ?_⟩
  intro args hargs
  obtain rfl := List.mem_singleton.mp hargs
  exact ⟨rfl, rfl⟩

end Milpa.Core.Frozen

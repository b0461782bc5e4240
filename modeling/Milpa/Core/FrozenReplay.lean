import Mathlib.Data.List.Perm.Basic
import Milpa.Core.FrozenFetch
import Milpa.Core.ObservedRecord
import Milpa.Core.ViewVerified

/-!
# What a frozen resolve gives again

A frozen resolve takes the place of the resolve that wrote the lockfile. The graph that it
gives has the nodes of that resolve, but for what is conditional and for the order of the
lists that are sorted on writing; and where every slot of the view is linked to the content
of the node that has it, `_deps/` becomes what the resolve had made of it
(`frozen_resolve_agrees`). Where an alias of one node is the directory of another one the
last node wins, and the lockfile has the nodes in another order (`shared_alias_differs`).
-/

namespace Milpa.Core.Frozen

open DepsView (DepsDir StoreTrees rebuildDepsView isLocalNode OwnSlots)
open ImportSlot (Linked isElsewhere slotOf mem_viewEntries)
open Kdl (KdlNode Conforms)
open Resolver (depsView viewEntries)
open Solver (parseVersion)

variable {kdlParse : Str → Except Str (List KdlNode)} {disk : Disk} {root : Root} {lock : Lockfile} {graph graph' : List ResolvedDep}
  {deps deps' : DepsDir} {d : ResolvedDep}

/-! ### Lists that are related -/

theorem exists_left_of_forall₂ {α β : Type} {R : α → β → Prop} {l : List α} {r : List β} (h : List.Forall₂ R l r) :
    ∀ b ∈ r, ∃ a ∈ l, R a b := by
  induction h with
  | nil => simp
  | cons hab _ ih =>
    intro b hb
    rcases List.mem_cons.mp hb with rfl | hb
    · exact ⟨_, List.mem_cons_self, hab⟩
    · obtain ⟨a, ha, hR⟩ := ih b hb
      exact ⟨a, List.mem_cons_of_mem _ ha, hR⟩

theorem exists_right_of_forall₂ {α β : Type} {R : α → β → Prop} {l : List α} {r : List β} (h : List.Forall₂ R l r) :
    ∀ a ∈ l, ∃ b ∈ r, R a b :=
  exists_left_of_forall₂ (R := fun b a => R a b) h.flip

/-! ### Nodes -/

/-- The records of a node, in the order in which they are written. -/
def writtenRecords (d : ResolvedDep) : List ProvenanceRecord := sortByKey provenanceSortKey d.provenances

/-- A node as a frozen resolve gives it again, with the version that is parsed. -/
def replayedNode (d : ResolvedDep) (version : Version) : ResolvedDep :=
  { d with version := version, requires := sortByKey id (d.requires.map reqNameToLockfile), provenances := writtenRecords d,
           condRequires := [], aliases := sortByKey id d.aliases }

/-- A node of a frozen resolve is one of the graph that was written. -/
def Replayed (d d' : ResolvedDep) : Prop := ∃ v, parseVersion d.version.display = some v ∧ d' = replayedNode d v

/-- The record of a node that is written first is a member's, or a local one, just where the first record of the node is. -/
structure KeepsKind (d : ResolvedDep) : Prop where
  elsewhere : isElsewhere { d with provenances := writtenRecords d } = isElsewhere d
  «local» : isLocalNode { d with provenances := writtenRecords d } = isLocalNode d

theorem nodeAt_sortedDep (d : ResolvedDep) (conds : List CondRequire) (v : Version) :
    nodeAt (sortedDep (lockedDep d conds)) v = replayedNode d v := by
  have hid : (opt d.identity).getD [] = d.identity := by
    unfold opt
    split_ifs with h
    · exact (List.isEmpty_iff.mp h).symm
    · rfl
  have hatt : ((d.attestation.map fun a =>
      (⟨a.kind, a.rekor, a.bundlePin, attestationNamespace d.sourceId⟩ : LockAttestation)).map fun a =>
        (⟨a.kind, a.rekor, a.bundlePin⟩ : EntryAttestation)) = d.attestation := by
    cases d.attestation <;> rfl
  show ResolvedDep.mk _ _ ((opt d.identity).getD []) v _ _ _ _ _ _ _ ((d.attestation.map _).map _) _ _ = _
  rw [hid, hatt]
  rfl

/-- What is written of the nodes. -/
theorem written_of_mapM {deps : List LockedDep} (h : graph.mapM lockedFromResolved = some deps) :
    List.Forall₂ (fun d locked => ∃ conds, locked = lockedDep d conds) graph deps := by
  induction graph generalizing deps with
  | nil =>
    obtain rfl : [] = deps := Option.some.inj h
    exact .nil
  | cons d graph ih =>
    rw [List.mapM_cons] at h
    obtain ⟨locked, hlocked, h⟩ := Option.bind_eq_some_iff.mp h
    obtain ⟨rest, hrest, h⟩ := Option.bind_eq_some_iff.mp h
    obtain rfl : locked :: rest = deps := Option.some.inj h
    obtain ⟨keyed, -, hlocked⟩ := Option.bind_eq_some_iff.mp hlocked
    exact .cons ⟨_, (Option.some.inj hlocked).symm⟩ (ih hrest)

/-- What is written of a graph, in some order of its nodes. -/
theorem exists_order {strategy : Str} {excludeNewer : Option Timestamp} (h : fromGraph graph strategy excludeNewer = some lock) :
    ∃ order : List ResolvedDep, order.Perm graph ∧ List.Forall₂ (fun d locked => ∃ conds, locked = lockedDep d conds) order lock.deps := by
  obtain ⟨deps, hdeps, h⟩ := Option.bind_eq_some_iff.mp h
  obtain rfl := Option.some.inj h
  obtain ⟨order, horder, hperm⟩ := List.perm_comp_forall₂ (sortByKey_perm lockedKey deps) (written_of_mapM hdeps).flip
  exact ⟨order, hperm, horder.flip⟩

theorem replayed_of_restores {order : List ResolvedDep} {locked : List LockedDep}
    (hwritten : List.Forall₂ (fun d locked => ∃ conds, locked = lockedDep d conds) order locked)
    (hnodes : List.Forall₂ Restores (locked.map sortedDep) graph') : List.Forall₂ Replayed order graph' := by
  induction hwritten generalizing graph' with
  | nil =>
    cases hnodes
    exact .nil
  | cons hd _ ih =>
    obtain ⟨conds, rfl⟩ := hd
    cases hnodes with
    | cons hnode hnodes =>
      obtain ⟨-, v, hv, rfl⟩ := hnode
      exact .cons ⟨v, hv, nodeAt_sortedDep _ conds v⟩ (ih hnodes)

/-! ### The view -/

theorem linked_replayedNode (h : KeepsKind d) (v : Version) : Linked (replayedNode d v) ↔ Linked d := by
  have helsewhere : isElsewhere (replayedNode d v) = isElsewhere d := h.elsewhere
  rw [Linked, Linked, helsewhere]
  rfl

theorem mem_viewEntries_replayedNode (h : KeepsKind d) (v : Version) {e : Str × Str} :
    e ∈ viewEntries (replayedNode d v) ↔ e ∈ viewEntries d := by
  have haliases : ∀ name, name ∈ (replayedNode d v).aliases ↔ name ∈ d.aliases := fun name => mem_sortByKey
  rw [mem_viewEntries, mem_viewEntries, linked_replayedNode h, haliases]
  rfl

/-- The entries of the view are the same. -/
theorem mem_flatMap_viewEntries (hkind : ∀ d ∈ graph, KeepsKind d) (h : List.Forall₂ Replayed graph graph') {e : Str × Str} :
    e ∈ graph'.flatMap viewEntries ↔ e ∈ graph.flatMap viewEntries := by
  induction h with
  | nil => rfl
  | cons hd _ ih =>
    obtain ⟨v, -, rfl⟩ := hd
    obtain ⟨hfirst, hkind⟩ := List.forall_mem_cons.mp hkind
    rw [List.flatMap_cons, List.flatMap_cons, List.mem_append, List.mem_append, mem_viewEntries_replayedNode hfirst, ih hkind]

theorem depsView_eq {view : List ResolvedDep} (hown : OwnSlots graph)
    (h : ∀ e, e ∈ view.flatMap viewEntries ↔ e ∈ graph.flatMap viewEntries) : depsView view = depsView graph := by
  refine BTreeMap.ext_get? fun slot => ?_
  have hentry : ∀ {identity}, (slot, identity) ∈ graph.flatMap viewEntries → (depsView graph).get? slot = some identity := by
    intro identity hmem
    obtain ⟨d, hd, hmem⟩ := List.mem_flatMap.mp hmem
    obtain ⟨hlinked, hslot, rfl⟩ := mem_viewEntries.mp hmem
    exact hown d hd hlinked slot hslot
  cases hview : (depsView view).get? slot with
  | some identity => rw [hentry ((h _).mp (DepsView.mem_of_depsView hview))]
  | none =>
    cases hgraph : (depsView graph).get? slot with
    | none => rfl
    | some identity =>
      obtain ⟨last, hlast⟩ := DepsView.exists_depsView ((h _).mpr (DepsView.mem_of_depsView hgraph))
      rw [hview] at hlast
      cases hlast

theorem rebuildDepsView_congr {store : CaStore} {trees : StoreTrees} {view : List ResolvedDep} (hview : depsView view = depsView graph)
    (hlocal : ∀ d ∈ graph, isLocalNode d = false) (hlocal' : ∀ d ∈ view, isLocalNode d = false) (deps : DepsDir) :
    rebuildDepsView store trees view deps = rebuildDepsView store trees graph deps := by
  have hnames : ∀ {g : List ResolvedDep}, (∀ d ∈ g, isLocalNode d = false) → DepsView.localNames g = [] := fun h => by
    rw [DepsView.localNames, List.map_eq_nil_iff, List.filter_eq_nil_iff]
    exact fun d hd => by simp [h d hd]
  have hkept : DepsView.isKept view = DepsView.isKept graph := by
    funext slot
    rw [DepsView.isKept, DepsView.isKept, hview, hnames hlocal, hnames hlocal']
  refine BTreeMap.ext_get? fun slot => ?_
  rw [DepsView.get?_rebuildDepsView, DepsView.get?_rebuildDepsView, hview, hkept]

/-! ### The resolve -/

/-- The roots of frozen resolves. -/
def IsRoot (disk : Disk) (root : Root) : Prop :=
  (∃ manifest, root = packageRoot disk manifest) ∨ ∃ workspace resolution, root = workspaceRoot disk workspace resolution

/-- A local dependency is refused. -/
theorem not_local_of_checkRecord (hroot : IsRoot disk root) {locked : LockedDep} (h : root.checkRecord locked = .ok ())
    (v : Version) : isLocalNode (nodeAt locked v) = false := by
  by_contra hlocal
  rw [Bool.not_eq_false] at hlocal
  have hhead : ∃ path origin, locked.provenances.head? = some (.local path origin) := by
    unfold isLocalNode at hlocal
    split at hlocal
    · exact ⟨_, _, ‹_›⟩
    · cases hlocal
  obtain ⟨path, origin, hhead⟩ := hhead
  rcases hroot with ⟨manifest, rfl⟩ | ⟨workspace, resolution, rfl⟩
  · have hcheck : checkRecord disk locked = .ok () := h
    rw [checkRecord, hhead] at hcheck
    cases hcheck
  · have hcheck : checkWorkspaceRecord disk workspace locked = .ok () := h
    rw [checkWorkspaceRecord, hhead] at hcheck
    cases hcheck

/-- No node of a frozen resolve is local. -/
theorem not_local_of_rebuilt (hroot : IsRoot disk root) (h : Rebuilt disk root.checkRecord lock deps graph deps') :
    ∀ d ∈ graph, isLocalNode d = false := by
  intro d hd
  obtain ⟨locked, hlocked, -, v, -, rfl⟩ := exists_left_of_forall₂ h.nodes d hd
  exact not_local_of_checkRecord hroot (h.checked locked hlocked) v

theorem deps_of_writeGraph {args : FetchArgs} {w' : Workdir} (h : writeGraph root args graph deps = .ok w') : w'.deps = deps := by
  unfold writeGraph at h
  cases htext : (fromGraph graph (effectiveStrategy args.strategy root.resolution).asStr
      (effectiveExcludeNewer args.excludeNewer root.resolution none)).bind formatLockfile with
  | none => simp [htext] at h
  | some text =>
    simp only [htext, Except.ok.injEq] at h
    rw [← h]

/-- **A frozen fetch of what a resolve wrote agrees with that resolve**: its graph has the nodes of the one that was written, and it
makes of `_deps/` what a rebuild from that graph makes of it, where the slots of the linked nodes are their own. -/
theorem frozen_fetch_agrees (hroot : IsRoot disk root) {strategy text : Str} {excludeNewer : Option Timestamp}
    (hlock : fromGraph graph strategy excludeNewer = some lock) (hparse : parseLockfile kdlParse text = .ok (sortedLock lock))
    (hkind : ∀ d ∈ graph, KeepsKind d) (hown : OwnSlots graph) {args : FetchArgs} {w' : Workdir}
    (h : cmdFetchFrozen kdlParse disk root ⟨some text, deps⟩ args = .ok w') :
    (∃ order graph', order.Perm graph ∧ List.Forall₂ Replayed order graph' ∧
      root.resolve disk (sortedLock lock) deps = .ok (graph', w'.deps)) ∧
      w'.deps = rebuildDepsView disk.store disk.trees graph deps := by
  obtain ⟨lock', hlock', h⟩ := Result.bind_eq_ok.mp h
  obtain rfl : sortedLock lock = lock' := Except.ok.inj (hparse.symm.trans (Result.mapError_eq_ok.mp hlock'))
  obtain ⟨_, -, h⟩ := Result.bind_eq_ok.mp h
  obtain ⟨⟨graph', deps'⟩, hresolve, h⟩ := Result.bind_eq_ok.mp h
  have hw : w'.deps = deps' := deps_of_writeGraph h
  have hresolve := Result.mapError_eq_ok.mp hresolve
  obtain ⟨-, -, -, hrebuilt⟩ := resolve_eq_ok.mp hresolve
  obtain ⟨order, hperm, hwritten⟩ := exists_order hlock
  have hnodes : List.Forall₂ Replayed order graph' := replayed_of_restores hwritten hrebuilt.nodes
  refine ⟨⟨order, graph', hperm, hnodes, by rw [hw]; exact hresolve⟩, ?_⟩
  have hkind' : ∀ d ∈ order, KeepsKind d := fun d hd => hkind d (hperm.mem_iff.mp hd)
  have hmem : ∀ e, e ∈ graph'.flatMap viewEntries ↔ e ∈ graph.flatMap viewEntries := fun e =>
    (mem_flatMap_viewEntries hkind' hnodes).trans (hperm.flatMap_right viewEntries).mem_iff
  have hlocal' := not_local_of_rebuilt hroot hrebuilt
  have hlocal : ∀ d ∈ graph, isLocalNode d = false := by
    intro d hd
    obtain ⟨d', hd', v, -, rfl⟩ := exists_right_of_forall₂ hnodes d (hperm.mem_iff.mpr hd)
    have hnode : isLocalNode (replayedNode d v) = false := hlocal' _ hd'
    exact (hkind d hd).local.symm.trans hnode
  rw [hw, hrebuilt.view]
  exact rebuildDepsView_congr (depsView_eq hown hmem) hlocal hlocal' deps

theorem frozen_fetch_agrees_plain : ∃ w',
    cmdFetchFrozen Kdl.read frozenDisk (packageRoot frozenDisk frozenUser) ⟨some frozenText, BTreeMap.empty⟩ plainArgs = .ok w' ∧
      w'.deps = rebuildDepsView frozenDisk.store frozenDisk.trees [frozenNode] BTreeMap.empty := by
  obtain ⟨graph, deps', hreplays⟩ := exists_replays_frozenLock
  have hflags : (packageRoot frozenDisk frozenUser).checkFlags frozenLock plainArgs.features = .ok () := by decide
  obtain ⟨w', h⟩ := (exists_cmdFetchFrozen_iff parseLockfile_frozenText canonical_frozenLock hreplays).mpr hflags
  have hown : OwnSlots [frozenNode] := by
    intro d hd _ slot hslot
    obtain rfl := List.mem_singleton.mp hd
    rcases hslot with rfl | hslot
    · decide
    · cases hslot
  have hkind : ∀ d ∈ [frozenNode], KeepsKind d := by
    intro d hd
    obtain rfl := List.mem_singleton.mp hd
    exact ⟨rfl, rfl⟩
  exact ⟨w', h, (frozen_fetch_agrees (.inl ⟨frozenUser, rfl⟩) (rfl : fromGraph [frozenNode] "maxver" none = some frozenLock)
    parseLockfile_frozenText hkind hown h).2⟩

/-- Two packages, where the name of the first one is an alias of the second one. -/
def aliasLast : List ResolvedDep :=
  [{ frozenNode with name := "net", identity := "dag-sha256:2" }, { frozenNode with name := "http", identity := "dag-sha256:1", aliases := ["net"] }]

/-- The slot that two nodes have is linked to the last of them, and a lockfile has them in another order. -/
theorem shared_alias_differs : (depsView aliasLast).get? "net" = some "dag-sha256:1".toList ∧
    (depsView (sortByKey nodeKey aliasLast)).get? "net" = some "dag-sha256:2".toList := by
  decide

end Milpa.Core.Frozen

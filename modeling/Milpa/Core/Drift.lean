import Milpa.Core.FrozenReplay

/-!
# Drift from a lockfile

`check_locked_drift` of `lockfile.rs`, which holds the graph of a resolve against the
lockfile that is committed, and `verify_against_graph`, which compares less. Both put the
two under their directories and compare what is there, so that locked fetches keep the
directories, identities and records that are committed (`locked_fetches_keep`). The identity
of a node without content is the empty string in a graph and missing in a lockfile, and the
two are not taken for the same: what a resolve wrote with a local dependency in it does not
pass when the resolve is made again (`locked_fetch_again_iff`).
-/

namespace Milpa.Core.Drift

open DepsView (DepsDir lockedSlot)
open Kdl (Conforms KdlNode)
open ImportSlot (slotOf)

/-! ### The comparison -/

/-- A map from directories; of two with one directory the last one counts. -/
def bySlot {α : Type} (slot : α → Str) (l : List α) : BTreeMap Str α := l.foldl (fun m a => m.insert (slot a) a) BTreeMap.empty

section Compare

variable {δ : Type} (added removed : Str → δ) (differs : Str → LockedDep → ResolvedDep → List δ)

/-- The three loops that both functions begin with. -/
def compareBySlot (lock : Lockfile) (graph : List ResolvedDep) : List δ :=
  let locked := bySlot lockedSlot lock.deps
  let resolved := bySlot slotOf graph
  (resolved.keys.filter fun slot => (locked.get? slot).isNone).map added ++
    (locked.keys.filter fun slot => (resolved.get? slot).isNone).map removed ++
      resolved.entries.flatMap fun e => ((locked.get? e.1).map fun l => differs e.1 l e.2).getD []

end Compare

/-- A line of `LOCK-GRAPH-MISMATCH`. -/
inductive Mismatch where
  | unexpected (slot : Str)
  | missing (slot : Str)
  | identity (slot : Str) (locked : Option Str) (actual : Str)
  deriving DecidableEq

/-- `verify_against_graph`: the lines of its message, and none where it succeeds. -/
def verifyAgainstGraph (lock : Lockfile) (graph : List ResolvedDep) : List Mismatch :=
  compareBySlot .unexpected .missing
    (fun slot l r => if l.identity ≠ some r.identity then [.identity slot l.identity r.identity] else []) lock graph

/-- A line of `RES-LOCKED-DRIFT`. -/
inductive Drifted where
  | added (slot : Str)
  | removed (slot : Str)
  | identity (slot : Str) (locked : Option Str) (actual : Str)
  | provenance (slot : Str) (locked actual : List ProvenanceRecord)
  | excludeNewer (recorded effective : Option Timestamp)
  deriving DecidableEq

/-- Records in the order in which they are compared. -/
def sortedRecords (ps : List ProvenanceRecord) : List ProvenanceRecord := sortByKey provenanceSortKey ps

/-- The body of the third loop of `check_locked_drift`. -/
def nodeDrift (slot : Str) (l : LockedDep) (r : ResolvedDep) : List Drifted :=
  if l.identity ≠ some r.identity then [.identity slot l.identity r.identity]
  else if sortedRecords l.provenances ≠ sortedRecords r.provenances then
    [.provenance slot (sortedRecords l.provenances) (sortedRecords r.provenances)]
  else []

/-- `check_locked_drift`: `none` where there is no lockfile, and else the lines of its message, and none where it succeeds. -/
def checkLockedDrift (prior : Option Lockfile) (graph : List ResolvedDep) (excludeNewer : Option Timestamp) : Option (List Drifted) :=
  prior.map fun lock =>
    compareBySlot .added .removed nodeDrift lock graph ++
      if lock.excludeNewer ≠ excludeNewer then [.excludeNewer lock.excludeNewer excludeNewer] else []

/-! ### What passes -/

section Exact

variable {α φ δ : Type} {slot : α → Str} {fact : α → φ} {l : List α}

/-- What has one directory is one fact. -/
def Determined (slot : α → Str) (fact : α → φ) (l : List α) : Prop := ∀ a ∈ l, ∀ b ∈ l, slot a = slot b → fact a = fact b

theorem get?_bySlot (k : Str) : (bySlot slot l).get? k = l.reverse.find? fun a => decide (slot a = k) := by
  have hfold : bySlot slot l = (l.map fun a => (slot a, a)).foldl (fun m e => m.insert e.1 (id e.2)) BTreeMap.empty := by
    rw [bySlot, List.foldl_map]
    rfl
  rw [hfold, BTreeMap.get?_foldl_insert id, BTreeMap.get?_empty, Option.or_none, ← List.map_reverse, List.find?_map, Option.map_map]
  show Option.map (fun a => a) _ = _
  rw [Option.map_id']
  exact congrArg (fun p => l.reverse.find? p) (funext fun a => decide_eq_decide.mpr Iff.rfl)

theorem mem_of_get?_bySlot {k : Str} {a : α} (h : (bySlot slot l).get? k = some a) : a ∈ l ∧ slot a = k := by
  rw [get?_bySlot] at h
  exact ⟨List.mem_reverse.mp (List.mem_of_find?_eq_some h), by simpa using List.find?_some h⟩

theorem exists_get?_bySlot {k : Str} : (∃ a, (bySlot slot l).get? k = some a) ↔ k ∈ l.map slot := by
  rw [get?_bySlot, ← Option.isSome_iff_exists, List.find?_isSome, List.mem_map]
  simp only [List.mem_reverse, decide_eq_true_eq]

theorem mem_keys_bySlot {k : Str} : k ∈ (bySlot slot l).keys ↔ k ∈ l.map slot := by
  rw [BTreeMap.mem_keys, exists_get?_bySlot]

theorem isNone_bySlot {k : Str} : ((bySlot slot l).get? k).isNone = true ↔ k ∉ l.map slot := by
  rw [← exists_get?_bySlot (l := l), Option.isNone_iff_eq_none, Option.eq_none_iff_forall_ne_some, not_exists]

variable {added removed : Str → δ} {differs : Str → LockedDep → ResolvedDep → List δ} {lockedFact : LockedDep → φ} {nodeFact : ResolvedDep → φ}
  {lock : Lockfile} {graph : List ResolvedDep}

/-- Nothing is reported where the directories are the same, with the same fact in each. -/
theorem compareBySlot_eq_nil (hdiffers : ∀ k locked d, differs k locked d = [] ↔ lockedFact locked = nodeFact d)
    (hlock : Determined lockedSlot lockedFact lock.deps) (hgraph : Determined slotOf nodeFact graph) :
    compareBySlot added removed differs lock graph = [] ↔
      ∀ x, x ∈ lock.deps.map (fun locked => (lockedSlot locked, lockedFact locked)) ↔ x ∈ graph.map fun d => (slotOf d, nodeFact d) := by
  have hadded : ((bySlot slotOf graph).keys.filter fun slot => ((bySlot lockedSlot lock.deps).get? slot).isNone) = [] ↔
      ∀ d ∈ graph, ∃ locked ∈ lock.deps, lockedSlot locked = slotOf d := by
    rw [List.filter_eq_nil_iff]
    simp only [mem_keys_bySlot, isNone_bySlot, not_not]
    rw [List.forall_mem_map]
    simp only [List.mem_map]
  have hremoved : ((bySlot lockedSlot lock.deps).keys.filter fun slot => ((bySlot slotOf graph).get? slot).isNone) = [] ↔
      ∀ locked ∈ lock.deps, ∃ d ∈ graph, slotOf d = lockedSlot locked := by
    rw [List.filter_eq_nil_iff]
    simp only [mem_keys_bySlot, isNone_bySlot, not_not]
    rw [List.forall_mem_map]
    simp only [List.mem_map]
  -- Of what has one directory the last one is compared, and the others are like it.
  have hsame : ((bySlot slotOf graph).entries.flatMap fun e =>
      (((bySlot lockedSlot lock.deps).get? e.1).map fun locked => differs e.1 locked e.2).getD []) = [] ↔
      ∀ locked ∈ lock.deps, ∀ d ∈ graph, lockedSlot locked = slotOf d → lockedFact locked = nodeFact d := by
    rw [List.flatMap_eq_nil_iff]
    constructor
    · intro h locked hlocked d hd hslot
      obtain ⟨d', hd'⟩ := exists_get?_bySlot.mpr (List.mem_map_of_mem (f := slotOf) hd)
      obtain ⟨locked', hlocked'⟩ := exists_get?_bySlot.mpr (List.mem_map_of_mem (f := lockedSlot) hlocked)
      rw [hslot] at hlocked'
      have hentry := h (slotOf d, d') (BTreeMap.mem_entries.mpr hd')
      rw [hlocked'] at hentry
      obtain ⟨hmem, hkey⟩ := mem_of_get?_bySlot hd'
      obtain ⟨hmem', hkey'⟩ := mem_of_get?_bySlot hlocked'
      calc lockedFact locked = lockedFact locked' := hlock locked hlocked locked' hmem' (hslot.trans hkey'.symm)
        _ = nodeFact d' := (hdiffers _ _ _).mp hentry
        _ = nodeFact d := hgraph d' hmem d hd hkey
    · rintro h ⟨k, d⟩ he
      obtain ⟨hd, rfl⟩ := mem_of_get?_bySlot (BTreeMap.mem_entries.mp he)
      cases hget : (bySlot lockedSlot lock.deps).get? (slotOf d) with
      | none => rfl
      | some locked =>
        obtain ⟨hlocked, hslot⟩ := mem_of_get?_bySlot hget
        exact (hdiffers _ _ _).mpr (h locked hlocked d hd hslot)
  rw [compareBySlot, List.append_eq_nil_iff, List.append_eq_nil_iff, List.map_eq_nil_iff, List.map_eq_nil_iff, hadded, hremoved, hsame]
  constructor
  · rintro ⟨⟨ha, hr⟩, hs⟩ x
    simp only [List.mem_map]
    constructor
    · rintro ⟨locked, hlocked, rfl⟩
      obtain ⟨d, hd, hslot⟩ := hr locked hlocked
      exact ⟨d, hd, by rw [hslot, hs locked hlocked d hd hslot.symm]⟩
    · rintro ⟨d, hd, rfl⟩
      obtain ⟨locked, hlocked, hslot⟩ := ha d hd
      exact ⟨locked, hlocked, by rw [hslot, hs locked hlocked d hd hslot]⟩
  · intro h
    have hto : ∀ locked ∈ lock.deps, ∃ d ∈ graph, (slotOf d, nodeFact d) = (lockedSlot locked, lockedFact locked) := fun locked hlocked =>
      List.mem_map.mp ((h _).mp (List.mem_map.mpr ⟨locked, hlocked, rfl⟩))
    have hfrom : ∀ d ∈ graph, ∃ locked ∈ lock.deps, (lockedSlot locked, lockedFact locked) = (slotOf d, nodeFact d) := fun d hd =>
      List.mem_map.mp ((h _).mpr (List.mem_map.mpr ⟨d, hd, rfl⟩))
    refine ⟨⟨fun d hd => ?_, fun locked hlocked => ?_⟩, fun locked hlocked d hd hslot => ?_⟩
    · obtain ⟨locked, hlocked, heq⟩ := hfrom d hd
      exact ⟨locked, hlocked, (Prod.mk.inj heq).1⟩
    · obtain ⟨d, hd, heq⟩ := hto locked hlocked
      exact ⟨d, hd, (Prod.mk.inj heq).1⟩
    · obtain ⟨d', hd', heq⟩ := hto locked hlocked
      obtain ⟨hslot', hfact⟩ := Prod.mk.inj heq
      rw [← hfact]
      exact hgraph d' hd' d hd (hslot'.trans hslot)

end Exact

variable {lock : Lockfile} {graph : List ResolvedDep}

/-- What is compared of a dependency of a lockfile: its identity and its records. -/
def lockedFact (l : LockedDep) : Option Str × List ProvenanceRecord := (l.identity, sortedRecords l.provenances)

/-- What it is compared with, of a node. -/
def nodeFact (d : ResolvedDep) : Option Str × List ProvenanceRecord := (some d.identity, sortedRecords d.provenances)

/-- What a lockfile has under the directories. -/
def lockedFacts (lock : Lockfile) : List (Str × Option Str × List ProvenanceRecord) := lock.deps.map fun l => (lockedSlot l, lockedFact l)

/-- What a graph has under them. -/
def nodeFacts (graph : List ResolvedDep) : List (Str × Option Str × List ProvenanceRecord) := graph.map fun d => (slotOf d, nodeFact d)

theorem nodeDrift_eq_nil (k : Str) (l : LockedDep) (d : ResolvedDep) : nodeDrift k l d = [] ↔ lockedFact l = nodeFact d := by
  rw [lockedFact, nodeFact, Prod.mk.injEq]
  unfold nodeDrift
  split_ifs with hidentity hrecords
  · simp [hidentity]
  · simp [hrecords]
  · exact iff_of_true rfl ⟨not_not.mp hidentity, not_not.mp hrecords⟩

/-- A graph does not drift from a lockfile just where the directories, identities and records are the same, and the time bound is. -/
theorem checkLockedDrift_eq_nil (hlock : Determined lockedSlot lockedFact lock.deps) (hgraph : Determined slotOf nodeFact graph)
    (excludeNewer : Option Timestamp) :
    checkLockedDrift (some lock) graph excludeNewer = some [] ↔
      (∀ x, x ∈ lockedFacts lock ↔ x ∈ nodeFacts graph) ∧ lock.excludeNewer = excludeNewer := by
  have hbound : (if lock.excludeNewer ≠ excludeNewer then [Drifted.excludeNewer lock.excludeNewer excludeNewer] else []) = [] ↔
      lock.excludeNewer = excludeNewer := by
    split_ifs with h
    · simp [h]
    · exact iff_of_true rfl (not_not.mp h)
  rw [checkLockedDrift, Option.map_some, Option.some.injEq, List.append_eq_nil_iff, hbound, compareBySlot_eq_nil nodeDrift_eq_nil hlock hgraph]
  rfl

/-- And the other check passes just where the directories and the identities are the same. -/
theorem verifyAgainstGraph_eq_nil (hlock : Determined lockedSlot LockedDep.identity lock.deps)
    (hgraph : Determined slotOf (fun d => some d.identity) graph) :
    verifyAgainstGraph lock graph = [] ↔
      ∀ x, x ∈ lock.deps.map (fun l => (lockedSlot l, l.identity)) ↔ x ∈ graph.map fun d => (slotOf d, some d.identity) := by
  refine compareBySlot_eq_nil (fun k l d => ?_) hlock hgraph
  split_ifs with h
  · simp [h]
  · exact iff_of_true rfl (not_not.mp h)

/-! ### The lockfile of a graph -/

variable {kdlParse : Str → Except Str (List KdlNode)} {strategy : Str} {excludeNewer : Option Timestamp}

/-- What a lockfile has of a node: an identity that is empty is none. -/
def writtenFact (d : ResolvedDep) : Str × Option Str × List ProvenanceRecord := (slotOf d, opt d.identity, sortedRecords d.provenances)

theorem mem_lockedFacts_sortedLock (h : fromGraph graph strategy excludeNewer = some lock) {x : Str × Option Str × List ProvenanceRecord} :
    x ∈ lockedFacts (sortedLock lock) ↔ x ∈ graph.map writtenFact := by
  obtain ⟨order, hperm, hwritten⟩ := Frozen.exists_order h
  have hfacts : ∀ {order : List ResolvedDep} {deps : List LockedDep}, List.Forall₂ (fun d locked => ∃ conds, locked = lockedDep d conds) order deps →
      deps.map (fun l => (lockedSlot (sortedDep l), lockedFact (sortedDep l))) = order.map writtenFact := by
    intro order deps hwritten
    induction hwritten with
    | nil => rfl
    | cons hd _ ih =>
      obtain ⟨conds, rfl⟩ := hd
      rw [List.map_cons, List.map_cons, ih]
      congr 1
      show (_, _, sortByKey provenanceSortKey (sortByKey provenanceSortKey _)) = _
      rw [sortByKey_sortByKey]
      rfl
  show x ∈ (lock.deps.map sortedDep).map (fun l => (lockedSlot l, lockedFact l)) ↔ _
  rw [List.map_map]
  show x ∈ lock.deps.map (fun l => (lockedSlot (sortedDep l), lockedFact (sortedDep l))) ↔ _
  rw [hfacts hwritten]
  exact (hperm.map writtenFact).mem_iff

theorem excludeNewer_of_fromGraph (h : fromGraph graph strategy excludeNewer = some lock) : lock.excludeNewer = excludeNewer := by
  obtain ⟨deps, -, h⟩ := Option.bind_eq_some_iff.mp h
  exact Option.some.inj h ▸ rfl

theorem determined_sortedLock (h : fromGraph graph strategy excludeNewer = some lock) (hgraph : Determined slotOf nodeFact graph) :
    Determined lockedSlot lockedFact (sortedLock lock).deps := by
  have hmem : ∀ locked ∈ (sortedLock lock).deps, ∃ d ∈ graph, writtenFact d = (lockedSlot locked, lockedFact locked) := fun locked hlocked =>
    List.mem_map.mp ((mem_lockedFacts_sortedLock h).mp (List.mem_map.mpr ⟨locked, hlocked, rfl⟩))
  intro a ha b hb hslot
  obtain ⟨d, hd, hda⟩ := hmem a ha
  obtain ⟨e, he, heb⟩ := hmem b hb
  obtain ⟨hslota, hfacta⟩ := Prod.mk.inj hda
  obtain ⟨hslotb, hfactb⟩ := Prod.mk.inj heb
  obtain ⟨hidentity, hrecords⟩ := Prod.mk.inj (hgraph d hd e he (hslota.trans (hslot.trans hslotb.symm)))
  rw [← hfacta, ← hfactb, Option.some.inj hidentity, hrecords]

theorem map_writtenFact (h : ∀ d ∈ graph, d.identity ≠ []) : graph.map writtenFact = nodeFacts graph :=
  List.map_congr_left fun d hd => by
    show (_, opt d.identity, _) = (_, some d.identity, _)
    rw [opt, if_neg (by simpa using h d hd)]

/-- A graph does not drift from its own lockfile just where each node has an identity. -/
theorem own_lockfile (h : fromGraph graph strategy excludeNewer = some lock) (hgraph : Determined slotOf nodeFact graph) :
    checkLockedDrift (some (sortedLock lock)) graph excludeNewer = some [] ↔ ∀ d ∈ graph, d.identity ≠ [] := by
  have hbound : (sortedLock lock).excludeNewer = excludeNewer := (excludeNewer_of_fromGraph h : lock.excludeNewer = excludeNewer)
  rw [checkLockedDrift_eq_nil (determined_sortedLock h hgraph) hgraph, and_iff_left hbound]
  simp only [mem_lockedFacts_sortedLock h]
  constructor
  · intro hall d hd hnil
    obtain ⟨e, -, heq⟩ := List.mem_map.mp ((hall _).mp (List.mem_map_of_mem (f := writtenFact) hd))
    have hidentity : some e.identity = opt d.identity := (Prod.mk.inj (Prod.mk.inj heq).2).1
    rw [hnil] at hidentity
    cases hidentity
  · intro hall x
    rw [map_writtenFact hall]

/-! ### The nodes of a resolve -/

section Run

open Resolver

variable {ctx : ResolveCtx} {c : Config} {solution : Solution} {trust : Option EntryTrust}

/-- In the graph of a run whose directories are apart, what has one directory is one node. -/
theorem determined_of_run (h : graphOf c.state solution trust = .ok graph) (hdirs : ImportSlot.checkDirectorySlotCollisions graph = .ok ()) :
    Determined slotOf nodeFact graph := by
  have hapart := ImportSlot.checkDirectorySlotCollisions_eq_ok.mp hdirs
  intro a ha b hb hslot
  by_cases hne : a.identity = []
  · by_cases hab : a = b
    · rw [hab]
    have hsymm : Std.Symm fun a b : ResolvedDep => slotOf a = slotOf b → a.identity = [] → b.identity = [] → a = b :=
      ⟨fun a b hab hba hb ha => (hab hba.symm ha hb).symm⟩
    have hpair : graph.Pairwise fun a b => slotOf a = slotOf b → a.identity = [] → b.identity = [] → a = b :=
      hapart.imp fun hsame heq hnil _ => by simp [ImportSlot.sameContent, hnil] at hsame; exact absurd heq hsame
    rw [hpair.forall ha hb hab hslot hne (hapart.identity_eq ha hb hslot ▸ hne)]
  · have hnode := DepsView.distinct_of_graph h ha hb hne (hapart.identity_eq ha hb hslot)
    show nodeFact (withoutConds a) = nodeFact (withoutConds b)
    rw [hnode]

end Run

/-! ### A fetch that is locked -/

section Fetch

open Frozen (Root Workdir FetchArgs FetchError writeGraph effectiveStrategy effectiveExcludeNewer)

variable {ε : Type}

/-- What a locked fetch reports. -/
inductive LockedError (ε : Type) where
  | resolve (e : ε)
  /-- `RES-LOCKED-DRIFT`: without a lockfile, or with what differs from it. -/
  | drift (lines : Option (List Drifted))
  | fetch (e : FetchError)

/-- `maybe_prior_lockfile`: a lockfile that is not read is none. -/
def maybePriorLockfile (kdlParse : Str → Except Str (List KdlNode)) (w : Workdir) : Option Lockfile :=
  w.lockText.bind fun text => (parseLockfile kdlParse text).toOption

/-- `cmd_fetch` with `--locked`, where `resolve` is the resolve with the lockfile it may prefer and the `_deps/` it works in. -/
def cmdFetchLocked (kdlParse : Str → Except Str (List KdlNode)) (root : Root)
    (resolve : Option Lockfile → DepsDir → Except ε (List ResolvedDep × DepsDir)) (w : Workdir) (args : FetchArgs) :
    Except (LockedError ε) Workdir :=
  let prior := maybePriorLockfile kdlParse w
  (resolve prior w.deps).mapError .resolve >>= fun resolved =>
    let drift := checkLockedDrift prior resolved.1 (effectiveExcludeNewer args.excludeNewer root.resolution none)
    if drift = some [] then (writeGraph root args resolved.1 resolved.2).mapError .fetch else .error (.drift drift)

variable {root : Root} {resolve : Option Lockfile → DepsDir → Except ε (List ResolvedDep × DepsDir)} {w w' : Workdir} {args : FetchArgs}

theorem cmdFetchLocked_eq_ok : cmdFetchLocked kdlParse root resolve w args = .ok w' ↔
    ∃ graph deps, resolve (maybePriorLockfile kdlParse w) w.deps = .ok (graph, deps) ∧
      checkLockedDrift (maybePriorLockfile kdlParse w) graph (effectiveExcludeNewer args.excludeNewer root.resolution none) = some [] ∧
      writeGraph root args graph deps = .ok w' := by
  rw [cmdFetchLocked, Result.bind_eq_ok]
  constructor
  · rintro ⟨⟨graph, deps⟩, hresolve, h⟩
    dsimp only at h
    split_ifs at h with hdrift
    exact ⟨graph, deps, Result.mapError_eq_ok.mp hresolve, hdrift, Result.mapError_eq_ok.mp h⟩
  · rintro ⟨graph, deps, hresolve, hdrift, hwrite⟩
    refine ⟨(graph, deps), Result.mapError_eq_ok.mpr hresolve, ?_⟩
    dsimp only
    rw [if_pos hdrift]
    exact Result.mapError_eq_ok.mpr hwrite

theorem writeGraph_eq_ok {deps : DepsDir} : writeGraph root args graph deps = .ok w' ↔
    ∃ lock text, fromGraph graph (effectiveStrategy args.strategy root.resolution).asStr
        (effectiveExcludeNewer args.excludeNewer root.resolution none) = some lock ∧ formatLockfile lock = some text ∧ w' = ⟨some text, deps⟩ := by
  rw [writeGraph]
  constructor
  · intro h
    split at h
    · next text htext =>
      obtain ⟨lock, hlock, htext⟩ := Option.bind_eq_some_iff.mp htext
      exact ⟨lock, text, hlock, htext, (Except.ok.inj h).symm⟩
    · cases h
  · rintro ⟨lock, text, hlock, htext, rfl⟩
    rw [hlock, Option.bind_some, htext]

/-- What a resolve gives is written so that it is read again, and what has one directory in it is one node. -/
structure Settles (kdlParse : Str → Except Str (List KdlNode)) (root : Root) (args : FetchArgs) (graph : List ResolvedDep) : Prop where
  recorded : Recorded kdlParse graph (effectiveStrategy args.strategy root.resolution).asStr
    (effectiveExcludeNewer args.excludeNewer root.resolution none)
  determined : Determined slotOf nodeFact graph

/-- What a fetch that wrote a graph leaves. -/
theorem prior_of_writeGraph (hsettles : Settles kdlParse root args graph) {deps : DepsDir} (h : writeGraph root args graph deps = .ok w') :
    ∃ lock, fromGraph graph (effectiveStrategy args.strategy root.resolution).asStr
        (effectiveExcludeNewer args.excludeNewer root.resolution none) = some lock ∧
      maybePriorLockfile kdlParse w' = some (sortedLock lock) ∧ w'.deps = deps := by
  obtain ⟨lock, text, hlock, htext, rfl⟩ := writeGraph_eq_ok.mp h
  obtain ⟨lock', hlock', text', htext', hparse⟩ := hsettles.recorded
  obtain rfl := Option.some.inj (hlock.symm.trans hlock')
  obtain rfl := Option.some.inj (htext.symm.trans htext')
  refine ⟨lock, hlock, ?_, rfl⟩
  rw [maybePriorLockfile, Option.bind_some, hparse]
  rfl

/-- A lockfile that was read has no empty identity, and neither has a graph with its facts. -/
theorem identity_ne_nil_of_prior {prior : Lockfile} (hprior : maybePriorLockfile kdlParse w = some prior)
    (hfacts : ∀ x, x ∈ lockedFacts prior ↔ x ∈ nodeFacts graph) : ∀ d ∈ graph, d.identity ≠ [] := by
  obtain ⟨text, -, hparse⟩ := Option.bind_eq_some_iff.mp hprior
  have hvalid := validLock_of_parseLockfile (Result.toOption_eq_some.mp hparse)
  intro d hd
  obtain ⟨locked, hlocked, heq⟩ := List.mem_map.mp ((hfacts _).mpr (List.mem_map.mpr ⟨d, hd, rfl⟩))
  have hidentity : locked.identity = some d.identity := (Prod.mk.inj (Prod.mk.inj heq).2).1
  exact Frozen.ne_nil_of_valid hvalid locked hlocked d.identity hidentity

/-- A lockfile is read, and has these facts and this time bound. -/
structure Pins (kdlParse : Str → Except Str (List KdlNode)) (facts : List (Str × Option Str × List ProvenanceRecord))
    (excludeNewer : Option Timestamp) (w : Workdir) : Prop where
  read : ∃ lock, maybePriorLockfile kdlParse w = some lock ∧ Determined lockedSlot lockedFact lock.deps ∧
    (∀ x, x ∈ lockedFacts lock ↔ x ∈ facts) ∧ lock.excludeNewer = excludeNewer

/-- A locked fetch that succeeds, with the resolve and the command line that it has. -/
def LockedFetch (kdlParse : Str → Except Str (List KdlNode)) (root : Root) (w w' : Workdir) : Prop :=
  ∃ (resolve : Option Lockfile → DepsDir → Except Unit (List ResolvedDep × DepsDir)) (args : FetchArgs),
    (∀ graph deps, resolve (maybePriorLockfile kdlParse w) w.deps = .ok (graph, deps) → Settles kdlParse root args graph) ∧
      cmdFetchLocked kdlParse root resolve w args = .ok w'

/-- One locked fetch keeps the directories, the identities, the records and the time bound. -/
theorem pins_of_lockedFetch {facts : List (Str × Option Str × List ProvenanceRecord)} (h : LockedFetch kdlParse root w w')
    (hpins : Pins kdlParse facts excludeNewer w) : Pins kdlParse facts excludeNewer w' := by
  obtain ⟨resolve, args, hsettles, hfetch⟩ := h
  obtain ⟨graph, deps, hresolve, hdrift, hwrite⟩ := cmdFetchLocked_eq_ok.mp hfetch
  have hsettles := hsettles graph deps hresolve
  obtain ⟨prior, hprior, hdetermined, hfacts, hbound⟩ := hpins.read
  rw [hprior, checkLockedDrift_eq_nil hdetermined hsettles.determined] at hdrift
  obtain ⟨lock, hlock, hread, -⟩ := prior_of_writeGraph hsettles hwrite
  have hidentity := identity_ne_nil_of_prior hprior hdrift.1
  refine ⟨sortedLock lock, hread, determined_sortedLock hlock hsettles.determined, fun x => ?_, ?_⟩
  · rw [mem_lockedFacts_sortedLock hlock, map_writtenFact hidentity, ← hdrift.1, hfacts]
  · exact (excludeNewer_of_fromGraph hlock : lock.excludeNewer = _).trans (hdrift.2.symm.trans hbound)

/-- **Locked fetches keep what is committed**: after any number of them, whatever was resolved in each and whatever the command lines,
the lockfile has the directories, the identities, the records and the time bound that it had. -/
theorem locked_fetches_keep {prior : Lockfile} (hprior : maybePriorLockfile kdlParse w = some prior)
    (hdetermined : Determined lockedSlot lockedFact prior.deps) (h : Relation.ReflTransGen (LockedFetch kdlParse root) w w') :
    ∃ lock, maybePriorLockfile kdlParse w' = some lock ∧ (∀ x, x ∈ lockedFacts lock ↔ x ∈ lockedFacts prior) ∧
      lock.excludeNewer = prior.excludeNewer := by
  have hpins : Pins kdlParse (lockedFacts prior) prior.excludeNewer w' := by
    induction h with
    | refl => exact ⟨prior, hprior, hdetermined, fun _ => Iff.rfl, rfl⟩
    | tail _ hstep ih => exact pins_of_lockedFetch hstep ih
  obtain ⟨lock, hlock, -, hfacts, hbound⟩ := hpins.read
  exact ⟨lock, hlock, hfacts, hbound⟩

/-- A lockfile with one package, fetched again. -/
theorem locked_fetches_keep_frozen : ∃ w' lock, maybePriorLockfile Kdl.read w' = some lock ∧
    (∀ x, x ∈ lockedFacts lock ↔ x ∈ lockedFacts Frozen.frozenLock) ∧ lock.excludeNewer = none := by
  have hprior : maybePriorLockfile Kdl.read ⟨some Frozen.frozenText, BTreeMap.empty⟩ = some Frozen.frozenLock := by
    rw [maybePriorLockfile, Option.bind_some, Frozen.parseLockfile_frozenText]
    rfl
  have hone : ∀ {α φ : Type} (slot : α → Str) (fact : α → φ) (a : α), Determined slot fact [a] := by
    intro α φ slot fact a x hx y hy _
    rw [List.mem_singleton.mp hx, List.mem_singleton.mp hy]
  have hfetch : LockedFetch Kdl.read (Frozen.packageRoot Frozen.frozenDisk Frozen.frozenUser) ⟨some Frozen.frozenText, BTreeMap.empty⟩
      ⟨some Frozen.frozenText, BTreeMap.empty⟩ := by
    refine ⟨fun _ deps => .ok ([Frozen.frozenNode], deps), Frozen.plainArgs, fun graph deps h => ?_, ?_⟩
    · obtain ⟨rfl, rfl⟩ := Prod.mk.inj (Except.ok.inj h)
      exact ⟨⟨Frozen.frozenLock, rfl, Frozen.frozenText, Frozen.formatLockfile_frozenLock, Frozen.parseLockfile_frozenText⟩, hone _ _ _⟩
    · refine cmdFetchLocked_eq_ok.mpr ⟨[Frozen.frozenNode], BTreeMap.empty, rfl, ?_,
        writeGraph_eq_ok.mpr ⟨Frozen.frozenLock, Frozen.frozenText, rfl, Frozen.formatLockfile_frozenLock, rfl⟩⟩
      rw [hprior]
      decide
  obtain ⟨lock, hlock, hfacts, hbound⟩ := locked_fetches_keep hprior (hone _ _ _) (.single hfetch)
  exact ⟨_, lock, hlock, hfacts, hbound⟩

open Resolver in
/-- **A resolve that is made again under `--locked`** passes just where each node has an identity: a local dependency has none, nor has
the root where a package requires it, and what the resolve wrote then differs from what it gives. -/
theorem locked_fetch_again_iff {ctx : ResolveCtx} {c : Config} {solution : Solution} {trust : Option EntryTrust} {deps deps' : DepsDir}
    (hk : Conforms kdlParse) (hreach : Reachable ctx c) (hgraph : graphOf c.state solution trust = .ok graph)
    (hdirs : ImportSlot.checkDirectorySlotCollisions graph = .ok ())
    (hrecordable : Recordable graph (effectiveStrategy args.strategy root.resolution).asStr
      (effectiveExcludeNewer args.excludeNewer root.resolution none))
    (hwrite : writeGraph root args graph deps = .ok w) (hresolve : resolve (maybePriorLockfile kdlParse w) deps = .ok (graph, deps')) :
    (∃ w', cmdFetchLocked kdlParse root resolve w args = .ok w') ↔ ∀ d ∈ graph, d.identity ≠ [] := by
  have hsettles : Settles kdlParse root args graph :=
    ⟨(recorded_of_fromRun hk (fromRun_of_graph hreach hgraph) _ _).mpr hrecordable, determined_of_run hgraph hdirs⟩
  obtain ⟨lock, hlock, hprior, hdeps⟩ := prior_of_writeGraph hsettles hwrite
  obtain ⟨l, text, hl, htext, -⟩ := writeGraph_eq_ok.mp hwrite
  rw [← own_lockfile hlock hsettles.determined]
  constructor
  · rintro ⟨w', h⟩
    obtain ⟨graph', deps'', hresolve', hdrift, -⟩ := cmdFetchLocked_eq_ok.mp h
    rw [hdeps, hresolve] at hresolve'
    obtain ⟨rfl, rfl⟩ := Prod.mk.inj (Except.ok.inj hresolve')
    rwa [hprior] at hdrift
  · intro hdrift
    refine ⟨⟨some text, deps'⟩, cmdFetchLocked_eq_ok.mpr ⟨graph, deps', ?_, ?_, writeGraph_eq_ok.mpr ⟨l, text, hl, htext, rfl⟩⟩⟩
    · rw [hdeps]
      exact hresolve
    · rw [hprior]
      exact hdrift

/-! ### A package that requires the root -/

open Resolver
open DepsView (viewWorld viewUser viewSolution requiresRoot)

/-- The command line of a fetch in that world. -/
def viewRoot : Root := Frozen.packageRoot Frozen.frozenDisk viewUser

/-- The resolve in that world comes to a graph that is recorded, with a node that has no identity or none. -/
def comesToRelock (requires : List Dep) (n : ℕ) (withRoot : Bool) : Bool :=
  comesTo (fun _ => true) (viewWorld requires) viewUser n fun c =>
    match graphOf c.state (viewSolution withRoot) none with
    | .ok graph =>
      decide (ImportSlot.checkDirectorySlotCollisions graph = .ok ()) && decide (Recorded Kdl.read graph "maxver" none) &&
        decide (graph.any (fun d => d.identity.isEmpty) = withRoot)
    | .error _ => false

theorem locked_fetch_again_iff_root : ∃ graph w, writeGraph viewRoot Frozen.plainArgs graph BTreeMap.empty = .ok w ∧
    ¬ ∃ w', cmdFetchLocked Kdl.read viewRoot (fun _ deps => (.ok (graph, deps) : Except Unit _)) w Frozen.plainArgs = .ok w' := by
  obtain ⟨c₀, c, hstart, hrun, hgood⟩ := run_of_comesTo (by decide +kernel : comesToRelock requiresRoot 7 true = true)
  split at hgood
  · rename_i graph hgraph
    simp only [Bool.and_eq_true, decide_eq_true_eq, List.any_eq_true] at hgood
    obtain ⟨⟨hdirs, hrecorded⟩, d, hd, hempty⟩ := hgood
    have hreach : Reachable _ c := ⟨c₀, hstart, hrun⟩
    have hrecordable := (recorded_of_fromRun Kdl.conforms_read (fromRun_of_graph hreach hgraph) _ _).mp hrecorded
    obtain ⟨lock, hlock, text, htext, -⟩ := hrecorded
    have hwrite : writeGraph viewRoot Frozen.plainArgs graph BTreeMap.empty = .ok ⟨some text, BTreeMap.empty⟩ :=
      writeGraph_eq_ok.mpr ⟨lock, text, hlock, htext, rfl⟩
    refine ⟨graph, _, hwrite, fun hex => ?_⟩
    have hrecordable : Recordable graph (effectiveStrategy Frozen.plainArgs.strategy viewRoot.resolution).asStr
        (effectiveExcludeNewer Frozen.plainArgs.excludeNewer viewRoot.resolution none) := hrecordable
    have hall := (locked_fetch_again_iff Kdl.conforms_read hreach hgraph hdirs hrecordable hwrite rfl).mp hex
    exact hall d hd (by simpa using hempty)
  · cases hgood

end Fetch

end Milpa.Core.Drift

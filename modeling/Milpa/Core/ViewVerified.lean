import Milpa.Core.DepsView
import Milpa.Core.ObservedRecord
import Milpa.Core.StoreRuns
import Milpa.Core.TreeContent

/-!
# The view that is verified

A lockfile is made of a graph, and so is the view: the verification finds nothing just
where every node has a slot in the view. A member of a workspace and the root itself have
none, and the slots of two nodes may meet through an alias (`view_verified_iff`). What
changes in the tree of a slot is always reported.
-/

namespace Milpa.Core.DepsView

open ImportSlot (slotOf isElsewhere Linked mem_viewEntries DirectoriesApart checkDirectorySlotCollisions
  checkDirectorySlotCollisions_eq_ok)
open Nimcfg (join)
open Resolver (viewEntries depsView withoutConds)

/-! ### Names -/

theorem not_mem_of_validFlagName {name : Str} (h : validFlagName name = true) {c : Char} (hc : (c.isAlphanum || c == '_' || c == '-') = false) :
    c ∉ name := by
  rw [validFlagName, Bool.and_eq_true, List.all_eq_true] at h
  intro hmem
  rw [h.2 c hmem] at hc
  cases hc

theorem isNested_of_validFlagName {name : Str} (h : validFlagName name = true) : isNested name = false := by
  have hslash := not_mem_of_validFlagName h (c := '/') (by decide)
  simp [isNested, hslash]

theorem isNested_depDirName (name ns : Str) : isNested (depDirName name (some ns)) = true := by
  simp [isNested, depDirName]

/-! ### What a graph has -/

/-- What a graph has that a resolve has made, where its directories are apart and its names are read from a lockfile. -/
structure ViewGraph (graph : List ResolvedDep) : Prop where
  distinct : ∀ a ∈ graph, ∀ b ∈ graph, a.identity ≠ [] → a.identity = b.identity → withoutConds a = withoutConds b
  directories : DirectoriesApart graph
  «local» : ∀ d ∈ graph, (∃ p ∈ d.provenances, isLocalRecord p = true) → isLocalNode d = true ∧ d.identity = []
  names : ∀ d ∈ graph, validFlagName d.name = true ∧ ∀ name ∈ d.aliases, validFlagName name = true

/-- The store has a tree of an identity, as an admission leaves it. -/
def Stored (store : CaStore) (trees : StoreTrees) (identity : Str) : Prop :=
  ∃ path tree, store.pathFor identity = .ok path ∧ trees path = some tree ∧ OnDisk tree ∧ computeContentHash tree = .ok identity

/-- What the callers have done before the view is rebuilt: the trees are admitted, and the local dependencies are linked. -/
structure Prepared (store : CaStore) (trees : StoreTrees) (graph : List ResolvedDep) (deps : DepsDir) : Prop where
  stored : ∀ d ∈ graph, Linked d → Stored store trees d.identity
  linked : ∀ d ∈ graph, isLocalNode d = true → ∃ e, deps.get? d.name = some e ∧ e.isSymlink = true ∧ e.exists = true

/-- Every node has a slot, and no alias of a node leads to a slot of another content. -/
structure Viewable (graph : List ResolvedDep) : Prop where
  placed : ∀ d ∈ graph, Linked d ∨ isLocalNode d = true ∧ d.namespace = none
  aliases : ∀ a ∈ graph, ∀ b ∈ graph, Linked a → Linked b → a.identity ≠ b.identity →
    ∀ name ∈ a.aliases, name ≠ slotOf b ∧ name ∉ b.aliases

section

variable {store : CaStore} {trees : StoreTrees} {graph : List ResolvedDep} {deps : DepsDir} {depsDir : PathBuf} {l : Lockfile}
  {d : ResolvedDep} {slot : Str}

theorem isElsewhere_of_isLocalNode (h : isLocalNode d = true) : isElsewhere d = true := by
  unfold isLocalNode at h
  unfold isElsewhere
  split at h
  · rename_i hhead
    rw [hhead]
  · cases h

theorem isLocalNode_of_linked (h : Linked d) : isLocalNode d = false := by
  by_contra hne
  have hlocal : isLocalNode d = true := by simpa using hne
  rw [Linked, isElsewhere_of_isLocalNode hlocal] at h
  cases h.1

/-- A local node is a local dependency to the verification, and no other node is. -/
theorem ViewGraph.isLocalDep_iff (hg : ViewGraph graph) (hd : d ∈ graph) : isLocalDep (recordedDep d) = true ↔ isLocalNode d = true := by
  have hany : isLocalDep (recordedDep d) = true ↔ ∃ p ∈ d.provenances, isLocalRecord p = true := by
    show d.provenances.any isLocalRecord = true ↔ _
    exact List.any_eq_true
  rw [hany]
  constructor
  · exact fun h => (hg.local d hd h).1
  · intro h
    unfold isLocalNode at h
    split at h
    · rename_i path origin hhead
      exact ⟨_, List.mem_of_mem_head? hhead, rfl⟩
    · cases h

theorem ViewGraph.identity_of_local (hg : ViewGraph graph) (hd : d ∈ graph) (h : isLocalNode d = true) : d.identity = [] := by
  have hlocal := (hg.isLocalDep_iff hd).mpr h
  exact (hg.local d hd (List.any_eq_true.mp hlocal)).2

theorem linked_congr {a b : ResolvedDep} (h : withoutConds a = withoutConds b) (hlinked : Linked a) : Linked b := by
  have hlinked : Linked (withoutConds a) := hlinked
  rw [h] at hlinked
  exact hlinked

theorem isLocalNode_congr {a b : ResolvedDep} (h : withoutConds a = withoutConds b) : isLocalNode a = isLocalNode b := by
  show isLocalNode (withoutConds a) = isLocalNode (withoutConds b)
  rw [h]

/-- Two nodes of one directory are one node. -/
theorem ViewGraph.eq_of_slot (hg : ViewGraph graph) {a b : ResolvedDep} (ha : a ∈ graph) (hb : b ∈ graph) (hslot : slotOf a = slotOf b)
    (hne : a.identity ≠ []) : withoutConds a = withoutConds b :=
  hg.distinct a ha b hb hne (hg.directories.identity_eq ha hb hslot)

/-- What a slot of the view is linked to is the identity of a node that has the slot. -/
theorem exists_linked {identity : Str} (h : (depsView graph).get? slot = some identity) :
    ∃ f ∈ graph, Linked f ∧ (slot = slotOf f ∨ slot ∈ f.aliases) ∧ f.identity = identity := by
  obtain ⟨f, hf, hentry⟩ := List.mem_flatMap.mp (mem_of_depsView h)
  obtain ⟨hlinked, hslot, hidentity⟩ := mem_viewEntries.mp hentry
  exact ⟨f, hf, hlinked, hslot, hidentity.symm⟩

theorem exists_depsView_of_linked (hd : d ∈ graph) (hlinked : Linked d) (hslot : slot = slotOf d ∨ slot ∈ d.aliases) :
    ∃ identity, (depsView graph).get? slot = some identity := by
  have hentry : (slot, d.identity) ∈ graph.flatMap viewEntries :=
    List.mem_flatMap.mpr ⟨d, hd, mem_viewEntries.mpr ⟨hlinked, hslot, rfl⟩⟩
  exact exists_depsView hentry

/-- The slot of a local node with a namespace is not one of the view. -/
theorem ViewGraph.depsView_of_nested (hg : ViewGraph graph) (hd : d ∈ graph) (hne : ¬ Linked d) {ns : Str} (hns : d.namespace = some ns) : (depsView graph).get? (slotOf d) = none := by
  by_contra hsome
  obtain ⟨identity, hidentity⟩ := Option.ne_none_iff_exists'.mp hsome
  obtain ⟨f, hf, hlinked, hslot | halias, -⟩ := exists_linked hidentity
  · exact hne (linked_congr (hg.eq_of_slot hf hd hslot.symm hlinked.2) hlinked)
  · have hnested : isNested (slotOf d) = true := by rw [slotOf, hns]; exact isNested_depDirName _ _
    rw [isNested_of_validFlagName ((hg.names f hf).2 _ halias)] at hnested
    cases hnested

/-! ### The links of the view -/

theorem linkTo_of_stored {identity : Str} (h : Stored store trees identity) :
    ∃ path tree, store.pathFor identity = .ok path ∧ OnDisk tree ∧ computeContentHash tree = .ok identity ∧
      linkTo store trees identity = some ⟨some path, .tree tree⟩ := by
  obtain ⟨path, tree, hpath, htree, hdisk, hhash⟩ := h
  refine ⟨path, tree, hpath, hdisk, hhash, ?_⟩
  rw [linkTo, hpath]
  show (trees path).bind _ = _
  rw [htree]
  rfl

/-- A slot of the view is a link to a tree in the store. -/
theorem Prepared.rebuilt (hp : Prepared store trees graph deps) {identity : Str} (h : (depsView graph).get? slot = some identity) :
    ∃ path tree, store.pathFor identity = .ok path ∧ OnDisk tree ∧ computeContentHash tree = .ok identity ∧
      (rebuildDepsView store trees graph deps).get? slot = some ⟨some path, .tree tree⟩ := by
  obtain ⟨f, hf, hlinked, -, rfl⟩ := exists_linked h
  obtain ⟨path, tree, hpath, hdisk, hhash, hlink⟩ := linkTo_of_stored (hp.stored f hf hlinked)
  refine ⟨path, tree, hpath, hdisk, hhash, ?_⟩
  rw [get?_rebuildDepsView, h, Option.bind_some, hlink, Option.some_or]

/-- Another slot has what it had, if it is the name of a local node. -/
theorem rebuilt_of_none (h : (depsView graph).get? slot = none) : (rebuildDepsView store trees graph deps).get? slot =
    if isNested slot = false ∧ slot ∈ localNames graph then deps.get? slot else none := by
  rw [get?_rebuildDepsView, h, Option.bind_none, Option.none_or]
  by_cases hkept : isNested slot = false ∧ slot ∈ localNames graph
  · rw [if_pos hkept, if_pos]
    simp [isKept, h, hkept]
  · rw [if_neg hkept, if_neg]
    simpa [isKept, h] using hkept

/-! ### What passes -/

variable {locked : LockedDep}

theorem verifyLocked_local (h : isLocalDep locked = true) : verifyLocked depsDir deps locked = [] ↔
    ∃ e, deps.get? (lockedSlot locked) = some e ∧ e.isSymlink = true ∧ e.exists = true := by
  rw [verifyLocked, if_pos h]
  cases deps.get? (lockedSlot locked) with
  | none => simp [verifyLocalDepLiveness]
  | some e => cases hlink : e.isSymlink <;> cases hexists : e.exists <;> simp [verifyLocalDepLiveness, hlink, hexists]

theorem verifyAlias_eq_none {canonical : Option PathBuf} {name : Str} : verifyAlias depsDir deps locked canonical name = none ↔
    ∃ e, deps.get? name = some e ∧ canonical ≠ none ∧ e.canonicalize depsDir name = canonical := by
  unfold verifyAlias
  cases deps.get? name with
  | none => simp
  | some e =>
    have hgone : e.exists = false → e.canonicalize depsDir name = none := fun h => by simp [Entry.canonicalize, h]
    dsimp only
    split_ifs with hdangling helse
    · have hexists : e.exists = false := by simpa using (Bool.and_eq_true_iff.mp hdangling).2
      simp only [Option.some.injEq, false_iff, not_exists, not_and]
      rintro _ rfl hne heq
      exact hne (heq.symm.trans (hgone hexists))
    · simp only [Option.some.injEq, false_iff, not_exists, not_and]
      rintro _ rfl hne heq
      rcases helse with hnone | hnone | hother
      · exact hne hnone
      · exact hne (heq.symm.trans hnone)
      · exact hother heq
    · push Not at helse
      exact iff_of_true rfl ⟨e, rfl, helse.1, helse.2.2⟩

theorem verifyLocked_remote (h : isLocalDep locked = false) : verifyLocked depsDir deps locked = [] ↔
    ∃ e tree s, deps.get? (lockedSlot locked) = some e ∧ e.reached = .tree tree ∧ computeContentHash tree = .ok s ∧
      locked.identity = some s ∧ ∀ name ∈ locked.aliases, ∃ e', deps.get? name = some e' ∧
        e'.canonicalize depsDir name = e.canonicalize depsDir (lockedSlot locked) := by
  rw [verifyLocked, if_neg (by simp [h])]
  cases hget : deps.get? (lockedSlot locked) with
  | none => simp [classifyDepPath]
  | some e =>
    have hsome : ∀ P : Entry → DiskTree → Str → Prop, (∃ e' tree s, some e = some e' ∧ e'.reached = .tree tree ∧ P e' tree s) ↔
        ∃ tree s, e.reached = .tree tree ∧ P e tree s := fun P =>
      ⟨fun ⟨_, tree, s, he, hreached, hP⟩ => by cases he; exact ⟨tree, s, hreached, hP⟩,
        fun ⟨tree, s, hreached, hP⟩ => ⟨e, tree, s, rfl, hreached, hP⟩⟩
    rw [hsome]
    cases hreached : e.reached with
    | gone =>
      have hexists : e.exists = false := by simp [Entry.exists, hreached]
      cases hlink : e.isSymlink <;> simp [classifyDepPath, hlink, hexists, verifyIdentity, hreached]
    | unreadable =>
      have hexists : e.exists = true := by simp [Entry.exists, hreached]
      simp [classifyDepPath, hexists, verifyIdentity, hreached]
    | tree tree =>
      have hexists : e.exists = true := by simp [Entry.exists, hreached]
      have hreal : e.canonicalize depsDir (lockedSlot locked) ≠ none := by simp [Entry.canonicalize, hexists]
      have hstructural : classifyDepPath locked.name (some e) = none := by simp [classifyDepPath, hexists]
      rw [hstructural]
      dsimp only
      rw [verifyIdentity, hreached]
      dsimp only
      cases hhash : computeContentHash tree with
      | error err => simp [hhash]
      | ok actual =>
        have haliases : (sortByKey id locked.aliases).filterMap
            (verifyAlias depsDir deps locked (e.canonicalize depsDir (lockedSlot locked))) = [] ↔
              ∀ name ∈ locked.aliases, ∃ e', deps.get? name = some e' ∧
                e'.canonicalize depsDir name = e.canonicalize depsDir (lockedSlot locked) := by
          simp only [List.filterMap_eq_nil_iff, mem_sortByKey, verifyAlias_eq_none]
          exact forall₂_congr fun name _ => by simp [hreal]
        simp only [List.append_eq_nil_iff, haliases, ite_eq_left_iff, reduceCtorEq, imp_false, not_not, Reached.tree.injEq]
        constructor
        · rintro ⟨hidentity, hrest⟩
          exact ⟨tree, actual, rfl, hhash, hidentity, hrest⟩
        · rintro ⟨_, s, rfl, hs, hidentity, hrest⟩
          rw [hhash] at hs
          cases hs
          exact ⟨hidentity, hrest⟩

/-- **What a verification without findings says.** -/
theorem verify_eq_nil : verifyLockfileAgainstDeps l depsDir deps = [] ↔
    (∀ locked ∈ l.deps, verifyLocked depsDir deps locked = []) ∧
      ∀ slot, deps.get? slot ≠ none → isHidden slot = false → slot ∈ expectedNames l := by
  rw [verifyLockfileAgainstDeps, List.append_eq_nil_iff, List.flatMap_eq_nil_iff, extras, List.map_eq_nil_iff,
    List.filter_eq_nil_iff]
  refine and_congr_right fun _ => forall_congr' fun slot => ?_
  rw [BTreeMap.mem_keys, ← Option.ne_none_iff_exists']
  simp

/-- A tree with another hash is reported. -/
theorem reported_of_hash {e : Entry} {tree : DiskTree} {identity : Str} (hlocal : isLocalDep locked = false)
    (hget : deps.get? (lockedSlot locked) = some e) (hreached : e.reached = .tree tree) (hidentity : locked.identity = some identity)
    (hne : computeContentHash tree ≠ .ok identity) : ∃ f ∈ verifyLocked depsDir deps locked, f.name = locked.name := by
  have hexists : e.exists = true := by simp [Entry.exists, hreached]
  have hstructural : classifyDepPath locked.name (some e) = none := by simp [classifyDepPath, hexists]
  rw [verifyLocked, if_neg (by simp [hlocal]), hget, hstructural]
  dsimp only
  rw [verifyIdentity, hreached]
  dsimp only
  cases hhash : computeContentHash tree with
  | error err => exact ⟨.cannotHash locked.name err, List.mem_append_left _ List.mem_cons_self, rfl⟩
  | ok actual =>
    have hdiffers : locked.identity ≠ some actual := by
      rw [hidentity]
      rintro heq
      rw [hhash, Option.some.inj heq] at hne
      exact hne rfl
    refine ⟨.identityMismatch locked.name locked.identity actual, List.mem_append_left _ ?_, rfl⟩
    dsimp only
    rw [if_neg hdiffers]
    exact List.mem_cons_self

/-! ### The view of a graph -/

/-- The slots of a linked node are linked to its identity. -/
def OwnSlots (graph : List ResolvedDep) : Prop :=
  ∀ d ∈ graph, Linked d → ∀ slot, (slot = slotOf d ∨ slot ∈ d.aliases) → (depsView graph).get? slot = some d.identity

theorem ownSlots_of_aliases (hg : ViewGraph graph) (haliases : ∀ a ∈ graph, ∀ b ∈ graph, Linked a → Linked b → a.identity ≠ b.identity →
    ∀ name ∈ a.aliases, name ≠ slotOf b ∧ name ∉ b.aliases) : OwnSlots graph := by
  intro d hd hlinked slot hslot
  obtain ⟨identity, hidentity⟩ := exists_depsView_of_linked hd hlinked hslot
  obtain ⟨f, hf, hlinked', hslot', rfl⟩ := exists_linked hidentity
  rw [hidentity, Option.some.injEq]
  by_contra hne
  rcases hslot with hdir | halias
  · rcases hslot' with hdir' | halias'
    · have hidentity : (withoutConds f).identity = (withoutConds d).identity :=
        congrArg ResolvedDep.identity (hg.eq_of_slot hf hd (hdir'.symm.trans hdir) hlinked'.2)
      exact hne hidentity
    · exact (haliases f hf d hd hlinked' hlinked hne slot halias').1 hdir
  · rcases hslot' with hdir' | halias'
    · exact (haliases d hd f hf hlinked hlinked' (Ne.symm hne) slot halias).1 hdir'
    · exact (haliases d hd f hf hlinked hlinked' (Ne.symm hne) slot halias).2 halias'

theorem OwnSlots.aliases (h : OwnSlots graph) : ∀ a ∈ graph, ∀ b ∈ graph, Linked a → Linked b → a.identity ≠ b.identity →
    ∀ name ∈ a.aliases, name ≠ slotOf b ∧ name ∉ b.aliases := by
  intro a ha b hb hla hlb hne name hname
  have hown := h a ha hla name (.inr hname)
  have hclash : ∀ {slot}, (slot = slotOf b ∨ slot ∈ b.aliases) → name ≠ slot := fun hslot heq => by
    rw [heq, h b hb hlb _ hslot, Option.some.injEq] at hown
    exact hne hown.symm
  exact ⟨hclash (.inl rfl), fun hmem => hclash (.inr hmem) rfl⟩

/-- The lockfile of a graph. -/
def LocksGraph (l : Lockfile) (graph : List ResolvedDep) : Prop := ∀ locked, locked ∈ l.deps ↔ ∃ d ∈ graph, recordedDep d = locked

/-- A verification finds nothing in the view, and reports every change of a tree. -/
structure ViewVerified (store : CaStore) (trees : StoreTrees) (depsDir : PathBuf) (l : Lockfile) (graph : List ResolvedDep)
    (deps : DepsDir) : Prop where
  clean : verifyLockfileAgainstDeps l depsDir (rebuildDepsView store trees graph deps) = []
  changes : ∀ d ∈ graph, Linked d → ∀ e tree tree', (rebuildDepsView store trees graph deps).get? (slotOf d) = some e →
    e.reached = .tree tree → OnDisk tree' → NoTreeCollision tree tree' → ¬ SameContent tree tree' →
      ∃ f ∈ verifyLockfileAgainstDeps l depsDir ((rebuildDepsView store trees graph deps).insert (slotOf d) { e with reached := .tree tree' }),
        f.name = d.name

theorem ViewGraph.remote (hg : ViewGraph graph) (hd : d ∈ graph) (hlocal : isLocalNode d = false) : isLocalDep (recordedDep d) = false := by
  by_contra hne
  rw [Bool.not_eq_false, hg.isLocalDep_iff hd, hlocal] at hne
  cases hne

/-- What a remote node of a graph has when it passes. -/
theorem passes_iff (hg : ViewGraph graph) (hd : d ∈ graph) (hlocal : isLocalNode d = false) :
    verifyLocked depsDir deps (recordedDep d) = [] ↔
      ∃ e tree, deps.get? (slotOf d) = some e ∧ e.reached = .tree tree ∧ computeContentHash tree = .ok d.identity ∧ d.identity ≠ [] ∧
        ∀ name ∈ d.aliases, ∃ e', deps.get? name = some e' ∧ e'.canonicalize depsDir name = e.canonicalize depsDir (slotOf d) := by
  have hopt : ∀ s, opt d.identity = some s ↔ d.identity = s ∧ d.identity ≠ [] := fun s => by
    rw [opt]
    by_cases hnil : d.identity = [] <;> simp [hnil]
  rw [verifyLocked_remote (hg.remote hd hlocal)]
  constructor
  · rintro ⟨e, tree, s, hget, hreached, hhash, hidentity, haliases⟩
    obtain ⟨rfl, hne⟩ := (hopt s).mp hidentity
    exact ⟨e, tree, hget, hreached, hhash, hne, haliases⟩
  · rintro ⟨e, tree, hget, hreached, hhash, hne, haliases⟩
    exact ⟨e, tree, d.identity, hget, hreached, hhash, (hopt _).mpr ⟨rfl, hne⟩, haliases⟩

/-- A view without findings links every node to its own identity. -/
theorem ownSlots_of_clean (hg : ViewGraph graph) (hp : Prepared store trees graph deps)
    (hclean : ∀ d ∈ graph, verifyLocked depsDir (rebuildDepsView store trees graph deps) (recordedDep d) = []) : OwnSlots graph := by
  intro d hd hlinked
  obtain ⟨e, tree, hget, hreached, hhash, -, haliases⟩ := (passes_iff hg hd (isLocalNode_of_linked hlinked)).mp (hclean d hd)
  -- The slot of the node itself: its tree has the hash that the view links.
  obtain ⟨identity, hidentity⟩ := exists_depsView_of_linked hd hlinked (.inl rfl)
  obtain ⟨path, tree', hpath, -, hhash', hget'⟩ := hp.rebuilt hidentity
  rw [hget, Option.some.injEq] at hget'
  subst hget'
  cases hreached
  rw [hhash, Except.ok.injEq] at hhash'
  subst hhash'
  intro slot hslot
  rcases hslot with rfl | halias
  · exact hidentity
  · obtain ⟨e', hget', hreal⟩ := haliases slot halias
    obtain ⟨other, hother⟩ := exists_depsView_of_linked hd hlinked (.inr halias)
    obtain ⟨path', tree', hpath', -, -, hget''⟩ := hp.rebuilt hother
    rw [hget', Option.some.injEq] at hget''
    subst hget''
    have hreal : some path' = some path := hreal
    rw [hother, pathFor_injective hpath' (Option.some.inj hreal ▸ hpath)]

/-- A node that passes is linked, or is a local one without a namespace. -/
theorem placed_of_clean (hg : ViewGraph graph) (hp : Prepared store trees graph deps)
    (hclean : ∀ d ∈ graph, verifyLocked depsDir (rebuildDepsView store trees graph deps) (recordedDep d) = []) :
    ∀ d ∈ graph, Linked d ∨ isLocalNode d = true ∧ d.namespace = none := by
  have hbare : ∀ d ∈ graph, isLocalNode d = true → d.namespace = none := by
    intro d hd hlocal
    by_contra hns
    obtain ⟨ns, hns⟩ := Option.ne_none_iff_exists'.mp hns
    obtain ⟨e, hget, -⟩ := (verifyLocked_local ((hg.isLocalDep_iff hd).mpr hlocal)).mp (hclean d hd)
    have hunlinked : ¬ Linked d := fun hlinked => by
      rw [isLocalNode_of_linked hlinked] at hlocal
      cases hlocal
    have hnested : isNested (slotOf d) = true := by rw [slotOf, hns]; exact isNested_depDirName _ _
    have hnone : (rebuildDepsView store trees graph deps).get? (slotOf d) = none := by
      rw [rebuilt_of_none (hg.depsView_of_nested hd hunlinked hns), if_neg (by simp [hnested])]
    cases hnone.symm.trans hget
  intro d hd
  by_cases hlinked : Linked d
  · exact .inl hlinked
  cases hlocal : isLocalNode d with
  | true => exact .inr ⟨rfl, hbare d hd hlocal⟩
  | false =>
    exfalso
    obtain ⟨e, tree, hget, hreached, hhash, hne, -⟩ := (passes_iff hg hd hlocal).mp (hclean d hd)
    cases hview : (depsView graph).get? (slotOf d) with
    | some identity =>
      -- Another node would have the identity.
      obtain ⟨path, tree', -, -, hhash', hget'⟩ := hp.rebuilt hview
      rw [hget, Option.some.injEq] at hget'
      subst hget'
      cases hreached
      rw [hhash, Except.ok.injEq] at hhash'
      obtain ⟨f, hf, hlinked', -, hidentity⟩ := exists_linked hview
      exact hlinked (linked_congr (hg.distinct d hd f hf hne (hhash'.trans hidentity.symm)).symm hlinked')
    | none =>
      -- A local node would have the slot, and so the content.
      rw [rebuilt_of_none hview] at hget
      split_ifs at hget with hkept
      obtain ⟨f, hf, hname⟩ := List.mem_map.mp hkept.2
      obtain ⟨hf, hflocal⟩ := List.mem_filter.mp hf
      have hslot : slotOf d = slotOf f := by rw [← hname, slotOf, hbare f hf hflocal]; rfl
      rw [isLocalNode_congr (hg.eq_of_slot hd hf hslot hne), hflocal] at hlocal
      cases hlocal

/-- What is in the slot of a node in a view where every node has its own slots. -/
theorem OwnSlots.rebuilt (hown : OwnSlots graph) (hp : Prepared store trees graph deps) (hd : d ∈ graph) (hlinked : Linked d)
    (hslot : slot = slotOf d ∨ slot ∈ d.aliases) : ∃ path tree, store.pathFor d.identity = .ok path ∧ OnDisk tree ∧
      computeContentHash tree = .ok d.identity ∧
        (rebuildDepsView store trees graph deps).get? slot = some ⟨some path, .tree tree⟩ :=
  hp.rebuilt (hown d hd hlinked slot hslot)

theorem clean_of_viewable (hg : ViewGraph graph) (hp : Prepared store trees graph deps) (hl : LocksGraph l graph) (hv : Viewable graph) :
    verifyLockfileAgainstDeps l depsDir (rebuildDepsView store trees graph deps) = [] := by
  have hown := ownSlots_of_aliases hg hv.aliases
  have hexpected : ∀ d ∈ graph, ∀ slot, (slot = slotOf d ∨ slot ∈ d.aliases) → slot ∈ expectedNames l := fun d hd slot hslot =>
    List.mem_flatMap.mpr ⟨recordedDep d, (hl _).mpr ⟨d, hd, rfl⟩, List.mem_cons.mpr hslot⟩
  rw [verify_eq_nil]
  constructor
  · intro locked hlocked
    obtain ⟨d, hd, rfl⟩ := (hl locked).mp hlocked
    rcases hv.placed d hd with hlinked | ⟨hlocal, hns⟩
    · obtain ⟨path, tree, hpath, -, hhash, hget⟩ := hown.rebuilt hp hd hlinked (.inl rfl)
      refine (passes_iff hg hd (isLocalNode_of_linked hlinked)).mpr ⟨_, tree, hget, rfl, hhash, hlinked.2, fun name hname => ?_⟩
      obtain ⟨path', tree', hpath', -, -, hget'⟩ := hown.rebuilt hp hd hlinked (.inr hname)
      rw [hpath, Except.ok.injEq] at hpath'
      subst hpath'
      exact ⟨_, hget', rfl⟩
    · rw [verifyLocked_local ((hg.isLocalDep_iff hd).mpr hlocal)]
      have hslot : lockedSlot (recordedDep d) = d.name := by
        show depDirName d.name d.namespace = d.name
        rw [hns]
        rfl
      rw [hslot]
      cases hview : (depsView graph).get? d.name with
      | some identity =>
        obtain ⟨path, tree, -, -, -, hget⟩ := hp.rebuilt hview
        exact ⟨_, hget, rfl, rfl⟩
      | none =>
        obtain ⟨e, hget, hlive⟩ := hp.linked d hd hlocal
        refine ⟨e, ?_, hlive⟩
        rw [rebuilt_of_none hview, if_pos, hget]
        exact ⟨isNested_of_validFlagName (hg.names d hd).1, List.mem_map.mpr ⟨d, List.mem_filter.mpr ⟨hd, hlocal⟩, rfl⟩⟩
  · intro slot hslot _
    cases hview : (depsView graph).get? slot with
    | some identity =>
      obtain ⟨f, hf, -, hslot, -⟩ := exists_linked hview
      exact hexpected f hf slot hslot
    | none =>
      rw [rebuilt_of_none hview] at hslot
      split_ifs at hslot with hkept
      · obtain ⟨f, hf, hname⟩ := List.mem_map.mp hkept.2
        obtain ⟨hf, hlocal⟩ := List.mem_filter.mp hf
        rcases hv.placed f hf with hlinked | ⟨-, hns⟩
        · rw [isLocalNode_of_linked hlinked] at hlocal
          cases hlocal
        · exact hexpected f hf slot (.inl (by rw [← hname, slotOf, hns]; rfl))
      · exact absurd rfl hslot

theorem changes_of_viewable (hg : ViewGraph graph) (hp : Prepared store trees graph deps) (hl : LocksGraph l graph) (hv : Viewable graph)
    (hd : d ∈ graph) (hlinked : Linked d) {e : Entry} {tree tree' : DiskTree}
    (hget : (rebuildDepsView store trees graph deps).get? (slotOf d) = some e) (hreached : e.reached = .tree tree) (hdisk : OnDisk tree')
    (hcoll : NoTreeCollision tree tree') (hchange : ¬ SameContent tree tree') :
    ∃ f ∈ verifyLockfileAgainstDeps l depsDir ((rebuildDepsView store trees graph deps).insert (slotOf d) { e with reached := .tree tree' }),
      f.name = d.name := by
  obtain ⟨path, stored, -, hstored, hhash, hget'⟩ := (ownSlots_of_aliases hg hv.aliases).rebuilt hp hd hlinked (.inl rfl)
  rw [hget, Option.some.injEq] at hget'
  subst hget'
  cases hreached
  have hidentity : (recordedDep d).identity = some d.identity := by
    show opt d.identity = _
    rw [opt, if_neg (by simpa using hlinked.2)]
  have hinserted : ((rebuildDepsView store trees graph deps).insert (slotOf d) ⟨some path, .tree tree'⟩).get? (lockedSlot (recordedDep d)) =
      some ⟨some path, .tree tree'⟩ := (BTreeMap.get?_insert _ _ _ _).trans (if_pos rfl)
  have hreport : ∃ f ∈ verifyLocked depsDir
      ((rebuildDepsView store trees graph deps).insert (slotOf d) ⟨some path, .tree tree'⟩) (recordedDep d), f.name = d.name :=
    reported_of_hash (hg.remote hd (isLocalNode_of_linked hlinked)) hinserted rfl hidentity fun hhash' =>
      hchange (sameContent_of_hash hstored hdisk hcoll hhash hhash')
  obtain ⟨f, hf, hname⟩ := hreport
  exact ⟨f, List.mem_append_left _ (List.mem_flatMap.mpr ⟨recordedDep d, (hl _).mpr ⟨d, hd, rfl⟩, hf⟩), hname⟩

/-- The view of a graph is verified just where every node has its own slots. -/
theorem viewVerified_iff (hg : ViewGraph graph) (hp : Prepared store trees graph deps) (hl : LocksGraph l graph) :
    ViewVerified store trees depsDir l graph deps ↔ Viewable graph := by
  constructor
  · intro h
    have hclean : ∀ d ∈ graph, verifyLocked depsDir (rebuildDepsView store trees graph deps) (recordedDep d) = [] := fun d hd =>
      (verify_eq_nil.mp h.clean).1 _ ((hl _).mpr ⟨d, hd, rfl⟩)
    exact ⟨placed_of_clean hg hp hclean, (ownSlots_of_clean hg hp hclean).aliases⟩
  · intro hv
    exact ⟨clean_of_viewable hg hp hl hv, fun d hd hlinked e tree tree' hget hreached hdisk hcoll hchange =>
      changes_of_viewable hg hp hl hv hd hlinked hget hreached hdisk hcoll hchange⟩

end

/-! ### The graph of a run -/

section

open Resolver

variable {ctx : ResolveCtx} {c : Config} {solution : Solution} {trust : Option EntryTrust} {graph : List ResolvedDep}

/-- Nodes of one identity stand for one package. -/
theorem distinct_of_graph (h : graphOf c.state solution trust = .ok graph) {a b : ResolvedDep} (ha : a ∈ graph) (hb : b ∈ graph)
    (hne : a.identity ≠ []) (hidentity : a.identity = b.identity) : withoutConds a = withoutConds b := by
  obtain ⟨name, hname, cand, hcand, hnode⟩ := mem_graph h ha
  obtain ⟨name', hname', cand', hcand', hnode'⟩ := mem_graph h hb
  have hpicked : pickedIdentity c.state solution name = a.identity := by
    rw [pickedIdentity, hcand]
    exact (congrArg ResolvedDep.identity hnode).symm
  have hpicked' : pickedIdentity c.state solution name' = b.identity := by
    rw [pickedIdentity, hcand']
    exact (congrArg ResolvedDep.identity hnode').symm
  obtain ⟨hsolved, hkept⟩ := mem_survivors.mp hname
  obtain ⟨hsolved', hkept'⟩ := mem_survivors.mp hname'
  -- Of two packages with one identity, the one that was discovered later is folded.
  have hsame : name = name' := by
    by_contra hdiff
    have hkey : discoveryKey c.state name ≠ discoveryKey c.state name' := fun heq => hdiff (discoveryKey_injective heq)
    rcases lt_or_gt_of_ne hkey with hlt | hlt
    · exact folded_of_before hsolved' hsolved (by rwa [hpicked', ← hidentity]) (by rw [hpicked, hpicked', hidentity]) hlt hkept'
    · exact folded_of_before hsolved hsolved' (by rwa [hpicked]) (by rw [hpicked, hpicked', hidentity]) hlt hkept
  subst hsame
  rw [hcand, Option.some.injEq] at hcand'
  rw [hnode, hnode', hcand']

/-- A package that is folded has an identity. -/
theorem identity_of_mem_aliasesOf {name other : Str} (h : other ∈ aliasesOf c.state solution name) :
    pickedIdentity c.state solution other ≠ [] := by
  have hfolded := h
  rw [aliasesOf] at hfolded
  cases hget : (canonicalAliases c.state solution).get? name with
  | none =>
    rw [hget] at hfolded
    cases hfolded
  | some aliases =>
    obtain ⟨next, rest, hsolved, hsort, -⟩ := get?_canonicalAliases.mp hget
    obtain ⟨others, hgroup⟩ := sort_groupOf hsolved
    have hrep : representative c.state solution name = name := by
      rw [hsort] at hgroup
      exact (List.cons.inj hgroup).1.symm
    obtain ⟨hother, hne, heq⟩ := (mem_aliasesOf hsolved hrep).mp h
    exact (folded_cases hother fun hself => hne (hself.symm.trans heq)).1

/-- Only a package that is local by its first record has a local one, and no identity. -/
theorem local_of_graph (hremote : RemoteIndex ctx) (hreach : Reachable ctx c) (h : graphOf c.state solution trust = .ok graph)
    {d : ResolvedDep} (hd : d ∈ graph) (hlocal : ∃ p ∈ d.provenances, isLocalRecord p = true) : isLocalNode d = true ∧ d.identity = [] := by
  have hevery := localBare_of_reachable hremote hreach
  have hbare : ∀ {name cand}, picked c.state solution name = some cand → LocalBare cand := fun hcand => by
    obtain ⟨v, -, hcand⟩ := Option.bind_eq_some_iff.mp hcand
    exact hevery _ v _ hcand
  obtain ⟨name, -, cand, hcand, hnode⟩ := mem_graph h hd
  have hprovs : d.provenances = provenancesOf c.state solution (canonicalAliases c.state solution) (redirected c.state solution cand) :=
    congrArg ResolvedDep.provenances hnode
  have hidentity : d.identity = cand.identity := congrArg ResolvedDep.identity hnode
  obtain ⟨p, hp, hplocal⟩ := hlocal
  obtain ⟨path, origin, rfl⟩ : ∃ path origin, p = .local path origin := by
    cases p <;> first | exact ⟨_, _, rfl⟩ | cases hplocal
  rw [hprovs] at hp
  rcases List.mem_cons.mp hp with hfirst | hrest
  · refine ⟨?_, ?_⟩
    · rw [isLocalNode, hprovs, provenancesOf, List.cons_append, List.head?_cons, ← hfirst]
    · rw [hidentity]
      exact hbare hcand path origin hfirst.symm
  · rcases List.mem_append.mp hrest with hmirror | hfolded
    · obtain ⟨mirror, -, hmirror⟩ := List.mem_map.mp hmirror
      cases hmirror
    · -- What is folded into a node has an identity.
      obtain ⟨other, hother, hrecord⟩ := List.mem_filterMap.mp hfolded
      obtain ⟨folded, hpicked, hrecord⟩ := Option.bind_eq_some_iff.mp hrecord
      have hempty : folded.identity = [] := hbare hpicked path origin (by rw [observedRecord, hrecord]; rfl)
      refine absurd ?_ (identity_of_mem_aliasesOf hother)
      rw [pickedIdentity, hpicked]
      exact hempty

/-- The graph of a run, where its directories are apart and its names are read. -/
theorem viewGraph_of_run (hremote : RemoteIndex ctx) (hreach : Reachable ctx c) (h : graphOf c.state solution trust = .ok graph)
    (hdirs : checkDirectorySlotCollisions graph = .ok ())
    (hnames : ∀ d ∈ graph, validFlagName d.name = true ∧ ∀ name ∈ d.aliases, validFlagName name = true) : ViewGraph graph where
  distinct _ ha _ hb := distinct_of_graph h ha hb
  directories := checkDirectorySlotCollisions_eq_ok.mp hdirs
  «local» _ hd := local_of_graph hremote hreach h hd
  names := hnames

end

open Milpa.Kdl Resolver

/-- **A view is verified** just where every node of the graph has a slot: is content-addressed, or local without a namespace; and no
alias leads to a slot of another content. -/
theorem view_verified_iff :
    ∀ kdlParse ctx c solution trust graph strategy excludeNewer l text l' store trees depsDir deps, Conforms kdlParse → RemoteIndex ctx →
      Reachable ctx c → graphOf c.state solution trust = .ok graph → KnownPredicates graph →
      checkDirectorySlotCollisions graph = .ok () → fromGraph graph strategy excludeNewer = some l → formatLockfile l = some text →
      parseLockfile kdlParse text = .ok l' → Prepared store trees graph deps →
        (ViewVerified store trees depsDir l graph deps ↔ Viewable graph) := by
  intro kdlParse ctx c solution trust graph strategy excludeNewer l text l' store trees depsDir deps hk hremote hreach hgraph hknown hdirs
    hlock htext hparse hp
  have hrun := fromRun_of_graph hreach hgraph
  rw [fromGraph_eq hrun, Option.some.injEq] at hlock
  subst hlock
  have hlocks : LocksGraph (lockOf graph strategy excludeNewer) graph := fun locked => by
    show locked ∈ sortByKey lockedKey (graph.map recordedDep) ↔ _
    rw [mem_sortByKey, List.mem_map]
  have hnames := names_of_lockfileOf (lockfileOf_of_parse hk (writable_lockOf hrun hknown strategy excludeNewer) htext hparse)
  have hg : ViewGraph graph := viewGraph_of_run hremote hreach hgraph hdirs fun d hd =>
    hnames (recordedDep d) ((hlocks _).mpr ⟨d, hd, rfl⟩)
  exact viewVerified_iff hg hp hlocks

/-! ### The root in its own view -/

/-- A world with one package. -/
def viewWorld (requires : List Dep) : ResolveCtx :=
  { ResolveCtx.offline with fetch := fetchFrom [("https://h/lib", treeOf Store.emptyIdentity { Manifest.initial with deps := requires })] }

/-- A root that depends on it. -/
def viewUser : Manifest := { Manifest.initial with name := some "app", deps := [.url (urlDep "lib" "https://h/lib" "main" none)] }

/-- A package that requires the root again. -/
def requiresRoot : List Dep := [.named ⟨"app", none, none, [], false, [], none⟩]

/-- The solution without the root, and the one with it. -/
def viewSolution (withRoot : Bool) : Solution :=
  let alone : Solution := BTreeMap.empty.insert ("git+https://h/lib#ref=main" : Str) urlDepVersion
  if withRoot then alone.insert ("member+app" : Str) urlDepVersion else alone

/-- A store with the tree of the package. -/
def viewTrees : StoreTrees := fun path => if path = Store.racePath then some BTreeMap.empty else none

theorem prepared_viewTrees {graph : List ResolvedDep} (hidentity : ∀ d ∈ graph, d.identity ≠ [] → d.identity = Store.emptyIdentity)
    (hlocal : ∀ d ∈ graph, isLocalNode d = false) (deps : DepsDir) : Prepared Store.raceStore viewTrees graph deps where
  stored d hd hlinked := by
    rw [hidentity d hd hlinked.2]
    refine ⟨Store.racePath, BTreeMap.empty, by decide, if_pos rfl, ⟨rfl, fun p c _ h => absurd rfl h, fun p h => absurd rfl h⟩, ?_⟩
    decide +kernel
  linked d hd h := by
    rw [hlocal d hd] at h
    cases h

/-- The resolve in that world comes to a graph, whose lockfile is read; the root is a node of it, or not. -/
def comesToView (requires : List Dep) (n : ℕ) (withRoot : Bool) : Bool :=
  comesTo (fun _ => true) (viewWorld requires) viewUser n fun c =>
    match graphOf c.state (viewSolution withRoot) none with
    | .ok graph =>
      decide (Resolver.Closed c.state (viewSolution withRoot)) && decide (KnownPredicates graph) &&
        decide (checkDirectorySlotCollisions graph = .ok ()) && (rereadGraph graph).isSome &&
        graph.all (fun d => (d.identity.isEmpty || decide (d.identity = Store.emptyIdentity)) && !isLocalNode d) &&
        decide ((graph.map fun d => d.identity.isEmpty) = if withRoot then [true, false] else [false])
    | .error _ => false

theorem exists_of_comesToView {requires : List Dep} {n : ℕ} {withRoot : Bool} (h : comesToView requires n withRoot = true) :
    ∃ ctx c graph l text l', RemoteIndex ctx ∧ Reachable ctx c ∧ Resolver.Closed c.state (viewSolution withRoot) ∧
      graphOf c.state (viewSolution withRoot) none = .ok graph ∧ KnownPredicates graph ∧ checkDirectorySlotCollisions graph = .ok () ∧
      fromGraph graph "semver" none = some l ∧ formatLockfile l = some text ∧ parseLockfile read text = .ok l' ∧
      (∀ deps, Prepared Store.raceStore viewTrees graph deps) ∧ (∀ d ∈ graph, isLocalNode d = false) ∧
      (graph.map fun d => d.identity.isEmpty) = if withRoot then [true, false] else [false] := by
  obtain ⟨c₀, c, hstart, hrun, hgood⟩ := run_of_comesTo h
  split at hgood
  · rename_i graph hgraph
    simp only [Bool.and_eq_true, decide_eq_true_eq, List.all_eq_true, Bool.or_eq_true, Bool.not_eq_true'] at hgood
    obtain ⟨⟨⟨⟨⟨hclosed, hknown⟩, hdirs⟩, hread⟩, hplain⟩, hnodes⟩ := hgood
    obtain ⟨l', hreread⟩ := Option.isSome_iff_exists.mp hread
    obtain ⟨l, hlock, hreread⟩ := Option.bind_eq_some_iff.mp hreread
    obtain ⟨text, htext, hreread⟩ := Option.bind_eq_some_iff.mp hreread
    refine ⟨_, c, graph, l, text, l', fun pkg hpkg => absurd hpkg List.not_mem_nil, ⟨c₀, hstart, hrun⟩, hclosed, hgraph, hknown, hdirs, hlock,
      htext, Result.toOption_eq_some.mp hreread, fun deps => ?_, fun d hd => (hplain d hd).2, hnodes⟩
    exact prepared_viewTrees (fun d hd hne => (hplain d hd).1.resolve_left (by simpa using hne)) (fun d hd => (hplain d hd).2) deps
  · cases hgood

theorem view_verified_iff_plain : ∃ graph l, graph ≠ [] ∧
    (ViewVerified Store.raceStore viewTrees ["/".toList, "_deps".toList] l graph BTreeMap.empty ↔ Viewable graph) := by
  obtain ⟨ctx, c, graph, l, text, l', hremote, hreach, -, hgraph, hknown, hdirs, hlock, htext, hparse, hprepared, -, hnodes⟩ :=
    exists_of_comesToView (by decide +kernel : comesToView [] 6 false = true)
  have hne : graph ≠ [] := fun hnil => by
    rw [hnil] at hnodes
    cases hnodes
  refine ⟨graph, l, hne, ?_⟩
  exact view_verified_iff _ _ _ _ _ _ _ _ _ _ _ _ _ _ _ conforms_read hremote hreach hgraph hknown hdirs hlock htext hparse (hprepared _)

/-- The root has no slot, and the verification misses it. -/
theorem root_missing :
    ¬ ∀ kdlParse ctx c solution trust graph strategy excludeNewer l text l' store trees depsDir deps, Conforms kdlParse → RemoteIndex ctx →
      Reachable ctx c → Resolver.Closed c.state solution → graphOf c.state solution trust = .ok graph → KnownPredicates graph →
      checkDirectorySlotCollisions graph = .ok () → fromGraph graph strategy excludeNewer = some l → formatLockfile l = some text →
      parseLockfile kdlParse text = .ok l' → Prepared store trees graph deps → ViewVerified store trees depsDir l graph deps := by
  intro hall
  obtain ⟨ctx, c, graph, l, text, l', hremote, hreach, hclosed, hgraph, hknown, hdirs, hlock, htext, hparse, hprepared, hremotes, hnodes⟩ :=
    exists_of_comesToView (by decide +kernel : comesToView requiresRoot 7 true = true)
  have hverified := hall _ _ _ _ _ _ _ _ _ _ _ _ _ ["/".toList, "_deps".toList] BTreeMap.empty conforms_read hremote hreach hclosed hgraph
    hknown hdirs hlock htext hparse (hprepared _)
  rw [fromGraph_eq (fromRun_of_graph hreach hgraph), Option.some.injEq] at hlock
  subst hlock
  -- The node without an identity passes no check.
  obtain ⟨root, rest, rfl⟩ : ∃ root rest, graph = root :: rest := List.exists_cons_of_ne_nil fun hnil => by
    rw [hnil] at hnodes
    cases hnodes
  have hempty : root.identity = [] := by simpa using (List.cons.inj hnodes).1
  have hlocked : recordedDep root ∈ (lockOf (root :: rest) "semver" none).deps := mem_sortByKey.mpr List.mem_cons_self
  have hpasses := (verify_eq_nil.mp hverified.clean).1 _ hlocked
  have hremoteRoot : isLocalDep (recordedDep root) = false := by
    by_contra hlocal
    rw [Bool.not_eq_false] at hlocal
    have hnode := (local_of_graph hremote hreach hgraph List.mem_cons_self (List.any_eq_true.mp hlocal)).1
    rw [hremotes root List.mem_cons_self] at hnode
    cases hnode
  obtain ⟨e, tree, s, -, -, -, hidentity, -⟩ := (verifyLocked_remote hremoteRoot).mp hpasses
  have hnone : (recordedDep root).identity = none := by
    show opt root.identity = none
    rw [hempty]
    rfl
  rw [hnone] at hidentity
  cases hidentity

end Milpa.Core.DepsView

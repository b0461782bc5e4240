import Milpa.Core.Graph
import Milpa.Order.Fibres

/-!
# What is folded

The packages of a solution that have one content form a group, and `finalize` folds each
group into its representative, the package that was discovered first. The maps that it
computes say so: `canonicalAliases` gives a representative the rest of its group, and
`aliasesMap` every other package its representative.
-/

namespace Milpa.Core.Resolver

variable {σ : ResolveState} {solution : Solution} {name other : Str}

/-! ### Groups -/

/-- The packages of the solution that have the content of a package. -/
def groupOf (σ : ResolveState) (solution : Solution) (name : Str) : List Str :=
  if (pickedIdentity σ solution name).isEmpty then [name]
  else (solvedNames σ solution).filter fun other => decide (pickedIdentity σ solution other = pickedIdentity σ solution name)

/-- The package into which a package is folded: of those that have its content, the one that was discovered first. -/
def representative (σ : ResolveState) (solution : Solution) (name : Str) : Str :=
  ((sortByKey (discoveryKey σ) (groupOf σ solution name)).head?).getD name

theorem nodup_solvedNames : (solvedNames σ solution).Nodup := by
  refine List.Nodup.filter _ (List.pairwise_map.mpr (solution.sorted.imp fun hlt heq => ?_))
  rw [heq] at hlt
  exact lt_irrefl _ hlt

theorem isSome_picked (h : name ∈ solvedNames σ solution) : (picked σ solution name).isSome = true := by
  have hsolved := (List.mem_filter.mp h).2
  simp only [Bool.and_eq_true] at hsolved
  exact hsolved.2

theorem mem_groupOf_self (h : name ∈ solvedNames σ solution) : name ∈ groupOf σ solution name := by
  unfold groupOf
  split_ifs
  · exact List.mem_singleton_self name
  · exact List.mem_filter.mpr ⟨h, decide_eq_true rfl⟩

theorem solved_of_mem_groupOf (h : name ∈ solvedNames σ solution) (hother : other ∈ groupOf σ solution name) :
    other ∈ solvedNames σ solution := by
  unfold groupOf at hother
  split_ifs at hother
  · rwa [List.mem_singleton.mp hother]
  · exact (List.mem_filter.mp hother).1

/-- The members of a group have the same group. -/
theorem groupOf_congr (h : other ∈ groupOf σ solution name) : groupOf σ solution other = groupOf σ solution name := by
  unfold groupOf at h
  split_ifs at h with hempty
  · rw [List.mem_singleton.mp h]
  · have hsame : pickedIdentity σ solution other = pickedIdentity σ solution name := by
      simpa using (List.mem_filter.mp h).2
    unfold groupOf
    rw [hsame, if_neg hempty, if_neg hempty]

theorem nodup_groupOf (name : Str) : (groupOf σ solution name).Nodup := by
  unfold groupOf
  split_ifs
  · exact List.pairwise_singleton _ name
  · exact nodup_solvedNames.filter _

/-- A group in the order of discovery: its representative comes first. -/
theorem sort_groupOf (h : name ∈ solvedNames σ solution) :
    ∃ others, sortByKey (discoveryKey σ) (groupOf σ solution name) = representative σ solution name :: others := by
  have hne : sortByKey (discoveryKey σ) (groupOf σ solution name) ≠ [] := fun hnil => by
    have hmem := mem_groupOf_self h
    rw [sortByKey_eq_nil.mp hnil] at hmem
    exact List.not_mem_nil hmem
  obtain ⟨c, others, hc⟩ := List.exists_cons_of_ne_nil hne
  refine ⟨others, ?_⟩
  rw [representative, hc]
  rfl

theorem representative_mem_groupOf (h : name ∈ solvedNames σ solution) :
    representative σ solution name ∈ groupOf σ solution name := by
  obtain ⟨others, hsort⟩ := sort_groupOf h
  have hmem : representative σ solution name ∈ sortByKey (discoveryKey σ) (groupOf σ solution name) := by
    rw [hsort]
    exact List.mem_cons_self
  exact mem_sortByKey.mp hmem

theorem representative_congr (hname : name ∈ solvedNames σ solution) (h : other ∈ groupOf σ solution name) :
    representative σ solution other = representative σ solution name := by
  obtain ⟨others, hsort⟩ := sort_groupOf hname
  rw [representative, groupOf_congr h, hsort]
  rfl

theorem solved_representative (h : name ∈ solvedNames σ solution) : representative σ solution name ∈ solvedNames σ solution :=
  solved_of_mem_groupOf h (representative_mem_groupOf h)

@[simp] theorem representative_representative (h : name ∈ solvedNames σ solution) :
    representative σ solution (representative σ solution name) = representative σ solution name :=
  representative_congr h (representative_mem_groupOf h)

/-- The representatives of two packages are the same if they are in one group. -/
theorem representative_eq_iff (h : name ∈ solvedNames σ solution) (hother : other ∈ solvedNames σ solution)
    (hrep : representative σ solution name = name) : representative σ solution other = name ↔ other ∈ groupOf σ solution name := by
  constructor
  · intro heq
    have hgroup := groupOf_congr (representative_mem_groupOf hother)
    rw [heq] at hgroup
    rw [hgroup]
    exact mem_groupOf_self hother
  · intro hmem
    rw [representative_congr h hmem, hrep]

theorem discoveryKey_injective : Function.Injective (discoveryKey σ) := fun _ _ h => (Prod.ext_iff.mp (toLex_inj.mp h)).2

theorem discoveryKey_representative_le (h : name ∈ solvedNames σ solution) (hother : other ∈ groupOf σ solution name) :
    discoveryKey σ (representative σ solution name) ≤ discoveryKey σ other := by
  obtain ⟨others, hsort⟩ := sort_groupOf h
  have hsorted : SortedByKey (discoveryKey σ) (representative σ solution name :: others) := hsort ▸ sortedByKey_sortByKey _ _
  have hother : other ∈ sortByKey (discoveryKey σ) (groupOf σ solution name) := mem_sortByKey.mpr hother
  rw [hsort] at hother
  rcases List.mem_cons.mp hother with rfl | hother
  · exact le_rfl
  · exact List.rel_of_pairwise_cons hsorted hother

/-- A package that is folded has the content of its representative, and was discovered after it. -/
theorem folded_cases (h : name ∈ solvedNames σ solution) (hne : representative σ solution name ≠ name) :
    pickedIdentity σ solution name ≠ [] ∧
      pickedIdentity σ solution (representative σ solution name) = pickedIdentity σ solution name ∧
      discoveryKey σ (representative σ solution name) < discoveryKey σ name := by
  have hmem := representative_mem_groupOf h
  have hlt := lt_of_le_of_ne (discoveryKey_representative_le h (mem_groupOf_self h)) fun heq => hne (discoveryKey_injective heq)
  unfold groupOf at hmem
  split_ifs at hmem with hempty
  · exact absurd (List.mem_singleton.mp hmem) hne
  · exact ⟨fun hnil => hempty (by rw [hnil]; rfl), by simpa using (List.mem_filter.mp hmem).2, hlt⟩

/-- **A package is folded if another one with its content was discovered before it.** -/
theorem folded_of_before (h : name ∈ solvedNames σ solution) (hother : other ∈ solvedNames σ solution)
    (hidentity : pickedIdentity σ solution name ≠ []) (hsame : pickedIdentity σ solution other = pickedIdentity σ solution name)
    (hlt : discoveryKey σ other < discoveryKey σ name) : representative σ solution name ≠ name := by
  intro heq
  have hmem : other ∈ groupOf σ solution name := by
    unfold groupOf
    rw [if_neg (by simpa using hidentity)]
    exact List.mem_filter.mpr ⟨hother, decide_eq_true hsame⟩
  have hle := discoveryKey_representative_le h hmem
  rw [heq] at hle
  exact absurd hlt (not_lt.mpr hle)

/-! ### The maps -/

theorem get?_byHash {identity : Str} {group : List Str} :
    (byHash σ solution).get? identity = some group ↔
      identity ≠ [] ∧ group ≠ [] ∧
        group = (solvedNames σ solution).filter fun name => decide (pickedIdentity σ solution name = identity) := by
  have hget := BTreeMap.get?_foldl_collect (pickedIdentity σ solution) (fun name => (pickedIdentity σ solution name).isEmpty)
    (solvedNames σ solution) BTreeMap.empty identity
  have hbyHash : (byHash σ solution).get? identity = _ := hget
  rw [hbyHash]
  by_cases hempty : identity = []
  · subst hempty
    rw [if_pos (List.filter_eq_nil_iff.mpr fun name _ => by simp)]
    simp
  · rw [List.filter_congr (q := fun name => decide (pickedIdentity σ solution name = identity)) fun name _ => by
      by_cases hsame : pickedIdentity σ solution name = identity
      · simp [hsame, hempty]
      · simp [hsame]]
    split_ifs with hnil
    · simp [hnil]
    · simp only [BTreeMap.get?_empty, Option.getD_none, List.nil_append, Option.some.injEq, ne_eq, hempty, not_false_eq_true,
        true_and]
      exact ⟨fun h => ⟨fun hg => hnil (h.trans hg), h.symm⟩, fun h => h.2.symm⟩

theorem collapse_eq_some {group : List Str} {canonical : Str} {aliases : List Str} :
    collapse σ group = some (canonical, aliases) ↔
      ∃ other others, sortByKey (discoveryKey σ) group = canonical :: other :: others ∧ aliases = sortByKey id (other :: others) := by
  unfold collapse
  split
  · rename_i c o os hsort
    simp only [Option.some.injEq, Prod.mk.injEq, hsort, List.cons.injEq]
    constructor
    · rintro ⟨rfl, rfl⟩
      exact ⟨o, os, ⟨rfl, rfl, rfl⟩, rfl⟩
    · rintro ⟨other, others, ⟨rfl, rfl, rfl⟩, rfl⟩
      exact ⟨rfl, rfl⟩
  · rename_i hnone
    simp only [reduceCtorEq, false_iff, not_exists, not_and]
    exact fun other others hsort => absurd hsort (hnone canonical other others)

/-- **A representative has the rest of its group, if there is any.** -/
theorem get?_canonicalAliases {aliases : List Str} :
    (canonicalAliases σ solution).get? name = some aliases ↔
      ∃ other others, name ∈ solvedNames σ solution ∧
        sortByKey (discoveryKey σ) (groupOf σ solution name) = name :: other :: others ∧ aliases = sortByKey id (other :: others) := by
  have hmem : ∀ e : Str × List Str, e ∈ (byHash σ solution).entries.filterMap (fun g => collapse σ g.2) ↔
      ∃ other others, e.1 ∈ solvedNames σ solution ∧
        sortByKey (discoveryKey σ) (groupOf σ solution e.1) = e.1 :: other :: others ∧ e.2 = sortByKey id (other :: others) := by
    rintro ⟨canonical, aliases⟩
    rw [List.mem_filterMap]
    constructor
    · rintro ⟨⟨identity, group⟩, hentry, hcollapse⟩
      obtain ⟨hidentity, -, rfl⟩ := get?_byHash.mp (BTreeMap.mem_entries.mp hentry)
      obtain ⟨other, others, hsort, rfl⟩ := collapse_eq_some.mp hcollapse
      have hcanonical : canonical ∈ (solvedNames σ solution).filter fun n => decide (pickedIdentity σ solution n = identity) := by
        refine mem_sortByKey.mp (?_ : canonical ∈ sortByKey (discoveryKey σ) _)
        rw [hsort]
        exact List.mem_cons_self
      obtain ⟨hsolved, hsame⟩ := List.mem_filter.mp hcanonical
      refine ⟨other, others, hsolved, ?_, rfl⟩
      rw [groupOf, if_neg (by simpa [of_decide_eq_true hsame] using hidentity), of_decide_eq_true hsame, hsort]
    · rintro ⟨other, others, hsolved, hsort, rfl⟩
      have hgroup : pickedIdentity σ solution canonical ≠ [] ∧ groupOf σ solution canonical =
          (solvedNames σ solution).filter fun n => decide (pickedIdentity σ solution n = pickedIdentity σ solution canonical) := by
        unfold groupOf at hsort ⊢
        split_ifs at hsort ⊢ with hempty
        · have hlength := (sortByKey_perm (discoveryKey σ) [canonical]).length_eq
          rw [hsort] at hlength
          simp at hlength
        · exact ⟨by simpa using hempty, rfl⟩
      refine ⟨(pickedIdentity σ solution canonical, groupOf σ solution canonical), BTreeMap.mem_entries.mpr (get?_byHash.mpr
        ⟨hgroup.1, List.ne_nil_of_mem (mem_groupOf_self hsolved), hgroup.2⟩), collapse_eq_some.mpr ⟨other, others, hsort, rfl⟩⟩
  rw [canonicalAliases, BTreeMap.get?_foldl_insert_of_unique, hmem]
  rintro ⟨k, l⟩ hk ⟨k', l'⟩ hk' heq
  obtain ⟨other, others, -, hsort, rfl⟩ := (hmem _).mp hk
  obtain ⟨other', others', -, hsort', rfl⟩ := (hmem _).mp hk'
  change k = k' at heq
  subst heq
  rw [hsort] at hsort'
  obtain ⟨-, hrest⟩ := List.cons.inj hsort'
  rw [hrest]

/-- The packages that are folded into a package. -/
def aliasesOf (σ : ResolveState) (solution : Solution) (name : Str) : List Str :=
  ((canonicalAliases σ solution).get? name).getD []

/-- The group of a representative is the representative and the packages that are folded into it. -/
theorem groupOf_perm (h : name ∈ solvedNames σ solution) (hrep : representative σ solution name = name) :
    (name :: aliasesOf σ solution name).Perm (groupOf σ solution name) := by
  obtain ⟨others, hsort⟩ := sort_groupOf h
  rw [hrep] at hsort
  refine List.Perm.trans ?_ (sortByKey_perm (discoveryKey σ) (groupOf σ solution name))
  rw [hsort]
  refine List.Perm.cons _ ?_
  unfold aliasesOf
  cases others with
  | nil =>
    have hnone : (canonicalAliases σ solution).get? name = none := by
      refine Option.eq_none_iff_forall_not_mem.mpr fun aliases haliases => ?_
      obtain ⟨other, others, -, hsort', -⟩ := get?_canonicalAliases.mp haliases
      rw [hsort] at hsort'
      cases hsort'
    rw [hnone]
    rfl
  | cons other others =>
    rw [get?_canonicalAliases.mpr ⟨other, others, h, hsort, rfl⟩]
    exact sortByKey_perm id _

theorem mem_aliasesOf (h : name ∈ solvedNames σ solution) (hrep : representative σ solution name = name) :
    other ∈ aliasesOf σ solution name ↔
      other ∈ solvedNames σ solution ∧ other ≠ name ∧ representative σ solution other = name := by
  have hperm := groupOf_perm h hrep
  have hnodup : (name :: aliasesOf σ solution name).Nodup := hperm.nodup_iff.mpr (nodup_groupOf name)
  constructor
  · intro hother
    have hmem : other ∈ groupOf σ solution name := hperm.mem_iff.mp (List.mem_cons_of_mem _ hother)
    refine ⟨solved_of_mem_groupOf h hmem, ?_, by rw [representative_congr h hmem, hrep]⟩
    rintro rfl
    exact (List.nodup_cons.mp hnodup).1 hother
  · rintro ⟨hsolved, hne, heq⟩
    have hmem := hperm.mem_iff.mpr ((representative_eq_iff h hsolved hrep).mp heq)
    exact (List.mem_cons.mp hmem).resolve_left hne

/-- **A package that is folded is given its representative, and no other package is given any.** -/
theorem get?_aliasesMap :
    (aliasesMap (canonicalAliases σ solution)).get? other = some name ↔
      other ∈ solvedNames σ solution ∧ other ≠ name ∧ representative σ solution other = name := by
  have hmem : ∀ e : Str × Str,
      e ∈ (canonicalAliases σ solution).entries.flatMap (fun e => e.2.map fun name => (name, e.1)) ↔
        e.1 ∈ solvedNames σ solution ∧ e.1 ≠ e.2 ∧ representative σ solution e.1 = e.2 := by
    rintro ⟨n, canonical⟩
    simp only [List.mem_flatMap, List.mem_map, Prod.mk.injEq]
    constructor
    · rintro ⟨⟨k, aliases⟩, hentry, n', hn', rfl, rfl⟩
      have hget := BTreeMap.mem_entries.mp hentry
      obtain ⟨o, os, hsolved, hsort, -⟩ := get?_canonicalAliases.mp hget
      have hrep : representative σ solution k = k := by rw [representative, hsort]; rfl
      have haliases : n' ∈ aliasesOf σ solution k := by rw [aliasesOf, hget]; exact hn'
      exact (mem_aliasesOf hsolved hrep).mp haliases
    · rintro ⟨hsolved, hne, rfl⟩
      have hcanonical := solved_representative hsolved
      have haliases := (mem_aliasesOf hcanonical (representative_representative hsolved)).mpr ⟨hsolved, hne, rfl⟩
      unfold aliasesOf at haliases
      cases hget : (canonicalAliases σ solution).get? (representative σ solution n) with
      | none => simp [hget] at haliases
      | some aliases =>
        rw [hget] at haliases
        exact ⟨(_, aliases), BTreeMap.mem_entries.mpr hget, n, haliases, rfl, rfl⟩
  rw [aliasesMap, BTreeMap.get?_foldl_insert_of_unique, hmem]
  rintro ⟨n, k⟩ hn ⟨n', k'⟩ hn' heq
  change n = n' at heq
  subst heq
  have hk := ((hmem _).mp hn).2.2
  have hk' := ((hmem _).mp hn').2.2
  exact congrArg (Prod.mk n) (hk.symm.trans hk')

/-- What an edge to a package is redirected to. -/
theorem getD_get?_aliasesMap (h : name ∈ solvedNames σ solution) :
    ((aliasesMap (canonicalAliases σ solution)).get? name).getD name = representative σ solution name := by
  cases hget : (aliasesMap (canonicalAliases σ solution)).get? name with
  | some canonical => exact (get?_aliasesMap.mp hget).2.2.symm
  | none =>
    by_contra hne
    have hsome := get?_aliasesMap.mpr ⟨h, hne, rfl⟩
    rw [hget] at hsome
    cases hsome

theorem isNone_get?_aliasesMap (h : name ∈ solvedNames σ solution) :
    ((aliasesMap (canonicalAliases σ solution)).get? name).isNone = decide (representative σ solution name = name) := by
  cases hget : (aliasesMap (canonicalAliases σ solution)).get? name with
  | some canonical =>
    obtain ⟨-, hne, hrep⟩ := get?_aliasesMap.mp hget
    simp only [Option.isNone_some, hrep]
    exact (decide_eq_false fun heq => hne heq.symm).symm
  | none =>
    have hrep := getD_get?_aliasesMap h
    rw [hget] at hrep
    simpa using hrep.symm

/-- The survivors are the representatives. -/
theorem survivors_eq :
    survivors σ solution = (solvedNames σ solution).filter fun name => decide (representative σ solution name = name) :=
  List.filter_congr fun _ h => isNone_get?_aliasesMap h

theorem mem_survivors : name ∈ survivors σ solution ↔ name ∈ solvedNames σ solution ∧ representative σ solution name = name := by
  rw [survivors_eq, List.mem_filter, decide_eq_true_iff]

theorem nodup_survivors (σ : ResolveState) (solution : Solution) : (survivors σ solution).Nodup := nodup_solvedNames.filter _

/-- **The survivors, each with the packages that are folded into it, are the packages of the solution.** -/
theorem survivors_perm :
    ((survivors σ solution).flatMap fun name => name :: aliasesOf σ solution name).Perm (solvedNames σ solution) := by
  refine List.Perm.trans ?_ (perm_flatMap_fibres (representative σ solution) (nodup_survivors σ solution) fun name h =>
    mem_survivors.mpr ⟨solved_representative h, representative_representative h⟩)
  refine List.Perm.flatMap_left _ fun name hname => ?_
  obtain ⟨hsolved, hrep⟩ := mem_survivors.mp hname
  have hperm := groupOf_perm hsolved hrep
  refine hperm.trans ((List.perm_ext_iff_of_nodup (nodup_groupOf name) (nodup_solvedNames.filter _)).mpr fun other => ?_)
  rw [List.mem_filter, decide_eq_true_iff]
  exact ⟨fun h => ⟨solved_of_mem_groupOf hsolved h, (representative_eq_iff hsolved (solved_of_mem_groupOf hsolved h) hrep).mpr h⟩,
    fun h => (representative_eq_iff hsolved h.1 hrep).mp h.2⟩

end Milpa.Core.Resolver

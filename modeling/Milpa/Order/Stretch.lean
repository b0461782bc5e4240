import Mathlib.Data.List.Chain
import Mathlib.Order.BoundedOrder.Basic
import Mathlib.Order.MinMax
import Mathlib.Tactic.SplitIfs
import Mathlib.Tactic.Tauto

/-!
# Unions of stretches of a linear order

A *stretch* is what lies from one point of a linear order on and before another:
`lo ≤ x < hi`. A list of items, each with its stretch, stands for the union of
their stretches. Nothing here is about any particular order or item: `ι` is the
type of items, `γ` the order, `lo` and `hi` the ends of an item's stretch.

A list is *canonical* when no stretch is empty and each ends strictly before the
next begins, so that no two of them overlap or touch. The module has the two facts
one wants of canonical lists:

* a list sorted by its lower ends is made canonical, without changing what it
  covers, by one pass that joins each item to the last one kept whenever the two
  overlap or touch (`merge_canonical`, `covers_merge`), and the pass changes
  nothing on a list that is canonical already (`merge_of_canonical`);
* two canonical lists that cover the same points have the same stretches
  (`ends_eq_of_covers_iff`).

`gapsFrom` is what a canonical list leaves uncovered.
-/

namespace Milpa.Stretch

variable {ι κ γ : Type*} [LinearOrder γ] (lo hi : ι → γ)

/-- The point `x` lies in the stretch of `i`. -/
def Mem (x : γ) (i : ι) : Prop := lo i ≤ x ∧ x < hi i

/-- Some stretch of the list holds `x`. -/
def Covers (l : List ι) (x : γ) : Prop := ∃ i ∈ l, Mem lo hi x i

@[simp] theorem not_covers_nil (x : γ) : ¬ Covers lo hi [] x := by simp [Covers]

@[simp] theorem covers_cons (i : ι) (l : List ι) (x : γ) :
    Covers lo hi (i :: l) x ↔ Mem lo hi x i ∨ Covers lo hi l x := by simp [Covers]

@[simp] theorem covers_append (l m : List ι) (x : γ) :
    Covers lo hi (l ++ m) x ↔ Covers lo hi l x ∨ Covers lo hi m x := by
  simp [Covers, or_and_right, exists_or]

theorem covers_congr {l m : List ι} (h : ∀ i, i ∈ l ↔ i ∈ m) (x : γ) :
    Covers lo hi l x ↔ Covers lo hi m x := by simp [Covers, h]

theorem covers_reverse (l : List ι) (x : γ) : Covers lo hi l.reverse x ↔ Covers lo hi l x :=
  covers_congr lo hi (fun _ => List.mem_reverse) x

/-- Coverage sees an item only through its two ends. -/
theorem covers_map (f : κ → ι) (l : List κ) (x : γ) :
    Covers lo hi (l.map f) x ↔ Covers (lo ∘ f) (hi ∘ f) l x := by simp [Covers, Mem]

/-- Dropping empty stretches changes nothing. -/
theorem covers_filter_nonempty (l : List ι) (x : γ) :
    Covers lo hi (l.filter fun i => lo i < hi i) x ↔ Covers lo hi l x := by
  simp only [Covers, List.mem_filter, decide_eq_true_eq]
  constructor
  · rintro ⟨i, ⟨hi, -⟩, hx⟩
    exact ⟨i, hi, hx⟩
  · rintro ⟨i, hi, hx⟩
    exact ⟨i, ⟨hi, lt_of_le_of_lt hx.1 hx.2⟩, hx⟩

/-! ### Canonical lists -/

/-- No stretch is empty, and each ends strictly before the next begins. -/
structure Canonical (l : List ι) : Prop where
  nonempty : ∀ i ∈ l, lo i < hi i
  apart : l.IsChain fun i j => hi i < lo j

variable {lo hi}

theorem Canonical.nil : Canonical lo hi ([] : List ι) := ⟨by simp, by simp⟩

theorem Canonical.tail {i : ι} {l : List ι} (h : Canonical lo hi (i :: l)) : Canonical lo hi l :=
  ⟨fun j hj => h.nonempty j (List.mem_cons_of_mem _ hj), h.apart.tail⟩

theorem Canonical.head_nonempty {i : ι} {l : List ι} (h : Canonical lo hi (i :: l)) : lo i < hi i :=
  h.nonempty i List.mem_cons_self

/-- In a canonical list everything after the head begins after the head has ended. -/
theorem Canonical.head_lt {i : ι} {l : List ι} (h : Canonical lo hi (i :: l)) : ∀ j ∈ l, hi i < lo j := by
  induction l generalizing i with
  | nil => simp
  | cons k l ih =>
    have hik : hi i < lo k := (List.isChain_cons_cons.mp h.apart).1
    intro j hj
    rcases List.mem_cons.mp hj with rfl | hj
    · exact hik
    · exact hik.trans (h.tail.head_nonempty.trans (ih h.tail j hj))

/-- A canonical list is sorted by its lower ends. -/
theorem Canonical.sorted {l : List ι} (h : Canonical lo hi l) : l.Pairwise fun i j => lo i ≤ lo j := by
  induction l with
  | nil => exact List.Pairwise.nil
  | cons i l ih =>
    exact List.pairwise_cons.mpr
      ⟨fun j hj => (h.head_nonempty.trans (h.head_lt j hj)).le, ih h.tail⟩

/-- What a canonical list covers after its head has ended is what its tail covers. -/
theorem Canonical.covers_tail_iff {i : ι} {l : List ι} (h : Canonical lo hi (i :: l)) (x : γ) :
    Covers lo hi l x ↔ Covers lo hi (i :: l) x ∧ hi i ≤ x := by
  rw [covers_cons]
  constructor
  · intro hx
    obtain ⟨j, hj, hjx⟩ := hx
    exact ⟨Or.inr ⟨j, hj, hjx⟩, ((h.head_lt j hj).trans_le hjx.1).le⟩
  · rintro ⟨hx | hx, hix⟩
    · exact absurd hx.2 (not_lt.mpr hix)
    · exact hx

/-- A canonical list covers nothing before its head begins. -/
theorem Canonical.lo_le_of_covers {i : ι} {l : List ι} (h : Canonical lo hi (i :: l)) {x : γ}
    (hx : Covers lo hi (i :: l) x) : lo i ≤ x := by
  rcases (covers_cons lo hi i l x).mp hx with hx | ⟨j, hj, hjx⟩
  · exact hx.1
  · exact (h.head_nonempty.trans (h.head_lt j hj)).le.trans hjx.1

/-- A canonical list covers the point where its head begins, and not the point where it ends. -/
theorem Canonical.covers_lo {i : ι} {l : List ι} (h : Canonical lo hi (i :: l)) :
    Covers lo hi (i :: l) (lo i) :=
  (covers_cons lo hi i l _).mpr (Or.inl ⟨le_rfl, h.head_nonempty⟩)

theorem Canonical.not_covers_hi {i : ι} {l : List ι} (h : Canonical lo hi (i :: l)) :
    ¬ Covers lo hi (i :: l) (hi i) := by
  rw [covers_cons]
  rintro (hx | ⟨j, hj, hjx⟩)
  · exact lt_irrefl _ hx.2
  · exact absurd hjx.1 (not_le.mpr (h.head_lt j hj))

/-- One of two canonical lists that cover the same points ends its first stretch no
earlier than the other. -/
theorem Canonical.hi_le_of_covers_iff {i j : ι} {l m : List ι} (hl : Canonical lo hi (i :: l))
    (h : ∀ x, Covers lo hi (i :: l) x ↔ Covers lo hi (j :: m) x)
    (hlo : lo i = lo j) : hi j ≤ hi i := by
  by_contra hlt
  have hx : Mem lo hi (hi i) j := ⟨hlo ▸ hl.head_nonempty.le, not_le.mp hlt⟩
  exact hl.not_covers_hi ((h _).mpr ((covers_cons lo hi j m _).mpr (Or.inl hx)))

/-- **Canonical lists are determined by what they cover.** -/
theorem Canonical.ends_eq_of_covers_iff {l m : List ι} (hl : Canonical lo hi l) (hm : Canonical lo hi m)
    (h : ∀ x, Covers lo hi l x ↔ Covers lo hi m x) :
    l.map (fun i => (lo i, hi i)) = m.map fun i => (lo i, hi i) := by
  induction l generalizing m with
  | nil =>
    cases m with
    | nil => rfl
    | cons j m => exact absurd ((h _).mpr hm.covers_lo) (not_covers_nil lo hi _)
  | cons i l ih =>
    cases m with
    | nil => exact absurd ((h _).mp hl.covers_lo) (not_covers_nil lo hi _)
    | cons j m =>
      have hlo : lo i = lo j :=
        le_antisymm (hl.lo_le_of_covers ((h _).mpr hm.covers_lo)) (hm.lo_le_of_covers ((h _).mp hl.covers_lo))
      have hhi : hi i = hi j :=
        le_antisymm (hm.hi_le_of_covers_iff (fun x => (h x).symm) hlo.symm)
          (hl.hi_le_of_covers_iff h hlo)
      have htail : ∀ x, Covers lo hi l x ↔ Covers lo hi m x := fun x => by
        rw [hl.covers_tail_iff, hm.covers_tail_iff, h x, hhi]
      simp only [List.map_cons, hlo, hhi, ih hl.tail hm.tail htail]

/-! ### Merging a sorted list -/

variable (lo hi)

/-- One step of the merge. `acc` holds the items kept so far, the last one first; an
empty stretch is dropped, an item that overlaps or touches the last one kept is
joined to it, any other is kept. -/
def mergeStep (join : ι → ι → ι) (acc : List ι) (i : ι) : List ι :=
  if lo i < hi i then
    match acc with
    | [] => [i]
    | p :: rest => if lo i ≤ hi p then join p i :: rest else i :: p :: rest
  else acc

/-- Merge a list that is sorted by its lower ends. -/
def merge (join : ι → ι → ι) (l : List ι) : List ι := (l.foldl (mergeStep lo hi join) []).reverse

/-- The joined item reaches from the first item's lower end to the further upper end. -/
structure IsJoin (join : ι → ι → ι) : Prop where
  lo_join : ∀ p i, lo (join p i) = lo p
  hi_join : ∀ p i, hi (join p i) = max (hi p) (hi i)

/-- The invariant of the merge, with `rest` still to come: what has been kept is
canonical once put in order, and nothing to come begins before the last item kept. -/
structure MergeInv (acc rest : List ι) : Prop where
  canonical : Canonical lo hi acc.reverse
  below : ∀ p ∈ acc.head?, ∀ i ∈ rest, lo p ≤ lo i

variable {lo hi}

theorem Canonical.reverse_cons {p : ι} {acc : List ι} :
    Canonical lo hi (p :: acc).reverse ↔
      lo p < hi p ∧ (∀ q ∈ acc.head?, hi q < lo p) ∧ Canonical lo hi acc.reverse := by
  constructor
  · intro h
    refine ⟨h.nonempty p (by simp), ?_, fun i hi => h.nonempty i (by simp_all), ?_⟩
    · intro q hq
      have := h.apart
      rw [List.isChain_reverse] at this
      cases acc with
      | nil => simp at hq
      | cons r acc =>
        simp only [List.head?_cons, Option.mem_def, Option.some.injEq] at hq
        subst hq
        exact (List.isChain_cons_cons.mp this).1
    · have := h.apart
      rw [List.isChain_reverse] at this ⊢
      exact this.tail
  · rintro ⟨hp, hq, h⟩
    refine ⟨fun i hi => ?_, ?_⟩
    · rcases List.mem_cons.mp (List.mem_reverse.mp hi) with rfl | hi
      · exact hp
      · exact h.nonempty i (List.mem_reverse.mpr hi)
    · have := h.apart
      rw [List.isChain_reverse] at this ⊢
      cases acc with
      | nil => simp
      | cons r acc => exact List.isChain_cons_cons.mpr ⟨hq r rfl, this⟩

/-- A step keeps the invariant. -/
theorem MergeInv.step {join : ι → ι → ι} (hj : IsJoin lo hi join) {acc rest : List ι} {i : ι}
    (h : MergeInv lo hi acc (i :: rest)) (hs : ∀ j ∈ rest, lo i ≤ lo j) :
    MergeInv lo hi (mergeStep lo hi join acc i) rest := by
  unfold mergeStep
  split_ifs with hi'
  · cases acc with
    | nil =>
      refine ⟨Canonical.reverse_cons.mpr ⟨hi', by simp, h.canonical⟩, ?_⟩
      simpa using hs
    | cons p acc =>
      obtain ⟨hp, hq, hc⟩ := Canonical.reverse_cons.mp h.canonical
      have hpi : lo p ≤ lo i := h.below p rfl i List.mem_cons_self
      dsimp only
      split_ifs with hip
      · -- `i` is joined to `p`: the lower end is `p`'s, so `p`'s place in the list is kept
        refine ⟨Canonical.reverse_cons.mpr ⟨?_, ?_, hc⟩, ?_⟩
        · rw [hj.lo_join, hj.hi_join]
          exact hp.trans_le (le_max_left _ _)
        · simpa only [hj.lo_join] using hq
        · simp only [List.head?_cons, Option.mem_def, Option.some.injEq, forall_eq', hj.lo_join]
          exact fun j hj' => hpi.trans (hs j hj')
      · refine ⟨Canonical.reverse_cons.mpr ⟨hi', ?_, h.canonical⟩, ?_⟩
        · simpa using hip
        · simpa using hs
  · exact ⟨h.canonical, fun p hp j hj' => h.below p hp j (List.mem_cons_of_mem _ hj')⟩

/-- A step adds to what is covered exactly the stretch of the new item. -/
theorem MergeInv.covers_step {join : ι → ι → ι} (hj : IsJoin lo hi join) {acc rest : List ι} {i : ι}
    (h : MergeInv lo hi acc (i :: rest)) (x : γ) :
    Covers lo hi (mergeStep lo hi join acc i) x ↔ Covers lo hi acc x ∨ Mem lo hi x i := by
  unfold mergeStep
  split_ifs with hi'
  · cases acc with
    | nil => simp
    | cons p acc =>
      have hpi : lo p ≤ lo i := h.below p rfl i List.mem_cons_self
      dsimp only
      split_ifs with hip
      · have hjoin : Mem lo hi x (join p i) ↔ Mem lo hi x p ∨ Mem lo hi x i := by
          simp only [Mem, hj.lo_join, hj.hi_join, lt_max_iff]
          constructor
          · rintro ⟨hpx, hx | hx⟩
            · exact Or.inl ⟨hpx, hx⟩
            · rcases lt_or_ge x (hi p) with hxp | hxp
              · exact Or.inl ⟨hpx, hxp⟩
              · exact Or.inr ⟨hip.trans hxp, hx⟩
          · rintro (⟨h1, h2⟩ | ⟨h1, h2⟩)
            · exact ⟨h1, Or.inl h2⟩
            · exact ⟨hpi.trans h1, Or.inr h2⟩
        rw [covers_cons, covers_cons, hjoin]
        tauto
      · rw [covers_cons]
        tauto
  · have : ¬ Mem lo hi x i := fun hx => hi' (lt_of_le_of_lt hx.1 hx.2)
    tauto

/-- The run of the merge over a sorted list, from any point of it. -/
theorem MergeInv.foldl {join : ι → ι → ι} (hj : IsJoin lo hi join) {l acc : List ι}
    (hs : l.Pairwise fun i j => lo i ≤ lo j) (h : MergeInv lo hi acc l) :
    MergeInv lo hi (l.foldl (mergeStep lo hi join) acc) [] ∧
      ∀ x, Covers lo hi (l.foldl (mergeStep lo hi join) acc) x ↔ Covers lo hi acc x ∨ Covers lo hi l x := by
  induction l generalizing acc with
  | nil => exact ⟨h, by simp⟩
  | cons i l ih =>
    obtain ⟨hi', hs'⟩ := List.pairwise_cons.mp hs
    obtain ⟨hinv, hcov⟩ := ih hs' (h.step hj hi')
    refine ⟨hinv, fun x => ?_⟩
    rw [List.foldl_cons, hcov, h.covers_step hj, covers_cons, or_assoc]

theorem mergeInv_nil (l : List ι) : MergeInv lo hi [] l := ⟨Canonical.nil, by simp⟩

/-- **The merge of a sorted list is canonical.** -/
theorem merge_canonical {join : ι → ι → ι} (hj : IsJoin lo hi join) {l : List ι}
    (hs : l.Pairwise fun i j => lo i ≤ lo j) : Canonical lo hi (merge lo hi join l) :=
  ((mergeInv_nil l).foldl hj hs).1.canonical

/-- **The merge of a sorted list covers what the list covers.** -/
theorem covers_merge {join : ι → ι → ι} (hj : IsJoin lo hi join) {l : List ι}
    (hs : l.Pairwise fun i j => lo i ≤ lo j) (x : γ) :
    Covers lo hi (merge lo hi join l) x ↔ Covers lo hi l x := by
  rw [merge, covers_reverse, ((mergeInv_nil l).foldl hj hs).2]
  simp

/-- Along a canonical list every step of the merge keeps its item as it is. -/
theorem foldl_mergeStep_of_canonical (join : ι → ι → ι) {l acc : List ι}
    (h : Canonical lo hi (acc.reverse ++ l)) :
    l.foldl (mergeStep lo hi join) acc = l.reverse ++ acc := by
  induction l generalizing acc with
  | nil => rfl
  | cons i l ih =>
    have hstep : mergeStep lo hi join acc i = i :: acc := by
      have hne : lo i < hi i := h.nonempty i (by simp)
      unfold mergeStep
      rw [if_pos hne]
      cases acc with
      | nil => rfl
      | cons p acc =>
        have hpi : hi p < lo i := by
          have := h.apart
          rw [List.reverse_cons, List.append_assoc] at this
          exact (List.isChain_cons_cons.mp this.right_of_append).1
        simp only [if_neg (not_le.mpr hpi)]
    rw [List.foldl_cons, hstep, ih (by simpa using h)]
    simp

/-- **The merge leaves a canonical list as it is.** -/
theorem merge_of_canonical (join : ι → ι → ι) {l : List ι} (h : Canonical lo hi l) :
    merge lo hi join l = l := by
  rw [merge, foldl_mergeStep_of_canonical join (by simpa using h)]
  simp

/-! ### Gaps -/

variable (lo hi)

/-- The ends of the gaps that a list leaves from the point `a` on. -/
def gapsFrom [OrderTop γ] (a : γ) : List ι → List (γ × γ)
  | [] => [(a, ⊤)]
  | i :: l => (a, lo i) :: gapsFrom (hi i) l

variable {lo hi}

/-- **The gaps of a canonical list are what it does not cover.** -/
theorem covers_gapsFrom [OrderTop γ] {l : List ι} (h : Canonical lo hi l) {a : γ}
    (ha : ∀ i ∈ l.head?, a ≤ lo i) (x : γ) :
    Covers Prod.fst Prod.snd (gapsFrom lo hi a l) x ↔ a ≤ x ∧ x < ⊤ ∧ ¬ Covers lo hi l x := by
  induction l generalizing a with
  | nil => simp [gapsFrom, Mem]
  | cons i l ih =>
    have hai : a ≤ lo i := ha i rfl
    have hne := h.head_nonempty
    rw [gapsFrom, covers_cons, ih h.tail fun j hj => (h.head_lt j (List.mem_of_mem_head? hj)).le,
      h.covers_tail_iff]
    simp only [Mem]
    constructor
    · rintro (⟨h1, h2⟩ | ⟨h1, h2, h3⟩)
      · exact ⟨h1, h2.trans_le le_top, fun hx => absurd (h.lo_le_of_covers hx) (not_le.mpr h2)⟩
      · exact ⟨hai.trans (hne.le.trans h1), h2, fun hx => h3 ⟨hx, h1⟩⟩
    · rintro ⟨h1, h2, h3⟩
      rcases lt_or_ge x (lo i) with hxi | hxi
      · exact Or.inl ⟨h1, hxi⟩
      · have hix : hi i ≤ x := not_lt.mp fun hx => h3 ((covers_cons lo hi i l x).mpr (Or.inl ⟨hxi, hx⟩))
        exact Or.inr ⟨hix, h2, fun hx => h3 hx.1⟩

end Milpa.Stretch

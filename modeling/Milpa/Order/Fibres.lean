import Mathlib.Algebra.Order.BigOperators.Group.List
import Mathlib.Algebra.Order.Group.Nat
import Mathlib.Algebra.GroupWithZero.Nat
import Mathlib.Data.List.Perm.Basic

/-!
# Lists by their fibres

A list and the lists of its elements that a function takes to one value.
-/

namespace Milpa

universe u v

variable {α : Type u} {β : Type v} [DecidableEq β]

/-- The fibres of a function over its values, one after the other, are the list up to order. -/
theorem perm_flatMap_fibres (f : α → β) {values : List β} (hvalues : values.Nodup) {l : List α} (h : ∀ a ∈ l, f a ∈ values) :
    (values.flatMap fun b => l.filter fun a => decide (f a = b)).Perm l := by
  induction values generalizing l with
  | nil =>
    rw [List.eq_nil_iff_forall_not_mem.mpr fun a ha => List.not_mem_nil (h a ha)]
    rfl
  | cons b values ih =>
    obtain ⟨hb, hvalues⟩ := List.nodup_cons.mp hvalues
    have hrest : (values.flatMap fun b' => l.filter fun a => decide (f a = b')) =
        values.flatMap fun b' => (l.filter fun a => !decide (f a = b)).filter fun a => decide (f a = b') := by
      refine List.flatMap_congr fun b' hb' => ?_
      rw [List.filter_filter]
      refine List.filter_congr fun a _ => ?_
      have hne : f a = b' → f a ≠ b := fun heq hab => hb (by rw [← hab, heq]; exact hb')
      by_cases hab : f a = b' <;> simp_all
    rw [List.flatMap_cons, hrest]
    refine ((ih hvalues fun a ha => ?_).append_left _).trans (List.filter_append_perm _ l)
    obtain ⟨hal, hne⟩ := List.mem_filter.mp ha
    exact (List.mem_cons.mp (h a hal)).resolve_left (by simpa using hne)

/-- The weight of a concatenation. -/
theorem sum_map_flatMap {γ : Type*} (weight : γ → ℕ) (f : α → List γ) (l : List α) :
    ((l.flatMap f).map weight).sum = (l.map fun a => ((f a).map weight).sum).sum := by
  induction l with
  | nil => rfl
  | cons a l ih => rw [List.flatMap_cons, List.map_append, List.sum_append, ih, List.map_cons, List.sum_cons]

/-- Where no element weighs more in the first list than in the second, and the lists are the same up to order, they weigh
the same. -/
theorem weight_eq_of_flatMap_perm {γ : Type*} (weight : γ → ℕ) {f g : α → List γ} {l : List α}
    (hle : ∀ a ∈ l, ((f a).map weight).sum ≤ ((g a).map weight).sum) (hperm : (l.flatMap f).Perm (l.flatMap g)) :
    ∀ a ∈ l, ((f a).map weight).sum = ((g a).map weight).sum := by
  intro a ha
  by_contra hne
  have hlt : (l.map fun a => ((f a).map weight).sum).sum < (l.map fun a => ((g a).map weight).sum).sum :=
    List.sum_lt_sum _ _ hle ⟨a, ha, lt_of_le_of_ne (hle a ha) hne⟩
  rw [← sum_map_flatMap, ← sum_map_flatMap, (hperm.map weight).sum_eq] at hlt
  exact lt_irrefl _ hlt

end Milpa

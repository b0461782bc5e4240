import Mathlib.Data.Char
import Mathlib.Data.List.Lex
import Mathlib.Data.List.Sort
import Mathlib.Data.Prod.Lex

/-!
# Sorting by a key

`sort_by_key` and `sort_by` of a slice: stable sorts. Strings are compared by their code
points, as Rust's byte order on UTF-8 does, and keys of several parts in the order of the
parts.
-/

namespace Milpa

variable {α κ : Type} [LinearOrder κ]

/-- `sort_by_key`. -/
def sortByKey (key : α → κ) (l : List α) : List α := l.insertionSort fun a b => key a ≤ key b

/-- A list in the order of its keys. -/
def SortedByKey (key : α → κ) (l : List α) : Prop := l.Pairwise fun a b => key a ≤ key b

theorem sortedByKey_sortByKey (key : α → κ) (l : List α) : SortedByKey key (sortByKey key l) := by
  have : Std.Total fun a b : α => key a ≤ key b := ⟨fun a b => le_total (key a) (key b)⟩
  have : IsTrans α fun a b => key a ≤ key b := ⟨fun _ _ _ hab hbc => hab.trans hbc⟩
  exact List.pairwise_insertionSort _ l

theorem sortByKey_eq_self {key : α → κ} {l : List α} (h : SortedByKey key l) : sortByKey key l = l :=
  h.insertionSort_eq

@[simp] theorem sortByKey_sortByKey (key : α → κ) (l : List α) : sortByKey key (sortByKey key l) = sortByKey key l :=
  sortByKey_eq_self (sortedByKey_sortByKey key l)

theorem sortByKey_perm (key : α → κ) (l : List α) : (sortByKey key l).Perm l := List.perm_insertionSort _ l

@[simp] theorem mem_sortByKey {key : α → κ} {l : List α} {a : α} : a ∈ sortByKey key l ↔ a ∈ l :=
  (sortByKey_perm key l).mem_iff

@[simp] theorem sortByKey_eq_nil {key : α → κ} {l : List α} : sortByKey key l = [] ↔ l = [] := by
  rw [← List.length_eq_zero_iff, (sortByKey_perm key l).length_eq, List.length_eq_zero_iff]

/-- Lists of the same elements, no two of which have one key, are sorted to the same list. -/
theorem sortByKey_eq_of_mem_iff {key : α → κ} {l l' : List α} (hl : (l.map key).Nodup) (hl' : (l'.map key).Nodup)
    (h : ∀ a, a ∈ l ↔ a ∈ l') : sortByKey key l = sortByKey key l' := by
  have hperm : l.Perm l' := (List.perm_ext_iff_of_nodup (List.Nodup.of_map key hl) (List.Nodup.of_map key hl')).mpr h
  have hinj : ∀ a ∈ l, ∀ b ∈ l, key a = key b → a = b := fun a ha b hb => List.inj_on_of_nodup_map hl ha hb
  refine (((sortByKey_perm key l).trans hperm).trans (sortByKey_perm key l').symm).eq_of_pairwise (fun a b ha hb hab hba => ?_)
    (sortedByKey_sortByKey key l) (sortedByKey_sortByKey key l')
  exact hinj a (mem_sortByKey.mp ha) b ((h b).mpr (mem_sortByKey.mp hb)) (le_antisymm hab hba)

end Milpa

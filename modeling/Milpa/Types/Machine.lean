import Mathlib.Tactic.Positivity
import Mathlib.Tactic.Ring
import Milpa.Types.Result

/-!
# Machine arithmetic

Sums, differences and products in words of a width, and parts of a list, as a program
computes them that stops where a result is out of range. A loop whose body is run as often
as there is fuel stops where it has none left, so that a run without faults is one that
ends.
-/

namespace Milpa.Machine

universe u

/-- Why a program stops without a result. -/
inductive Fault where
  /-- A sum, a difference or a product is out of the range of its type. -/
  | overflow
  /-- An index or a range is not in a list. -/
  | range
  /-- More memory is asked for than there are addresses. -/
  | capacity
  /-- A loop is not through. -/
  | fuel
  deriving DecidableEq, Repr

/-- A sum of words. -/
def add (bits a b : ℕ) : Except Fault ℕ := if a + b < 2 ^ bits then .ok (a + b) else .error .overflow

/-- A difference of words. -/
def sub (a b : ℕ) : Except Fault ℕ := if b ≤ a then .ok (a - b) else .error .overflow

/-- A product of words. -/
def mul (bits a b : ℕ) : Except Fault ℕ := if a * b < 2 ^ bits then .ok (a * b) else .error .overflow

/-- A sum of signed words. -/
def addSigned (bits : ℕ) (a b : ℤ) : Except Fault ℤ :=
  if -2 ^ (bits - 1) ≤ a + b ∧ a + b < 2 ^ (bits - 1) then .ok (a + b) else .error .overflow

/-- The part of a list from one index to another. -/
def slice {α : Type u} (l : List α) (first last : ℕ) : Except Fault (List α) :=
  if first ≤ last ∧ last ≤ l.length then .ok ((l.take last).drop first) else .error .range

/-- The element at an index. -/
def index {α : Type u} (l : List α) (i : ℕ) : Except Fault α :=
  match l[i]? with
  | some a => .ok a
  | none => .error .range

variable {bits a b c : ℕ}

theorem add_of_lt (h : a + b < 2 ^ bits) : add bits a b = .ok (a + b) := if_pos h

theorem sub_of_le (h : b ≤ a) : sub a b = .ok (a - b) := if_pos h

theorem mul_of_lt (h : a * b < 2 ^ bits) : mul bits a b = .ok (a * b) := if_pos h

theorem slice_of_le {α : Type u} {l : List α} (hfirst : a ≤ b) (hlast : b ≤ l.length) :
    slice l a b = .ok ((l.take b).drop a) := if_pos ⟨hfirst, hlast⟩

theorem add_eq_error {f : Fault} : add bits a b = .error f ↔ 2 ^ bits ≤ a + b ∧ f = .overflow := by
  rw [add]
  split_ifs with h
  · simp [Nat.not_le.mpr h]
  · simp [Nat.not_lt.mp h, eq_comm]

theorem index_of_lt {α : Type u} {l : List α} {i : ℕ} (h : i < l.length) : index l i = .ok (l.get ⟨i, h⟩) := by
  rw [index, List.getElem?_eq_getElem h]
  rfl

/-- A sum of numbers one after the other. -/
def sum (bits : ℕ) (l : List ℕ) : Except Fault ℕ := l.foldlM (add bits) 0

theorem foldlM_add_of_lt {l : List ℕ} (h : a + l.sum < 2 ^ bits) : l.foldlM (add bits) a = .ok (a + l.sum) := by
  induction l generalizing a with
  | nil => rfl
  | cons n l ih =>
    rw [List.sum_cons, ← Nat.add_assoc] at h
    rw [List.foldlM_cons, add_of_lt (by omega), List.sum_cons, ← Nat.add_assoc]
    exact ih h

theorem sum_of_lt {l : List ℕ} (h : l.sum < 2 ^ bits) : sum bits l = .ok l.sum := by
  rw [sum, foldlM_add_of_lt (by omega), Nat.zero_add]

/-- A sum of signed numbers one after the other. -/
def sumSigned (bits : ℕ) (l : List ℤ) : Except Fault ℤ := l.foldlM (addSigned bits) 0

/-- Numbers that are small, and not too many, have a sum in range. -/
theorem foldlM_addSigned_of_le {m : ℕ} {l : List ℤ} {s : ℤ} (hsmall : ∀ n ∈ l, |n| ≤ m)
    (hrange : |s| + l.length * m < 2 ^ (bits - 1)) : l.foldlM (addSigned bits) s = .ok (s + l.sum) := by
  induction l generalizing s with
  | nil => simp [pure, Except.pure]
  | cons n l ih =>
    obtain ⟨hn, hl⟩ := List.forall_mem_cons.mp hsmall
    have hlength : ((n :: l).length : ℤ) * m = l.length * m + m := by
      rw [List.length_cons]
      push_cast
      ring
    rw [hlength] at hrange
    have hpos : (0 : ℤ) ≤ l.length * m := by positivity
    have htriangle := abs_add_le s n
    have hstep : addSigned bits s n = .ok (s + n) := by
      have hle := abs_le.mp (le_refl |s + n|)
      exact if_pos ⟨by omega, by omega⟩
    rw [List.foldlM_cons, hstep, List.sum_cons, ← add_assoc]
    exact ih hl (by omega)

end Milpa.Machine

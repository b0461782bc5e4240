import Mathlib.Algebra.Order.Group.Int
import Mathlib.Data.List.Infix
import Mathlib.Order.MinMax

/-!
# How deep brackets nest

The greatest number of brackets that are open at once, where a closing bracket closes
nothing if none is open. It is the greatest excess of opening over closing brackets in a
stretch of the text (`le_depth_iff`).
-/

namespace Milpa

/-- A bracket. -/
inductive Bracket where
  | opening
  | closing
  deriving DecidableEq, Repr

namespace Bracket

/-- The number of open brackets behind a bracket. -/
def after : Bracket → ℕ → ℕ
  | opening, n => n + 1
  | closing, n => n - 1

/-- The greatest number of brackets that are open at once, where some are open at first. -/
def depthFrom : ℕ → List Bracket → ℕ
  | n, [] => n
  | n, b :: l => max n (depthFrom (b.after n) l)

/-- How deep brackets nest. -/
def depth (l : List Bracket) : ℕ := depthFrom 0 l

/-- By how many the opening brackets exceed the closing ones. -/
def excess : List Bracket → ℤ
  | [] => 0
  | opening :: l => excess l + 1
  | closing :: l => excess l - 1

theorem le_depthFrom (n : ℕ) (l : List Bracket) : n ≤ depthFrom n l := by
  cases l with
  | nil => exact le_rfl
  | cons b l => exact le_max_left _ _

theorem depthFrom_after_le (b : Bracket) (n : ℕ) (l : List Bracket) : depthFrom (b.after n) l ≤ depthFrom n (b :: l) :=
  le_max_right _ _

/-- Brackets that are open at first count as long as none of a beginning closes them. -/
theorem le_depthFrom_iff {m n : ℕ} {l : List Bracket} :
    m ≤ depthFrom n l ↔ (∃ p, p <+: l ∧ (m : ℤ) ≤ n + excess p) ∨ ∃ s, s <:+: l ∧ (m : ℤ) ≤ excess s := by
  induction l generalizing n with
  | nil =>
    simp only [depthFrom, List.prefix_nil, List.infix_nil, exists_eq_left, excess]
    omega
  | cons b l ih =>
    rw [depthFrom, le_max_iff, ih]
    constructor
    · rintro (h | ⟨p, hp, h⟩ | ⟨s, hs, h⟩)
      · exact .inl ⟨[], List.nil_prefix, by simpa [excess] using h⟩
      · cases b with
        | opening =>
          refine .inl ⟨opening :: p, by simpa using hp, ?_⟩
          simp only [after, excess] at h ⊢
          omega
        | closing =>
          by_cases hn : n = 0
          · refine .inr ⟨p, (hp.isInfix).trans (List.suffix_cons _ _).isInfix, ?_⟩
            simp only [after, hn] at h
            omega
          · refine .inl ⟨closing :: p, by simpa using hp, ?_⟩
            simp only [after, excess] at h ⊢
            omega
      · exact .inr ⟨s, hs.trans (List.suffix_cons _ _).isInfix, h⟩
    · rintro (⟨p, hp, h⟩ | ⟨s, hs, h⟩)
      · rcases List.prefix_cons_iff.mp hp with rfl | ⟨t, rfl, ht⟩
        · exact .inl (by simpa [excess] using h)
        · refine .inr (.inl ⟨t, ht, ?_⟩)
          cases b <;> simp only [after, excess] at h ⊢ <;> omega
      · rcases List.infix_cons_iff.mp hs with hs | hs
        · rcases List.prefix_cons_iff.mp hs with rfl | ⟨t, rfl, ht⟩
          · exact .inl (by simp only [excess] at h; omega)
          · refine .inr (.inl ⟨t, ht, ?_⟩)
            cases b <;> simp only [after, excess] at h ⊢ <;> omega
        · exact .inr (.inr ⟨s, hs, h⟩)

/-- **Brackets nest as deep as those of a stretch exceed.** -/
theorem le_depth_iff {m : ℕ} {l : List Bracket} : m ≤ depth l ↔ ∃ s, s <:+: l ∧ (m : ℤ) ≤ excess s := by
  rw [depth, le_depthFrom_iff]
  refine or_iff_right_of_imp ?_
  rintro ⟨p, hp, h⟩
  exact ⟨p, hp.isInfix, by simpa using h⟩

end Bracket

end Milpa

import Milpa.Types.Result

/-!
# What a computation can fail with

`Raises P x`: if `x` fails, then with an error for which `P` holds. There is a rule for each
way in which a computation is made of others, so that what a function can fail with follows
from what the functions that it calls can fail with.
-/

namespace Milpa

universe u v w

variable {ε : Type u} {α β : Type v} {ι : Type w} {P : ε → Prop}

/-- All errors of a computation have the property. -/
structure Raises (P : ε → Prop) (x : Except ε α) : Prop where
  spec : ∀ e, x = .error e → P e

namespace Raises

theorem ok (a : α) : Raises P (.ok a) := ⟨fun _ h => nomatch h⟩

theorem pure (a : α) : Raises P (Pure.pure a : Except ε α) := ok a

theorem error {e : ε} (h : P e) : Raises P (.error e : Except ε α) := by
  constructor
  intro e' heq
  cases heq
  exact h

theorem bind {x : Except ε α} {f : α → Except ε β} (hx : Raises P x) (hf : ∀ a, Raises P (f a)) : Raises P (x >>= f) := by
  cases x with
  | error e => exact error (hx.spec e rfl)
  | ok a => exact hf a

theorem map {x : Except ε α} (hx : Raises P x) (f : α → β) : Raises P (x.map f) := by
  cases x with
  | error e => exact error (hx.spec e rfl)
  | ok a => exact ok (f a)

theorem mapError {ε' : Type*} {f : ε' → ε} {x : Except ε' α} (h : ∀ e, P (f e)) : Raises P (x.mapError f) := by
  cases x with
  | error e => exact error (h e)
  | ok a => exact ok a

theorem ite {c : Prop} [Decidable c] {x y : Except ε α} (hx : Raises P x) (hy : Raises P y) : Raises P (if c then x else y) := by
  split_ifs
  · exact hx
  · exact hy

theorem reject {c : Prop} [Decidable c] {e : ε} (h : P e) : Raises P (rejectIf c e) := ite (error h) (ok ())

/-- A loop whose rounds have the property. -/
theorem foldlM {f : α → ι → Except ε α} {l : List ι} {a : α} (hf : ∀ a i, Raises P (f a i)) : Raises P (l.foldlM f a) := by
  induction l generalizing a with
  | nil => exact ok a
  | cons i l ih =>
    rw [List.foldlM_cons]
    exact bind (hf a i) fun a => ih

end Raises

end Milpa

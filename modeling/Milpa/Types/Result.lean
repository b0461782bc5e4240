import Mathlib.Tactic.SplitIfs

/-!
# Loops that can fail

A Rust loop over a list whose body may leave with `?` is a `foldlM` or a `mapM` in
`Except`. These are the rules for what such a loop gives when it gives a value.
-/

namespace Milpa

universe u v w

/-- A check that fails with `e` when `c` holds. -/
def rejectIf {ε : Type u} (c : Prop) [Decidable c] (e : ε) : Except ε Unit := if c then .error e else .ok ()

@[simp] theorem rejectIf_eq_ok {ε : Type u} {c : Prop} [Decidable c] {e : ε} {r : Unit} :
    rejectIf c e = .ok r ↔ ¬ c := by
  unfold rejectIf
  split_ifs with h <;> simp [h]

namespace Result

variable {ε : Type u} {α β : Type v} {ι : Type w}

theorem ok_bind {a : α} {f : α → Except ε β} : (Except.ok a >>= f) = f a := rfl

theorem bind_eq_ok {x : Except ε α} {f : α → Except ε β} {b : β} :
    (x >>= f) = .ok b ↔ ∃ a, x = .ok a ∧ f a = .ok b := by
  cases x with
  | error e => simp [bind, Except.bind]
  | ok a => simp [bind, Except.bind]

theorem map_eq_ok {x : Except ε α} {f : α → β} {b : β} : (f <$> x) = .ok b ↔ ∃ a, x = .ok a ∧ b = f a := by
  cases x with
  | error e => simp [Functor.map, Except.map]
  | ok a => simp [Functor.map, Except.map, eq_comm]

theorem pure_eq_ok {a b : α} : (pure a : Except ε α) = .ok b ↔ b = a := by
  simp [pure, Except.pure, eq_comm]

theorem isOk_iff {x : Except ε α} : x.isOk = true ↔ ∃ a, x = .ok a := by
  cases x <;> simp [Except.isOk, Except.toBool]

/-- A branch that gives a value. -/
theorem ok_ite {c : Prop} [Decidable c] {x y : Except ε α} {a : α} (h : (if c then x else y) = .ok a) :
    x = .ok a ∨ y = .ok a := by
  by_cases hc : c
  · exact Or.inl (by rwa [if_pos hc] at h)
  · exact Or.inr (by rwa [if_neg hc] at h)

@[simp] theorem throw_ne_ok {e : ε} {a : α} : (throw e : Except ε α) ≠ .ok a := by
  simp [throw, throwThe, MonadExceptOf.throw]

/-- A loop over two lists, one after the other. -/
theorem foldlM_append_ok {f : α → ι → Except ε α} {l l' : List ι} {a b : α} (h : l.foldlM f a = .ok b) :
    (l ++ l').foldlM f a = l'.foldlM f b := by
  rw [List.foldlM_append, h]
  rfl

/-- The invariant rule of a loop that succeeds, with the rounds over elements of the list. -/
theorem foldlM_invariant_of_mem {P : α → Prop} {f : α → ι → Except ε α} {l : List ι} {a r : α}
    (hr : l.foldlM f a = .ok r) (ha : P a) (hf : ∀ a i a', i ∈ l → P a → f a i = .ok a' → P a') : P r := by
  induction l generalizing a with
  | nil =>
    cases hr
    exact ha
  | cons i l ih =>
    obtain ⟨a', hi, hl⟩ := bind_eq_ok.mp hr
    exact ih hl (hf a i a' List.mem_cons_self ha hi) fun a j a' hj => hf a j a' (List.mem_cons_of_mem i hj)

/-- The invariant rule of a loop that succeeds. -/
theorem foldlM_invariant {P : α → Prop} {f : α → ι → Except ε α} {l : List ι} {a r : α}
    (hr : l.foldlM f a = .ok r) (ha : P a) (hf : ∀ a i a', P a → f a i = .ok a' → P a') : P r :=
  foldlM_invariant_of_mem hr ha fun a i a' _ => hf a i a'

/-- What a `mapM` that succeeds gives comes from elements of the list. -/
theorem exists_of_mem_mapM {f : ι → Except ε β} {l : List ι} {r : List β} (h : l.mapM f = .ok r) :
    ∀ b ∈ r, ∃ i ∈ l, f i = .ok b := by
  induction l generalizing r with
  | nil =>
    rw [List.mapM_nil] at h
    obtain rfl := pure_eq_ok.mp h
    nofun
  | cons i l ih =>
    rw [List.mapM_cons] at h
    obtain ⟨b, hb, h⟩ := bind_eq_ok.mp h
    obtain ⟨bs, hbs, h⟩ := bind_eq_ok.mp h
    obtain rfl := pure_eq_ok.mp h
    intro c hc
    rcases List.mem_cons.mp hc with rfl | hc
    · exact ⟨i, List.mem_cons_self, hb⟩
    · obtain ⟨j, hj, heq⟩ := ih hbs c hc
      exact ⟨j, List.mem_cons_of_mem i hj, heq⟩

/-- A loop of checks succeeds if they all do. -/
theorem forM_eq_ok {α : Type} {f : α → Except ε Unit} {l : List α} : l.forM f = .ok () ↔ ∀ a ∈ l, f a = .ok () := by
  induction l with
  | nil => simp [List.forM, pure_eq_ok]
  | cons a l ih =>
    rw [List.forM, bind_eq_ok, List.forall_mem_cons, ← ih]
    exact ⟨fun ⟨_, ha, hl⟩ => ⟨ha, hl⟩, fun ⟨ha, hl⟩ => ⟨(), ha, hl⟩⟩

/-- A loop with one more check in its body. -/
theorem mapM_eq_ok_and {f g : ι → Except ε β} {p : ι → Prop} (h : ∀ i b, f i = .ok b ↔ g i = .ok b ∧ p i) {l : List ι} {r : List β} :
    l.mapM f = .ok r ↔ l.mapM g = .ok r ∧ ∀ i ∈ l, p i := by
  induction l generalizing r with
  | nil => simp
  | cons i l ih =>
    simp only [List.mapM_cons, bind_eq_ok, pure_eq_ok, List.forall_mem_cons]
    constructor
    · rintro ⟨b, hb, bs, hbs, rfl⟩
      obtain ⟨hg, hi⟩ := (h i b).mp hb
      obtain ⟨hgs, hl⟩ := ih.mp hbs
      exact ⟨⟨b, hg, bs, hgs, rfl⟩, hi, hl⟩
    · rintro ⟨⟨b, hg, bs, hgs, rfl⟩, hi, hl⟩
      exact ⟨b, (h i b).mpr ⟨hg, hi⟩, bs, ih.mpr ⟨hgs, hl⟩, rfl⟩

theorem mapError_eq_ok {ε' : Type*} {f : ε → ε'} {x : Except ε α} {a : α} : x.mapError f = .ok a ↔ x = .ok a := by
  cases x <;> simp [Except.mapError]

theorem toOption_eq_some {x : Except ε α} {a : α} : x.toOption = some a ↔ x = .ok a := by
  cases x <;> simp [Except.toOption]

end Result

end Milpa

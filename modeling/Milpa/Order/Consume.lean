import Mathlib.Data.List.Infix
import Mathlib.Data.List.TakeWhile

/-!
# Loops that take several elements at a time

A loop over a list that looks at an element and at what follows it, gives some results, and
goes on with an end of what follows. It is run with the length of the list as fuel, and this
is always enough (`run_cons`).
-/

namespace Milpa.Consume

variable {α β γ : Type*}

/-- The step of a loop goes on with an end of what follows the element. -/
def Shrinks (step : α → List α → List β × List α) : Prop := ∀ x xs, (step x xs).2 <:+ xs

/-- The results of a loop, with fuel. -/
def loop (step : α → List α → List β × List α) : ℕ → List α → List β
  | 0, _ => []
  | _ + 1, [] => []
  | n + 1, x :: xs => (step x xs).1 ++ loop step n (step x xs).2

/-- The results of a loop. -/
def run (step : α → List α → List β × List α) (l : List α) : List β := loop step l.length l

variable {step : α → List α → List β × List α} {x : α} {xs l t : List α} {b : β}

theorem loop_eq_run (h : Shrinks step) {n : ℕ} (hn : l.length ≤ n) : loop step n l = run step l := by
  have key : ∀ (k m : ℕ) (l : List α), l.length ≤ k → l.length ≤ m → loop step k l = loop step m l := by
    intro k
    induction k with
    | zero =>
      intro m l hk _
      obtain rfl : l = [] := List.length_eq_zero_iff.mp (Nat.le_zero.mp hk)
      cases m <;> rfl
    | succ k ih =>
      intro m l hk hm
      cases l with
      | nil => cases m <;> rfl
      | cons x xs =>
        obtain ⟨m, rfl⟩ : ∃ j, m = j + 1 := ⟨m - 1, by simp at hm; omega⟩
        have hle := (h x xs).length_le
        simp only [List.length_cons, Nat.add_le_add_iff_right] at hk hm
        rw [loop, loop, ih m _ (hle.trans hk) (hle.trans hm)]
  exact key _ _ _ hn le_rfl

@[simp] theorem run_nil : run step [] = [] := rfl

theorem run_cons (h : Shrinks step) : run step (x :: xs) = (step x xs).1 ++ run step (step x xs).2 := by
  rw [run, List.length_cons, loop, loop_eq_run h (h x xs).length_le]

/-- What a loop goes on with, at an element: an end of the list at which it takes its next step. -/
inductive Reaches (step : α → List α → List β × List α) : List α → List α → Prop
  | here (l : List α) : Reaches step l l
  | next {x : α} {xs t : List α} : Reaches step (step x xs).2 t → Reaches step (x :: xs) t

theorem Reaches.isSuffix (hs : Shrinks step) (h : Reaches step l t) : t <:+ l := by
  induction h with
  | here l => exact List.suffix_rfl
  | @next x xs t h ih => exact (ih.trans (hs x xs)).trans (List.suffix_cons x xs)

/-- Each result is given at an element that the loop reaches. -/
theorem mem_run (hs : Shrinks step) : b ∈ run step l ↔ ∃ x xs, Reaches step l (x :: xs) ∧ b ∈ (step x xs).1 := by
  induction hn : l.length using Nat.strong_induction_on generalizing l with
  | _ n ih =>
    subst hn
    cases l with
    | nil =>
      simp only [run_nil, List.not_mem_nil, false_iff]
      rintro ⟨x, xs, h, -⟩
      cases h
    | cons x xs =>
      have hlt : (step x xs).2.length < (x :: xs).length := Nat.lt_succ_of_le (hs x xs).length_le
      rw [run_cons hs, List.mem_append, ih _ hlt rfl]
      constructor
      · rintro (h | ⟨y, ys, hreach, h⟩)
        · exact ⟨x, xs, .here _, h⟩
        · exact ⟨y, ys, .next hreach, h⟩
      · rintro ⟨y, ys, hreach, h⟩
        cases hreach with
        | here => exact .inl h
        | next hreach => exact .inr ⟨y, ys, hreach, h⟩

/-- Induction on the steps of a loop. -/
theorem run_induction (hs : Shrinks step) {motive : List α → Prop} (nil : motive [])
    (cons : ∀ x xs, motive (step x xs).2 → motive (x :: xs)) (l : List α) : motive l := by
  induction hn : l.length using Nat.strong_induction_on generalizing l with
  | _ n ih =>
    subst hn
    cases l with
    | nil => exact nil
    | cons x xs => exact cons x xs (ih _ (Nat.lt_succ_of_le (hs x xs).length_le) _ rfl)

/-- A part of the results of a loop. -/
theorem filterMap_run (hs : Shrinks step) (f : β → Option γ) :
    (run step l).filterMap f = run (fun x xs => ((step x xs).1.filterMap f, (step x xs).2)) l := by
  induction l using run_induction hs with
  | nil => rfl
  | cons x xs ih =>
    have hparts : Shrinks fun x xs => ((step x xs).1.filterMap f, (step x xs).2) := fun x xs => hs x xs
    rw [run_cons hs, run_cons hparts, List.filterMap_append, ih]

/-! ### Results at an element -/

/-- With results that name their element by a key, those with the key of an element that is reached are what its step gives. -/
theorem filter_run {κ : Type*} [DecidableEq κ] (hs : Shrinks step) (key : α → κ) (name : β → κ)
    (hname : ∀ x xs, ∀ b ∈ (step x xs).1, name b = key x) (hnodup : (l.map key).Nodup) (h : Reaches step l (x :: xs)) :
    (run step l).filter (fun b => decide (name b = key x)) = (step x xs).1 := by
  have hafter : ∀ {t : List α} {y : α}, key y ∉ t.map key → (run step t).filter (fun b => decide (name b = key y)) = [] := by
    intro t y hy
    rw [List.filter_eq_nil_iff]
    intro b hb
    obtain ⟨z, zs, hreach, hz⟩ := (mem_run hs).mp hb
    have hmem : z ∈ t := (hreach.isSuffix hs).subset List.mem_cons_self
    rw [decide_eq_true_iff, hname z zs b hz]
    exact fun heq => hy (heq ▸ List.mem_map_of_mem hmem)
  generalize ht : x :: xs = t at h
  induction h with
  | here l =>
    subst ht
    have hx : key x ∉ (step x xs).2.map key := fun hmem =>
      (List.nodup_cons.mp hnodup).1 (List.map_subset _ (hs x xs).subset hmem)
    rw [run_cons hs, List.filter_append, hafter hx, List.append_nil, List.filter_eq_self]
    exact fun b hb => decide_eq_true (hname x xs b hb)
  | @next y ys t h ih =>
    subst ht
    rw [List.map_cons, List.nodup_cons] at hnodup
    have hmem : x ∈ ys := ((h.isSuffix hs).trans (hs y ys)).subset List.mem_cons_self
    have hne : key y ≠ key x := fun heq => hnodup.1 (heq ▸ List.mem_map_of_mem hmem)
    have hbefore : (step y ys).1.filter (fun b => decide (name b = key x)) = [] := by
      rw [List.filter_eq_nil_iff]
      intro b hb
      rw [hname y ys b hb, decide_eq_true_iff]
      exact hne
    rw [run_cons hs, List.filter_append, hbefore, List.nil_append]
    exact ih (hnodup.2.sublist ((hs y ys).sublist.map key)) rfl

/-- Results that name their elements are in the order of the elements. -/
theorem pairwise_run (hs : Shrinks step) (key : α → ℕ) (name : β → ℕ) (hname : ∀ x xs, ∀ b ∈ (step x xs).1, name b = key x)
    (hl : (l.map key).Pairwise (· < ·)) : (run step l).Pairwise fun a b => name a ≤ name b := by
  induction l using run_induction hs with
  | nil => exact .nil
  | cons x xs ih =>
    rw [List.map_cons, List.pairwise_cons] at hl
    rw [run_cons hs, List.pairwise_append]
    refine ⟨?_, ih (hl.2.sublist ((hs x xs).sublist.map key)), fun a ha b hb => ?_⟩
    · refine List.pairwise_of_forall_mem_list fun a ha b hb => ?_
      rw [hname x xs a ha, hname x xs b hb]
    · obtain ⟨y, ys, hreach, hb⟩ := (mem_run hs).mp hb
      have hmem : y ∈ xs := ((hreach.isSuffix hs).trans (hs x xs)).subset List.mem_cons_self
      rw [hname x xs a ha, hname y ys b hb]
      exact (hl.1 _ (List.mem_map_of_mem hmem)).le

/-! ### Loops that go over what continues an element -/

/-- The step goes over what follows a beginning as long as it continues, and over one element more. -/
def Takes (step : α → List α → List β × List α) (starts goes : α → Bool) : Prop :=
  ∀ x xs, (step x xs).2 = if starts x then (xs.dropWhile goes).drop 1 else xs

variable {starts goes : α → Bool}

theorem Takes.shrinks (h : Takes step starts goes) : Shrinks step := by
  intro x xs
  rw [h x xs]
  split_ifs
  · exact (List.drop_suffix _ _).trans (List.dropWhile_suffix _)
  · exact List.suffix_rfl

theorem exists_split (goes : α → Bool) {l : List α} (h : ¬ ∀ w ∈ l, goes w = true) :
    ∃ b w c, l = b ++ w :: c ∧ (∀ v ∈ b, goes v = true) ∧ goes w = false := by
  cases hdrop : l.dropWhile goes with
  | nil => exact absurd (List.dropWhile_eq_nil_iff.mp hdrop) h
  | cons w c =>
    refine ⟨l.takeWhile goes, w, c, by rw [← hdrop, List.takeWhile_append_dropWhile], fun v hv => List.mem_takeWhile_imp hv, ?_⟩
    have hhead := List.head?_dropWhile_not goes l
    rw [hdrop] at hhead
    simpa using hhead

/-- **An element is reached unless a beginning before it goes on to it.** -/
theorem reaches_iff (h : Takes step starts goes) (hstarts : ∀ x, starts x = true → goes x = true) (a : List α) (x : α) (xs : List α) :
    Reaches step (a ++ x :: xs) (x :: xs) ↔
      ∀ p y q, a = p ++ y :: q → starts y = true → ∃ w ∈ q, goes w = false := by
  induction hn : a.length using Nat.strong_induction_on generalizing a with
  | _ n ih =>
    subst hn
    cases a with
    | nil => exact iff_of_true (.here _) (by simp)
    | cons y a =>
      have hnext : Reaches step (y :: a ++ x :: xs) (x :: xs) ↔ Reaches step (step y (a ++ x :: xs)).2 (x :: xs) := by
        refine ⟨fun hreach => ?_, fun hreach => .next hreach⟩
        generalize ht : x :: xs = t at hreach
        generalize hl : y :: a ++ t = l at hreach
        cases hreach with
        | here =>
          have hlen := congrArg List.length hl
          simp only [List.length_append, List.length_cons] at hlen
          omega
        | next hreach =>
          rw [List.cons_append, List.cons.injEq] at hl
          obtain ⟨rfl, rfl⟩ := hl
          exact hreach
      rw [hnext, h]
      by_cases hy : starts y = true
      · rw [if_pos hy]
        by_cases hall : ∀ w ∈ a, goes w = true
        · -- the beginning goes on to the element
          refine iff_of_false (fun hreach => ?_) fun hno => ?_
          · have hlen := (hreach.isSuffix h.shrinks).length_le
            have hdrop : (a ++ x :: xs).dropWhile goes = (x :: xs).dropWhile goes := List.dropWhile_append_of_pos hall
            have hle := (List.dropWhile_suffix (l := x :: xs) goes).length_le
            rw [hdrop, List.length_drop] at hlen
            simp only [List.length_cons] at hlen hle
            omega
          · obtain ⟨w, hw, hgoes⟩ := hno [] y a rfl hy
            rw [hall w hw] at hgoes
            cases hgoes
        · -- it goes on to an element before
          obtain ⟨b, w, c, rfl, hb, hw⟩ := exists_split goes hall
          have hrest : (((b ++ w :: c) ++ x :: xs).dropWhile goes).drop 1 = c ++ x :: xs := by
            rw [List.append_assoc, List.dropWhile_append_of_pos hb, List.cons_append, List.dropWhile_cons_of_neg (by simp [hw])]
            rfl
          rw [hrest, ih c.length (by simp only [List.length_cons, List.length_append]; omega) c rfl]
          constructor
          · intro hno p z q hl hz
            by_contra hgo
            push Not at hgo
            have hq : ∀ v ∈ z :: q, goes v ≠ false := by
              intro v hv
              rcases List.mem_cons.mp hv with rfl | hv
              · rw [hstarts v hz]
                decide
              · exact hgo v hv
            obtain ⟨p, rfl⟩ : ∃ p', c = p' ++ z :: q := by
              rw [← List.cons_append] at hl
              rcases List.append_eq_append_iff.mp hl with ⟨d, hp, hc⟩ | ⟨d, hb', hc⟩
              · cases d with
                | nil =>
                  obtain ⟨rfl, rfl⟩ := List.cons.inj hc
                  exact absurd hw (hq w List.mem_cons_self)
                | cons v d =>
                  obtain ⟨rfl, rfl⟩ := List.cons.inj hc
                  exact ⟨d, rfl⟩
              · refine absurd hw (hq w ?_)
                rw [hc]
                exact List.mem_append_right _ List.mem_cons_self
            obtain ⟨v, hv, hgoes⟩ := hno p z q rfl hz
            exact hgo v hv hgoes
          · exact fun hno p z q hl hz => hno (y :: (b ++ w :: p)) z q (by simp [hl]) hz
      · rw [if_neg hy, ih a.length (Nat.lt_succ_self _) a rfl]
        constructor
        · intro hno p z q hl hz
          cases p with
          | nil =>
            obtain ⟨rfl, rfl⟩ := List.cons.inj hl
            exact absurd hz hy
          | cons v p => exact hno p z q (List.cons.inj hl).2 hz
        · exact fun hno p z q hl hz => hno (y :: p) z q (by rw [hl]; rfl) hz

end Milpa.Consume

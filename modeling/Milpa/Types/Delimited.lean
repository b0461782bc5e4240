import Mathlib.Data.List.Basic

/-!
# Delimited text

Records are texts of fields that one character separates, and a list of records is a text of
lines that another one ends. Where the two characters are in no field, the text says which
fields there are (`intercalate_inj`) and which lines (`flatMap_line_inj`).
-/

namespace Milpa.Delimited

variable {α β γ : Type*} {sep : α}

theorem intercalate_inj {fields fields' : List (List α)} (h : ∀ f ∈ fields, sep ∉ f) (h' : ∀ f ∈ fields', sep ∉ f)
    (hne : fields ≠ []) (hne' : fields' ≠ []) (heq : [sep].intercalate fields = [sep].intercalate fields') :
    fields = fields' := by
  classical
  have hsplit := congrArg (List.splitOn sep) heq
  rwa [List.splitOn_intercalate sep h hne, List.splitOn_intercalate sep h' hne'] at hsplit

theorem intercalate_cons_ne_nil {f : List α} {fields : List (List α)} (hf : f ≠ []) : [sep].intercalate (f :: fields) ≠ [] := by
  cases fields with
  | nil => simpa [List.intercalate] using hf
  | cons g fields => simp [List.intercalate_cons_cons]

/-- Where no field is empty, there may be none. -/
theorem intercalate_inj_of_ne_nil {fields fields' : List (List α)} (h : ∀ f ∈ fields, sep ∉ f) (h' : ∀ f ∈ fields', sep ∉ f)
    (hne : ∀ f ∈ fields, f ≠ []) (hne' : ∀ f ∈ fields', f ≠ []) (heq : [sep].intercalate fields = [sep].intercalate fields') :
    fields = fields' := by
  cases fields with
  | nil =>
    cases fields' with
    | nil => rfl
    | cons f' fields' => exact absurd heq.symm (intercalate_cons_ne_nil (hne' f' List.mem_cons_self))
  | cons f fields =>
    cases fields' with
    | nil => exact absurd heq (intercalate_cons_ne_nil (hne f List.mem_cons_self))
    | cons f' fields' => exact intercalate_inj h h' (List.cons_ne_nil _ _) (List.cons_ne_nil _ _) heq

/-- What stands before the first end of a line. -/
theorem takeWhile_line [DecidableEq α] {stop : α} {l rest : List α} (h : stop ∉ l) :
    (l ++ stop :: rest).takeWhile (fun c => decide (c ≠ stop)) = l := by
  have hbefore : ∀ c ∈ l, decide (c ≠ stop) = true := fun c hc => decide_eq_true fun heq => h (heq ▸ hc)
  rw [List.takeWhile_append_of_pos hbefore, List.takeWhile_cons_of_neg (by simp), List.append_nil]

theorem flatMap_line_inj (stop : α) {f : β → List α} {l l' : List β} (h : ∀ b ∈ l, stop ∉ f b) (h' : ∀ b ∈ l', stop ∉ f b)
    (heq : (l.flatMap fun b => f b ++ [stop]) = l'.flatMap fun b => f b ++ [stop]) : l.map f = l'.map f := by
  classical
  induction l generalizing l' with
  | nil =>
    cases l' with
    | nil => rfl
    | cons b' l' => simp at heq
  | cons b l ih =>
    cases l' with
    | nil => simp at heq
    | cons b' l' =>
      obtain ⟨hb, hl⟩ := List.forall_mem_cons.mp h
      obtain ⟨hb', hl'⟩ := List.forall_mem_cons.mp h'
      rw [List.flatMap_cons, List.flatMap_cons, List.append_assoc, List.append_assoc, List.singleton_append,
        List.singleton_append] at heq
      have hfirst : f b = f b' := by rw [← takeWhile_line hb, heq, takeWhile_line hb']
      rw [hfirst] at heq
      rw [List.map_cons, List.map_cons, hfirst, ih hl hl' (List.cons.inj (List.append_cancel_left heq)).2]

/-- Records that are told apart by their texts are told apart in a list. -/
theorem eq_of_map_eq {f : β → γ} {l l' : List β} (hinj : ∀ b ∈ l, ∀ b' ∈ l', f b = f b' → b = b') (h : l.map f = l'.map f) :
    l = l' := by
  induction l generalizing l' with
  | nil => exact (List.map_eq_nil_iff.mp h.symm).symm
  | cons b l ih =>
    obtain ⟨b', l', rfl, hb, hl⟩ := List.map_eq_cons_iff.mp h.symm
    obtain rfl := hinj b List.mem_cons_self b' List.mem_cons_self hb.symm
    rw [ih (fun c hc c' hc' => hinj c (List.mem_cons_of_mem b hc) c' (List.mem_cons_of_mem b hc')) hl.symm]

end Milpa.Delimited

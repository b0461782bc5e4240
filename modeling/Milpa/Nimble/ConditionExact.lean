import Milpa.Nimble.ConditionReading
import Milpa.Solver.ConstraintRoundTrip

/-!
# What the predicates of a condition say

The predicates of a condition that is recognized say what the condition says for a symbol
and for a comparison of all three components of the version. A comparison of fewer
components is filled up with zeros, and this is right for `>=` and `<` only: `NimMajor > 1`
becomes `nim > 1.0.0`, which holds for 1.6 (`satisfied_translation`).
-/

namespace Milpa.Nimble

open NimScript

variable {o : CompareOp}

/-! ### What a comparison says to the solver -/

open Solver Solver.VersionSet in
/-- The set of the versions that a comparison allows. -/
def setOf : CompareOp → Version → VersionSet
  | .ge => gte
  | .gt => gt
  | .le => lte
  | .lt => lt
  | .eq => eq

section

open Solver Solver.VersionSet

variable {v u : Version}

theorem contains_setOf (o : CompareOp) (v u : Version) :
    (setOf o v).contains u = true ↔
      match o with
      | .ge => v ≤ u
      | .gt => v < u
      | .le => u ≤ v
      | .lt => u < v
      | .eq => v ≤ u ∧ u ≤ v := by
  rw [contains_iff]
  cases o
  · simp [setOf, covers_gte, cutAt_le_point]
  · simp [setOf, covers_gt, cutAt_le_point]
  · simp [setOf, covers_lte, point_lt_cutAt]
  · simp [setOf, covers_lt, point_lt_cutAt]
  · simp [setOf, covers_eq, cutAt_le_point, point_lt_cutAt]

/-- A comparison, as `normalize_constraint` leaves it. -/
def spacedText (o : CompareOp) (v : Version) : Str := opText o ++ ' ' :: v.display

theorem normalizeConstraint_clause (o : CompareOp) (v : Version) :
    Core.Resolver.normalizeConstraint (opText o ++ v.display) = spacedText o v := by
  obtain ⟨c, cs, hv, hdigit⟩ := display_cons v
  have hne : c ≠ '=' := by
    rintro rfl
    exact absurd hdigit (by decide)
  have hblank : Str.isWhitespace c = false := not_isWhitespace_of_wordChar (.inl (wordChar_of_isDigit hdigit))
  rw [spacedText, hv]
  cases o <;>
    simp [Core.Resolver.normalizeConstraint, opText, Str.stripPrefix, List.isPrefixOf?, hne.symm, hblank]

theorem mem_spacedText (h : v.Readable) {c : Char} (hc : c ∈ spacedText o v) :
    opChar c = true ∨ c = ' ' ∨ isVersionChar c = true := by
  rcases List.mem_append.mp hc with hc | hc
  · obtain ⟨-, -, -, -, hall⟩ := opText_eq o
    exact .inl (hall c hc)
  · rcases List.mem_cons.mp hc with rfl | hc
    · exact .inr (.inl rfl)
    · exact .inr (.inr (isVersionChar_of_mem_display h c hc))

theorem trim_spacedText (o : CompareOp) (h : v.Readable) : (spacedText o v).trim = spacedText o v := by
  obtain ⟨d, l, hv, -⟩ := display_cons v
  refine Str.trim_of_ends (fun c hc => ?_) fun c hc => ?_
  · obtain ⟨-, -, -, -, hall⟩ := opText_eq o
    refine not_isWhitespace_of_wordChar (.inr (.inl (hall c ?_)))
    cases o <;> exact Option.some.inj hc ▸ List.mem_cons_self
  · rw [spacedText, hv, List.getLast?_append_cons, List.getLast?_cons_cons] at hc
    exact not_isWhitespace_of_isVersionChar (isVersionChar_of_mem_display h c (hv ▸ List.mem_of_mem_getLast? hc))

theorem parseClause_spacedText (o : CompareOp) (h : v.Readable) : parseClause (spacedText o v) = .ok (setOf o v) := by
  have hdisplay : Str.trim (' ' :: v.display) = v.display := by
    obtain ⟨d, l, hv, -⟩ := display_cons v
    refine Padded.trim ⟨" ", [], by simp, isWhitespace_of_mem_blank, by simp⟩ (by simp [hv]) fun c hc => ?_
    exact not_isWhitespace_of_isVersionChar (isVersionChar_of_mem_display h c hc)
  unfold parseClause
  dsimp only
  rw [trim_spacedText o h]
  have hfind : (clauseOps.findSome? fun op => ((spacedText o v).stripPrefix op.1).map fun rest => (op.2, rest)) =
      some (setOf o, ' ' :: v.display) := by
    cases o <;> simp [spacedText, opText, setOf, clauseOps, Str.stripPrefix, List.isPrefixOf?]
  rw [hfind]
  dsimp only
  rw [hdisplay, parseVersion_display h]

/-- **What the solver makes of a comparison.** -/
theorem fromConstraint_spacedText (o : CompareOp) (h : v.Readable) :
    fromConstraint (some (spacedText o v)) = .ok (empty.union (full.intersect (setOf o v))) := by
  have hnot : ∀ c : Char, opChar c = false → c ≠ ' ' → isVersionChar c = false → c ∉ spacedText o v := by
    intro c hop hblank hversion hc
    rcases mem_spacedText h hc with hc | rfl | hc
    · rw [hc] at hop
      cases hop
    · exact hblank rfl
    · rw [hc] at hversion
      cases hversion
  have harm : parseArm (spacedText o v) = .ok (full.intersect (setOf o v)) := by
    rw [parseArm, split_of_not_mem (hnot '&' (by decide) (by decide) (by decide)), List.foldlM_cons, trim_spacedText o h,
      parseClause_spacedText o h]
    rfl
  have hplain : ((spacedText o v).isEmpty || spacedText o v == ("any version" : Str)) = false := by
    cases o <;> simp [spacedText, opText]
  unfold fromConstraint
  dsimp only
  rw [trim_spacedText o h, hplain, if_neg (by simp), splitOr_of_not_mem (hnot '|' (by decide) (by decide) (by decide)),
    List.foldlM_cons, harm]
  rfl

theorem versionSatisfies_clause (o : CompareOp) (h : v.Readable) :
    Core.Resolver.versionSatisfies u (opText o ++ v.display) = (setOf o v).contains u := by
  have hhead : ((opText o ++ v.display).head?.any fun c => decide (c ∈ ['>', '<', '=', '!', '~', '^'])) = true := by
    cases o <;> rfl
  have hempty : empty.contains u = false := rfl
  have hfull : full.contains u = true := rfl
  rw [Core.Resolver.versionSatisfies, if_pos hhead, normalizeConstraint_clause, fromConstraint_spacedText o h]
  dsimp only
  rw [Bool.eq_iff_iff, contains_union, contains_intersect, hempty, hfull]
  simp

end

/-! ### Bounds, filled up with zeros -/

/-- A bound, filled up with zeros. -/
def filled (bound : List ℕ) : List ℕ := [bound.getD 0 0, bound.getD 1 0, bound.getD 2 0]

theorem lt_three {a b c x y z : ℕ} : [a, b, c] < [x, y, z] ↔ a < x ∨ a = x ∧ (b < y ∨ b = y ∧ c < z) := by
  simp [List.cons_lt_cons_iff]

theorem lt_two {a b x y : ℕ} : [a, b] < [x, y] ↔ a < x ∨ a = x ∧ b < y := by simp [List.cons_lt_cons_iff]

theorem lt_one {a x : ℕ} : [a] < [x] ↔ a < x := by simp [List.cons_lt_cons_iff]

theorem le_three {a b c x y z : ℕ} : [a, b, c] ≤ [x, y, z] ↔ a < x ∨ a = x ∧ (b < y ∨ b = y ∧ c ≤ z) := by
  rw [← not_lt, lt_three]
  omega

theorem le_two {a b x y : ℕ} : [a, b] ≤ [x, y] ↔ a < x ∨ a = x ∧ b ≤ y := by
  rw [← not_lt, lt_two]
  omega

theorem le_one {a x : ℕ} : [a] ≤ [x] ↔ a ≤ x := by rw [← not_lt, lt_one, not_lt]

/-- **Filling up a bound keeps what a comparison says exactly where the comparison is sharp.** -/
theorem filled_holds_iff {t : Target} {bound : List ℕ} (h : Bound bound) :
    (o.holds t.components (filled bound) = true ↔ o.holds (t.components.take bound.length) bound = true) ↔
      (Condition.version o bound).Sharp t := by
  have hcases : (∃ x, bound = [x]) ∨ (∃ x y, bound = [x, y]) ∨ ∃ x y z, bound = [x, y, z] := by
    match bound, h.length with
    | [x], _ => exact .inl ⟨x, rfl⟩
    | [x, y], _ => exact .inr (.inl ⟨x, y, rfl⟩)
    | [x, y, z], _ => exact .inr (.inr ⟨x, y, z, rfl⟩)
  rw [Condition.Sharp]
  rcases hcases with ⟨x, rfl⟩ | ⟨x, y, rfl⟩ | ⟨x, y, z, rfl⟩
  · cases o <;> simp [filled, Target.components, CompareOp.holds, lt_three, lt_one, le_three, le_one] <;> omega
  · cases o <;> simp [filled, Target.components, CompareOp.holds, lt_three, lt_two, le_three, le_two] <;> omega
  · cases o <;> simp [filled, Target.components, CompareOp.holds]

theorem release_le_release {a b c x y z : UInt64} : Version.release a b c ≤ Version.release x y z ↔
    [a.toNat, b.toNat, c.toNat] ≤ [x.toNat, y.toNat, z.toNat] := by
  rw [le_three, Version.le_def]
  simp [Version.precedenceKey, Version.release, Prod.Lex.toLex_le_toLex, Nat.le_iff_lt_or_eq]

theorem release_lt_release {a b c x y z : UInt64} : Version.release a b c < Version.release x y z ↔
    [a.toNat, b.toNat, c.toNat] < [x.toNat, y.toNat, z.toNat] := by
  rw [lt_three, Version.lt_def]
  simp [Version.precedenceKey, Version.release, Prod.Lex.toLex_lt_toLex]

/-- **The predicate of a comparison compares all components with the bound that is filled up.** -/
theorem versionSatisfies_boundValue {t : Target} {bound : List ℕ} (h : Bound bound) :
    Core.Resolver.versionSatisfies (.release t.major t.minor t.patch) (boundValue o bound) = o.holds t.components (filled bound) := by
  have hsmall : ∀ i, bound.getD i 0 < UInt64.size := by
    intro i
    rw [List.getD_eq_getElem?_getD]
    cases hget : bound[i]? with
    | none => decide
    | some n => exact (h.small n (List.mem_of_getElem? hget)).trans (by decide)
  have hnat : ∀ i, (UInt64.ofNat (bound.getD i 0)).toNat = bound.getD i 0 := fun i => UInt64.toNat_ofNat_of_lt (hsmall i)
  have hvalue : ∀ x y z : UInt64, nimValue (opText o) x.toNat y.toNat z.toNat = opText o ++ (Version.release x y z).display := by
    intro x y z
    simp [nimValue, Version.display, Version.release]
  rw [boundValue, filled, ← hnat 0, ← hnat 1, ← hnat 2, hvalue,
    versionSatisfies_clause o (Solver.VersionSet.readable_release _ _ _), Bool.eq_iff_iff, contains_setOf]
  simp only [release_le_release, release_lt_release]
  cases o with
  | ge | gt | le | lt => exact decide_eq_true_iff.symm
  | eq => exact (and_comm.trans le_antisymm_iff.symm).trans decide_eq_true_iff.symm

/-! ### Predicates on a target -/

open Core.Resolver in
/-- The predicates hold on a target. -/
def satisfied (t : Target) (preds : List Predicate) : Bool := preds.all fun pred => predicateSatisfiedProfileOnly pred t.profile

open Core.Resolver in
theorem axis_of_translated {pred : Predicate} {c : Condition} (h : Translated pred c) (t : Target) :
    pred.negated = false ∧ (t.profile.axis pred.name).isSome = true := by
  cases h <;> exact ⟨rfl, rfl⟩

open Core.Resolver in
/-- On a target that has the axis, a predicate that is negated says the contrary. -/
theorem satisfied_negated {pred : Predicate} {profile : Profile} (h : (profile.axis pred.name).isSome = true) (negated : Bool) :
    predicateSatisfiedProfileOnly { pred with negated := !negated } profile =
      !predicateSatisfiedProfileOnly { pred with negated := negated } profile := by
  obtain ⟨matching, hmatching⟩ := Option.isSome_iff_exists.mp h
  simp only [predicateSatisfiedProfileOnly, hmatching]
  cases negated <;> simp

open Core.Resolver in
/-- **The predicate of a condition says what the condition says exactly where it is sharp.** -/
theorem satisfied_translated {pred : Predicate} {c : Condition} (h : Translated pred c) (t : Target) :
    (predicateSatisfiedProfileOnly pred t.profile = true ↔ c.holds t = true) ↔ c.Sharp t := by
  cases h with
  | @platform symbol value h =>
    have haxis : predicateSatisfiedProfileOnly (predicate "platform" value) t.profile = decide (value = t.platform) := by
      show [value].any (fun v => decide (v = t.platform)) = _
      simp
    have hdefined : t.defined symbol = decide (t.platform = value) := t.platforms _ h
    rw [haxis, Condition.holds, hdefined, decide_eq_true_iff, decide_eq_true_iff, Condition.Sharp, iff_true]
    exact eq_comm
  | @arch symbol h =>
    have haxis : predicateSatisfiedProfileOnly (predicate "arch" symbol) t.profile = decide (symbol = t.arch) := by
      show [symbol].any (fun v => decide (v = t.arch)) = _
      simp
    rw [haxis, Condition.holds, t.archs _ h, decide_eq_true_iff, decide_eq_true_iff, Condition.Sharp, iff_true]
    exact eq_comm
  | @version o bound h =>
    have haxis : predicateSatisfiedProfileOnly (predicate "nim" (boundValue o bound)) t.profile =
        versionSatisfies (.release t.major t.minor t.patch) (boundValue o bound) := by
      show [boundValue o bound].any (versionSatisfies (.release t.major t.minor t.patch)) = _
      simp
    rw [haxis, versionSatisfies_boundValue h]
    exact filled_holds_iff h

/-- **The predicates of a recognized condition say what it says exactly where it is sharp.** -/
theorem satisfied_translation {preds : List Predicate} {c : Condition} (h : Translation preds c) (t : Target) :
    (satisfied t preds = true ↔ c.holds t = true) ↔ c.Sharp t := by
  cases h with
  | single h =>
    rw [satisfied, List.all_cons, List.all_nil, Bool.and_true]
    exact satisfied_translated h t
  | @not pred c h =>
    obtain ⟨hplain, haxis⟩ := axis_of_translated h t
    have hnegated := satisfied_negated haxis false
    have hself : { pred with negated := false } = pred := by rw [← hplain]
    rw [hself] at hnegated
    rw [satisfied, List.all_cons, List.all_nil, Bool.and_true, Condition.Sharp, ← satisfied_translated h t]
    have hflip : Core.Resolver.predicateSatisfiedProfileOnly { pred with negated := true } t.profile =
        !Core.Resolver.predicateSatisfiedProfileOnly pred t.profile := hnegated
    rw [hflip, Condition.holds]
    cases Core.Resolver.predicateSatisfiedProfileOnly pred t.profile <;> cases c.holds t <;> simp
  | @and pred₁ pred₂ c₁ c₂ h₁ h₂ =>
    rw [satisfied, List.all_cons, List.all_cons, List.all_nil, Bool.and_true, Condition.Sharp, Condition.holds,
      ← satisfied_translated h₁ t, ← satisfied_translated h₂ t]
    cases Core.Resolver.predicateSatisfiedProfileOnly pred₁ t.profile <;>
      cases Core.Resolver.predicateSatisfiedProfileOnly pred₂ t.profile <;> cases c₁.holds t <;> cases c₂.holds t <;> simp

end Milpa.Nimble

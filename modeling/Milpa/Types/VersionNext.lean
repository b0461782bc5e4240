import Milpa.Types.Version

/-!
# Neighbours in the order of versions

The order of versions is not dense: it has a least element, `0.0.0-0`, a greatest
release, and between a version and the one that follows it there is nothing. What
follows a pre-release is the same tag with an identifier `0` added; what follows a
release is the first pre-release of the next release.
-/

namespace Milpa

/-- Nothing comes between a list of identifiers and the list with `0` added. -/
theorem PreId.lt_iff_not_lt_append_zero (l m : List PreId) : l < m ↔ ¬ m < l ++ [.numeric 0] := by
  induction l generalizing m with
  | nil =>
    cases m with
    | nil => simp
    | cons b m => simpa [List.cons_lt_cons_iff] using PreId.zero_le b
  | cons a l ih =>
    cases m with
    | nil => simp
    | cons b m =>
      rw [List.cons_append, List.cons_lt_cons_iff, List.cons_lt_cons_iff, ih]
      rcases lt_trichotomy a b with h | rfl | h
      · simp [h, h.not_gt, h.ne']
      · simp
      · simp [h, h.not_gt, h.ne']

namespace Version

/-- The least version. -/
def least : Version := ⟨0, 0, 0, [.numeric 0], []⟩

/-- The first pre-release of a release. -/
def firstPre (major minor patch : UInt64) : Version := ⟨major, minor, patch, [.numeric 0], []⟩

/-- The largest release component. -/
def maxComponent : UInt64 := 0xFFFFFFFFFFFFFFFF

/-- The version that follows `v`; `none` when no version does. -/
def next (v : Version) : Option Version :=
  if v.pre ≠ [] then some { v with pre := v.pre ++ [.numeric 0] }
  else if v.patch ≠ maxComponent then some (firstPre v.major v.minor (v.patch + 1))
  else if v.minor ≠ maxComponent then some (firstPre v.major (v.minor + 1) 0)
  else if v.major ≠ maxComponent then some (firstPre (v.major + 1) 0 0)
  else none

/-- The order of the release components. -/
def relLt (a b : Version) : Prop :=
  a.major.toNat < b.major.toNat ∨ a.major.toNat = b.major.toNat ∧
    (a.minor.toNat < b.minor.toNat ∨ a.minor.toNat = b.minor.toNat ∧ a.patch.toNat < b.patch.toNat)

/-- The same release components. -/
def relEq (a b : Version) : Prop :=
  a.major.toNat = b.major.toNat ∧ a.minor.toNat = b.minor.toNat ∧ a.patch.toNat = b.patch.toNat

/-- The order, by components: on equal components a release is above its pre-releases. -/
theorem lt_iff (a b : Version) :
    a < b ↔ relLt a b ∨ relEq a b ∧ a.pre ≠ [] ∧ (b.pre = [] ∨ a.pre < b.pre) := by
  rw [lt_def, precedenceKey, precedenceKey]
  simp only [Prod.Lex.toLex_lt_toLex, relLt, relEq]
  have hpre : (a.pre.isEmpty < b.pre.isEmpty ∨ a.pre.isEmpty = b.pre.isEmpty ∧ a.pre < b.pre) ↔
      a.pre ≠ [] ∧ (b.pre = [] ∨ a.pre < b.pre) := by
    cases a.pre <;> cases b.pre <;> simp
  rw [hpre]
  tauto

theorem least_le (v : Version) : least ≤ v := by
  rw [← Version.not_lt, lt_iff]
  rintro (h | ⟨-, hpre, h⟩)
  · simp [relLt, least] at h
  · rcases h with h | h
    · simp [least] at h
    · have := (PreId.lt_iff_not_lt_append_zero [] v.pre).mp (by
        cases hv : v.pre with
        | nil => exact absurd hv hpre
        | cons p l => exact List.nil_lt_cons p l)
      exact this h

theorem toNat_add_one {n : UInt64} (h : n ≠ maxComponent) : (n + 1).toNat = n.toNat + 1 := by
  have hn : n.toNat ≠ 18446744073709551615 := fun hn => h (UInt64.toNat_inj.mp hn)
  have := n.toNat_lt
  rw [UInt64.toNat_add]
  exact Nat.mod_eq_of_lt (by simp; omega)

/-- A release is followed by the first pre-release of what follows its components. -/
theorem lt_iff_firstPre_le {v u w : Version} (hv : v.pre = []) (hw : w.pre = [.numeric 0])
    (h : relLt v u ↔ relLt w u ∨ relEq w u) : v < u ↔ w ≤ u := by
  rw [← Version.not_lt, lt_iff, lt_iff, h, hv, hw]
  have hzero : u.pre ≠ [] → ¬ u.pre < [.numeric 0] := fun hu => by
    refine (PreId.lt_iff_not_lt_append_zero [] u.pre).mp ?_
    cases hu' : u.pre with
    | nil => exact absurd hu' hu
    | cons p l => exact List.nil_lt_cons p l
  have hle : relLt w u ∨ relEq w u ↔ ¬ relLt u w := by
    simp only [relLt, relEq]
    omega
  rw [hle]
  simp only [ne_eq, not_true_eq_false, false_and, and_false, or_false, reduceCtorEq, false_or]
  tauto

/-- **`next` is the version that follows.** -/
theorem lt_iff_next_le {v w : Version} (h : v.next = some w) (u : Version) : v < u ↔ w ≤ u := by
  unfold next at h
  have hmajor := u.major.toNat_lt
  have hminor := u.minor.toNat_lt
  have hpatch := u.patch.toNat_lt
  split_ifs at h with hpre hp hm hM
  · cases h
    have hsame : relLt u { v with pre := v.pre ++ [.numeric 0] } ↔ ¬ (relLt v u ∨ relEq v u) := by
      simp only [relLt, relEq]
      omega
    have hne : relLt v u → ¬ relEq v u := by
      simp only [relLt, relEq]
      omega
    have heq : relEq u { v with pre := v.pre ++ [.numeric 0] } ↔ relEq v u := by
      simp only [relEq]
      omega
    rw [← Version.not_lt, lt_iff, lt_iff, hsame, heq, PreId.lt_iff_not_lt_append_zero]
    simp only [List.append_eq_nil_iff, reduceCtorEq, and_false, false_or]
    tauto
  · cases h
    refine lt_iff_firstPre_le (by simpa using hpre) rfl ?_
    simp only [relLt, relEq, firstPre, toNat_add_one hp]
    omega
  · cases h
    refine lt_iff_firstPre_le (by simpa using hpre) rfl ?_
    have hp' : v.patch.toNat = 2 ^ 64 - 1 := by simp [not_not.mp hp, maxComponent]
    simp only [relLt, relEq, firstPre, toNat_add_one hm, UInt64.toNat_zero]
    omega
  · cases h
    refine lt_iff_firstPre_le (by simpa using hpre) rfl ?_
    have hp' : v.patch.toNat = 2 ^ 64 - 1 := by simp [not_not.mp hp, maxComponent]
    have hm' : v.minor.toNat = 2 ^ 64 - 1 := by simp [not_not.mp hm, maxComponent]
    simp only [relLt, relEq, firstPre, toNat_add_one hM, UInt64.toNat_zero]
    omega

/-- Nothing is above a version that nothing follows. -/
theorem not_lt_of_next_eq_none {v : Version} (h : v.next = none) (u : Version) : ¬ v < u := by
  unfold next at h
  have hmajor := u.major.toNat_lt
  have hminor := u.minor.toNat_lt
  have hpatch := u.patch.toNat_lt
  split_ifs at h with hpre hp hm hM
  have hp' : v.patch.toNat = 2 ^ 64 - 1 := by simp [not_not.mp hp, maxComponent]
  have hm' : v.minor.toNat = 2 ^ 64 - 1 := by simp [not_not.mp hm, maxComponent]
  have hM' : v.major.toNat = 2 ^ 64 - 1 := by simp [not_not.mp hM, maxComponent]
  rw [lt_iff]
  rintro (h | ⟨-, hv, -⟩)
  · simp only [relLt] at h
    omega
  · exact hpre hv

end Version

end Milpa

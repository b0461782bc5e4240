import Mathlib.Data.Char
import Mathlib.Data.List.Lex
import Mathlib.Data.Prod.Lex
import Mathlib.Data.Sum.Order
import Mathlib.Order.Nat
import Milpa.Types.Text

/-!
# Versions

`milpa_types::Version` and its order. The order is that of `precedenceKey`, which
leaves the build string out: two versions that differ only there compare as equal,
and `==` on versions is equality of keys. So `≤` is a total preorder on `Version`
and a linear order on the keys; what the solver needs to know about the order is
proved about keys.
-/

namespace Milpa

/-- `PreId`: one identifier of a pre-release tag. -/
inductive PreId where
  | numeric (n : UInt64)
  | alpha (s : Str)
  deriving DecidableEq, Repr

namespace PreId

/-- The variants in the order they are declared, each ordered by what it holds: the
order Rust derives. -/
def toSum : PreId → ℕ ⊕ₗ Str
  | .numeric n => toLex (.inl n.toNat)
  | .alpha s => toLex (.inr s)

theorem toSum_injective : Function.Injective toSum := by
  intro a b h
  cases a <;> cases b <;> simp [toSum, UInt64.toNat_inj] at h ⊢ <;> exact h

instance : LinearOrder PreId := LinearOrder.lift' toSum toSum_injective

theorem le_def (a b : PreId) : a ≤ b ↔ a.toSum ≤ b.toSum := Iff.rfl

theorem lt_def (a b : PreId) : a < b ↔ a.toSum < b.toSum := Iff.rfl

/-- `0` is the least identifier. -/
theorem zero_le (a : PreId) : numeric 0 ≤ a := by
  rw [le_def]
  cases a with
  | numeric n => simp [toSum]
  | alpha s => exact Sum.Lex.inl_le_inr _ _

end PreId

/-- `Version`. -/
structure Version where
  major : UInt64
  minor : UInt64
  patch : UInt64
  /-- Pre-release identifiers; empty for a normal release. -/
  pre : List PreId
  /-- Build metadata; empty when absent. -/
  build : Str
  deriving DecidableEq, Repr

/-- What `precedence_key` returns. -/
abbrev VersionKey := ℕ ×ₗ ℕ ×ₗ ℕ ×ₗ Bool ×ₗ List PreId

namespace Version

/-- A release version (no pre-release tag, no build metadata). -/
def release (major minor patch : UInt64) : Version := ⟨major, minor, patch, [], []⟩

/-- The semver precedence key: a release sorts above any pre-release of the same
components. -/
def precedenceKey (v : Version) : VersionKey :=
  toLex (v.major.toNat, toLex (v.minor.toNat, toLex (v.patch.toNat, toLex (v.pre.isEmpty, v.pre))))

instance : BEq Version := ⟨fun a b => a.precedenceKey == b.precedenceKey⟩

instance : Preorder Version := Preorder.lift precedenceKey

instance (a b : Version) : Decidable (a ≤ b) := inferInstanceAs (Decidable (a.precedenceKey ≤ b.precedenceKey))

instance (a b : Version) : Decidable (a < b) := inferInstanceAs (Decidable (a.precedenceKey < b.precedenceKey))

/-- `Ord::cmp`. -/
def cmp (a b : Version) : Ordering := if a < b then .lt else if b < a then .gt else .eq

theorem le_def (a b : Version) : a ≤ b ↔ a.precedenceKey ≤ b.precedenceKey := Iff.rfl

theorem lt_def (a b : Version) : a < b ↔ a.precedenceKey < b.precedenceKey := Iff.rfl

@[simp] protected theorem not_lt {a b : Version} : ¬ a < b ↔ b ≤ a := by rw [lt_def, le_def, not_lt]

@[simp] protected theorem not_le {a b : Version} : ¬ a ≤ b ↔ b < a := by rw [lt_def, le_def, not_le]

theorem beq_iff (a b : Version) : (a == b) = true ↔ a.precedenceKey = b.precedenceKey :=
  beq_iff_eq (a := a.precedenceKey)

@[simp] theorem beq_self (a : Version) : (a == a) = true := (beq_iff a a).mpr rfl

@[simp] theorem cmp_eq_lt (a b : Version) : a.cmp b = .lt ↔ a < b := by
  unfold cmp
  split_ifs <;> simp [*]

@[simp] theorem cmp_eq_gt (a b : Version) : a.cmp b = .gt ↔ b < a := by
  unfold cmp
  split_ifs with h h'
  · simp [h.not_gt]
  · simp [h']
  · simp [h']

@[simp] theorem cmp_eq_eq (a b : Version) : a.cmp b = .eq ↔ a.precedenceKey = b.precedenceKey := by
  unfold cmp
  split_ifs with h h'
  · simp [((lt_def a b).mp h).ne]
  · simp [((lt_def b a).mp h').ne']
  · simp [le_antisymm (not_lt.mp (mt (lt_def b a).mpr h')) (not_lt.mp (mt (lt_def a b).mpr h))]

/-- The build string has no say in the order. -/
theorem precedenceKey_build (v : Version) (b : Str) : { v with build := b }.precedenceKey = v.precedenceKey := rfl

/-- Two versions of one precedence agree in everything but the build string. -/
theorem precedenceKey_eq_iff (a b : Version) :
    a.precedenceKey = b.precedenceKey ↔
      a.major = b.major ∧ a.minor = b.minor ∧ a.patch = b.patch ∧ a.pre = b.pre := by
  simp only [precedenceKey, toLex_inj, Prod.mk.injEq, UInt64.toNat_inj]
  constructor
  · rintro ⟨h1, h2, h3, -, h4⟩
    exact ⟨h1, h2, h3, h4⟩
  · rintro ⟨h1, h2, h3, h4⟩
    exact ⟨h1, h2, h3, by rw [h4], h4⟩

end Version

/-- `Display` for `PreId`, as `Display` for `Version` writes it. -/
def PreId.display : PreId → Str
  | .numeric n => Str.ofNat n.toNat
  | .alpha a => a

/-- `Display` for `Version`: `major.minor.patch[-pre][+build]`. -/
def Version.display (v : Version) : Str :=
  Str.ofNat v.major.toNat ++ ['.'] ++ Str.ofNat v.minor.toNat ++ ['.'] ++ Str.ofNat v.patch.toNat ++
    (if v.pre.isEmpty then [] else '-' :: List.intercalate ['.'] (v.pre.map PreId.display)) ++
    (if v.build.isEmpty then [] else '+' :: v.build)

example : (Version.mk 2 3 4 [.alpha "rc", .numeric 1] "build.9").display = ("2.3.4-rc.1+build.9" : Str) := by
  decide

end Milpa

import Mathlib.Data.UInt
import Milpa.Types.Text

/-!
# SHA-256

The hash function of the identities: the message is padded to blocks of 64 bytes, and each
block changes the eight words of the state in 64 rounds.
-/

namespace Milpa

/-- Bytes. -/
abbrev Bytes := List UInt8

instance Bytes.lawfulBEq : LawfulBEq Bytes := inferInstance

instance linearOrderUInt8 : LinearOrder UInt8 where
  le_refl := UInt8.le_refl
  le_trans _ _ _ := UInt8.le_trans
  le_antisymm _ _ := UInt8.le_antisymm
  le_total := UInt8.le_total
  lt_iff_le_not_ge _ _ := by
    rw [UInt8.lt_iff_toNat_lt, UInt8.le_iff_toNat_le, UInt8.le_iff_toNat_le]
    omega
  toDecidableLE := inferInstance
  toDecidableEq := inferInstance
  toDecidableLT := inferInstance

namespace Sha256

/-- The constants of the rounds. -/
def roundConstants : List UInt32 :=
  [0x428a2f98, 0x71374491, 0xb5c0fbcf, 0xe9b5dba5, 0x3956c25b, 0x59f111f1, 0x923f82a4, 0xab1c5ed5,
   0xd807aa98, 0x12835b01, 0x243185be, 0x550c7dc3, 0x72be5d74, 0x80deb1fe, 0x9bdc06a7, 0xc19bf174,
   0xe49b69c1, 0xefbe4786, 0x0fc19dc6, 0x240ca1cc, 0x2de92c6f, 0x4a7484aa, 0x5cb0a9dc, 0x76f988da,
   0x983e5152, 0xa831c66d, 0xb00327c8, 0xbf597fc7, 0xc6e00bf3, 0xd5a79147, 0x06ca6351, 0x14292967,
   0x27b70a85, 0x2e1b2138, 0x4d2c6dfc, 0x53380d13, 0x650a7354, 0x766a0abb, 0x81c2c92e, 0x92722c85,
   0xa2bfe8a1, 0xa81a664b, 0xc24b8b70, 0xc76c51a3, 0xd192e819, 0xd6990624, 0xf40e3585, 0x106aa070,
   0x19a4c116, 0x1e376c08, 0x2748774c, 0x34b0bcb5, 0x391c0cb3, 0x4ed8aa4a, 0x5b9cca4f, 0x682e6ff3,
   0x748f82ee, 0x78a5636f, 0x84c87814, 0x8cc70208, 0x90befffa, 0xa4506ceb, 0xbef9a3f7, 0xc67178f2]

/-- The eight words of the state. -/
structure State where
  a : UInt32
  b : UInt32
  c : UInt32
  d : UInt32
  e : UInt32
  f : UInt32
  g : UInt32
  h : UInt32

/-- The state before the first block. -/
def initial : State :=
  ⟨0x6a09e667, 0xbb67ae85, 0x3c6ef372, 0xa54ff53a, 0x510e527f, 0x9b05688c, 0x1f83d9ab, 0x5be0cd19⟩

/-- A rotation to the right. -/
def rotr (x n : UInt32) : UInt32 := (x >>> n) ||| (x <<< (32 - n))

/-- The words of a block, the most significant byte first. -/
def words : Bytes → List UInt32
  | a :: b :: c :: d :: rest =>
    ((a.toUInt32 <<< 24) ||| (b.toUInt32 <<< 16) ||| (c.toUInt32 <<< 8) ||| d.toUInt32) :: words rest
  | _ => []

/-- The next word of the schedule, from the sixteen words before it. -/
def nextWord (window : List UInt32) : UInt32 :=
  let w (i : ℕ) : UInt32 := window.getD i 0
  let s0 := rotr (w 1) 7 ^^^ rotr (w 1) 18 ^^^ (w 1 >>> 3)
  let s1 := rotr (w 14) 17 ^^^ rotr (w 14) 19 ^^^ (w 14 >>> 10)
  w 0 + s0 + w 9 + s1

/-- One round. -/
def round (s : State) (k w : UInt32) : State :=
  let s1 := rotr s.e 6 ^^^ rotr s.e 11 ^^^ rotr s.e 25
  let ch := (s.e &&& s.f) ^^^ (~~~s.e &&& s.g)
  let t1 := s.h + s1 + ch + k + w
  let s0 := rotr s.a 2 ^^^ rotr s.a 13 ^^^ rotr s.a 22
  let maj := (s.a &&& s.b) ^^^ (s.a &&& s.c) ^^^ (s.b &&& s.c)
  ⟨t1 + s0 + maj, s.a, s.b, s.c, s.d + t1, s.e, s.f, s.g⟩

/-- The rounds of a block: the window has the next sixteen words of the schedule. -/
def rounds : List UInt32 → List UInt32 → State → State
  | [], _, s => s
  | k :: ks, window, s => rounds ks (window.tail ++ [nextWord window]) (round s k (window.getD 0 0))

/-- One block. -/
def compress (s : State) (block : Bytes) : State :=
  let r := rounds roundConstants (words block) s
  ⟨s.a + r.a, s.b + r.b, s.c + r.c, s.d + r.d, s.e + r.e, s.f + r.f, s.g + r.g, s.h + r.h⟩

/-- The blocks of a padded message. -/
def blocks (s : State) : ℕ → Bytes → State
  | 0, _ => s
  | n + 1, message => blocks (compress s (message.take 64)) n (message.drop 64)

/-- The bytes of a number, the most significant first. -/
def bigEndian : ℕ → ℕ → Bytes
  | 0, _ => []
  | width + 1, n => bigEndian width (n / 256) ++ [UInt8.ofNat n]

/-- The padded message. -/
def pad (message : Bytes) : Bytes :=
  message ++ 0x80 :: List.replicate ((119 - message.length % 64) % 64) 0 ++ bigEndian 8 (8 * message.length)

/-- The words of the state. -/
def State.words (s : State) : List UInt32 := [s.a, s.b, s.c, s.d, s.e, s.f, s.g, s.h]

end Sha256

/-- A digest of 32 bytes. -/
structure Digest where
  bytes : Bytes
  length_eq : bytes.length = 32
  deriving DecidableEq

@[simp] theorem Sha256.length_bigEndian (width n : ℕ) : (bigEndian width n).length = width := by
  induction width generalizing n with
  | zero => rfl
  | succ width ih => rw [bigEndian, List.length_append, ih, List.length_singleton]

/-- A number that fits in the width is read back from its bytes. -/
theorem Sha256.bigEndian_injective {width n n' : ℕ} (hn : n < 256 ^ width) (hn' : n' < 256 ^ width)
    (h : bigEndian width n = bigEndian width n') : n = n' := by
  induction width generalizing n n' with
  | zero => omega
  | succ width ih =>
    obtain ⟨hhigh, hlow⟩ := List.append_inj h (by simp)
    have hdiv : n / 256 = n' / 256 :=
      ih (Nat.div_lt_of_lt_mul (by rwa [Nat.mul_comm, ← pow_succ])) (Nat.div_lt_of_lt_mul (by rwa [Nat.mul_comm, ← pow_succ])) hhigh
    have hmod : n % 256 = n' % 256 := by
      have heq := congrArg UInt8.toNat (List.singleton_inj.mp hlow)
      simpa using heq
    omega

open Sha256 in
/-- `Sha256::digest`. -/
def sha256 (message : Bytes) : Digest where
  bytes :=
    let padded := pad message
    (blocks initial (padded.length / 64) padded).words.flatMap fun w => bigEndian 4 w.toNat
  length_eq := by simp [State.words]

/-- A digest in lowercase hexadecimal. -/
def hexLower (d : Digest) : Str := d.bytes.flatMap fun b => [Nat.digitChar (b.toNat / 16), Nat.digitChar (b.toNat % 16)]

theorem hexLower_injective : Function.Injective hexLower := by
  have hdigit : ∀ m n : Fin 16, Nat.digitChar m = Nat.digitChar n → m = n := by decide
  have hbytes : ∀ x y : Bytes, x.flatMap (fun b => [Nat.digitChar (b.toNat / 16), Nat.digitChar (b.toNat % 16)]) =
      y.flatMap (fun b => [Nat.digitChar (b.toNat / 16), Nat.digitChar (b.toNat % 16)]) → x = y := by
    intro x
    induction x with
    | nil =>
      intro y h
      cases y with
      | nil => rfl
      | cons b y => simp at h
    | cons b x ih =>
      intro y h
      cases y with
      | nil => simp at h
      | cons c y =>
        simp only [List.flatMap_cons, List.cons_append, List.nil_append, List.cons.injEq] at h
        obtain ⟨hhigh, hlow, hrest⟩ := h
        have hb := b.toNat_lt
        have hc := c.toNat_lt
        have hdiv := hdigit ⟨b.toNat / 16, by omega⟩ ⟨c.toNat / 16, by omega⟩ hhigh
        have hmod := hdigit ⟨b.toNat % 16, by omega⟩ ⟨c.toNat % 16, by omega⟩ hlow
        simp only [Fin.mk.injEq] at hdiv hmod
        rw [ih y hrest, UInt8.toNat_inj.mp (show b.toNat = c.toNat by omega)]
  rintro ⟨x, hx⟩ ⟨y, hy⟩ h
  have heq : x = y := hbytes x y h
  subst heq
  rfl

end Milpa

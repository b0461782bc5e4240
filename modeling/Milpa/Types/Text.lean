import Mathlib.Algebra.Group.Nat.Defs
import Mathlib.Data.List.DropRight

/-!
# Text

A Rust `str` is a sequence of Unicode scalar values, and so is a list of `Char`;
`Str` is that list. A Rust string literal is written as a Lean one, which the
coercion below turns into its characters. The functions of this module are those
of Rust's standard library that the modelled code calls, under the library's names.
-/

namespace Milpa

/-- A string, as its Unicode scalar values. -/
abbrev Str := List Char

instance : Coe String Str := ⟨String.toList⟩

namespace Str

instance lawfulBEq : LawfulBEq Str := inferInstance

/-- `char::is_whitespace`: the Unicode property `White_Space`. -/
def isWhitespace (c : Char) : Bool :=
  let n := c.toNat
  (9 ≤ n && n ≤ 13) || n == 0x20 || n == 0x85 || n == 0xA0 || n == 0x1680 ||
    (0x2000 ≤ n && n ≤ 0x200A) || n == 0x2028 || n == 0x2029 || n == 0x202F || n == 0x205F || n == 0x3000

/-- `str::trim`. -/
def trim (s : Str) : Str := (s.dropWhile isWhitespace).rdropWhile isWhitespace

/-- `str::trim_start`. -/
def trimStart (s : Str) : Str := s.dropWhile isWhitespace

/-- `str::strip_prefix`. -/
def stripPrefix (s p : Str) : Option Str := List.isPrefixOf? p s

/-- `str::strip_suffix`. -/
def stripSuffix (s p : Str) : Option Str := List.isSuffixOf? p s

/-- `str::split` on a character. -/
def split (s : Str) (c : Char) : List Str := s.splitOn c

/-- `str::split_once` on a character: what is before its first occurrence and what is after. -/
def splitOnce : Str → Char → Option (Str × Str)
  | [], _ => none
  | d :: s, c => if d = c then some ([], s) else (splitOnce s c).map fun p => (d :: p.1, p.2)

/-- `str::rsplit_once` on a character: what is before its last occurrence and what is after. -/
def rsplitOnce (s : Str) (c : Char) : Option (Str × Str) :=
  (splitOnce s.reverse c).map fun p => (p.2.reverse, p.1.reverse)

/-- `str::split_once` on a string. -/
def splitOnceStr : Str → Str → Option (Str × Str)
  | [], pat => (stripPrefix [] pat).map ([], ·)
  | c :: s, pat =>
    match stripPrefix (c :: s) pat with
    | some rest => some ([], rest)
    | none => (splitOnceStr s pat).map fun p => (c :: p.1, p.2)

/-- `str::contains` on a string. -/
def containsStr (s pat : Str) : Bool := (splitOnceStr s pat).isSome

/-- `str::parse` at the unsigned type of the width `bits`. -/
def parseUInt (bits : ℕ) (s : Str) : Option ℕ :=
  let digits := (s.stripPrefix "+").getD s
  if digits.isEmpty || !digits.all Char.isDigit then none
  else
    let n := Nat.ofDigitChars 10 digits 0
    if n < 2 ^ bits then some n else none

/-- `str::parse::<u64>`. -/
def parseU64 (s : Str) : Option UInt64 := (parseUInt 64 s).map UInt64.ofNat

/-- `Display` for an unsigned integer. -/
def ofNat (n : ℕ) : Str := Nat.toDigits 10 n

/-- `Display` for an unsigned integer, filled up with zeros to a width. -/
def padded (width n : ℕ) : Str := List.replicate (width - (ofNat n).length) '0' ++ ofNat n

/-! ### What the searches find -/

theorem stripPrefix_eq_some {s p r : Str} : s.stripPrefix p = some r ↔ s = p ++ r := by
  rw [stripPrefix, List.isPrefixOf?_eq_some_iff_append_eq, eq_comm]

theorem stripSuffix_eq_some {s p r : Str} : s.stripSuffix p = some r ↔ s = r ++ p := by
  rw [stripSuffix, List.isSuffixOf?_eq_some_iff_append_eq, eq_comm]

theorem splitOnce_eq_some {s a b : Str} {c : Char} : s.splitOnce c = some (a, b) ↔ s = a ++ c :: b ∧ c ∉ a := by
  induction s generalizing a with
  | nil => simp [splitOnce]
  | cons d s ih =>
    rw [splitOnce]
    split_ifs with hd
    · subst hd
      cases a with
      | nil => simp
      | cons e a => simp +contextual [eq_comm]
    · cases a with
      | nil => simp [hd]
      | cons e a =>
        simp only [Option.map_eq_some_iff, Prod.exists, Prod.mk.injEq, List.cons.injEq, List.cons_append,
          List.mem_cons, not_or]
        constructor
        · rintro ⟨a', b', hs, ⟨rfl, rfl⟩, rfl⟩
          obtain ⟨rfl, hc⟩ := ih.mp hs
          exact ⟨⟨rfl, rfl⟩, fun h => hd h.symm, hc⟩
        · rintro ⟨⟨rfl, rfl⟩, -, hc⟩
          exact ⟨a, b, ih.mpr ⟨rfl, hc⟩, ⟨rfl, rfl⟩, rfl⟩

theorem splitOnce_eq_none {s : Str} {c : Char} : s.splitOnce c = none ↔ c ∉ s := by
  induction s with
  | nil => simp [splitOnce]
  | cons d s ih =>
    rw [splitOnce]
    split_ifs with hd
    · simp [hd]
    · simp [ih, Ne.symm hd]

theorem rsplitOnce_eq_some {s a b : Str} {c : Char} :
    s.rsplitOnce c = some (a, b) ↔ s = a ++ c :: b ∧ c ∉ b := by
  simp only [rsplitOnce, Option.map_eq_some_iff, Prod.exists, Prod.mk.injEq]
  constructor
  · rintro ⟨b', a', h, rfl, rfl⟩
    obtain ⟨hs, hc⟩ := splitOnce_eq_some.mp h
    exact ⟨by simpa using congrArg List.reverse hs, by simpa using hc⟩
  · rintro ⟨rfl, hc⟩
    exact ⟨b.reverse, a.reverse, splitOnce_eq_some.mpr ⟨by simp, by simpa using hc⟩, by simp, by simp⟩

theorem rsplitOnce_eq_none {s : Str} {c : Char} : s.rsplitOnce c = none ↔ c ∉ s := by
  rw [rsplitOnce, Option.map_eq_none_iff, splitOnce_eq_none, List.mem_reverse]

/-- `split_once` finds an occurrence, and the first one. -/
theorem splitOnceStr_eq_some {s pat a b : Str} (h : s.splitOnceStr pat = some (a, b)) :
    s = a ++ (pat ++ b) ∧ ∀ a' b', s = a' ++ (pat ++ b') → a.length ≤ a'.length := by
  induction s generalizing a with
  | nil =>
    simp only [splitOnceStr, Option.map_eq_some_iff, Prod.mk.injEq] at h
    obtain ⟨r, hr, rfl, rfl⟩ := h
    exact ⟨by simpa using stripPrefix_eq_some.mp hr, by simp⟩
  | cons c s ih =>
    rw [splitOnceStr] at h
    split at h
    · next rest hrest =>
      cases h
      exact ⟨by simpa using stripPrefix_eq_some.mp hrest, by simp⟩
    · next hnone =>
      simp only [Option.map_eq_some_iff, Prod.exists, Prod.mk.injEq] at h
      obtain ⟨a₁, b₁, hs, rfl, rfl⟩ := h
      obtain ⟨rfl, hfirst⟩ := ih hs
      refine ⟨rfl, fun a' b' h' => ?_⟩
      cases a' with
      | nil =>
        rw [List.nil_append] at h'
        exact absurd (stripPrefix_eq_some.mpr h') (by simp [hnone])
      | cons d a' =>
        simp only [List.cons_append, List.cons.injEq] at h'
        simpa using hfirst a' b' h'.2

theorem splitOnceStr_eq_none {s pat : Str} : s.splitOnceStr pat = none ↔ ∀ a b, s ≠ a ++ (pat ++ b) := by
  induction s with
  | nil =>
    rw [splitOnceStr, Option.map_eq_none_iff]
    cases pat with
    | nil => simp [stripPrefix, List.isPrefixOf?]
    | cons p pat => simp [stripPrefix, List.isPrefixOf?]
  | cons c s ih =>
    rw [splitOnceStr]
    cases hp : stripPrefix (c :: s) pat with
    | some rest => simpa using ⟨[], rest, by simpa using stripPrefix_eq_some.mp hp⟩
    | none =>
      rw [Option.map_eq_none_iff, ih]
      constructor
      · intro h a b hab
        cases a with
        | nil =>
          rw [List.nil_append] at hab
          exact absurd (stripPrefix_eq_some.mpr hab) (by simp [hp])
        | cons d a =>
          simp only [List.cons_append, List.cons.injEq] at hab
          exact h a b hab.2
      · intro h a b hab
        exact h (c :: a) b (by rw [hab]; rfl)

theorem containsStr_iff {s pat : Str} : s.containsStr pat = true ↔ ∃ a b, s = a ++ (pat ++ b) := by
  rw [containsStr, Option.isSome_iff_ne_none, Ne, splitOnceStr_eq_none]
  push Not
  rfl

/-! ### Intercalation -/

/-- A character of an intercalation belongs to a part or to the separator. -/
theorem mem_of_mem_intercalate {sep : Str} {c : Char} {parts : List Str} (h : c ∈ List.intercalate sep parts) :
    c ∈ sep ∨ ∃ part ∈ parts, c ∈ part := by
  induction parts with
  | nil => simp [List.intercalate] at h
  | cons part parts ih =>
    cases parts with
    | nil => exact Or.inr ⟨part, List.mem_cons_self, by simpa [List.intercalate] using h⟩
    | cons next parts =>
      rw [List.intercalate_cons_cons] at h
      rcases List.mem_append.mp h with h | h
      · rcases List.mem_append.mp h with h | h
        · exact Or.inr ⟨part, List.mem_cons_self, h⟩
        · exact Or.inl h
      · exact (ih h).imp_right fun ⟨p, hp, hc⟩ => ⟨p, List.mem_cons_of_mem _ hp, hc⟩

/-! ### Trimming -/

theorem mem_trim {c : Char} {s : Str} (h : c ∈ s.trim) : c ∈ s :=
  (List.dropWhile_sublist _).subset ((List.rdropWhile_prefix _ _).subset h)

theorem not_isWhitespace_head_trim {c : Char} {s : Str} (h : s.trim.head? = some c) : isWhitespace c = false := by
  have hpre : s.trim <+: s.dropWhile isWhitespace := List.rdropWhile_prefix _ _
  obtain ⟨t, ht⟩ := hpre
  have hhead : (s.dropWhile isWhitespace).head? = some c := by
    rw [← ht, List.head?_append, h]
    rfl
  have := List.head?_dropWhile_not isWhitespace s
  rw [hhead] at this
  simpa using this

/-- Where the string begins with no white space, trimming cuts its end only. -/
theorem trim_eq_rdropWhile {s : Str} (h : ∀ c ∈ s.head?, isWhitespace c = false) :
    s.trim = s.rdropWhile isWhitespace := by
  rw [trim, List.dropWhile_eq_self_iff.mpr]
  intro hl
  cases s with
  | nil => simp at hl
  | cons c s => simpa using h c rfl

/-- Text that neither begins nor ends with white space. -/
theorem trim_of_ends {s : Str} (hhead : ∀ c ∈ s.head?, isWhitespace c = false) (hlast : ∀ c ∈ s.getLast?, isWhitespace c = false) :
    s.trim = s := by
  rw [trim_eq_rdropWhile hhead, List.rdropWhile_eq_self_iff]
  intro hne
  rw [hlast _ (List.getLast?_eq_some_getLast hne)]
  decide

/-- Text without white space is left as it is. -/
theorem trim_eq_self {s : Str} (h : ∀ c ∈ s, isWhitespace c = false) : s.trim = s :=
  trim_of_ends (fun c hc => h c (List.mem_of_mem_head? hc)) fun c hc => h c (List.mem_of_mem_getLast? hc)

theorem trimStart_of_head {s : Str} (h : ∀ c ∈ s.head?, isWhitespace c = false) : s.trimStart = s := by
  cases s with
  | nil => rfl
  | cons c s => exact List.dropWhile_cons_of_neg (by simp [h c rfl])

theorem head_trimStart (s : Str) : ∀ c ∈ s.trimStart.head?, isWhitespace c = false := by
  intro c hc
  have hhead := List.head?_dropWhile_not isWhitespace s
  rw [show (s.dropWhile isWhitespace).head? = some c from hc] at hhead
  simpa using hhead

theorem trimStart_append {a : Str} (ha : ∀ c ∈ a, isWhitespace c = true) (s : Str) : trimStart (a ++ s) = trimStart s :=
  List.dropWhile_append_of_pos ha

theorem rdropWhile_cons (p : Char → Bool) (c : Char) (s : Str) :
    List.rdropWhile p (c :: s) = if s.rdropWhile p = [] ∧ p c = true then [] else c :: s.rdropWhile p := by
  rw [List.rdropWhile, List.reverse_cons, List.dropWhile_append, List.rdropWhile]
  cases hd : s.reverse.dropWhile p with
  | nil => cases hc : p c <;> simp [hc]
  | cons d ds => simp

/-- The two ends can be cut in either order. -/
theorem dropWhile_rdropWhile (p : Char → Bool) (s : Str) : (s.rdropWhile p).dropWhile p = (s.dropWhile p).rdropWhile p := by
  induction s with
  | nil => rfl
  | cons c s ih =>
    rw [rdropWhile_cons]
    cases hc : p c with
    | true =>
      rw [List.dropWhile_cons_of_pos hc, ← ih]
      split_ifs with hcut
      · rw [hcut.1]
      · rw [List.dropWhile_cons_of_pos hc]
    | false =>
      rw [if_neg (by simp), List.dropWhile_cons_of_neg (by simp [hc]), List.dropWhile_cons_of_neg (by simp [hc]), rdropWhile_cons,
        if_neg (by simp [hc])]

theorem trim_rdropWhile (s : Str) : trim (s.rdropWhile isWhitespace) = s.trim := by
  rw [trim, dropWhile_rdropWhile, List.rdropWhile_idempotent, trim]

theorem trim_trim (s : Str) : s.trim.trim = s.trim := by
  rw [trim, trim, dropWhile_rdropWhile, List.dropWhile_idempotent, List.rdropWhile_idempotent]

/-- What is no white space ends the trimming. -/
theorem rdropWhile_append_cons {p : Char → Bool} (a : Str) {c : Char} (hc : p c = false) (b : Str) :
    (a ++ c :: b).rdropWhile p = a ++ c :: b.rdropWhile p := by
  induction a with
  | nil => rw [List.nil_append, rdropWhile_cons, if_neg (by simp [hc]), List.nil_append]
  | cons d a ih => rw [List.cons_append, rdropWhile_cons, ih, if_neg (by simp), List.cons_append]

theorem trim_cons {c : Char} (hc : isWhitespace c = false) (s : Str) : trim (c :: s) = c :: s.rdropWhile isWhitespace := by
  rw [trim_eq_rdropWhile (by simpa using hc), rdropWhile_cons, if_neg (by simp [hc])]

/-- White space before a text. -/
theorem trim_append_left {a : Str} (ha : ∀ c ∈ a, isWhitespace c = true) (s : Str) : trim (a ++ s) = trim s := by
  rw [trim, List.dropWhile_append_of_pos ha, trim]

/-- White space after a text. -/
theorem trim_append_right (s : Str) {b : Str} (hb : ∀ c ∈ b, isWhitespace c = true) : trim (s ++ b) = trim s := by
  have hdrop : (s ++ b).rdropWhile isWhitespace = s.rdropWhile isWhitespace := by
    rw [List.rdropWhile, List.reverse_append, List.dropWhile_append_of_pos fun c hc => hb c (List.mem_reverse.mp hc), List.rdropWhile]
  rw [← trim_rdropWhile, hdrop, trim_rdropWhile]

/-! ### Letters and digits -/

theorem isUpper_iff {c : Char} : c.isUpper = true ↔ 65 ≤ c.toNat ∧ c.toNat ≤ 90 :=
  decide_eq_true_iff.trans (and_congr UInt32.le_iff_toNat_le UInt32.le_iff_toNat_le)

theorem isLower_iff {c : Char} : c.isLower = true ↔ 97 ≤ c.toNat ∧ c.toNat ≤ 122 :=
  (Bool.and_eq_true_iff.trans (and_congr decide_eq_true_iff decide_eq_true_iff)).trans
    (and_congr UInt32.le_iff_toNat_le UInt32.le_iff_toNat_le)

theorem isDigit_iff {c : Char} : c.isDigit = true ↔ 48 ≤ c.toNat ∧ c.toNat ≤ 57 :=
  (Bool.and_eq_true_iff.trans (and_congr decide_eq_true_iff decide_eq_true_iff)).trans
    (and_congr UInt32.le_iff_toNat_le UInt32.le_iff_toNat_le)

theorem isAlpha_iff {c : Char} : c.isAlpha = true ↔ 65 ≤ c.toNat ∧ c.toNat ≤ 90 ∨ 97 ≤ c.toNat ∧ c.toNat ≤ 122 :=
  Bool.or_eq_true_iff.trans (or_congr isUpper_iff isLower_iff)

theorem isAlphanum_iff {c : Char} :
    c.isAlphanum = true ↔ (65 ≤ c.toNat ∧ c.toNat ≤ 90 ∨ 97 ≤ c.toNat ∧ c.toNat ≤ 122) ∨ 48 ≤ c.toNat ∧ c.toNat ≤ 57 :=
  Bool.or_eq_true_iff.trans (or_congr isAlpha_iff isDigit_iff)

/-- The visible characters of ASCII are not white space. -/
theorem not_isWhitespace_of_toNat {c : Char} (hlo : 0x20 < c.toNat) (hhi : c.toNat < 0x7f) : isWhitespace c = false := by
  unfold isWhitespace
  simp only [Bool.or_eq_false_iff, Bool.and_eq_false_iff, decide_eq_false_iff_not, beq_eq_false_iff_ne]
  omega

/-! ### Numbers -/

theorem ofNat_ne_nil (n : ℕ) : ofNat n ≠ [] := Nat.toDigits_ne_nil

theorem isDigit_of_mem_ofNat {c : Char} {n : ℕ} (h : c ∈ ofNat n) : c.isDigit = true :=
  Nat.isDigit_of_mem_toDigits (by decide) (by decide) h

theorem ofDigitChars_lt {s : Str} (h : ∀ c ∈ s, c.isDigit = true) : Nat.ofDigitChars 10 s 0 < 10 ^ s.length := by
  induction s with
  | nil => simp
  | cons c s ih =>
    obtain ⟨hc, hs⟩ := List.forall_mem_cons.mp h
    have hdigit : c.toNat - '0'.toNat < 10 := by
      have hbounds := isDigit_iff.mp hc
      have : '0'.toNat = 48 := rfl
      omega
    rw [Nat.ofDigitChars_cons, Nat.ofDigitChars_eq_ofDigitChars_zero, List.length_cons, Nat.pow_succ, Nat.mul_zero,
      Nat.zero_add]
    have := ih hs
    have := Nat.mul_le_mul_left (10 ^ s.length) (Nat.lt_succ_iff.mp hdigit)
    omega

/-- A number is displayed in no more characters than it was parsed from. -/
theorem length_ofNat_le {bits n : ℕ} {s : Str} (h : parseUInt bits s = some n) : (ofNat n).length ≤ s.length := by
  unfold parseUInt at h
  set digits := (s.stripPrefix "+").getD s with hd
  have hlen : digits.length ≤ s.length := by
    rw [hd]
    cases hs : s.stripPrefix "+" with
    | none => simp
    | some r =>
      rw [stripPrefix_eq_some.mp hs]
      simp
  dsimp only at h
  split_ifs at h with hcond hlt
  simp only [Option.some.injEq] at h
  simp only [Bool.or_eq_true, not_or, List.isEmpty_iff, Bool.not_eq_true', Bool.not_eq_false] at hcond
  have hpos : 0 < digits.length := List.length_pos_iff.mpr hcond.1
  refine le_trans ?_ hlen
  rw [ofNat, Nat.length_toDigits_le_iff (by decide) hpos, ← h]
  exact ofDigitChars_lt (List.all_eq_true.mp hcond.2)

theorem isDigit_of_mem_padded {c : Char} {width n : ℕ} (h : c ∈ padded width n) : c.isDigit = true := by
  rcases List.mem_append.mp h with h | h
  · rw [List.eq_of_mem_replicate h]
    decide
  · exact isDigit_of_mem_ofNat h

theorem length_padded {width n : ℕ} (hw : 0 < width) (h : n < 10 ^ width) : (padded width n).length = width := by
  have := (Nat.length_toDigits_le_iff (by decide) hw).mpr h
  rw [padded, List.length_append, List.length_replicate, ofNat]
  omega

theorem ofDigitChars_zeros (k : ℕ) (s : Str) : Nat.ofDigitChars 10 (List.replicate k '0' ++ s) 0 = Nat.ofDigitChars 10 s 0 := by
  induction k with
  | zero => rfl
  | succ k ih =>
    rw [List.replicate_succ, List.cons_append, Nat.ofDigitChars_cons]
    exact ih

theorem ofDigitChars_padded (width n : ℕ) : Nat.ofDigitChars 10 (padded width n) 0 = n := by
  rw [padded, ofDigitChars_zeros]
  exact Nat.ofDigitChars_ten_toDigits

theorem parseUInt_padded {bits width n : ℕ} (h : n < 2 ^ bits) : parseUInt bits (padded width n) = some n := by
  have hprefix : stripPrefix (padded width n) "+" = none := by
    rw [Option.eq_none_iff_forall_not_mem]
    intro r hr
    have hplus : '+' ∈ padded width n := by
      rw [stripPrefix_eq_some.mp hr]
      simp
    exact absurd (isDigit_of_mem_padded hplus) (by decide)
  have hempty : (padded width n).isEmpty = false := by simpa [padded] using fun _ => ofNat_ne_nil n
  have hdigits : (padded width n).all Char.isDigit = true :=
    List.all_eq_true.mpr fun c hc => isDigit_of_mem_padded hc
  simp only [parseUInt, hprefix, Option.getD_none, hempty, hdigits, ofDigitChars_padded, h]
  rfl

/-- What an unsigned integer is displayed as parses to it. -/
theorem parseUInt_ofNat {bits n : ℕ} (h : n < 2 ^ bits) : parseUInt bits (ofNat n) = some n := by
  have : padded 0 n = ofNat n := by simp [padded]
  rw [← this]
  exact parseUInt_padded h

end Str

end Milpa

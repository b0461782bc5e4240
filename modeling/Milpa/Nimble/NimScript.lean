import Milpa.Core.Filter
import Mathlib.Data.List.Lex
import Mathlib.Order.Lex

/-!
# What a condition of a NimScript says

The conditions that the specification of `.nimble` files documents, read from their tokens:
`defined(symbol)`, a comparison of the first components of the version of Nim with a number
or a tuple, `not` before one of these, and `and` between two. A comparison of tuples is
lexicographic, and what a target is decides the rest. This is what conditions mean, whatever
the parser makes of them; white space between tokens does not count.
-/

namespace Milpa.NimScript

/-! ### Conditions -/

/-- A comparison. -/
inductive CompareOp where
  | ge
  | gt
  | le
  | lt
  | eq
  deriving DecidableEq, Repr

/-- How a comparison comes out. -/
def CompareOp.holds : CompareOp → List ℕ → List ℕ → Bool
  | ge, a, b => decide (b ≤ a)
  | gt, a, b => decide (b < a)
  | le, a, b => decide (a ≤ b)
  | lt, a, b => decide (a < b)
  | eq, a, b => decide (a = b)

/-- A condition. -/
inductive Condition where
  /-- `defined(symbol)`. -/
  | defined (symbol : Str)
  /-- `NimMajor`, `(NimMajor, NimMinor)` or `(NimMajor, NimMinor, NimPatch)`, compared. -/
  | version (op : CompareOp) (bound : List ℕ)
  | not (c : Condition)
  | and (a b : Condition)
  deriving DecidableEq, Repr

/-- The symbols that name a platform. -/
def platformSymbols : List (Str × Str) :=
  [("windows", "windows"), ("win", "windows"), ("macosx", "macosx"), ("macos", "macosx"), ("linux", "linux"), ("freebsd", "freebsd"),
    ("openbsd", "openbsd"), ("netbsd", "netbsd")]

/-- The symbols that name a processor. -/
def archSymbols : List Str := ["amd64", "arm64", "i386"]

/-- A target: its platform, processor and version of Nim, and the symbols that are defined on it. -/
structure Target where
  platform : Str
  arch : Str
  major : UInt64
  minor : UInt64
  patch : UInt64
  defined : Str → Bool
  /-- A symbol of a platform is defined on that platform only. -/
  platforms : ∀ e ∈ platformSymbols, defined e.1 = decide (platform = e.2)
  /-- A symbol of a processor is defined on that processor only. -/
  archs : ∀ a ∈ archSymbols, defined a = decide (arch = a)

/-- `NimMajor`, `NimMinor` and `NimPatch`. -/
def Target.components (t : Target) : List ℕ := [t.major.toNat, t.minor.toNat, t.patch.toNat]

/-- The profile of a target. -/
def Target.profile (t : Target) : Core.Resolver.Profile :=
  { platform := some t.platform
    arch := some t.arch
    nimVersion := some (.release t.major t.minor t.patch)
    milpaVersion := none }

/-- A condition is true on a target. -/
def Condition.holds (t : Target) : Condition → Bool
  | defined symbol => t.defined symbol
  | version op bound => op.holds (t.components.take bound.length) bound
  | not c => !c.holds t
  | and a b => a.holds t && b.holds t

/-- Filling up the bounds of the comparisons with zeros does not change what the condition says on a target. For a comparison, it
is `>=` or `<`, or the target differs from the bound in a component that is compared, or has zeros in the others. -/
def Condition.Sharp (t : Target) : Condition → Prop
  | defined _ => True
  | version op bound =>
    op = .ge ∨ op = .lt ∨ t.components.take bound.length ≠ bound ∨ ∀ n ∈ t.components.drop bound.length, n = 0
  | not c => c.Sharp t
  | and a b =>
    a.Sharp t ∧ b.Sharp t ∨ a.Sharp t ∧ a.holds t = false ∨ b.Sharp t ∧ b.holds t = false ∨
      ¬ a.Sharp t ∧ ¬ b.Sharp t ∧ a.holds t ≠ b.holds t

/-! ### Reading -/

/-- The tokens of a condition. -/
inductive Token where
  | definedKw
  | notKw
  | andKw
  | nimMajor
  | nimMinor
  | nimPatch
  | op (op : CompareOp)
  | lparen
  | rparen
  | comma
  | number (n : ℕ)
  | ident (name : Str)
  deriving DecidableEq, Repr

/-- The tokens with one spelling. -/
def spellings : List (Str × Token) :=
  [("defined", .definedKw), ("not", .notKw), ("and", .andKw), ("NimMajor", .nimMajor), ("NimMinor", .nimMinor),
    ("NimPatch", .nimPatch), (">=", .op .ge), (">", .op .gt), ("<=", .op .le), ("<", .op .lt), ("==", .op .eq), ("(", .lparen),
    (")", .rparen), (",", .comma)]

/-- The value of a number, which may have a sign. -/
def numberOf (w : Str) : Option ℕ :=
  let digits := (w.stripPrefix "+").getD w
  if !digits.isEmpty && digits.all Char.isDigit then some (Nat.ofDigitChars 10 digits 0) else none

/-- The token of a run of characters. -/
def tokenOf (w : Str) : Token :=
  match spellings.find? fun e => decide (w = e.1) with
  | some e => e.2
  | none =>
    match numberOf w with
    | some n => .number n
    | none => .ident w

/-- A character of a word. -/
def wordChar (c : Char) : Bool := c.isAlphanum || c == '_'

/-- A character of an operator. -/
def opChar (c : Char) : Bool := c == '<' || c == '>' || c == '='

/-- Neighbours that belong to one token. -/
def glues (x y : Char) : Bool := wordChar x && wordChar y || opChar x && opChar y || x == '+' && y.isDigit

/-- The token that has been begun, if there is one; its characters are given last first. -/
def flush (begun : Str) : List Token := if begun.isEmpty then [] else [tokenOf begun.reverse]

/-- The tokens of a text, after the beginning of one: a token goes on as long as neighbours belong together. -/
def lex : Str → Str → List Token
  | begun, [] => flush begun
  | begun, c :: s =>
    if begun.head?.any (glues · c) then lex (c :: begun) s
    else flush begun ++ if Str.isWhitespace c then lex [] s else lex [c] s

/-- A condition without `not` and `and`. -/
def readSingle : List Token → Option Condition
  | [.definedKw, .lparen, .ident symbol, .rparen] => some (.defined symbol)
  | [.nimMajor, .op op, .number x] => some (.version op [x])
  | [.lparen, .nimMajor, .comma, .nimMinor, .rparen, .op op, .lparen, .number x, .comma, .number y, .rparen] => some (.version op [x, y])
  | [.lparen, .nimMajor, .comma, .nimMinor, .comma, .nimPatch, .rparen, .op op, .lparen, .number x, .comma, .number y, .comma,
      .number z, .rparen] => some (.version op [x, y, z])
  | _ => none

/-- A condition. -/
def read (tokens : List Token) : Option Condition :=
  match tokens with
  | .notKw :: rest => (readSingle rest).map .not
  | _ =>
    match tokens.dropWhile (· ≠ .andKw) with
    | _ :: rest => do
      let a ← readSingle (tokens.takeWhile (· ≠ .andKw))
      let b ← readSingle rest
      return .and a b
    | [] => readSingle tokens

/-- The condition that a text is. -/
def condition (text : Str) : Option Condition := read (lex [] text)

example : condition "(NimMajor,NimMinor)>=(1,4)and NimMajor < 2".toList = some (.and (.version .ge [1, 4]) (.version .lt [2])) := by
  decide

/-! ### The tokens of texts that are put together -/

/-- The two texts have no token in common where they meet. -/
def Apart (a b : Str) : Prop := ∀ x ∈ a.getLast?, ∀ y ∈ b.head?, glues x y = false

theorem lex_append_of_begun {begun a b : Str} (h : ∀ x ∈ (a.reverse ++ begun).head?, ∀ y ∈ b.head?, glues x y = false) :
    lex begun (a ++ b) = lex begun a ++ lex [] b := by
  induction a generalizing begun with
  | nil =>
    cases b with
    | nil => simp [lex, flush]
    | cons y b =>
      have hnone : begun.head?.any (glues · y) = false := by
        cases begun with
        | nil => rfl
        | cons x begun => exact h x rfl y rfl
      simp [lex, hnone, flush]
  | cons c a ih =>
    rw [List.cons_append, lex, lex]
    split_ifs with hglues hblank
    · exact ih (by simpa using h)
    · rw [ih fun x hx y hy => h x ?_ y hy, List.append_assoc]
      cases ha : a.reverse with
      | nil => simp [ha] at hx
      | cons d l => simpa [ha] using hx
    · rw [ih fun x hx y hy => h x ?_ y hy, List.append_assoc]
      cases ha : a.reverse with
      | nil => simpa [ha] using hx
      | cons d l => simpa [ha] using hx

/-- **The tokens of two texts that are apart are those of the one and then those of the other.** -/
theorem lex_append {a b : Str} (h : Apart a b) : lex [] (a ++ b) = lex [] a ++ lex [] b :=
  lex_append_of_begun (by simpa [Apart, List.head?_reverse] using h)

/-- A character that can be part of a token with a neighbour is one of ASCII, and not white space. -/
theorem not_isWhitespace_of_wordChar {c : Char} (h : wordChar c = true ∨ opChar c = true ∨ c = '+') : Str.isWhitespace c = false := by
  have hcode : 43 ≤ c.toNat ∧ c.toNat ≤ 122 := by
    simp only [wordChar, opChar, Bool.or_eq_true, beq_iff_eq, Str.isAlphanum_iff] at h
    rcases h with (h | rfl) | ((rfl | rfl) | rfl) | rfl
    · omega
    · decide
    · decide
    · decide
    · decide
    · decide
  exact Str.not_isWhitespace_of_toNat (by omega) (by omega)

theorem wordChar_of_isDigit {c : Char} (h : c.isDigit = true) : wordChar c = true := by simp [wordChar, Char.isAlphanum, h]

/-- White space belongs to no token. -/
theorem glues_eq_false_of_isWhitespace {x y : Char} (h : Str.isWhitespace x = true ∨ Str.isWhitespace y = true) : glues x y = false := by
  by_contra hglues
  rw [Bool.not_eq_false] at hglues
  simp only [glues, Bool.or_eq_true, Bool.and_eq_true, beq_iff_eq] at hglues
  have hparts : (wordChar x = true ∨ opChar x = true ∨ x = '+') ∧ (wordChar y = true ∨ opChar y = true ∨ y = '+') := by
    rcases hglues with (⟨hx, hy⟩ | ⟨hx, hy⟩) | ⟨hx, hy⟩
    · exact ⟨.inl hx, .inl hy⟩
    · exact ⟨.inr (.inl hx), .inr (.inl hy)⟩
    · exact ⟨.inr (.inr hx), .inl (wordChar_of_isDigit hy)⟩
  rcases h with h | h
  · exact absurd (not_isWhitespace_of_wordChar hparts.1) (by simp [h])
  · exact absurd (not_isWhitespace_of_wordChar hparts.2) (by simp [h])

/-- White space has no tokens. -/
theorem lex_blank {s : Str} (h : ∀ c ∈ s, Str.isWhitespace c = true) : lex [] s = [] := by
  induction s with
  | nil => rfl
  | cons c s ih =>
    obtain ⟨hc, hs⟩ := List.forall_mem_cons.mp h
    rw [lex, hc]
    simpa [flush] using ih hs

theorem apart_of_blank_left {a b : Str} (h : ∀ x ∈ a.getLast?, Str.isWhitespace x = true) : Apart a b :=
  fun x hx _ _ => glues_eq_false_of_isWhitespace (.inl (h x hx))

theorem apart_of_blank_right {a b : Str} (h : ∀ y ∈ b.head?, Str.isWhitespace y = true) : Apart a b :=
  fun _ _ y hy => glues_eq_false_of_isWhitespace (.inr (h y hy))

/-- White space before a text makes no difference. -/
theorem lex_blank_append {blank s : Str} (h : ∀ c ∈ blank, Str.isWhitespace c = true) : lex [] (blank ++ s) = lex [] s := by
  rw [lex_append (apart_of_blank_left fun x hx => h x (List.mem_of_mem_getLast? hx)), lex_blank h, List.nil_append]

/-- Nor does white space after it. -/
theorem lex_append_blank {blank s : Str} (h : ∀ c ∈ blank, Str.isWhitespace c = true) : lex [] (s ++ blank) = lex [] s := by
  rw [lex_append (apart_of_blank_right fun y hy => h y (List.mem_of_mem_head? hy)), lex_blank h, List.append_nil]

end Milpa.NimScript

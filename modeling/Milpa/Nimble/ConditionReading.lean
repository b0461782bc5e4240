import Milpa.Nimble.Condition
import Milpa.Nimble.NimScript

/-!
# What is recognized as a condition

A condition that `parse_when_condition` recognizes is one that the specification documents,
and its predicates are those of the table there (`condition_of_parse`). The parser takes off
what a condition begins with; with each piece it takes off the tokens of the piece.
-/

namespace Milpa.Nimble

open NimScript

variable {s p rest : Str} {o : CompareOp}

/-! ### Tokens of what the parser takes off -/

theorem exists_trimStart (s : Str) : ∃ blank, s = blank ++ s.trimStart ∧ ∀ c ∈ blank, Str.isWhitespace c = true :=
  ⟨s.takeWhile Str.isWhitespace, List.takeWhile_append_dropWhile.symm, fun _ hc => List.mem_takeWhile_imp hc⟩

theorem exists_trim (s : Str) :
    ∃ pre post, s = pre ++ s.trim ++ post ∧ (∀ c ∈ pre, Str.isWhitespace c = true) ∧ ∀ c ∈ post, Str.isWhitespace c = true := by
  obtain ⟨pre, hpre, hblank⟩ := exists_trimStart s
  have hsplit : s.trimStart = s.trim ++ s.trimStart.rtakeWhile Str.isWhitespace := by
    rw [Str.trim, List.rdropWhile, List.rtakeWhile, ← List.reverse_append, Str.trimStart, List.takeWhile_append_dropWhile,
      List.reverse_reverse]
  refine ⟨pre, s.trimStart.rtakeWhile Str.isWhitespace, ?_, hblank, fun c hc => List.mem_rtakeWhile_imp hc⟩
  rw [List.append_assoc, ← hsplit]
  exact hpre

theorem lex_trimStart (s : Str) : lex [] s.trimStart = lex [] s := by
  obtain ⟨blank, hs, hblank⟩ := exists_trimStart s
  conv_rhs => rw [hs]
  exact (lex_blank_append hblank).symm

theorem lex_trim (s : Str) : lex [] s.trim = lex [] s := by
  obtain ⟨pre, post, hs, hpre, hpost⟩ := exists_trim s
  conv_rhs => rw [hs]
  rw [lex_append_blank hpost, lex_blank_append hpre]

theorem lex_of_isEmpty_trim (h : s.trim.isEmpty = true) : lex [] s = [] := by
  rw [← lex_trim, List.isEmpty_iff.mp h]
  rfl

/-- A text that ends in a character that goes with no other is apart from everything. -/
theorem apart_of_last {c : Char} (hlast : s.getLast? = some c) (h : (wordChar c || opChar c || c == '+') = false) : Apart s rest := by
  intro x hx y _
  obtain rfl : c = x := Option.some.inj (hlast.symm.trans hx)
  simp only [Bool.or_eq_false_iff] at h
  simp [glues, h.1.1, h.1.2, h.2]

/-- A word is apart from what does not begin with a character of a word. -/
theorem apart_of_word {c : Char} (hlast : s.getLast? = some c) (hop : (opChar c || c == '+') = false)
    (h : ∀ y ∈ rest.head?, wordChar y = false) : Apart s rest := by
  intro x hx y hy
  obtain rfl : c = x := Option.some.inj (hlast.symm.trans hx)
  simp only [Bool.or_eq_false_iff] at hop
  simp [glues, h y hy, hop.1, hop.2]

/-- White space is part of no token. -/
theorem not_wordChar_of_isWhitespace {y : Char} (h : Str.isWhitespace y = true) : wordChar y = false ∧ opChar y = false := by
  constructor
  · by_contra hword
    exact absurd (not_isWhitespace_of_wordChar (.inl (Bool.not_eq_false _ ▸ hword))) (by simp [h])
  · by_contra hop
    exact absurd (not_isWhitespace_of_wordChar (.inr (.inl (Bool.not_eq_false _ ▸ hop)))) (by simp [h])

/-- What a text begins with, where white space and then something else is taken off it. -/
theorem head_of_strip {good : Char → Prop} (hblank : ∀ y, Str.isWhitespace y = true → good y)
    (h : s.trimStart.stripPrefix p = some rest) {c : Char} (hp : p.head? = some c) (hc : good c) : ∀ y ∈ s.head?, good y := by
  intro y hy
  cases s with
  | nil => cases hy
  | cons d s =>
    obtain rfl : d = y := Option.some.inj hy
    by_cases hd : Str.isWhitespace d = true
    · exact hblank d hd
    · have hself : Str.trimStart (d :: s) = d :: s := List.dropWhile_cons_of_neg hd
      rw [hself] at h
      have heq := congrArg List.head? (Str.stripPrefix_eq_some.mp h)
      rw [List.head?_append, hp] at heq
      rw [Option.some.inj heq]
      exact hc

/-- The tokens of one character that belongs to no other token. -/
def symbols : List (Char × Token) := [('(', .lparen), (')', .rparen), (',', .comma)]

theorem apart_symbol {c : Char} {k : Token} (hc : (c, k) ∈ symbols) : Apart s (c :: rest) := by
  intro x _ y hy
  obtain rfl : c = y := Option.some.inj hy
  have hall : ∀ e ∈ symbols, wordChar e.1 = false ∧ opChar e.1 = false ∧ e.1.isDigit = false := by decide
  obtain ⟨hword, hop, hdigit⟩ := hall _ hc
  simp [glues, hword, hop, hdigit]

theorem lex_symbol {c : Char} {k : Token} (hc : (c, k) ∈ symbols) : lex [] (c :: rest) = k :: lex [] rest := by
  have hall : ∀ e ∈ symbols, (wordChar e.1 || opChar e.1 || e.1 == '+') = false ∧ lex [] [e.1] = [e.2] := by decide
  obtain ⟨hlone, hlex⟩ := hall _ hc
  rw [← List.singleton_append, lex_append (apart_of_last rfl hlone), hlex]
  rfl

theorem lex_of_strip_symbol {c : Char} {k : Token} (h : s.trimStart.stripPrefix [c] = some rest) (hc : (c, k) ∈ symbols) :
    lex [] s = k :: lex [] rest := by
  rw [← lex_trimStart, Str.stripPrefix_eq_some.mp h]
  exact lex_symbol hc

/-- The names of the components. -/
def names : List (Str × Token) := [("NimMajor", .nimMajor), ("NimMinor", .nimMinor), ("NimPatch", .nimPatch)]

theorem lex_name {k : Token} (hp : (p, k) ∈ names) (hrest : ∀ y ∈ rest.head?, wordChar y = false) :
    lex [] (p ++ rest) = k :: lex [] rest := by
  have hall : ∀ e ∈ names, lex [] e.1 = [e.2] ∧ ∃ c, e.1.getLast? = some c ∧ (opChar c || c == '+') = false := by
    simp only [names, List.forall_mem_cons]
    exact ⟨⟨by decide, 'r', rfl, rfl⟩, ⟨by decide, 'r', rfl, rfl⟩, ⟨by decide, 'h', rfl, rfl⟩, by simp⟩
  obtain ⟨hlex, c, hlast, hletter⟩ := hall _ hp
  rw [lex_append (apart_of_word hlast hletter hrest), hlex]
  rfl

theorem lex_of_strip_name {k : Token} (h : s.trimStart.stripPrefix p = some rest) (hp : (p, k) ∈ names)
    (hrest : ∀ y ∈ rest.head?, wordChar y = false) : lex [] s = k :: lex [] rest := by
  rw [← lex_trimStart, Str.stripPrefix_eq_some.mp h]
  exact lex_name hp hrest

/-! ### Operators -/

/-- How an operator is written. -/
def opText : CompareOp → Str
  | .ge => ">="
  | .gt => ">"
  | .le => "<="
  | .lt => "<"
  | .eq => "=="

theorem lex_opText (o : CompareOp) : lex [] (opText o) = [.op o] := by cases o <;> decide

theorem opText_eq (o : CompareOp) : ∃ l c, opText o = l ++ [c] ∧ opChar c = true ∧ ∀ d ∈ opText o, opChar d = true := by
  cases o
  · exact ⟨[_], _, rfl, rfl, List.all_eq_true.mp rfl⟩
  · exact ⟨[], _, rfl, rfl, List.all_eq_true.mp rfl⟩
  · exact ⟨[_], _, rfl, rfl, List.all_eq_true.mp rfl⟩
  · exact ⟨[], _, rfl, rfl, List.all_eq_true.mp rfl⟩
  · exact ⟨[_], _, rfl, rfl, List.all_eq_true.mp rfl⟩

theorem extractOp_eq_some {op : Str} (h : extractOp s = some (op, rest)) : ∃ o, opText o = op ∧ s = opText o ++ rest := by
  obtain ⟨op', hop, hsome⟩ := List.exists_of_findSome?_eq_some h
  obtain ⟨rest', hstrip, heq⟩ := Option.map_eq_some_iff.mp hsome
  obtain ⟨rfl, rfl⟩ := Prod.mk.inj heq
  have hs := Str.stripPrefix_eq_some.mp hstrip
  have hops : ∀ op ∈ nimOps, ∃ o ∈ [CompareOp.ge, .gt, .le, .lt, .eq], opText o = op := by decide
  obtain ⟨o, -, rfl⟩ := hops op' hop
  exact ⟨o, rfl, hs⟩

theorem wordChar_of_opChar {c : Char} (h : opChar c = true) : wordChar c = false := by
  simp only [opChar, Bool.or_eq_true, beq_iff_eq] at h
  rcases h with (rfl | rfl) | rfl <;> decide

theorem lex_opText_append (hrest : ∀ y ∈ rest.head?, opChar y = false) : lex [] (opText o ++ rest) = .op o :: lex [] rest := by
  obtain ⟨l, c, hl, hc, -⟩ := opText_eq o
  rw [lex_append, lex_opText]
  · rfl
  · intro x hx y hy
    rw [hl, List.getLast?_concat] at hx
    obtain rfl := Option.some.inj hx
    have hplus : (c == '+') = false := by
      by_contra hplus
      rw [Bool.not_eq_false, beq_iff_eq] at hplus
      subst hplus
      cases hc
    simp [glues, wordChar_of_opChar hc, hrest y hy, hplus]

/-! ### Numbers -/

theorem lex_run {begun : Str} {c : Char} (h : (c :: s).IsChain fun x y => glues x y = true) :
    lex (c :: begun) s = [tokenOf (begun.reverse ++ c :: s)] := by
  induction s generalizing begun c with
  | nil => simp [lex, flush]
  | cons d s ih =>
    obtain ⟨hglues, h⟩ := List.isChain_cons_cons.mp h
    have hany : (c :: begun).head?.any (glues · d) = true := hglues
    rw [lex, hany, if_pos rfl, ih h]
    simp

/-- A run of characters that belong together is one token. -/
theorem lex_of_run {c : Char} (h : (c :: s).IsChain fun x y => glues x y = true) (hc : Str.isWhitespace c = false) :
    lex [] (c :: s) = [tokenOf (c :: s)] := by
  have hlex : lex [] (c :: s) = lex [c] s := by simp [lex, flush, hc]
  rw [hlex, lex_run h]
  rfl

theorem isChain_digits (h : ∀ c ∈ s, c.isDigit = true) : s.IsChain fun x y => glues x y = true := by
  induction s with
  | nil => exact .nil
  | cons c s ih =>
    obtain ⟨hc, hs⟩ := List.forall_mem_cons.mp h
    cases s with
    | nil => exact .singleton c
    | cons d s =>
      refine List.isChain_cons_cons.mpr ⟨?_, ih hs⟩
      simp [glues, wordChar_of_isDigit hc, wordChar_of_isDigit (hs d List.mem_cons_self)]

/-- The digits of a number, and its value. -/
theorem parseU32_eq_some {n : ℕ} (h : parseU32 s = some n) :
    ∃ digits, (s = digits ∨ s = '+' :: digits) ∧ digits ≠ [] ∧ (∀ c ∈ digits, c.isDigit = true) ∧ numberOf s = some n ∧ n < 2 ^ 32 := by
  unfold parseU32 Str.parseUInt at h
  dsimp only at h
  split_ifs at h with hbad hlt
  obtain rfl := Option.some.inj h
  simp only [Bool.or_eq_true, not_or, Bool.not_eq_true, Bool.not_eq_false', List.isEmpty_eq_false_iff] at hbad
  refine ⟨_, ?_, hbad.1, List.all_eq_true.mp hbad.2, ?_, hlt⟩
  · cases hstrip : s.stripPrefix "+" with
    | none => exact .inl rfl
    | some digits => exact .inr (Str.stripPrefix_eq_some.mp hstrip)
  · rw [numberOf]
    simp only [hbad.2, Bool.and_true, Bool.not_eq_true', List.isEmpty_eq_false_iff.mpr hbad.1, if_true]

/-- **A number is read as a number.** -/
theorem lex_of_parseU32 {n : ℕ} (h : parseU32 s.trim = some n) : lex [] s = [.number n] := by
  rw [← lex_trim]
  obtain ⟨digits, hs, hne, hdigits, hnumber, -⟩ := parseU32_eq_some h
  have hspell : ∀ c, s.trim.head? = some c → (c.isDigit = true ∨ c = '+') → tokenOf s.trim = .number n := by
    intro c hhead hc
    have hnone : spellings.find? (fun e => decide (s.trim = e.1)) = none := by
      refine List.find?_eq_none.mpr fun e he heq => ?_
      have hall : ∀ e ∈ spellings, e.1.head?.any (fun c => c.isDigit || c == '+') = false := by decide
      have hfirst := hall e he
      rw [← of_decide_eq_true heq, hhead] at hfirst
      rcases hc with hc | rfl
      · simp [hc] at hfirst
      · simp at hfirst
    rw [tokenOf, hnone, hnumber]
  obtain ⟨d, l, rfl⟩ := List.exists_cons_of_ne_nil hne
  have hd : d.isDigit = true := hdigits d List.mem_cons_self
  rcases hs with hs | hs
  · have hrun := lex_of_run (isChain_digits hdigits) (not_isWhitespace_of_wordChar (.inl (wordChar_of_isDigit hd)))
    rw [← hs, hspell d (by rw [hs]; rfl) (.inl hd)] at hrun
    exact hrun
  · have hchain : ('+' :: d :: l).IsChain fun x y => glues x y = true :=
      List.isChain_cons_cons.mpr ⟨by simp [glues, hd], isChain_digits hdigits⟩
    have hrun := lex_of_run hchain (by decide)
    rw [← hs, hspell '+' (by rw [hs]; rfl) (.inr rfl)] at hrun
    exact hrun

/-- A number, and what follows after a comma or a parenthesis. -/
theorem lex_of_splitOnce {n : ℕ} {a b : Str} {c : Char} {k : Token} (h : s.trimStart.splitOnce c = some (a, b))
    (hn : parseU32 a.trim = some n) (hc : (c, k) ∈ symbols) : lex [] s = .number n :: k :: lex [] b := by
  obtain ⟨hs, -⟩ := Str.splitOnce_eq_some.mp h
  rw [← lex_trimStart, hs, lex_append (apart_symbol hc), lex_symbol hc, lex_of_parseU32 hn]
  rfl

/-- A number does not begin with a character of an operator. -/
theorem not_opChar_of_parseU32 {n : ℕ} (h : parseU32 s.trim = some n) : ∀ y ∈ s.head?, opChar y = false := by
  intro y hy
  obtain ⟨pre, post, hs, hpre, -⟩ := exists_trim s
  obtain ⟨digits, hdigits, hne, hall, -⟩ := parseU32_eq_some h
  cases pre with
  | cons c pre =>
    rw [hs] at hy
    obtain rfl : c = y := Option.some.inj hy
    exact (not_wordChar_of_isWhitespace (hpre c List.mem_cons_self)).2
  | nil =>
    obtain ⟨d, l, rfl⟩ := List.exists_cons_of_ne_nil hne
    rw [hs] at hy
    rcases hdigits with htrim | htrim
    · rw [htrim] at hy
      obtain rfl : d = y := Option.some.inj hy
      by_contra hop
      have hword := wordChar_of_opChar (Bool.not_eq_false _ ▸ hop)
      rw [wordChar_of_isDigit (hall d List.mem_cons_self)] at hword
      cases hword
    · rw [htrim] at hy
      obtain rfl : '+' = y := Option.some.inj hy
      decide

/-! ### Comparisons -/

/-- What a comparison of the version is translated to: the bound is filled up with zeros. -/
def boundValue (o : CompareOp) (bound : List ℕ) : Str :=
  nimValue (opText o) (bound.getD 0 0) (bound.getD 1 0) (bound.getD 2 0)

/-- The bounds that are read. -/
structure Bound (bound : List ℕ) : Prop where
  length : 1 ≤ bound.length ∧ bound.length ≤ 3
  small : ∀ n ∈ bound, n < 2 ^ 32

/-- An operator, after white space, and what follows it. -/
theorem lex_of_extractOp {op : Str} (h : extractOp s.trimStart = some (op, rest)) (hrest : ∀ y ∈ rest.head?, opChar y = false) :
    ∃ o, op = opText o ∧ lex [] s = .op o :: lex [] rest ∧ ∀ y ∈ s.head?, wordChar y = false := by
  obtain ⟨o, rfl, hs⟩ := extractOp_eq_some h
  obtain ⟨c, hc⟩ : ∃ c, (opText o).head? = some c := by cases o <;> exact ⟨_, rfl⟩
  have hword : wordChar c = false := by
    obtain ⟨-, -, -, -, hall⟩ := opText_eq o
    exact wordChar_of_opChar (hall c (List.mem_of_mem_head? hc))
  refine ⟨o, rfl, ?_, head_of_strip (fun y hy => (not_wordChar_of_isWhitespace hy).1) (Str.stripPrefix_eq_some.mpr hs) hc hword⟩
  rw [← lex_trimStart, hs, lex_opText_append hrest]

theorem tryNimMajorSingle_sound {value : Str} (h : tryNimMajorSingle s = some value) :
    ∃ o bound, readSingle (lex [] s) = some (.version o bound) ∧ Bound bound ∧ value = boundValue o bound := by
  simp only [tryNimMajorSingle, Option.bind_eq_bind, Option.bind_eq_some_iff, Prod.exists] at h
  obtain ⟨rest, hrest, op, afterOp, hop, major, hmajor, h⟩ := h
  obtain rfl := Option.some.inj h
  obtain ⟨o, rfl, hlex, hhead⟩ := lex_of_extractOp hop (not_opChar_of_parseU32 hmajor)
  obtain ⟨-, -, -, -, -, hsmall⟩ := parseU32_eq_some hmajor
  refine ⟨o, [major], ?_, ⟨by simp, by simpa using hsmall⟩, rfl⟩
  have hname : ("NimMajor".toList, Token.nimMajor) ∈ names := List.mem_cons_self
  rw [Str.stripPrefix_eq_some.mp hrest, lex_name hname hhead, hlex, lex_of_parseU32 hmajor]
  rfl

theorem not_wordChar_of_strip {c : Char} (h : s.trimStart.stripPrefix [c] = some rest) (hc : wordChar c = false) :
    ∀ y ∈ s.head?, wordChar y = false :=
  head_of_strip (fun _ hy => (not_wordChar_of_isWhitespace hy).1) h rfl hc

theorem tryTuple2_sound {value : Str} (h : tryTuple2 s = some value) :
    ∃ o bound, readSingle (.lparen :: lex [] s) = some (.version o bound) ∧ Bound bound ∧ value = boundValue o bound := by
  simp only [tryTuple2, Option.bind_eq_bind, Option.bind_eq_some_iff, Prod.exists, Option.ite_none_right_eq_some] at h
  obtain ⟨r₁, h₁, r₂, h₂, r₃, h₃, r₄, h₄, op, r₅, hop, r₆, h₆, majorStr, r₇, h₇, major, hmajor, minorStr, r₈, h₈, minor, hminor,
    hempty, h⟩ := h
  obtain rfl := Option.some.inj h
  obtain ⟨o, rfl, hlex, hhead⟩ := lex_of_extractOp hop (head_of_strip (fun y hy => (not_wordChar_of_isWhitespace hy).2) h₆ rfl rfl)
  obtain ⟨-, -, -, -, -, hmajorSmall⟩ := parseU32_eq_some hmajor
  obtain ⟨-, -, -, -, -, hminorSmall⟩ := parseU32_eq_some hminor
  refine ⟨o, [major, minor], ?_, ⟨by simp, by simpa using ⟨hmajorSmall, hminorSmall⟩⟩, rfl⟩
  have htokens : lex [] s = [.nimMajor, .comma, .nimMinor, .rparen, .op o, .lparen, .number major, .comma, .number minor, .rparen] := by
    rw [lex_of_strip_name (k := .nimMajor) h₁ (by decide) (not_wordChar_of_strip h₂ rfl),
      lex_of_strip_symbol (k := .comma) h₂ (by decide),
      lex_of_strip_name (k := .nimMinor) h₃ (by decide) (not_wordChar_of_strip h₄ rfl),
      lex_of_strip_symbol (k := .rparen) h₄ (by decide), hlex,
      lex_of_strip_symbol (k := .lparen) h₆ (by decide), lex_of_splitOnce (k := .comma) h₇ hmajor (by decide),
      lex_of_splitOnce (k := .rparen) h₈ hminor (by decide), lex_of_isEmpty_trim hempty]
  rw [htokens]
  rfl

theorem tryTuple3_sound {value : Str} (h : tryTuple3 s = some value) :
    ∃ o bound, readSingle (.lparen :: lex [] s) = some (.version o bound) ∧ Bound bound ∧ value = boundValue o bound := by
  simp only [tryTuple3, Option.bind_eq_bind, Option.bind_eq_some_iff, Prod.exists, Option.ite_none_right_eq_some] at h
  obtain ⟨r₁, h₁, r₂, h₂, r₃, h₃, r₄, h₄, r₅, h₅, r₆, h₆, op, r₇, hop, r₈, h₈, majorStr, r₉, h₉, major, hmajor, minorStr, r₁₀, h₁₀, minor,
    hminor, patchStr, r₁₁, h₁₁, patch, hpatch, hempty, h⟩ := h
  obtain rfl := Option.some.inj h
  obtain ⟨o, rfl, hlex, hhead⟩ := lex_of_extractOp hop (head_of_strip (fun y hy => (not_wordChar_of_isWhitespace hy).2) h₈ rfl rfl)
  obtain ⟨-, -, -, -, -, hmajorSmall⟩ := parseU32_eq_some hmajor
  obtain ⟨-, -, -, -, -, hminorSmall⟩ := parseU32_eq_some hminor
  obtain ⟨-, -, -, -, -, hpatchSmall⟩ := parseU32_eq_some hpatch
  refine ⟨o, [major, minor, patch], ?_, ⟨by simp, by simpa using ⟨hmajorSmall, hminorSmall, hpatchSmall⟩⟩, rfl⟩
  have htokens : lex [] s = [.nimMajor, .comma, .nimMinor, .comma, .nimPatch, .rparen, .op o, .lparen, .number major, .comma,
      .number minor, .comma, .number patch, .rparen] := by
    rw [lex_of_strip_name (k := .nimMajor) h₁ (by decide) (not_wordChar_of_strip h₂ rfl),
      lex_of_strip_symbol (k := .comma) h₂ (by decide),
      lex_of_strip_name (k := .nimMinor) h₃ (by decide) (not_wordChar_of_strip h₄ rfl),
      lex_of_strip_symbol (k := .comma) h₄ (by decide),
      lex_of_strip_name (k := .nimPatch) h₅ (by decide) (not_wordChar_of_strip h₆ rfl),
      lex_of_strip_symbol (k := .rparen) h₆ (by decide), hlex,
      lex_of_strip_symbol (k := .lparen) h₈ (by decide), lex_of_splitOnce (k := .comma) h₉ hmajor (by decide),
      lex_of_splitOnce (k := .comma) h₁₀ hminor (by decide), lex_of_splitOnce (k := .rparen) h₁₁ hpatch (by decide),
      lex_of_isEmpty_trim hempty]
  rw [htokens]
  rfl

/-- **A comparison that is recognized is one of the version, and its value is the bound, filled up with zeros.** -/
theorem parseNimComparison_sound {pred : Predicate} (h : parseNimComparison s = some pred) :
    ∃ o bound, readSingle (lex [] s) = some (.version o bound) ∧ Bound bound ∧ pred = predicate "nim" (boundValue o bound) := by
  rw [← lex_trim]
  obtain ⟨value, hvalue, rfl⟩ := Option.map_eq_some_iff.mp h
  rcases (Option.orElse_eq_some _ _ _).mp hvalue with hsingle | ⟨-, htuple⟩
  · obtain ⟨o, bound, hread, hbound, rfl⟩ := tryNimMajorSingle_sound hsingle
    exact ⟨o, bound, hread, hbound, rfl⟩
  · obtain ⟨rest, hrest, htuple⟩ := Option.bind_eq_some_iff.mp htuple
    have hlex : lex [] s.trim = .lparen :: lex [] rest := by
      rw [Str.stripPrefix_eq_some.mp hrest]
      exact lex_symbol (by decide)
    rw [hlex]
    rcases (Option.orElse_eq_some _ _ _).mp htuple with hthree | ⟨-, htwo⟩
    · obtain ⟨o, bound, hread, hbound, rfl⟩ := tryTuple3_sound hthree
      exact ⟨o, bound, hread, hbound, rfl⟩
    · obtain ⟨o, bound, hread, hbound, rfl⟩ := tryTuple2_sound htwo
      exact ⟨o, bound, hread, hbound, rfl⟩

/-! ### Symbols -/

theorem parseDefined_sound {pred : Predicate} (h : parseDefined s = some pred) :
    ∃ symbol, readSingle (lex [] s) = some (.defined symbol) ∧
      ((∃ value, (symbol, value) ∈ platformSymbols ∧ pred = predicate "platform" value) ∨
        symbol ∈ archSymbols ∧ pred = predicate "arch" symbol) := by
  simp only [parseDefined, Option.bind_eq_bind, Option.bind_eq_some_iff, Option.ite_none_left_eq_some] at h
  obtain ⟨afterOpen, hopen, inner, hclose, -, h⟩ := h
  have hlex : ∀ symbol, inner.trim = symbol → lex [] symbol = [.ident symbol] → readSingle (lex [] s) = some (.defined symbol) := by
    intro symbol hsymbol hident
    have hinner : lex [] inner = [.ident symbol] := by rw [← lex_trim, hsymbol, hident]
    have hkeyword : lex [] "defined(".toList = [.definedKw, .lparen] := by decide
    rw [← lex_trim, Str.stripPrefix_eq_some.mp hopen, Str.stripSuffix_eq_some.mp hclose,
      lex_append (apart_of_last rfl rfl), hkeyword]
    have hparen : lex [] (inner ++ ")".toList) = lex [] inner ++ [.rparen] := lex_append (apart_symbol (k := .rparen) (by decide))
    rw [hparen, hinner]
    rfl
  split at h
  · rename_i e canonical hfind
    obtain rfl := Option.some.inj h
    have hmem := List.mem_of_find?_eq_some hfind
    have hfound := List.find?_some hfind
    have hsymbol : inner.trim = e := of_decide_eq_true hfound
    have hplatforms : ∀ e ∈ platformTokens, e ∈ platformSymbols ∧ lex [] e.1 = [.ident e.1] := by decide
    obtain ⟨hdocumented, hident⟩ := hplatforms _ hmem
    exact ⟨e, hlex e hsymbol hident, .inl ⟨canonical, hdocumented, rfl⟩⟩
  · obtain ⟨hmem, h⟩ := Option.ite_none_right_eq_some.mp h
    obtain rfl := Option.some.inj h
    have harchs : ∀ a ∈ archTokens, a ∈ archSymbols ∧ lex [] a = [.ident a] := by decide
    obtain ⟨hdocumented, hident⟩ := harchs _ hmem
    exact ⟨_, hlex _ rfl hident, .inr ⟨hdocumented, rfl⟩⟩

/-! ### Whole conditions -/

/-- What a condition without `not` and `and` is translated to. -/
inductive Translated : Predicate → Condition → Prop
  | platform {symbol value : Str} (h : (symbol, value) ∈ platformSymbols) : Translated (predicate "platform" value) (.defined symbol)
  | arch {symbol : Str} (h : symbol ∈ archSymbols) : Translated (predicate "arch" symbol) (.defined symbol)
  | version {o : CompareOp} {bound : List ℕ} (h : Bound bound) : Translated (predicate "nim" (boundValue o bound)) (.version o bound)

/-- What predicates a condition is translated to. -/
inductive Translation : List Predicate → Condition → Prop
  | single {pred : Predicate} {c : Condition} (h : Translated pred c) : Translation [pred] c
  | not {pred : Predicate} {c : Condition} (h : Translated pred c) : Translation [{ pred with negated := true }] (.not c)
  | and {pred₁ pred₂ : Predicate} {c₁ c₂ : Condition} (h₁ : Translated pred₁ c₁) (h₂ : Translated pred₂ c₂) :
      Translation [pred₁, pred₂] (.and c₁ c₂)

theorem translated_of_comparison {pred : Predicate} (h : parseNimComparison s = some pred) :
    ∃ c, readSingle (lex [] s) = some c ∧ Translated pred c := by
  obtain ⟨o, bound, hread, hbound, rfl⟩ := parseNimComparison_sound h
  exact ⟨_, hread, .version hbound⟩

theorem translated_of_single {pred : Predicate} (h : parseSingle s = some pred) :
    ∃ c, readSingle (lex [] s) = some c ∧ Translated pred c := by
  rcases (Option.orElse_eq_some _ _ _).mp h with hdefined | ⟨-, hcomparison⟩
  · obtain ⟨symbol, hread, ⟨value, hplatform, rfl⟩ | ⟨harch, rfl⟩⟩ := parseDefined_sound hdefined
    · exact ⟨_, hread, .platform hplatform⟩
    · exact ⟨_, hread, .arch harch⟩
  · exact translated_of_comparison hcomparison

theorem splitOnAndLoop_sound {passed left right : Str} (h : splitOnAndLoop passed s = some (left, right)) :
    ∃ a b : Str, passed.reverse ++ s = a ++ ("and".toList ++ b) ∧ left = Str.trim a ∧ right = Str.trim b ∧
      (∀ x ∈ a.getLast?, isWordChar x = false) ∧ ∀ y ∈ b.head?, isWordChar y = false := by
  induction s generalizing passed with
  | nil => cases h
  | cons c s ih =>
    have hlater : splitOnAndLoop (c :: passed) s = some (left, right) → _ := fun h => ih h
    rw [splitOnAndLoop] at h
    split at h
    · rename_i rest hrest
      dsimp only at h
      split_ifs at h with hsplit
      · obtain ⟨rfl, rfl⟩ := Prod.mk.inj (Option.some.inj h)
        simp only [Bool.and_eq_true, Bool.not_eq_true', Option.any_eq_false] at hsplit
        refine ⟨passed.reverse, rest, by rw [Str.stripPrefix_eq_some.mp hrest], rfl, rfl, fun x hx => ?_, fun y hy => ?_⟩
        · rw [List.getLast?_reverse] at hx
          simpa using hsplit.1.1.1 x hx
        · simpa using hsplit.1.1.2 y hy
      · simpa using hlater h
    · simpa using hlater h

/-- A condition without `not` and `and` has no token of these. -/
theorem not_mem_of_readSingle {tokens : List Token} {c : Condition} (h : readSingle tokens = some c) :
    .notKw ∉ tokens ∧ .andKw ∉ tokens := by
  unfold readSingle at h
  split at h
  all_goals first | simp | cases h

theorem read_single {tokens : List Token} {c : Condition} (h : readSingle tokens = some c) : read tokens = some c := by
  obtain ⟨hnot, hand⟩ := not_mem_of_readSingle h
  have hdrop : tokens.dropWhile (· ≠ Token.andKw) = [] := by
    refine List.dropWhile_eq_nil_iff.mpr fun k hk => ?_
    have hne : k ≠ .andKw := fun heq => hand (heq ▸ hk)
    simpa using hne
  unfold NimScript.read
  split
  · exact absurd List.mem_cons_self hnot
  · rw [hdrop, h]

theorem read_and {left right : List Token} {a b : Condition} (ha : readSingle left = some a) (hb : readSingle right = some b) :
    read (left ++ .andKw :: right) = some (.and a b) := by
  obtain ⟨hnot, hand⟩ := not_mem_of_readSingle ha
  have hall : ∀ k ∈ left, decide (k ≠ Token.andKw) = true := fun k hk => decide_eq_true fun heq => hand (heq ▸ hk)
  have hdrop : (left ++ .andKw :: right).dropWhile (· ≠ Token.andKw) = .andKw :: right := by
    rw [List.dropWhile_append_of_pos hall, List.dropWhile_cons_of_neg (by simp)]
  have htake : (left ++ .andKw :: right).takeWhile (· ≠ Token.andKw) = left := by
    rw [List.takeWhile_append_of_pos hall, List.takeWhile_cons_of_neg (by simp), List.append_nil]
  unfold NimScript.read
  split
  · rename_i rest heq
    cases left with
    | nil => cases ha
    | cons k left =>
      obtain ⟨rfl, -⟩ := List.cons.inj heq
      exact absurd List.mem_cons_self hnot
  · rw [hdrop, htake]
    dsimp only
    rw [ha, hb]
    rfl

/-- **What is recognized is a condition that is documented, and its predicates are its translation.** -/
theorem condition_of_parse {preds : List Predicate} (h : parseWhenCondition s = some preds) :
    ∃ c, condition s = some c ∧ Translation preds c := by
  unfold parseWhenCondition at h
  dsimp only at h
  rw [condition, ← lex_trim]
  split_ifs at h
  split at h
  · rename_i inner hinner
    obtain ⟨pred, hpred, rfl⟩ := Option.map_eq_some_iff.mp h
    obtain ⟨c, hread, htranslated⟩ := translated_of_single hpred
    refine ⟨.not c, ?_, .not htranslated⟩
    obtain ⟨rest, hrest, hinner⟩ := Option.bind_eq_some_iff.mp hinner
    obtain ⟨hblank, hinner⟩ := Option.ite_none_right_eq_some.mp hinner
    cases hinner
    have hhead : ∀ y ∈ rest.head?, Str.isWhitespace y = true := by
      intro y hy
      rw [Str.startsWithWhitespace, Option.mem_def.mp hy] at hblank
      exact hblank
    have hnot : lex [] "not".toList = [.notKw] := by decide
    rw [Str.stripPrefix_eq_some.mp hrest, lex_append (apart_of_blank_right hhead), hnot, ← lex_trim rest, List.singleton_append,
      NimScript.read, hread]
    rfl
  · split at h
    · rename_i left right hsplit
      obtain ⟨pred₁, hpred₁, h⟩ := Option.bind_eq_some_iff.mp h
      obtain ⟨pred₂, hpred₂, h⟩ := Option.bind_eq_some_iff.mp h
      obtain rfl := Option.some.inj h
      obtain ⟨c₁, hread₁, htranslated₁⟩ := translated_of_comparison hpred₁
      obtain ⟨c₂, hread₂, htranslated₂⟩ := translated_of_comparison hpred₂
      refine ⟨.and c₁ c₂, ?_, .and htranslated₁ htranslated₂⟩
      obtain ⟨a, b, hab, rfl, rfl, hlast, hhead⟩ := splitOnAndLoop_sound hsplit
      rw [lex_trim] at hread₁ hread₂
      have hleft : Apart a ("and".toList ++ b) := by
        intro x hx y hy
        obtain rfl : 'a' = y := Option.some.inj hy
        have hword : wordChar x = false := hlast x hx
        simp [glues, hword, show opChar 'a' = false by decide, show Char.isDigit 'a' = false by decide]
      have hand : lex [] ("and".toList ++ b) = .andKw :: lex [] b := by
        have hkeyword : lex [] "and".toList = [.andKw] := by decide
        rw [lex_append (apart_of_word (c := 'd') rfl (by decide) hhead), hkeyword]
        rfl
      have hjoined : s.trim = a ++ ("and".toList ++ b) := hab
      rw [hjoined, lex_append hleft, hand]
      exact read_and hread₁ hread₂
    · obtain ⟨pred, hpred, rfl⟩ := Option.map_eq_some_iff.mp h
      obtain ⟨c, hread, htranslated⟩ := translated_of_single hpred
      exact ⟨c, read_single hread, .single htranslated⟩

end Milpa.Nimble

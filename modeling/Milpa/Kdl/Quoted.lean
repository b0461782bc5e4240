import Milpa.Types.Text

/-!
# Quoted strings of KDL 2.0

What stands between the quotes of a single-line string, and what it means: a character
that may stand there stands for itself, and a backslash begins an escape. `unescape` is
the decoder of the specification. A body can also be looked at without being decoded:
`Lexes` says that it ends where its closing quote is written.
-/

namespace Milpa.Kdl

/-- The characters of the specification's newlines. -/
def isNewline (c : Char) : Bool :=
  let n := c.toNat
  (0xA ≤ n && n ≤ 0xD) || n == 0x85 || n == 0x2028 || n == 0x2029

/-- The code points that a document may not hold as they are: control characters but for the tab and the
newlines, delete, direction control and the byte order mark. -/
def isDisallowed (c : Char) : Bool :=
  let n := c.toNat
  n ≤ 8 || (0xE ≤ n && n ≤ 0x1F) || n == 0x7F || n == 0x200E || n == 0x200F || (0x202A ≤ n && n ≤ 0x202E) ||
    (0x2066 ≤ n && n ≤ 0x2069) || n == 0xFEFF

/-- The white space of the specification, without the newlines. -/
def isBlank (c : Char) : Bool :=
  let n := c.toNat
  n == 9 || n == 0x20 || n == 0xA0 || n == 0x1680 || (0x2000 ≤ n && n ≤ 0x200A) || n == 0x202F || n == 0x205F || n == 0x3000

/-- A character that stands for itself in a quoted string, apart from the quote and the backslash. -/
def isLiteral (c : Char) : Bool := !isNewline c && !isDisallowed c

/-- A string whose characters may all stand in a quoted string. -/
def Clean (s : Str) : Prop := ∀ c ∈ s, isLiteral c = true

instance (s : Str) : Decidable (Clean s) := List.decidableBAll _ s

/-- The value of a hexadecimal digit. -/
def hexValue (c : Char) : Option ℕ :=
  if '0' ≤ c ∧ c ≤ '9' then some (c.toNat - 48)
  else if 'a' ≤ c ∧ c ≤ 'f' then some (c.toNat - 87)
  else if 'A' ≤ c ∧ c ≤ 'F' then some (c.toNat - 55)
  else none

/-- The escapes of one letter. -/
def escapeLetter (c : Char) : Option Char :=
  match c with
  | 'n' => some '\n'
  | 'r' => some '\r'
  | 't' => some '\t'
  | 'b' => some (Char.ofNat 8)
  | 'f' => some (Char.ofNat 12)
  | 's' => some ' '
  | '"' => some '"'
  | '\\' => some '\\'
  | _ => none

/-- Where a decoder stands. -/
inductive Mode where
  /-- Between characters. -/
  | plain
  /-- Behind a backslash. -/
  | escape
  /-- Behind a backslash and a `u`. -/
  | unicode
  /-- Among the digits of a code point: how many there were, and their value. -/
  | digits (count value : ℕ)
  /-- In white space that a backslash began. -/
  | space
  deriving DecidableEq

/-- The string that a body stands for. -/
def unescape : Mode → Str → Option Str
  | .plain, [] => some []
  | .space, [] => some []
  | .escape, [] => none
  | .unicode, [] => none
  | .digits _ _, [] => none
  | .plain, c :: s =>
    if c = '\\' then unescape .escape s
    else if isLiteral c && c != '"' then (unescape .plain s).map (c :: ·)
    else none
  | .space, c :: s =>
    if isBlank c || isNewline c then unescape .space s
    else if c = '\\' then unescape .escape s
    else if isLiteral c && c != '"' then (unescape .plain s).map (c :: ·)
    else none
  | .escape, c :: s =>
    if c = 'u' then unescape .unicode s
    else if isBlank c || isNewline c then unescape .space s
    else (escapeLetter c).bind fun d => (unescape .plain s).map (d :: ·)
  | .unicode, c :: s => if c = '{' then unescape (.digits 0 0) s else none
  | .digits count value, c :: s =>
    if c = '}' then
      if 0 < count ∧ value.isValidChar then (unescape .plain s).map (Char.ofNat value :: ·) else none
    else
      (hexValue c).bind fun d => if count < 6 then unescape (.digits (count + 1) (16 * value + d)) s else none

/-- The string that the body of a quoted string stands for. -/
def decodeBody (body : Str) : Option Str := unescape .plain body

example : decodeBody "a\\u\x7be9\x7d\\n\\  b" = some ['a', 'é', '\n', 'b'] := by decide

/-- A body that ends where it should: each quote in it is escaped, and no backslash is left at its end. -/
def Lexes : Str → Bool
  | [] => true
  | ['\\'] => false
  | '\\' :: _ :: s => Lexes s
  | c :: s => c != '"' && Lexes s

/-- The body up to the first quote that is not escaped, and what follows that quote. -/
def scanBody : Str → Option (Str × Str)
  | [] => none
  | ['\\'] => none
  | '\\' :: c :: s => (scanBody s).map fun p => ('\\' :: c :: p.1, p.2)
  | c :: s => if c = '"' then some ([], s) else (scanBody s).map fun p => (c :: p.1, p.2)

theorem scanBody_of_lexes {body rest : Str} (h : Lexes body = true) : scanBody (body ++ '"' :: rest) = some (body, rest) := by
  fun_induction Lexes body with
  | case1 => simp [scanBody]
  | case2 => simp at h
  | case3 c s ih => simp [scanBody, ih h]
  | case4 c s h1 h2 ih =>
    simp only [Bool.and_eq_true, bne_iff_ne] at h
    have hc : c ≠ '\\' := by
      rintro rfl
      cases s with
      | nil => exact h1 rfl rfl
      | cons d s => exact h2 d s rfl rfl
    have hrec : scanBody (c :: (s ++ '"' :: rest)) =
        if c = '"' then some ([], s ++ '"' :: rest) else (scanBody (s ++ '"' :: rest)).map fun p => (c :: p.1, p.2) := by
      rw [scanBody.eq_def]
      split <;> simp_all
    rw [List.cons_append, hrec, if_neg h.1, ih h.2]
    rfl

end Milpa.Kdl

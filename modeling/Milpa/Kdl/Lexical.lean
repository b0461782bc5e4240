import Milpa.Order.Brackets
import Milpa.Types.Text

/-!
# Strings and comments of a KDL text

Where strings and comments stand in a text, by the lexical grammar of KDL 2.0: quoted and
raw strings on one line or on several, comments to the end of a line, and block comments,
which nest. A brace opens or closes a block of children where it stands in none of them.
A text that the grammar does not allow is read as well: a string or comment that is not
ended goes on to the end of the text.
-/

namespace Milpa.Kdl

/-- What a character stands in. -/
inductive Context where
  | code
  | lineComment
  | blockComment (depth : ℕ)
  | quoted
  | multiline
  | raw (hashes : ℕ)
  | rawMultiline (hashes : ℕ)
  deriving DecidableEq, Repr

/-- A place in a text: what the next character stands in, and how many characters of a delimiter are still to come. -/
structure Place where
  context : Context
  pending : ℕ
  deriving DecidableEq, Repr

/-- Characters that end a line. -/
def newlines : List Char := ['\n', '\r', '\u000B', '\u000C', '\u0085', '\u2028', '\u2029']

/-- Three quotes. -/
def quotes : Str := ['"', '"', '"']

/-- What a `#` begins, whose following characters are given: a raw string, if quotes follow the last `#`. -/
def Place.hash (rest : Str) : Place :=
  let hashes := rest.takeWhile (· == '#')
  let after := rest.dropWhile (· == '#')
  if quotes.isPrefixOf after then ⟨.rawMultiline (hashes.length + 1), hashes.length + 3⟩
  else if after.head? = some '"' then ⟨.raw (hashes.length + 1), hashes.length + 1⟩
  else ⟨.code, 0⟩

/-- The place behind a character that no delimiter has claimed; what follows it is given. -/
def Context.next (c : Char) (rest : Str) : Context → Place
  | code =>
    if c = '/' ∧ rest.head? = some '/' then ⟨lineComment, 1⟩
    else if c = '/' ∧ rest.head? = some '*' then ⟨blockComment 1, 1⟩
    else if c = '"' then if quotes.isPrefixOf (c :: rest) then ⟨multiline, 2⟩ else ⟨quoted, 0⟩
    else if c = '#' then .hash rest
    else ⟨code, 0⟩
  | lineComment => if c ∈ newlines then ⟨code, 0⟩ else ⟨lineComment, 0⟩
  | blockComment depth =>
    if c = '/' ∧ rest.head? = some '*' then ⟨blockComment (depth + 1), 1⟩
    else if c = '*' ∧ rest.head? = some '/' then ⟨if depth ≤ 1 then code else blockComment (depth - 1), 1⟩
    else ⟨blockComment depth, 0⟩
  | quoted => if c = '\\' then ⟨quoted, 1⟩ else if c = '"' then ⟨code, 0⟩ else ⟨quoted, 0⟩
  | multiline =>
    if c = '\\' then ⟨multiline, 1⟩ else if quotes.isPrefixOf (c :: rest) then ⟨code, 2⟩ else ⟨multiline, 0⟩
  | raw hashes => if ('"' :: List.replicate hashes '#').isPrefixOf (c :: rest) then ⟨code, hashes⟩ else ⟨raw hashes, 0⟩
  | rawMultiline hashes =>
    if (quotes ++ List.replicate hashes '#').isPrefixOf (c :: rest) then ⟨code, hashes + 2⟩ else ⟨rawMultiline hashes, 0⟩

/-- The place behind a character. -/
def Place.next (p : Place) (c : Char) (rest : Str) : Place :=
  match p.pending with
  | 0 => p.context.next c rest
  | pending + 1 => ⟨p.context, pending⟩

/-- The next character stands in no string or comment. -/
def Place.isCode (p : Place) : Bool := decide (p = ⟨.code, 0⟩)

/-- How many comments the next character stands in. -/
def Context.comments : Context → ℕ
  | blockComment depth => depth
  | _ => 0

/-- The characters that stand in no string or comment. -/
def codeFrom : Place → Str → Str
  | _, [] => []
  | p, c :: s => if p.isCode then c :: codeFrom (p.next c s) s else codeFrom (p.next c s) s

/-- The greatest number of comments that a character stands in. -/
def commentDepthFrom : Place → Str → ℕ
  | _, [] => 0
  | p, c :: s => max p.context.comments (commentDepthFrom (p.next c s) s)

/-- The beginning of a text. -/
def Place.start : Place := ⟨.code, 0⟩

/-- The braces of a text. -/
def braceMarks (s : Str) : List Bracket :=
  s.filterMap fun c => if c = '{' then some .opening else if c = '}' then some .closing else none

@[simp] theorem braceMarks_nil : braceMarks [] = [] := rfl

@[simp] theorem braceMarks_opening (s : Str) : braceMarks ('{' :: s) = .opening :: braceMarks s := rfl

@[simp] theorem braceMarks_closing (s : Str) : braceMarks ('}' :: s) = .closing :: braceMarks s := rfl

theorem braceMarks_other {c : Char} (hopen : c ≠ '{') (hclose : c ≠ '}') (s : Str) : braceMarks (c :: s) = braceMarks s := by
  simp [braceMarks, hopen, hclose]

/-- How deep the blocks of children nest. -/
def blockDepth (text : Str) : ℕ := Bracket.depth (braceMarks (codeFrom .start text))

/-- How deep the block comments nest. -/
def commentDepth (text : Str) : ℕ := commentDepthFrom .start text

example : blockDepth "a \"\x7d\" \x7b b /* \x7d */ \x7b\n\x7d \x7d".toList = 2 := by decide

example : commentDepth "a #\"/* \"# /* b /* c */ */".toList = 2 := by decide

end Milpa.Kdl

import Milpa.Nimble.Scan

/-!
# The `requires` statements of a `.nimble` file

What the specification documents, read from the lines of a file: a statement begins with
`requires`, behind any number of headers on its line; it goes on over the lines below as
long as the last one ends with a comma, and blank lines and comments do not end it. What the
scan makes of a statement is compared with this (`Milpa.Nimble.ScanExact`).
-/

namespace Milpa.Nimble

/-- A `requires` statement. -/
structure Statement where
  /-- The line on which it begins. -/
  line : ℕ
  /-- How many headers it stands behind. -/
  headers : ℕ
  /-- What follows `requires` on this line. -/
  first : Str
  /-- The lines that it goes on over; one is empty where there is nothing but white space or a comment on it. -/
  further : List Str
  deriving DecidableEq, Repr

/-- The headers of a line, and what follows `requires` behind them. -/
def statementText : ℕ → Str → Option (ℕ × Str)
  | 0, s => (matchRequires s).map fun rest => (0, rest.trim)
  | fuel + 1, s =>
    match headerTail s with
    | some tail => (statementText fuel tail).map fun p => (p.1 + 1, p.2)
    | none => (matchRequires s).map fun rest => (0, rest.trim)

/-- The text of a line, without comment and white space around it. -/
def lineText (line : Str × ℕ) : Str := (stripComment line.1).trim

/-- The lines that a statement goes on over, and the lines after it. -/
def goOn : Str → Region → List Str × Region
  | _, [] => ([], [])
  | last, line :: below =>
    if last.endsWithChar ',' then
      let s := lineText line
      let rest := goOn (if s.isEmpty then last else s) below
      (s :: rest.1, rest.2)
    else ([], line :: below)

/-- The statement that begins on a line. -/
def statementStep (line : Str × ℕ) (below : Region) : List Statement × Region :=
  match statementText (stripComment line.1).length (stripComment line.1) with
  | some (headers, first) =>
    let rest := goOn first below
    ([⟨line.2, headers, first, rest.1⟩], rest.2)
  | none => ([], below)

/-- The statements of a region. -/
def statements (region : Region) : List Statement := Consume.run statementStep region

/-! ### Documented forms -/

/-- A comma with white space around it. -/
def IsComma (s : Str) : Prop := ∃ a b : Str, s = a ++ ',' :: b ∧ ∀ c ∈ a ++ b, Str.isWhitespace c = true

/-- A list of quoted strings, with commas between them, which may end with a comma. -/
inductive Listed : Str → List Str → Prop
  | one {spec : Str} : '"' ∉ spec → Listed ('"' :: (spec ++ ['"'])) [spec]
  | trailing {spec sep : Str} : '"' ∉ spec → IsComma sep → Listed ('"' :: (spec ++ '"' :: sep)) [spec]
  | more {spec sep s : Str} {specs : List Str} :
    '"' ∉ spec → IsComma sep → Listed s specs → Listed ('"' :: (spec ++ '"' :: (sep ++ s))) (spec :: specs)

/-- The parts of a statement: what is on its lines, but for those with nothing on them. -/
def Statement.parts (st : Statement) : List Str := (st.first :: st.further).filter fun s => !s.isEmpty

/-- A statement in a documented form, with its specifications: a list of quoted strings on each of its lines, the last of which
does not end with a comma. -/
def Statement.Documented (st : Statement) (specs : List Str) : Prop :=
  (∃ lists, List.Forall₂ Listed st.parts lists ∧ specs = lists.flatten) ∧
    st.first ≠ [] ∧ ∀ s ∈ st.parts.getLast?, Str.endsWithChar s ',' = false

/-- The scan reads all of a statement: it stands behind no header and no line inside it is empty, or it stands behind one
header on one line. -/
def Statement.Reached (st : Statement) : Prop := st.headers = 0 ∧ [] ∉ st.further ∨ st.headers = 1 ∧ st.further = []

end Milpa.Nimble

import Milpa.Types.Version

/-!
# Parsing versions

`parse_version` and the functions it calls. The source checks the bytes of a string
where this module checks its characters: every byte of a character outside ASCII is
outside the ranges tested, and so is the character.
-/

namespace Milpa.Solver

/-- `parse_numeric_component`: one or more ASCII digits, with a value that fits. -/
def parseNumericComponent (s : Str) : Option UInt64 :=
  if s.isEmpty || !s.all Char.isDigit then none else s.parseU64

/-- `is_ident_char`. -/
def isIdentChar (c : Char) : Bool := c.isAlphanum || c == '-'

/-- `is_valid_dotted_idents`. -/
def isValidDottedIdents (s : Str) : Bool :=
  !s.isEmpty && (s.split '.').all fun p => !p.isEmpty && p.all isIdentChar

/-- What `parse_pre_identifiers` does with one part of the tag. A number too large for
`u64` is kept as text. -/
def parsePreIdentifier (part : Str) : Option PreId :=
  if part.isEmpty || !part.all isIdentChar then none
  else if part.all Char.isDigit then
    match part.parseU64 with
    | some n => some (.numeric n)
    | none => some (.alpha part)
  else some (.alpha part)

/-- `parse_pre_identifiers`. -/
def parsePreIdentifiers (pre : Str) : Option (List PreId) :=
  if pre.isEmpty then none else (pre.split '.').mapM parsePreIdentifier

/-- `parse_version`. -/
def parseVersion (text : Str) : Option Version := do
  let s := text.trim
  let s := (s.stripPrefix "v").getD s
  let (rest, build) := match s.splitOnce '+' with
    | some (r, b) => (r, some b)
    | none => (s, none)
  -- a pre-release tag may itself hold `-`: only the first one delimits it
  let (core, pre) := match rest.splitOnce '-' with
    | some (c, p) => (c, some p)
    | none => (rest, none)
  let [major, minor, patch] := core.split '.' | none
  let major ← parseNumericComponent major
  let minor ← parseNumericComponent minor
  let patch ← parseNumericComponent patch
  let pre ← match pre with
    | some p => parsePreIdentifiers p
    | none => some []
  let build ← match build with
    | some b => if isValidDottedIdents b then some b else none
    | none => some []
  return { major, minor, patch, pre, build }

/-- `format_version_str`. -/
def formatVersionStr (v : Version) : Str := v.display

example : parseVersion "v01.2.3-rc.1+b" = some ⟨1, 2, 3, [.alpha "rc", .numeric 1], "b"⟩ := by decide

end Milpa.Solver

import Milpa.Types.EdgeSet
import Milpa.Types.Text

/-!
# Conditions of a `.nimble` file

`parse_when_condition` of `nimble.rs` and the functions it calls: a condition of a `when` or
an `elif` becomes predicates, or it is not recognized. The source slices a string by bytes
where this module goes by characters: what it looks for is ASCII.
-/

namespace Milpa

namespace Str

/-- `str::trim_end`. -/
def trimEnd (s : Str) : Str := s.rdropWhile isWhitespace

/-- `starts_with(char::is_whitespace)`. -/
def startsWithWhitespace (s : Str) : Bool := s.head?.any isWhitespace

end Str

namespace Nimble

/-- `PLATFORM_TOKENS`: a token and its canonical value. -/
def platformTokens : List (Str × Str) :=
  [("linux", "linux"), ("macosx", "macosx"), ("macos", "macosx"), ("windows", "windows"), ("win", "windows"),
    ("freebsd", "freebsd"), ("openbsd", "openbsd"), ("netbsd", "netbsd")]

/-- `ARCH_TOKENS`. -/
def archTokens : List Str := ["amd64", "arm64", "i386"]

/-- `NIM_OPS`. -/
def nimOps : List Str := [">=", ">", "<=", "<", "=="]

/-- The values of a predicate, which is not negated. -/
def predicate (name : Str) (value : Str) : Predicate := ⟨name, [value], false⟩

/-- `parse_defined`. -/
def parseDefined (cond : Str) : Option Predicate := do
  let inner ← cond.trim.stripPrefix "defined("
  let inner ← inner.stripSuffix ")"
  let inner := inner.trim
  if inner.isEmpty then none
  else
    match platformTokens.find? fun e => decide (inner = e.1) with
    | some (_, canonical) => some (predicate "platform" canonical)
    | none => if inner ∈ archTokens then some (predicate "arch" inner) else none

/-- `extract_op`. -/
def extractOp (s : Str) : Option (Str × Str) := nimOps.findSome? fun op => (s.stripPrefix op).map fun rest => (op, rest)

/-- `str::parse::<u32>`. -/
def parseU32 (s : Str) : Option ℕ := Str.parseUInt 32 s

/-- The value of a predicate on the version of Nim. -/
def nimValue (op : Str) (major minor patch : ℕ) : Str :=
  op ++ Str.ofNat major ++ ['.'] ++ Str.ofNat minor ++ ['.'] ++ Str.ofNat patch

/-- `try_nim_major_single`. -/
def tryNimMajorSingle (s : Str) : Option Str := do
  let rest ← s.stripPrefix "NimMajor"
  let (op, afterOp) ← extractOp rest.trimStart
  let major ← parseU32 afterOp.trim
  return nimValue op major 0 0

/-- `try_tuple3`, after the parenthesis. -/
def tryTuple3 (s : Str) : Option Str := do
  let rest ← s.trimStart.stripPrefix "NimMajor"
  let rest ← rest.trimStart.stripPrefix ","
  let rest ← rest.trimStart.stripPrefix "NimMinor"
  let rest ← rest.trimStart.stripPrefix ","
  let rest ← rest.trimStart.stripPrefix "NimPatch"
  let rest ← rest.trimStart.stripPrefix ")"
  let (op, afterOp) ← extractOp rest.trimStart
  let afterOp ← afterOp.trimStart.stripPrefix "("
  let (majorStr, afterMajor) ← afterOp.trimStart.splitOnce ','
  let major ← parseU32 majorStr.trim
  let (minorStr, afterMinor) ← afterMajor.trimStart.splitOnce ','
  let minor ← parseU32 minorStr.trim
  let (patchStr, remainder) ← afterMinor.trimStart.splitOnce ')'
  let patch ← parseU32 patchStr.trim
  if remainder.trim.isEmpty then some (nimValue op major minor patch) else none

/-- `try_tuple2`, after the parenthesis. -/
def tryTuple2 (s : Str) : Option Str := do
  let rest ← s.trimStart.stripPrefix "NimMajor"
  let rest ← rest.trimStart.stripPrefix ","
  let rest ← rest.trimStart.stripPrefix "NimMinor"
  let rest ← rest.trimStart.stripPrefix ")"
  let (op, afterOp) ← extractOp rest.trimStart
  let afterOp ← afterOp.trimStart.stripPrefix "("
  let (majorStr, afterMajor) ← afterOp.trimStart.splitOnce ','
  let major ← parseU32 majorStr.trim
  let (minorStr, remainder) ← afterMajor.trimStart.splitOnce ')'
  let minor ← parseU32 minorStr.trim
  if remainder.trim.isEmpty then some (nimValue op major minor 0) else none

/-- `try_nim_tuple`: three components are tried first. -/
def tryNimTuple (s : Str) : Option Str := do
  let rest ← s.stripPrefix "("
  (tryTuple3 rest).orElse fun _ => tryTuple2 rest

/-- `parse_nim_comparison`. -/
def parseNimComparison (cond : Str) : Option Predicate :=
  let s := cond.trim
  ((tryNimMajorSingle s).orElse fun _ => tryNimTuple s).map (predicate "nim")

/-- `parse_single`. -/
def parseSingle (cond : Str) : Option Predicate := (parseDefined cond).orElse fun _ => parseNimComparison cond

/-- A character of a word: an ASCII letter or digit, or `_`. -/
def isWordChar (c : Char) : Bool := c.isAlphanum || c == '_'

/-- The loop of `split_on_and`; what has been passed is given last first. -/
def splitOnAndLoop : Str → Str → Option (Str × Str)
  | _, [] => none
  | passed, c :: s =>
    match Str.stripPrefix (c :: s) "and" with
    | some rest =>
      let left := Str.trim passed.reverse
      let right := Str.trim rest
      if !passed.head?.any isWordChar && !rest.head?.any isWordChar && !left.isEmpty && !right.isEmpty then some (left, right)
      else splitOnAndLoop (c :: passed) s
    | none => splitOnAndLoop (c :: passed) s

/-- `split_on_and`. -/
def splitOnAnd (cond : Str) : Option (Str × Str) := splitOnAndLoop [] cond

/-- `strip_not_prefix`. -/
def stripNotPrefix (s : Str) : Option Str := do
  let rest ← s.stripPrefix "not"
  if rest.startsWithWhitespace then some rest.trim else none

/-- `parse_when_condition`. -/
def parseWhenCondition (cond : Str) : Option (List Predicate) :=
  let stripped := cond.trim
  if stripped.isEmpty then none
  else
    match stripNotPrefix stripped with
    | some inner => (parseSingle inner).map fun p => [{ p with negated := true }]
    | none =>
      match splitOnAnd stripped with
      | some (left, right) => do
        let leftPred ← parseNimComparison left
        let rightPred ← parseNimComparison right
        return [leftPred, rightPred]
      | none => (parseSingle stripped).map fun p => [p]

example : parseWhenCondition "(NimMajor, NimMinor) >= (1, 4) and NimMajor < 2".toList =
    some [predicate "nim" ">=1.4.0", predicate "nim" "<2.0.0"] := by decide

end Nimble

end Milpa

import Milpa.Nimble.Branches
import Milpa.Solver.ParseVersion
import Milpa.Types.Package

/-!
# The scan of a `.nimble` file

`parse_nimble` of `nimble.rs` and the functions it calls: one loop over the lines finds the
requirements and the assignments of `srcDir` and `version`, and the branches give predicates
to the requirements by the line on which these were found.
-/

namespace Milpa

/-- `str::lines`: an empty line at the end is not seen. -/
def Str.lines (text : Str) : List Str :=
  let parts := text.splitOn '\n'
  parts.dropLast.map (fun line => (Str.stripSuffix line "\r").getD line) ++ parts.getLast?.toList.filter fun line => !line.isEmpty

namespace Nimble

/-- `URL_SCHEMES`. -/
def urlSchemes : List Str := ["http://", "https://", "ssh://", "git://", "file://"]

/-- `NimbleRequirement`, with the verbatim text. -/
structure Requirement where
  spec : Str
  requirement : NimbleRequirement
  deriving DecidableEq, Repr

/-- `parse_spec`. -/
def parseSpec (spec : Str) (preds : List Predicate) : Requirement :=
  if urlSchemes.any fun scheme => scheme.isPrefixOf spec then
    match spec.splitOnce '#' with
    | some (url, ref) => ⟨spec, .url url (some ref) preds⟩
    | none => ⟨spec, .url spec none preds⟩
  else
    let name := spec.takeWhile fun c => !Str.isWhitespace c
    let constraint := Str.trim ((spec.dropWhile fun c => !Str.isWhitespace c).drop 1)
    ⟨spec, .named name (if constraint.isEmpty then none else some constraint) preds⟩

/-! ### Lines -/

/-- A line that assigns a value. -/
def matchAssignment (keyword line : Str) : Option Str := do
  let rest ← line.trimStart.stripPrefix keyword
  let rest ← rest.trimStart.stripPrefix "="
  let rest := rest.trimStart
  let rest := (rest.stripPrefix "\"").getD rest
  let value := rest.takeWhile fun c => c != '"' && !Str.isWhitespace c
  let remainder : Str := rest.drop value.length
  let remainder : Str := (remainder.stripPrefix "\"").getD remainder
  if !value.isEmpty && remainder.trim.isEmpty then some value else none

/-- `match_src_dir`. -/
def matchSrcDir (line : Str) : Option Str := matchAssignment "srcDir" line

/-- `match_version`. -/
def matchVersion (line : Str) : Option Str := matchAssignment "version" line

/-- `match_requires`. -/
def matchRequires (line : Str) : Option Str := do
  let rest ← line.trimStart.stripPrefix "requires"
  if rest.startsWithWhitespace then some rest.trimStart else none

/-- The loop of `extract_quoted`, in a string or not; what has been read of the string is given last first. -/
def extractQuotedLoop : Option Str → Str → List Str
  | _, [] => []
  | none, c :: s => extractQuotedLoop (if c = '"' then some [] else none) s
  | some content, c :: s =>
    if c = '"' then content.reverse :: extractQuotedLoop none s else extractQuotedLoop (some (c :: content)) s

/-- `extract_quoted`. -/
def extractQuoted (s : Str) : List Str := extractQuotedLoop none s

/-- The tail of a header. -/
def headerTail (line : Str) : Option Str :=
  match matchWhenHeader line with
  | some header => some header.tail
  | none =>
    match matchElifHeader line with
    | some header => some header.tail
    | none => matchElseHeader line

/-- `extract_colon_form_requires`. -/
def extractColonFormRequires (line : Str) : Option (List Str) := do
  let tail ← headerTail line
  if tail.isEmpty || !tailHasRequires tail then none
  else
    let rest ← matchRequires tail
    let quoted := extractQuoted rest.trim
    if quoted.isEmpty then none else some quoted

/-- The rest of a `requires` statement, which goes on as long as what has been read ends with a comma, and the lines after it. -/
def gather : Str → Region → Str × Region
  | tail, [] => (tail, [])
  | tail, line :: below =>
    if tail.endsWithChar ',' then gather (tail ++ ' ' :: (stripComment line.1).trim) below else (tail, line :: below)

/-- What a line gives. -/
inductive Found where
  | srcDir (dir : Str)
  | version (raw : Str)
  /-- A requirement, and the line on which its statement begins. -/
  | spec (spec : Str) (line : ℕ)
  deriving DecidableEq, Repr

/-- The loop of `parse_nimble` at a line. -/
def scanStep (line : Str × ℕ) (below : Region) : List Found × Region :=
  let s := stripComment line.1
  match matchSrcDir s with
  | some dir => ([.srcDir dir], below)
  | none =>
    match matchVersion s with
    | some raw => ([.version raw], below)
    | none =>
      match matchRequires s with
      | some rest =>
        let statement := gather rest.trim below
        ((extractQuoted statement.1).map (Found.spec · line.2), statement.2)
      | none => (((extractColonFormRequires s).getD []).map (Found.spec · line.2), below)

/-- What the loop of `parse_nimble` finds. -/
def scan (lines : List Str) : List Found := Consume.run scanStep lines.zipIdx

/-- `specs_with_lines`. -/
def specsWithLines (found : List Found) : List (Str × ℕ) :=
  found.filterMap fun f => match f with
    | .spec spec line => some (spec, line)
    | _ => none

/-! ### Predicates of a line -/

/-- `line_preds`: what was inserted last counts. -/
def linePreds (branches : List WhenBranch) (line : ℕ) : Option (Option (List Predicate)) :=
  (branches.reverse.find? fun branch => decide (line ∈ branch.requireLines)).map WhenBranch.predicates

/-- The predicates of a requirement that was found on a line. -/
def predicatesAt (branches : List WhenBranch) (line : ℕ) : List Predicate :=
  match linePreds branches line with
  | some (some preds) => preds
  | _ => []

/-- `NimbleManifest`, with the verbatim texts. -/
structure NimbleFile where
  requires : List Requirement
  srcDir : Option Str
  version : Option Version
  deriving DecidableEq, Repr

/-- What the resolver reads of it. -/
def NimbleFile.manifest (file : NimbleFile) : NimbleManifest := ⟨file.requires.map Requirement.requirement, file.srcDir, file.version⟩

/-- `parse_nimble`. -/
def parseNimble (text : Str) : NimbleFile :=
  let lines := Str.lines text
  let branches := parseWhenBranches lines
  let found := scan lines
  { requires := (specsWithLines found).map fun found => parseSpec found.1 (predicatesAt branches found.2)
    srcDir := (found.filterMap fun f => match f with | .srcDir dir => some dir | _ => none).getLast?
    version :=
      (found.filterMap fun f => match f with | .version raw => some raw | _ => none).getLast?.bind Solver.parseVersion }

end Nimble

end Milpa

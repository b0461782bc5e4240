import Milpa.Nimble.Condition
import Milpa.Order.Consume

/-!
# The branches of a `.nimble` file

`parse_when_branches` of `nimble.rs` and the functions it calls: the chains of `when`, `elif`
and `else` are found by indentation, and each branch with a `requires` line is reported with
its predicates, if its chain is recognized. Where the source goes through `lines[start..end]`
by index, a region here is the list of these lines, each with its index.
-/

namespace Milpa

/-- `ends_with` of a character. -/
def Str.endsWithChar (s : Str) (c : Char) : Bool := decide (s.getLast? = some c)

namespace Nimble

/-- The loop of `strip_comment`, inside a string or not. -/
def stripCommentLoop : Bool → Str → Str
  | _, [] => []
  | inString, c :: s =>
    if c = '"' then c :: stripCommentLoop (!inString) s
    else if c = '#' && !inString then []
    else c :: stripCommentLoop inString s

/-- `strip_comment`. -/
def stripComment (line : Str) : Str := (stripCommentLoop false line).trimEnd

/-- `leading_spaces`. -/
def leadingSpaces (s : Str) : ℕ := (s.takeWhile fun c => c == ' ' || c == '\t').length

/-- The indentation, condition and tail of a header. -/
structure Header where
  indent : ℕ
  cond : Str
  tail : Str
  deriving DecidableEq, Repr

/-- A header with a condition after its keyword. -/
def matchHeader (keyword : Str) (s : Str) : Option Header := do
  let rest ← s.trimStart.stripPrefix keyword
  if rest.startsWithWhitespace then
    let (cond, tail) ← rest.trimStart.splitOnce ':'
    return ⟨leadingSpaces s, cond.trim, tail.trim⟩
  else none

/-- `match_when_header`. -/
def matchWhenHeader (s : Str) : Option Header := matchHeader "when" s

/-- `match_elif_header`. -/
def matchElifHeader (s : Str) : Option Header := matchHeader "elif" s

/-- `match_else_header`: the tail. -/
def matchElseHeader (s : Str) : Option Str := do
  let rest ← s.trimStart.stripPrefix "else"
  let rest ← rest.trimStart.stripPrefix ":"
  return rest.trim

/-- `is_requires_line`. -/
def isRequiresLine (s : Str) : Bool :=
  match s.trimStart.stripPrefix "requires" with
  | some rest => rest.startsWithWhitespace
  | none => false

/-- The loop of `tail_has_requires`, after a character. -/
def tailHasRequiresLoop : Option Char → Str → Bool
  | _, [] => false
  | before, c :: s =>
    match Str.stripPrefix (c :: s) "requires" with
    | some after => !before.any isWordChar && !after.head?.any isWordChar || tailHasRequiresLoop (some c) s
    | none => tailHasRequiresLoop (some c) s

/-- `tail_has_requires`. -/
def tailHasRequires (tail : Str) : Bool := tailHasRequiresLoop none tail

/-! ### Chains -/

/-- Lines with their indices. -/
abbrev Region := List (Str × ℕ)

/-- The line is blank but for a comment. -/
def isBlank (line : Str × ℕ) : Bool := (stripComment line.1).trim.isEmpty

/-- `find_body_end` passes this line, in a block under a header of the indentation. -/
def inBody (indent : ℕ) (line : Str × ℕ) : Bool := isBlank line || decide (indent < leadingSpaces (stripComment line.1))

/-- `BranchKind`. -/
inductive BranchKind where
  | when
  | elif
  | else
  deriving DecidableEq, Repr

/-- `BranchRaw`; the lines of the body stand for `body_start` and `body_end`. -/
structure BranchRaw where
  kind : BranchKind
  cond : Str
  tail : Str
  headerLine : ℕ
  body : Region
  deriving DecidableEq, Repr

/-- The loop `'chain` of `scan_region`: the branches after the first, and the lines after the chain. -/
def chainLoop : ℕ → ℕ → Region → List BranchRaw × Region
  | 0, _, region => ([], region)
  | fuel + 1, indent, region =>
    match region.dropWhile isBlank with
    | [] => ([], [])
    | line :: below =>
      let s := stripComment line.1
      if leadingSpaces s ≠ indent then ([], line :: below)
      else
        let body := below.takeWhile (inBody indent)
        let after := below.dropWhile (inBody indent)
        match matchElifHeader s with
        | some header =>
          let chain := chainLoop fuel indent after
          (⟨.elif, header.cond, header.tail, line.2, body⟩ :: chain.1, chain.2)
        | none =>
          match matchElseHeader s with
          | some tail => ([⟨.else, [], tail, line.2, body⟩], after)
          | none => ([], line :: below)

/-- The chain under a `when` header, and the lines after it. -/
def trackChain (header : Header) (headerLine : ℕ) (below : Region) : List BranchRaw × Region :=
  let body := below.takeWhile (inBody header.indent)
  let chain := chainLoop below.length header.indent (below.dropWhile (inBody header.indent))
  (⟨.when, header.cond, header.tail, headerLine, body⟩ :: chain.1, chain.2)

/-- The loop of `scan_region` at a line: the chain that begins there. -/
def chainStep (line : Str × ℕ) (below : Region) : List (List BranchRaw) × Region :=
  match matchWhenHeader (stripComment line.1) with
  | some header =>
    let chain := trackChain header line.2 below
    ([chain.1], chain.2)
  | none => ([], below)

/-- The chains of a region. -/
def chains (region : Region) : List (List BranchRaw) := Consume.run chainStep region

theorem suffix_chainLoop (fuel indent : ℕ) (region : Region) : (chainLoop fuel indent region).2 <:+ region := by
  induction fuel generalizing region with
  | zero => exact List.suffix_rfl
  | succ fuel ih =>
    have hblank : region.dropWhile isBlank <:+ region := List.dropWhile_suffix _
    rw [chainLoop]
    split
    · exact List.nil_suffix
    · rename_i line below hregion
      have hbelow : below.dropWhile (inBody indent) <:+ region :=
        ((List.dropWhile_suffix _).trans (List.suffix_cons line below)).trans (hregion ▸ hblank)
      dsimp only
      split_ifs
      · exact hregion ▸ hblank
      split
      · exact (ih _).trans hbelow
      split
      · exact hbelow
      · exact hregion ▸ hblank

theorem suffix_trackChain (header : Header) (headerLine : ℕ) (below : Region) : (trackChain header headerLine below).2 <:+ below :=
  (suffix_chainLoop _ _ _).trans (List.dropWhile_suffix _)

theorem shrinks_chainStep : Consume.Shrinks chainStep := by
  intro line below
  rw [chainStep]
  split
  · exact suffix_trackChain _ line.2 _
  · exact List.suffix_rfl

/-! ### Predicates -/

/-- `negate_pred`. -/
def negatePred (pred : Predicate) : Predicate := { pred with negated := !pred.negated }

/-- A branch makes its chain unrecognized. -/
def poisons (siblings : Bool) (b : BranchRaw) : Bool :=
  match b.kind with
  | .when | .elif =>
    match parseWhenCondition b.cond with
    | none => true
    | some preds => siblings && decide (1 < preds.length)
  | .else => false

/-- `poisoned` of `scan_region`. -/
def poisoned (chain : List BranchRaw) : Bool := chain.any (poisons (decide (1 < chain.length)))

/-- The loop over the branches of a chain that is recognized, with `prior_negations`. -/
def branchPredicatesLoop : List Predicate → List BranchRaw → List (Option (List Predicate))
  | _, [] => []
  | prior, b :: chain =>
    match b.kind with
    | .when =>
      let preds := (parseWhenCondition b.cond).getD []
      some preds :: branchPredicatesLoop (prior ++ preds.map negatePred) chain
    | .elif =>
      let preds := (parseWhenCondition b.cond).getD []
      some (preds ++ prior) :: branchPredicatesLoop (prior ++ preds.map negatePred) chain
    | .else => some prior :: branchPredicatesLoop prior chain

/-- `branch_predicates` of `scan_region`. -/
def branchPredicates (depth : ℕ) (chain : List BranchRaw) : List (Option (List Predicate)) :=
  if poisoned chain || decide (1 ≤ depth) then chain.map fun _ => none else branchPredicatesLoop [] chain

/-! ### Lines with requirements -/

/-- The lines after a `requires` statement, which goes on as long as what has been read ends with a comma. -/
def skipContinuation : Str → Region → Region
  | _, [] => []
  | tail, line :: below =>
    if tail.endsWithChar ',' then skipContinuation (stripComment line.1).trim below else line :: below

/-- The loop of `collect_direct_requires` at a line: a chain is skipped. -/
def directStep (line : Str × ℕ) (below : Region) : List ℕ × Region :=
  let s := stripComment line.1
  match matchWhenHeader s with
  | some header => ([], (trackChain header line.2 below).2)
  | none => if isRequiresLine s then ([line.2], skipContinuation s.trimEnd below) else ([], below)

/-- `collect_direct_requires`. -/
def collectDirectRequires (region : Region) : List ℕ := Consume.run directStep region

/-- The loop of `linear_scan_requires` at a line. -/
def linearStep (line : Str × ℕ) (below : Region) : List ℕ × Region :=
  let s := stripComment line.1
  if isRequiresLine s then ([line.2], skipContinuation s.trimEnd below) else ([], below)

/-- `WhenBranch`. -/
structure WhenBranch where
  predicates : Option (List Predicate)
  requireLines : List ℕ
  deriving DecidableEq, Repr

/-- A branch is reported when it has requirements of its own. -/
def report (preds : Option (List Predicate)) (requireLines : List ℕ) : List WhenBranch :=
  if requireLines.isEmpty then [] else [⟨preds, requireLines⟩]

theorem mem_report {preds : Option (List Predicate)} {requireLines : List ℕ} {branch : WhenBranch}
    (h : branch ∈ report preds requireLines) : branch = ⟨preds, requireLines⟩ := by
  rw [report] at h
  split_ifs at h
  · cases h
  · exact List.mem_singleton.mp h

/-- `linear_scan_requires`. -/
def linearScanRequires (region : Region) : List WhenBranch := report none (Consume.run linearStep region)

/-- The lines with requirements of a branch itself. -/
def directRequires (b : BranchRaw) : List ℕ :=
  (if !b.tail.isEmpty && tailHasRequires b.tail then [b.headerLine] else []) ++ collectDirectRequires b.body

/-- `MAX_WHEN_DEPTH`. -/
def maxWhenDepth : ℕ := 8

/-- `scan_region`, by the levels that are left below `MAX_WHEN_DEPTH`. -/
def scanRegion : ℕ → Region → List WhenBranch
  | 0, region => linearScanRequires region
  | levels + 1, region =>
    (chains region).flatMap fun chain =>
      (chain.zip (branchPredicates (maxWhenDepth - (levels + 1)) chain)).flatMap fun b =>
        report b.2 (directRequires b.1) ++ scanRegion levels b.1.body

/-- `parse_when_branches`. -/
def parseWhenBranches (lines : List Str) : List WhenBranch := scanRegion maxWhenDepth lines.zipIdx

end Nimble

end Milpa

import Milpa.Solver.ParseVersion
import Mathlib.Data.List.Sort

/-!
# Version sets

`Interval` and `VersionSet` of the solver: a set of versions as a list of intervals,
the constructors, the three set operations, and the normal form that
`normalize_intervals` brings a list of intervals to. What the operations mean is
proved in `Milpa.Solver.VersionSetLaws`.

The release components are `u64`, and the `+ 1` of `tilde` and `caret` is that of a
release build, which wraps.
-/

namespace Milpa.Solver

/-- One interval. `lo = none` is unbounded below and `hi = none` unbounded above; the
flags say whether an end point belongs to the interval. -/
structure Interval where
  lo : Option Version
  hi : Option Version
  loClosed : Bool
  hiClosed : Bool
  deriving BEq, DecidableEq, Repr

/-! ### Bounds -/

/-- `interval_contains`. -/
def intervalContains (iv : Interval) (v : Version) : Bool :=
  (match iv.lo with
    | some lo => if iv.loClosed then !decide (v < lo) else !decide (v ≤ lo)
    | none => true) &&
  (match iv.hi with
    | some hi => if iv.hiClosed then !decide (v > hi) else !decide (v ≥ hi)
    | none => true)

/-- `max_lo_with_closed`: the larger of two lower bounds. -/
def maxLoWithClosed (a : Option Version) (aC : Bool) (b : Option Version) (bC : Bool) : Option Version × Bool :=
  match a, b with
  | none, _ => (b, bC)
  | _, none => (a, aC)
  | some av, some bv =>
    match av.cmp bv with
    | .gt => (some av, aC)
    | .lt => (some bv, bC)
    | .eq => (some av, aC && bC)

/-- `min_hi_with_closed`: the smaller of two upper bounds. -/
def minHiWithClosed (a : Option Version) (aC : Bool) (b : Option Version) (bC : Bool) : Option Version × Bool :=
  match a, b with
  | none, _ => (b, bC)
  | _, none => (a, aC)
  | some av, some bv =>
    match av.cmp bv with
    | .lt => (some av, aC)
    | .gt => (some bv, bC)
    | .eq => (some av, aC && bC)

/-- `max_bound`: the larger of two upper bounds. -/
def maxBound (a : Option Version) (aC : Bool) (b : Option Version) (bC : Bool) : Option Version × Bool :=
  match a, b with
  | none, _ => (none, aC)
  | _, none => (none, bC)
  | some av, some bv =>
    match av.cmp bv with
    | .gt => (some av, aC)
    | .lt => (some bv, bC)
    | .eq => (some av, aC || bC)

/-- `interval_nonempty`. -/
def intervalNonempty (lo hi : Option Version) (loC hiC : Bool) : Bool :=
  match lo, hi with
  | none, _ => true
  | _, none => true
  | some lo, some hi => if lo < hi then true else lo == hi && loC && hiC

/-- `intervals_connectable`: `a` and `b`, in this order, overlap or touch. -/
def intervalsConnectable (a b : Interval) : Bool :=
  match a.hi, b.lo with
  | none, _ => true
  | _, none => true
  | some aHi, some bLo =>
    match aHi.cmp bLo with
    | .lt => false
    | .gt => true
    | .eq => a.hiClosed || b.loClosed

/-! ### The normal form -/

/-- What `lo_sort_key` returns: the group, the bound, and the rank of its flag. -/
abbrev LoSortKey := ℕ ×ₗ WithBot VersionKey ×ₗ ℕ

/-- `lo_sort_key`. -/
def loSortKey (iv : Interval) : LoSortKey :=
  match iv.lo with
  | none => toLex (0, toLex (⊥, 0))
  | some v => toLex (1, toLex (v.precedenceKey, (!iv.loClosed).toNat))

/-- The first loop of `normalize_intervals`: the flag of an unbounded end is fixed. -/
def fixUnbounded (iv : Interval) : Interval :=
  { iv with
    loClosed := if iv.lo.isNone then true else iv.loClosed
    hiClosed := if iv.hi.isNone then false else iv.hiClosed }

/-- `last.hi = new_hi; last.hi_closed = new_hi_c`. -/
def extendLast (prev iv : Interval) : Interval :=
  let newHi := maxBound prev.hi prev.hiClosed iv.hi iv.hiClosed
  { prev with hi := newHi.1, hiClosed := newHi.2 }

/-- One round of the last loop of `normalize_intervals`. The intervals kept so far are
held last one first. -/
def mergeInterval (merged : List Interval) (iv : Interval) : List Interval :=
  if !intervalNonempty iv.lo iv.hi iv.loClosed iv.hiClosed then merged
  else
    match merged with
    | [] => [iv]
    | prev :: rest =>
      if intervalsConnectable prev iv then extendLast prev iv :: rest else iv :: prev :: rest

/-- `normalize_intervals`. Insertion sort stands for `sort_by`: both are stable. -/
def normalizeIntervals (intervals : List Interval) : List Interval :=
  let sorted := (intervals.map fixUnbounded).insertionSort fun a b => loSortKey a ≤ loSortKey b
  (sorted.foldl mergeInterval []).reverse

/-! ### Version sets -/

/-- `VersionSet`. -/
structure VersionSet where
  intervals : List Interval
  deriving BEq, DecidableEq, Repr

namespace VersionSet

/-- The set of every version. -/
def full : VersionSet := ⟨[⟨none, none, true, false⟩]⟩

/-- The empty set. -/
def empty : VersionSet := ⟨[]⟩

/-- `contains`. -/
def contains (s : VersionSet) (v : Version) : Bool := s.intervals.any (intervalContains · v)

/-- `is_empty`. -/
def isEmpty (s : VersionSet) : Bool := s.intervals.isEmpty

/-- `is_full`. -/
def isFull (s : VersionSet) : Bool := s == full

/-- The overlap of two intervals, which `intersect` keeps when it is not empty. -/
def overlap (a b : Interval) : Interval :=
  let lo := maxLoWithClosed a.lo a.loClosed b.lo b.loClosed
  let hi := minHiWithClosed a.hi a.hiClosed b.hi b.hiClosed
  ⟨lo.1, hi.1, lo.2, hi.2⟩

/-- What the loops of `intersect` collect. -/
def overlaps (l m : List Interval) : List Interval :=
  l.flatMap fun a => (m.map (overlap a)).filter fun iv => intervalNonempty iv.lo iv.hi iv.loClosed iv.hiClosed

/-- `intersect`. -/
def intersect (s t : VersionSet) : VersionSet := ⟨normalizeIntervals (overlaps s.intervals t.intervals)⟩

/-- `union`. -/
def union (s t : VersionSet) : VersionSet := ⟨normalizeIntervals (s.intervals ++ t.intervals)⟩

/-- The gap between two neighbours: from where `a` ends to where `b` begins. -/
def gapBetween (a b : Interval) : Interval := ⟨a.hi, b.lo, !a.hiClosed, !b.loClosed⟩

/-- The left gap of `complement`: what is below the first interval. -/
def leftGap (first : Interval) : List Interval :=
  match first.lo with
  | some lo0 => [⟨none, some lo0, true, !first.loClosed⟩]
  | none => []

/-- The right tail of `complement`: what is above the last interval. -/
def rightTail (last : Interval) : List Interval :=
  match last.hi with
  | some lastHi => [⟨some lastHi, none, !last.hiClosed, false⟩]
  | none => []

/-- What `complement` collects: the left gap, the gaps between neighbours, and the right tail. -/
def gapsOf (first : Interval) (rest : List Interval) : List Interval :=
  leftGap first ++ ((first :: rest).zip rest).map (fun w => gapBetween w.1 w.2) ++ rightTail (rest.getLastD first)

/-- `complement`. -/
def complement (s : VersionSet) : VersionSet :=
  match s.intervals with
  | [] => full
  | first :: rest => ⟨normalizeIntervals (gapsOf first rest)⟩

/-- `is_subset_of`. -/
def isSubsetOf (s t : VersionSet) : Bool := (s.intersect t.complement).isEmpty

/-- `>= v`. -/
def gte (v : Version) : VersionSet := ⟨[⟨some v, none, true, false⟩]⟩

/-- `< v`. -/
def lt (v : Version) : VersionSet := ⟨[⟨none, some v, true, false⟩]⟩

/-- The closed singleton `{v}`. -/
def eq (v : Version) : VersionSet := ⟨[⟨some v, some v, true, true⟩]⟩

/-- `> v`. -/
def gt (v : Version) : VersionSet := (gte v).intersect (eq v).complement

/-- `<= v`. -/
def lte (v : Version) : VersionSet := (lt v).union (eq v)

/-- `tilde`. -/
def tilde (v : Version) : VersionSet :=
  let hi := if v.minor = 0 ∧ v.patch = 0 then lt (.release (v.major + 1) 0 0)
    else lt (.release v.major (v.minor + 1) 0)
  (gte v).intersect hi

/-- `caret`. -/
def caret (v : Version) : VersionSet :=
  let hi := if v.major > 0 then lt (.release (v.major + 1) 0 0)
    else if v.minor > 0 then lt (.release 0 (v.minor + 1) 0)
    else if v.patch > 0 then lt (.release 0 0 (v.patch + 1))
    else lt (.release 0 1 0)
  (gte v).intersect hi

/-! ### Constraint strings -/

/-- `ConstraintError`, one constructor for each message: the text of the version or of
the clause that does not parse is what the message quotes. -/
inductive ConstraintError where
  /-- `unparseable version in constraint: {ver_str:?}`. -/
  | unparseableVersion (verStr : Str)
  /-- `unparseable constraint clause: {clause:?}`. -/
  | unparseableClause (clause : Str)
  deriving DecidableEq, Repr

/-- The operators of `parse_clause` in the order it tries them, each with the set it makes. -/
def clauseOps : List (Str × (Version → VersionSet)) :=
  [(">=", gte), ("<=", lte), ("==", eq), ("!=", fun v => (eq v).complement), (">", gt), ("<", lt),
    ("~", tilde), ("^", caret), ("=", eq)]

/-- `parse_clause`. -/
def parseClause (clause : Str) : Except ConstraintError VersionSet :=
  let clause := clause.trim
  match clauseOps.findSome? fun op => (clause.stripPrefix op.1).map fun rest => (op.2, rest) with
  | some (make, rest) =>
    let verStr := rest.trim
    match parseVersion verStr with
    | some v => .ok (make v)
    | none => .error (.unparseableVersion verStr)
  | none => .error (.unparseableClause clause)

/-- `split_or`: the arms between the separators `|` and `||`. -/
def splitOr : Str → List Str
  | [] => [[]]
  | '|' :: '|' :: s => [] :: splitOr s
  | '|' :: s => [] :: splitOr s
  | c :: s => (splitOr s).modifyHead (c :: ·)

/-- One arm of `from_constraint`: the intersection of its clauses. -/
def parseArm (arm : Str) : Except ConstraintError VersionSet :=
  (arm.split '&').foldlM (fun armResult clause => return armResult.intersect (← parseClause clause.trim)) full

/-- `from_constraint`. -/
def fromConstraint (constraint : Option Str) : Except ConstraintError VersionSet :=
  match constraint with
  | none => .ok full
  | some raw =>
    let trimmed := raw.trim
    if trimmed.isEmpty || trimmed == ("any version" : Str) then .ok full
    else (splitOr trimmed).foldlM (fun result arm => return result.union (← parseArm arm)) empty

/-- The clauses that `vs_to_constraint_str` writes for one interval. -/
def intervalClauses (iv : Interval) : List Str :=
  (match iv.lo with
    | some lo => [(if iv.loClosed then (">=" : Str) else ">") ++ lo.display]
    | none => []) ++
  (match iv.hi with
    | some hi => [(if iv.hiClosed then ("<=" : Str) else "<") ++ hi.display]
    | none => [])

/-- `vs_to_constraint_str`. -/
def toConstraintStr (s : VersionSet) : Str :=
  if s.isEmpty then ">0.0.0 & <0.0.0"
  else if s.intervals.any fun iv => iv.lo.isNone && iv.hi.isNone then "any version"
  else List.intercalate " | " (s.intervals.map fun iv => List.intercalate " & " (intervalClauses iv))

end VersionSet

end Milpa.Solver

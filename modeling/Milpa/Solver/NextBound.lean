import Milpa.Solver.VersionSetLaws
import Milpa.Solver.VersionText
import Milpa.Types.VersionNext

/-!
# The next bound

The clauses `~V` and `^V` stand for the versions from `V` up to a release in which one
component of `V` is one larger. A component is a `u64`: where it is the largest one, a build
with overflow checks panics, and a release build goes on from `0`. Everywhere else the clause
is exact (`evaluates_iff`).
-/

namespace Milpa.Solver

/-! ### Builds with overflow checks -/

/-- `n + 1` in a build with overflow checks; `none` is the panic. -/
def checkedAddOne (n : UInt64) : Option UInt64 := if n = Version.maxComponent then none else some (n + 1)

namespace VersionSet

/-- The release up to which `tilde` goes, with the addition of the build as a parameter. -/
def tildeHi (addOne : UInt64 → Option UInt64) (v : Version) : Option Version :=
  if v.minor = 0 ∧ v.patch = 0 then (addOne v.major).map fun major => .release major 0 0
  else (addOne v.minor).map fun minor => .release v.major minor 0

/-- The release up to which `caret` goes, with the addition of the build as a parameter. -/
def caretHi (addOne : UInt64 → Option UInt64) (v : Version) : Option Version :=
  if v.major > 0 then (addOne v.major).map fun major => .release major 0 0
  else if v.minor > 0 then (addOne v.minor).map fun minor => .release 0 minor 0
  else if v.patch > 0 then (addOne v.patch).map fun patch => .release 0 0 patch
  else some (.release 0 1 0)

/-- `lo.intersect(&hi)`, at the end of `tilde` and `caret`. -/
def upTo (v hi : Version) : VersionSet := (gte v).intersect (lt hi)

/-- `tilde` in a build with overflow checks. -/
def tildeChecked (v : Version) : Option VersionSet := (tildeHi checkedAddOne v).map (upTo v)

/-- `caret` in a build with overflow checks. -/
def caretChecked (v : Version) : Option VersionSet := (caretHi checkedAddOne v).map (upTo v)

/-- The operators of `parse_clause` in a build with overflow checks. -/
def clauseOpsChecked : List (Str × (Version → Option VersionSet)) :=
  [(">=", fun v => some (gte v)), ("<=", fun v => some (lte v)), ("==", fun v => some (eq v)),
    ("!=", fun v => some (eq v).complement), (">", fun v => some (gt v)), ("<", fun v => some (lt v)), ("~", tildeChecked),
    ("^", caretChecked), ("=", fun v => some (eq v))]

/-- `parse_clause` in a build with overflow checks. -/
def parseClauseChecked (clause : Str) : Except ConstraintError (Option VersionSet) :=
  let clause := clause.trim
  match clauseOpsChecked.findSome? fun op => (clause.stripPrefix op.1).map fun rest => (op.2, rest) with
  | some (make, rest) =>
    let verStr := rest.trim
    match parseVersion verStr with
    | some v => .ok (make v)
    | none => .error (.unparseableVersion verStr)
  | none => .error (.unparseableClause clause)

theorem tilde_eq (v : Version) : some (tilde v) = (tildeHi (fun n => some (n + 1)) v).map (upTo v) := by
  unfold tilde tildeHi
  split_ifs <;> rfl

theorem caret_eq (v : Version) : some (caret v) = (caretHi (fun n => some (n + 1)) v).map (upTo v) := by
  unfold caret caretHi
  split_ifs <;> rfl

/-! ### What the clauses stand for -/

/-- The place of a release in the order, its components numbers of any size. -/
def releaseKey (major minor patch : ℕ) : VersionKey := toLex (major, toLex (minor, toLex (patch, toLex (true, []))))

/-- The bound of `~V`: the next minor release, and of `~M.0.0` the next major one. -/
def tildeBound (v : Version) : VersionKey :=
  if v.minor = 0 ∧ v.patch = 0 then releaseKey (v.major.toNat + 1) 0 0
  else releaseKey v.major.toNat (v.minor.toNat + 1) 0

/-- The bound of `^V`: the leftmost component that is not zero is one larger; of `^0.0.0` it is `0.1.0`. -/
def caretBound (v : Version) : VersionKey :=
  if v.major ≠ 0 then releaseKey (v.major.toNat + 1) 0 0
  else if v.minor ≠ 0 then releaseKey 0 (v.minor.toNat + 1) 0
  else if v.patch ≠ 0 then releaseKey 0 0 (v.patch.toNat + 1)
  else releaseKey 0 1 0

/-- The component that `~V` raises. -/
def tildeRaised (v : Version) : UInt64 := if v.minor = 0 ∧ v.patch = 0 then v.major else v.minor

/-- The component that `^V` raises; `0` where the bound is `0.1.0`. -/
def caretRaised (v : Version) : UInt64 := if v.major ≠ 0 then v.major else if v.minor ≠ 0 then v.minor else v.patch

/-- The clause is evaluated without an overflow in either build, to the versions from `v` up to the bound, `v` included. -/
def EvaluatesTo (clause : Str) (v : Version) (bound : VersionKey) : Prop :=
  ∃ s, parseClauseChecked clause = .ok (some s) ∧ parseClause clause = .ok s ∧
    (∀ w, s.contains w = true ↔ v ≤ w ∧ w.precedenceKey < bound) ∧ s.contains v = true

theorem precedenceKey_release (major minor patch : UInt64) :
    (Version.release major minor patch).precedenceKey = releaseKey major.toNat minor.toNat patch.toNat := rfl

theorem contains_upTo (v hi w : Version) : (upTo v hi).contains w = true ↔ v ≤ w ∧ w.precedenceKey < hi.precedenceKey := by
  rw [upTo, contains_intersect]
  refine and_congr ?_ ?_
  · simp [contains, gte, intervalContains]
  · simp [contains, lt, intervalContains, Version.lt_def]

/-- Where the component fits, both builds raise it, and to the bound. -/
theorem tildeHi_eq {v : Version} (h : tildeRaised v ≠ Version.maxComponent) :
    ∃ hi, tildeHi checkedAddOne v = some hi ∧ tildeHi (fun n => some (n + 1)) v = some hi ∧ hi.precedenceKey = tildeBound v := by
  unfold tildeHi tildeBound
  unfold tildeRaised at h
  split_ifs at h ⊢
  · refine ⟨.release (v.major + 1) 0 0, by simp [checkedAddOne, h], by simp, ?_⟩
    rw [precedenceKey_release, Version.toNat_add_one h]
    rfl
  · refine ⟨.release v.major (v.minor + 1) 0, by simp [checkedAddOne, h], by simp, ?_⟩
    rw [precedenceKey_release, Version.toNat_add_one h]
    rfl

theorem tildeHi_eq_none {v : Version} (h : tildeRaised v = Version.maxComponent) : tildeHi checkedAddOne v = none := by
  unfold tildeRaised at h
  unfold tildeHi
  split_ifs at h ⊢
  · simp [checkedAddOne, h]
  · simp [checkedAddOne, h]

theorem caretHi_eq {v : Version} (h : caretRaised v ≠ Version.maxComponent) :
    ∃ hi, caretHi checkedAddOne v = some hi ∧ caretHi (fun n => some (n + 1)) v = some hi ∧ hi.precedenceKey = caretBound v := by
  unfold caretHi caretBound
  unfold caretRaised at h
  simp only [gt_iff_lt, UInt64.pos_iff_ne_zero]
  split_ifs at h ⊢
  · refine ⟨.release (v.major + 1) 0 0, by simp [checkedAddOne, h], by simp, ?_⟩
    rw [precedenceKey_release, Version.toNat_add_one h]
    rfl
  · refine ⟨.release 0 (v.minor + 1) 0, by simp [checkedAddOne, h], by simp, ?_⟩
    rw [precedenceKey_release, Version.toNat_add_one h]
    rfl
  · refine ⟨.release 0 0 (v.patch + 1), by simp [checkedAddOne, h], by simp, ?_⟩
    rw [precedenceKey_release, Version.toNat_add_one h]
    rfl
  · exact ⟨.release 0 1 0, rfl, rfl, rfl⟩

theorem caretHi_eq_none {v : Version} (h : caretRaised v = Version.maxComponent) : caretHi checkedAddOne v = none := by
  have hzero : (0 : UInt64) ≠ Version.maxComponent := by decide
  unfold caretRaised at h
  unfold caretHi
  simp only [gt_iff_lt, UInt64.pos_iff_ne_zero]
  split_ifs at h ⊢ with hmajor hminor hpatch
  · simp [checkedAddOne, h]
  · simp [checkedAddOne, h]
  · simp [checkedAddOne, h]
  · exact absurd ((not_not.mp hpatch).symm.trans h) hzero

/-- The bound of a clause is above its version. -/
theorem lt_tildeBound (v : Version) : v.precedenceKey < tildeBound v := by
  unfold tildeBound
  split_ifs <;> simp [Version.precedenceKey, releaseKey, Prod.Lex.toLex_lt_toLex]

theorem lt_caretBound (v : Version) : v.precedenceKey < caretBound v := by
  unfold caretBound
  split_ifs with hmajor hminor hpatch <;> simp_all [Version.precedenceKey, releaseKey, Prod.Lex.toLex_lt_toLex]

/-! ### The text of a clause -/

theorem parseVersion_trim (s : Str) : parseVersion s.trim = parseVersion s := by
  rw [parseVersion_eq, parseVersion_eq, Str.trim_trim]

/-- What is after the operator is read as the version, white space around it left out. -/
theorem parseVersion_rest (op : Char) (hop : Str.isWhitespace op = false) {text : Str} {v : Version} (h : parseVersion text = some v) :
    ∃ rest : Str, Str.trim (op :: text) = op :: rest ∧ parseVersion rest.trim = some v := by
  refine ⟨text.rdropWhile Str.isWhitespace, ?_, ?_⟩
  · rw [Str.trim_eq_rdropWhile (by simpa using hop), Str.rdropWhile_cons, if_neg (by simp [hop])]
  · rw [Str.trim_rdropWhile, parseVersion_trim, h]

theorem parseClause_tilde {text : Str} {v : Version} (h : parseVersion text = some v) :
    parseClause ('~' :: text) = .ok (tilde v) ∧ parseClauseChecked ('~' :: text) = .ok (tildeChecked v) := by
  obtain ⟨rest, htrim, hrest⟩ := parseVersion_rest '~' (by decide) h
  constructor
  · simp [parseClause, htrim, clauseOps, Str.stripPrefix, List.isPrefixOf?, hrest]
  · simp [parseClauseChecked, htrim, clauseOpsChecked, Str.stripPrefix, List.isPrefixOf?, hrest]

theorem parseClause_caret {text : Str} {v : Version} (h : parseVersion text = some v) :
    parseClause ('^' :: text) = .ok (caret v) ∧ parseClauseChecked ('^' :: text) = .ok (caretChecked v) := by
  obtain ⟨rest, htrim, hrest⟩ := parseVersion_rest '^' (by decide) h
  constructor
  · simp [parseClause, htrim, clauseOps, Str.stripPrefix, List.isPrefixOf?, hrest]
  · simp [parseClauseChecked, htrim, clauseOpsChecked, Str.stripPrefix, List.isPrefixOf?, hrest]

/-- **The clauses are exact as long as the component that they raise is not the largest `u64`**, and not otherwise. -/
theorem evaluates_iff {text : Str} {v : Version} (h : parseVersion text = some v) :
    (EvaluatesTo ('~' :: text) v (tildeBound v) ↔ tildeRaised v ≠ Version.maxComponent) ∧
      (EvaluatesTo ('^' :: text) v (caretBound v) ↔ caretRaised v ≠ Version.maxComponent) := by
  obtain ⟨htilde, htildeChecked⟩ := parseClause_tilde h
  obtain ⟨hcaret, hcaretChecked⟩ := parseClause_caret h
  have hexact : ∀ {hi : Version} {bound : VersionKey}, hi.precedenceKey = bound → v.precedenceKey < bound →
      (∀ w, (upTo v hi).contains w = true ↔ v ≤ w ∧ w.precedenceKey < bound) ∧ (upTo v hi).contains v = true := by
    rintro hi bound rfl hlt
    exact ⟨contains_upTo v hi, (contains_upTo v hi v).mpr ⟨le_rfl, hlt⟩⟩
  refine ⟨⟨?_, fun hne => ?_⟩, ⟨?_, fun hne => ?_⟩⟩
  · rintro ⟨s, hs, -⟩ hmax
    rw [htildeChecked, tildeChecked, tildeHi_eq_none hmax] at hs
    cases hs
  · obtain ⟨hi, hchecked, hwrapping, hbound⟩ := tildeHi_eq hne
    refine ⟨upTo v hi, ?_, ?_, hexact hbound (lt_tildeBound v)⟩
    · rw [htildeChecked, tildeChecked, hchecked, Option.map_some]
    · rw [htilde, Option.some.inj ((tilde_eq v).trans (by rw [hwrapping, Option.map_some]))]
  · rintro ⟨s, hs, -⟩ hmax
    rw [hcaretChecked, caretChecked, caretHi_eq_none hmax] at hs
    cases hs
  · obtain ⟨hi, hchecked, hwrapping, hbound⟩ := caretHi_eq hne
    refine ⟨upTo v hi, ?_, ?_, hexact hbound (lt_caretBound v)⟩
    · rw [hcaretChecked, caretChecked, hchecked, Option.map_some]
    · rw [hcaret, Option.some.inj ((caret_eq v).trans (by rw [hwrapping, Option.map_some]))]

theorem evaluates_pre :
    (EvaluatesTo "~1.4.0-rc" ⟨1, 4, 0, [.alpha "rc"], []⟩ (tildeBound ⟨1, 4, 0, [.alpha "rc"], []⟩) ↔
        tildeRaised ⟨1, 4, 0, [.alpha "rc"], []⟩ ≠ Version.maxComponent) ∧
      (EvaluatesTo "^1.4.0-rc" ⟨1, 4, 0, [.alpha "rc"], []⟩ (caretBound ⟨1, 4, 0, [.alpha "rc"], []⟩) ↔
        caretRaised ⟨1, 4, 0, [.alpha "rc"], []⟩ ≠ Version.maxComponent) :=
  have hread : parseVersion "1.4.0-rc" = some ⟨1, 4, 0, [.alpha "rc"], []⟩ := by decide
  evaluates_iff hread

/-- The largest major version is read, and its caret clause panics in one build and stands for no version in the other. -/
theorem caret_of_max_component :
    parseVersion "18446744073709551615.0.0" = some (.release Version.maxComponent 0 0) ∧
      parseClauseChecked "^18446744073709551615.0.0" = .ok none ∧
      parseClause "^18446744073709551615.0.0" = .ok empty ∧
      ¬ EvaluatesTo "^18446744073709551615.0.0" (.release Version.maxComponent 0 0)
        (caretBound (.release Version.maxComponent 0 0)) := by
  have hchecked : parseClauseChecked "^18446744073709551615.0.0" = .ok none := by decide
  refine ⟨by decide, hchecked, by decide, ?_⟩
  rintro ⟨s, hs, -⟩
  rw [hchecked] at hs
  cases hs

end VersionSet

end Milpa.Solver

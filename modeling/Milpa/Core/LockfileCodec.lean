import Milpa.Core.LockfileValid
import Milpa.Kdl.Depth
import Milpa.Kdl.Reader

/-!
# Writing and reading a lockfile

What `parse_lockfile` makes of the text that `format_lockfile` writes for a lockfile that
was read: the lockfile in its order, the sources normalized once more, if the strings are
legible, the text is not too deep and the year of the time bound has four digits, and an
error otherwise (`parseLockfile_formatLockfile`).
-/

namespace Milpa.Core

open Milpa.Kdl Milpa.Nesting

/-! ### Sources -/

/-- A source that is its own normal form: the URL of a Git source is tidy. -/
def TidySource : SourceId → Prop
  | .fetchable (.git url _ _) => Tidy url
  | _ => True

instance : DecidablePred TidySource
  | .fetchable (.git url _ _) => inferInstanceAs (Decidable (Tidy url))
  | .fetchable (.oci ..) => .isTrue trivial
  | .fetchable (.tarball ..) => .isTrue trivial
  | .fetchable (.local _) => .isTrue trivial
  | .fetchable (.registry ..) => .isTrue trivial
  | .member _ => .isTrue trivial

theorem normalForm_eq_self_iff {raw sid : SourceId} (h : normalizeSource raw = .ok sid) :
    normalForm sid = sid ↔ TidySource sid := by
  obtain ⟨-, rfl⟩ := normalizeSource_eq_ok.mp h
  match raw with
  | .fetchable (.git url gitRef subpath) =>
    rw [normalForm_git, normalForm_git, TidySource, ← normalizeGitUrl_eq_self_iff]
    simp
  | .fetchable (.oci registry repository digest subpath) => exact iff_of_true rfl trivial
  | .fetchable (.tarball url subpath) => exact iff_of_true rfl trivial
  | .fetchable (.local path) => exact iff_of_true rfl trivial
  | .fetchable (.registry registry ns name) => exact iff_of_true rfl trivial
  | .member memberName => exact iff_of_true rfl trivial

/-! ### The order of what is written -/

/-- A lockfile in the order in which it is written: the sorts of `format_lockfile`. -/
def sortedLock (l : Lockfile) : Lockfile := { l with deps := l.deps.map sortedDep }

@[simp] theorem sortedDep_sortedDep (d : LockedDep) : sortedDep (sortedDep d) = sortedDep d := by
  simp [sortedDep]

theorem depNode_sortedDep (d : LockedDep) : depNode (sortedDep d) = depNode d := by
  rw [depNode, depNode, sortedDep_sortedDep]
  rfl

theorem ValidLock.sortedLock {l : Lockfile} (h : ValidLock l) : ValidLock (sortedLock l) where
  version := h.version
  nanos := h.nanos
  deps := List.forall_mem_map.mpr fun d hd => (h.deps d hd).sortedDep

/-- The order of the lists that are sorted has no say in the text. -/
theorem formatLockfile_sortedLock {l : Lockfile} (h : ValidLock l) : formatLockfile (sortedLock l) = formatLockfile l := by
  have hnodes : (sortedLock l).deps.map (fun d => ((depNode d).mapStr escape).lines 0 ++ [[]]) =
      l.deps.map fun d => ((depNode d).mapStr escape).lines 0 ++ [[]] := by
    simp [sortedLock, depNode_sortedDep]
  rw [formatLockfile, formatLockfile, formatLines_eq h.writable, formatLines_eq h.sortedLock.writable, hnodes]
  rfl

theorem rereadLock_eq_sortedLock_iff {l : Lockfile} (h : ValidLock l) :
    rereadLock l = sortedLock l ↔ ∀ d ∈ l.deps, ∀ sid ∈ d.sourceId, TidySource sid := by
  have hdep : ∀ d ∈ l.deps, rereadDep (sortedDep d) = sortedDep d ↔ ∀ sid ∈ d.sourceId, TidySource sid := by
    intro d hd
    have hsource : rereadDep (sortedDep d) = sortedDep d ↔ d.sourceId.map normalForm = d.sourceId := by
      simp [rereadDep, sortedDep]
    rw [hsource]
    cases hs : d.sourceId with
    | none => simp
    | some sid =>
      obtain ⟨raw, hraw⟩ := (h.deps d hd).source sid hs
      simp [normalForm_eq_self_iff hraw]
  rw [rereadLock, sortedLock, Lockfile.mk.injEq]
  simp only [true_and, List.map_inj_left]
  exact forall₂_congr hdep

/-! ### The text -/

/-- The text of a lockfile: its document laid out, with the counts of its document. -/
theorem formatLockfile_eq {l : Lockfile} (h : ValidLock l) :
    ∃ lines, formatLockfile l = some (joinLines lines) ∧ LaidOut lines (mapStrs escape (lockDoc l)) ∧
      ∀ {f : Count → Str → Count} {op cl : Count → Count}, Scan f op cl → f ⟨0, 0⟩ header = ⟨0, 0⟩ →
        f ⟨0, 0⟩ (joinLines lines) = nodesCount f op cl ⟨0, 0⟩ (mapStrs escape (lockDoc l)) := by
  obtain ⟨lines, hlines, hlaid⟩ := formatLines_laidOut h.writable
  refine ⟨lines, by rw [formatLockfile, hlines]; rfl, hlaid, ?_⟩
  intro f op cl hscan hheader
  have hdeps : ∀ ds : List LockedDep, (∀ d ∈ ds, WritableDep d) → ∀ c,
      (ds.map fun d => ((depNode d).mapStr escape).lines 0 ++ [[]]).flatten.foldl f c =
        nodesCount f op cl c (mapStrs escape (ds.map depNode)) := by
    intro ds hds
    induction ds with
    | nil => exact fun _ => rfl
    | cons d ds ih =>
      intro c
      obtain ⟨hd, hds⟩ := List.forall_mem_cons.mp hds
      rw [List.map_cons, List.flatten_cons, List.foldl_append, List.foldl_append, hscan.foldl_lines (written_depNode hd),
        List.foldl_cons, hscan.nil, List.foldl_nil, ih hds, List.map_cons, mapStrs, nodesCount]
  have hhead : ∀ c, (writtenLines 0 (headNodes l)).foldl f c = nodesCount f op cl c (mapStrs escape (headNodes l)) := by
    intro c
    refine hscan.foldl_nodesLines ?_ 0 c
    rw [mapStrs_eq_map]
    exact List.forall_mem_map.mpr (written_headNodes l)
  obtain rfl := Option.some.inj ((formatLines_eq h.writable).symm.trans hlines)
  rw [hscan.joinLines, List.foldl_cons, hheader, List.foldl_append, hhead, List.foldl_cons, hscan.nil,
    hdeps l.deps h.writable, lockDoc, mapStrs_append, nodesCount_append]

/-- What `parse_lockfile` reads again: the strings can be written, the text passes the nesting guards, and the time
bound is accepted. -/
structure Readable (l : Lockfile) : Prop where
  legible : ∀ s ∈ nodesStrings (lockDoc l), Legible s
  shallow : ShallowDoc (mapStrs escape (lockDoc l))
  year : ∀ ts ∈ l.excludeNewer, 0 ≤ ts.year ∧ ts.year ≤ 9999

section

variable {kdlParse : Str → Except Str (List KdlNode)} (hk : Conforms kdlParse) {l : Lockfile} (h : ValidLock l)

include hk h

/-- **What is written is read as the lockfile, in its order and its sources normalized, just where it is readable.** -/
theorem parseLockfile_formatLockfile :
    ∃ text, formatLockfile l = some text ∧
      (Readable l → parseLockfile kdlParse text = .ok (rereadLock l)) ∧
      (¬ Readable l → ∃ e, parseLockfile kdlParse text = .error e) := by
  obtain ⟨lines, htext, hlaid, hcount⟩ := formatLockfile_eq h
  have hbraces : kdlBraceDepth (joinLines lines) =
      (nodesCount braces Count.opened Count.closed ⟨0, 0⟩ (mapStrs escape (lockDoc l))).max := by
    rw [kdlBraceDepth, hcount scan_braces (by decide)]
  have hcomments : kdlBlockCommentDepth (joinLines lines) =
      (nodesCount comments id id ⟨0, 0⟩ (mapStrs escape (lockDoc l))).max := by
    rw [kdlBlockCommentDepth, hcount scan_comments (by decide)]
  have hparse := hk.parse_laidOut hlaid
  refine ⟨joinLines lines, htext, fun hr => ?_, fun hr => ?_⟩
  · have hdecode : decodeNodes (mapStrs escape (lockDoc l)) = some (lockDoc l) :=
      decodeNodes_mapStrs _ fun s hs => by rw [decodeBody_escape, if_pos (hr.legible s hs)]
    obtain ⟨doc, hdoc⟩ : ∃ doc, kdlParse (joinLines lines) = .ok doc := by
      cases hp : kdlParse (joinLines lines) with
      | ok doc => exact ⟨doc, rfl⟩
      | error e =>
        rw [hp, hdecode] at hparse
        simp [Except.toOption] at hparse
    rw [hdoc, hdecode] at hparse
    obtain rfl : doc = lockDoc l := Option.some.inj hparse
    have hshallow := hr.shallow
    rw [ShallowDoc, ← hbraces, ← hcomments] at hshallow
    rw [parseLockfile, if_neg (not_lt.mpr hshallow.1), if_neg (not_lt.mpr hshallow.2), hdoc]
    exact lockfileOf_lockDoc h hr.year
  · unfold parseLockfile
    split_ifs with hdeep hdeep'
    · exact ⟨_, rfl⟩
    · exact ⟨_, rfl⟩
    have hshallow : ShallowDoc (mapStrs escape (lockDoc l)) := by
      rw [ShallowDoc, ← hbraces, ← hcomments]
      exact ⟨not_lt.mp hdeep, not_lt.mp hdeep'⟩
    cases hp : kdlParse (joinLines lines) with
    | error e => exact ⟨_, rfl⟩
    | ok doc =>
      rw [hp] at hparse
      have hlegible : ∀ s ∈ nodesStrings (lockDoc l), Legible s := by
        by_contra hne
        push Not at hne
        obtain ⟨s, hs, hillegible⟩ := hne
        have hnone : decodeBody (escape s) = none := by rw [decodeBody_escape, if_neg hillegible]
        rw [decodeNodes_mapStrs_eq_none _ hs hnone] at hparse
        simp [Except.toOption] at hparse
      have hdecode : decodeNodes (mapStrs escape (lockDoc l)) = some (lockDoc l) :=
        decodeNodes_mapStrs _ fun s hs => by rw [decodeBody_escape, if_pos (hlegible s hs)]
      rw [hdecode] at hparse
      obtain rfl : doc = lockDoc l := Option.some.inj hparse
      have hyear : ¬ ∀ ts ∈ l.excludeNewer, 0 ≤ ts.year ∧ ts.year ≤ 9999 := fun hy => hr ⟨hlegible, hshallow, hy⟩
      push Not at hyear
      obtain ⟨ts, hts, hyear⟩ := hyear
      exact ⟨_, lockfileOf_lockDoc_of_year h hts (by by_contra hne; push Not at hne; exact absurd (hyear hne.1) (by omega))⟩

end

/-! ### The round trip -/

/-- A lockfile is written, read again in the order in which it was written, and written again as the same text. -/
def RoundTrips (kdlParse : Str → Except Str (List KdlNode)) (l : Lockfile) : Prop :=
  ∃ text, formatLockfile l = some text ∧ parseLockfile kdlParse text = .ok (sortedLock l) ∧
    formatLockfile (sortedLock l) = some text

/-- A lockfile with one dependency, whose aliases are not in order. -/
def plainText : Str :=
  "version 1\nstrategy \"semver\"\ndep \"b\" \x7b\nsource \x7b\nkind \"git\"\nurl \"https://h/a\"\n\x7d\naliases \"y\" \"x\"\n\x7d"

/-- What is read from it. -/
def plainLock : Lockfile :=
  ⟨1, "semver", none,
    [{ emptyDep "b" with aliases := ["x", "y"], sourceId := some (.fetchable (.git "https://h/a" none none)) }]⟩

/-- `U+007F` may not stand in a string as it is, and `kdl_str` does not escape it. -/
def deleteText : Str := "version 1\nstrategy \"\\u\x7b7f\x7d\""

end Milpa.Core

import Mathlib.Data.List.Find
import Milpa.Core.SafeExtract
import Milpa.Core.TreeHash

/-!
# The sequence of an archive

What the first pass of `tar_materialize_entries` has at a path, where its entries are from,
and which file the name of a hardlink stands for.
-/

namespace Milpa.Core.SafeExtract

open DagIdentity
open Posix (Path slash here up)

variable {strip : ℕ} {es : List TarEntry}

/-! ### Names -/

theorem stripName_eq_some {raw : Bytes} {parts : Path} (h : stripName strip raw = some parts) :
    parts ≠ [] ∧ ∀ c ∈ parts, c ∈ raw.splitOn slash ∧ c ≠ [] ∧ c ≠ here := by
  rw [stripName] at h
  split_ifs at h with hlen
  cases h
  refine ⟨fun hnil => hlen (List.drop_eq_nil_iff.mp hnil), fun c hc => ?_⟩
  obtain ⟨hmem, hc⟩ := List.mem_filter.mp (List.mem_of_mem_drop hc)
  exact ⟨hmem, of_decide_eq_true hc⟩

theorem stripName_ne_nil {raw : Bytes} {parts : Path} (h : stripName strip raw = some parts) : parts ≠ [] := (stripName_eq_some h).1

theorem here_notMem {raw : Bytes} {parts : Path} (h : stripName strip raw = some parts) : here ∉ parts := fun hmem =>
  ((stripName_eq_some h).2 here hmem).2.2 rfl

/-- The components of a name are texts without a slash. -/
def GoodName (c : Bytes) : Prop := slash ∉ c ∧ isUtf8 c = true

theorem goodName_of_stripName {raw : Bytes} {parts : Path} (h : stripName strip raw = some parts) (hutf8 : isUtf8 raw = true) :
    ∀ c ∈ parts, GoodName c := fun c hc =>
  have hsplit := splitOn_slash raw c ((stripName_eq_some h).2 c hc).1
  ⟨hsplit.1, hsplit.2 hutf8⟩

theorem splitOn_joinParts {raw : Bytes} {parts : Path} (h : stripName strip raw = some parts) : (joinParts parts).splitOn slash = parts :=
  List.splitOn_intercalate slash (fun c hc => (splitOn_slash raw c ((stripName_eq_some h).2 c hc).1).1) (stripName_ne_nil h)

/-- A path is that of a name when its components are. -/
theorem relpath_eq_iff {e : MaterializedEntry} {raw : Bytes} {parts : Path} (h : stripName strip raw = some parts) :
    e.relpath = joinParts parts ↔ e.parts = parts := by
  constructor
  · intro heq
    rw [MaterializedEntry.parts, heq]
    exact splitOn_joinParts h
  · intro heq
    rw [joinParts, ← heq]
    exact (List.intercalate_splitOn slash).symm

/-- The name of an entry of a kind. -/
def nameAt (strip : ℕ) (kind : EntryKind) (e : TarEntry) : Option Path := if e.kind = kind then stripName strip e.name else none

theorem mem_nameAt {kind : EntryKind} {e : TarEntry} {p : Path} : p ∈ nameAt strip kind e ↔ e.kind = kind ∧ stripName strip e.name = some p := by
  rw [nameAt, Option.mem_def]
  split_ifs with h
  · exact ⟨fun hp => ⟨h, hp⟩, fun hp => hp.2⟩
  · exact ⟨fun hp => hp.elim, fun hp => absurd hp.1 h⟩

/-! ### What the sequence has at a path -/

/-- The last entry at a path: whether it is a symlink, and its content. -/
def lastAt (entries : List MaterializedEntry) (path : Path) : Option (Bool × Bytes) :=
  (entries.reverse.find? fun e => e.parts = path).map fun e => (decide (e.modeByte = modeSymlink), e.content)

theorem lastAt_concat (entries : List MaterializedEntry) (e : MaterializedEntry) (path : Path) : lastAt (entries ++ [e]) path =
    if e.parts = path then some (decide (e.modeByte = modeSymlink), e.content) else lastAt entries path := by
  rw [lastAt, List.reverse_append, List.reverse_singleton, List.singleton_append, List.find?_cons]
  by_cases h : e.parts = path
  · rw [decide_eq_true h, if_pos h]
    rfl
  · rw [decide_eq_false h, if_neg h]
    rfl

/-- What is last at a path is there. -/
theorem exists_of_lastAt {entries : List MaterializedEntry} {path : Path} {v : Bool × Bytes} (h : lastAt entries path = some v) :
    ∃ e ∈ entries, e.parts = path ∧ v = (decide (e.modeByte = modeSymlink), e.content) := by
  obtain ⟨e, hfind, hv⟩ := Option.map_eq_some_iff.mp h
  exact ⟨e, List.mem_reverse.mp (List.mem_of_find?_eq_some hfind), by simpa using List.find?_some hfind, hv.symm⟩

/-- A sequence has at a path what is last there, if it has no executable outside of `.git`. -/
theorem contentAt_eq_lastAt {entries : List MaterializedEntry}
    (hmodes : ∀ e ∈ entries, gitComponent ∉ e.parts → e.modeByte = modeRegular ∨ e.modeByte = modeSymlink) {relpath : Bytes}
    (hgit : gitComponent ∉ relpath.splitOn slash) : contentAt entries relpath =
      (lastAt entries (relpath.splitOn slash)).map fun v => (if v.1 then modeSymlink else modeRegular, v.2) := by
  have hfind : (kept entries).reverse.find? (fun e => e.relpath = relpath) = entries.reverse.find? fun e => e.parts = relpath.splitOn slash := by
    rw [kept, ← List.filter_reverse, List.find?_filter]
    refine congrArg (fun p => List.find? p entries.reverse) (funext fun e => Bool.eq_iff_iff.mpr ?_)
    simp only [decide_eq_true_eq]
    constructor
    · rintro ⟨-, rfl⟩
      rfl
    · intro heq
      have hparts : e.parts = MaterializedEntry.parts ⟨relpath, 0, []⟩ := heq
      have hrelpath : e.relpath = relpath := relpath_of_parts hparts
      exact ⟨by rw [heq]; exact hgit, hrelpath⟩
  rw [contentAt, lastAt, hfind]
  cases hlast : entries.reverse.find? fun e => e.parts = relpath.splitOn slash with
  | none => rfl
  | some e =>
    have hmem : e ∈ entries := List.mem_reverse.mp (List.mem_of_find?_eq_some hlast)
    have hparts : e.parts = relpath.splitOn slash := by simpa using List.find?_some hlast
    rcases hmodes e hmem (by rw [hparts]; exact hgit) with hmode | hmode
    · simp [hmode, modeRegular, modeSymlink]
    · simp [hmode]

/-! ### The first pass -/

/-- What the first pass has. -/
def seamOf (strip : ℕ) (es : List TarEntry) : Seam := es.foldl (materializeEntry strip) ⟨[], [], []⟩

theorem seamOf_concat (e : TarEntry) : seamOf strip (es ++ [e]) = materializeEntry strip (seamOf strip es) e := List.foldl_append

/-- An entry of the sequence is from a symlink or a file of the archive. -/
theorem origin {e : MaterializedEntry} (he : e ∈ (seamOf strip es).entries) : ∃ t ∈ es, stripName strip t.name = some e.parts ∧
    (t.kind = .symlink ∧ e.modeByte = modeSymlink ∨ t.kind = .file ∧ e.modeByte = modeByte t.mode) := by
  induction es using List.reverseRecOn with
  | nil => exact absurd he List.not_mem_nil
  | append_singleton es t ih =>
    have hbefore : e ∈ (seamOf strip es).entries → ∃ t' ∈ es ++ [t], stripName strip t'.name = some e.parts ∧
        (t'.kind = .symlink ∧ e.modeByte = modeSymlink ∨ t'.kind = .file ∧ e.modeByte = modeByte t'.mode) := fun h => by
      obtain ⟨t', ht', hrest⟩ := ih h
      exact ⟨t', List.mem_append_left _ ht', hrest⟩
    rw [seamOf_concat, materializeEntry] at he
    cases hname : stripName strip t.name with
    | none =>
      rw [hname] at he
      exact hbefore he
    | some parts =>
      rw [hname] at he
      have hparts : ∀ mode content, (⟨joinParts parts, mode, content⟩ : MaterializedEntry).parts = parts := fun mode content =>
        splitOn_joinParts hname
      cases hkind : t.kind with
      | dir =>
        rw [hkind] at he
        exact hbefore he
      | other =>
        rw [hkind] at he
        exact hbefore he
      | symlink =>
        rw [hkind] at he
        rcases List.mem_append.mp he with hmem | hmem
        · exact hbefore hmem
        · rw [List.mem_singleton.mp hmem]
          exact ⟨t, by simp, by rw [hparts, hname], .inl ⟨hkind, rfl⟩⟩
      | file =>
        rw [hkind] at he
        rcases List.mem_append.mp he with hmem | hmem
        · exact hbefore hmem
        · rw [List.mem_singleton.mp hmem]
          exact ⟨t, by simp, by rw [hparts, hname], .inr ⟨hkind, rfl⟩⟩
      | hardLink =>
        rw [hkind] at he
        dsimp only at he
        cases hlink : stripName strip t.linkname with
        | none =>
          rw [hlink] at he
          exact hbefore he
        | some link =>
          rw [hlink] at he
          exact hbefore he

/-- The indices of files lead into the sequence, and to the last file of a name. -/
structure Indexed (s : Seam) : Prop where
  bound : ∀ x ∈ s.fileIndex, x.2 < s.entries.length
  last : ∀ name, ((s.indexOf name).bind fun i => s.entries[i]?) =
    s.entries.reverse.find? fun e => e.relpath = name ∧ e.modeByte ≠ modeSymlink

theorem indexOf_mem {s : Seam} {name : Bytes} {i : ℕ} (h : s.indexOf name = some i) : ∃ x ∈ s.fileIndex, x.2 = i := by
  obtain ⟨x, hfind, hx⟩ := Option.map_eq_some_iff.mp h
  exact ⟨x, List.mem_reverse.mp (List.mem_of_find?_eq_some hfind), hx⟩

/-- Later entries do not change what an index leads to. -/
theorem Indexed.getElem?_append {s : Seam} (h : Indexed s) (name : Bytes) (extra : List MaterializedEntry) :
    ((s.indexOf name).bind fun i => (s.entries ++ extra)[i]?) = (s.indexOf name).bind fun i => s.entries[i]? := by
  cases hindex : s.indexOf name with
  | none => rfl
  | some i =>
    obtain ⟨x, hx, rfl⟩ := indexOf_mem hindex
    exact List.getElem?_append_left (h.bound x hx)

theorem Indexed.symlink {s : Seam} (h : Indexed s) (relpath content : Bytes) :
    Indexed { s with entries := s.entries ++ [⟨relpath, modeSymlink, content⟩] } where
  bound x hx := Nat.lt_of_lt_of_le (h.bound x hx) (by simp)
  last name := by
    rw [List.reverse_append, List.reverse_singleton, List.singleton_append, List.find?_cons_of_neg (by simp), ← h.last]
    exact h.getElem?_append name _

theorem Indexed.file {s : Seam} (h : Indexed s) (relpath content : Bytes) {mode : UInt8} (hmode : mode ≠ modeSymlink) :
    Indexed { s with
      fileIndex := s.fileIndex ++ [(relpath, s.entries.length)]
      entries := s.entries ++ [⟨relpath, mode, content⟩] } where
  bound x hx := by
    rw [List.length_append, List.length_singleton]
    rcases List.mem_append.mp hx with hmem | hmem
    · exact Nat.lt_succ_of_lt (h.bound x hmem)
    · rw [List.mem_singleton.mp hmem]
      exact Nat.lt_succ_self _
  last name := by
    rw [Seam.indexOf, List.reverse_append, List.reverse_singleton, List.singleton_append, List.find?_cons, List.reverse_append,
      List.reverse_singleton, List.singleton_append, List.find?_cons]
    by_cases heq : relpath = name
    · simp [heq, hmode]
    · rw [decide_eq_false heq, decide_eq_false fun hboth => heq hboth.1, ← h.last]
      exact h.getElem?_append name _

theorem modeByte_ne_symlink (mode : ℕ) : modeByte mode ≠ modeSymlink := by
  rw [modeByte]
  split_ifs <;> decide

theorem seamOf_indexed : Indexed (seamOf strip es) := by
  induction es using List.reverseRecOn with
  | nil => exact ⟨fun x hx => absurd hx List.not_mem_nil, fun name => rfl⟩
  | append_singleton es t ih =>
    rw [seamOf_concat, materializeEntry]
    cases stripName strip t.name with
    | none => exact ih
    | some parts =>
      cases t.kind with
      | dir => exact ih
      | other => exact ih
      | symlink => exact ih.symlink _ _
      | file => exact ih.file _ _ (modeByte_ne_symlink _)
      | hardLink =>
        dsimp only
        cases stripName strip t.linkname with
        | none => exact ih
        | some link => exact ⟨ih.bound, ih.last⟩

/-- A file of the archive is in the sequence. -/
theorem exists_of_file {t : TarEntry} {parts : Path} (ht : t ∈ es) (hname : parts ∈ nameAt strip .file t) :
    ∃ e ∈ (seamOf strip es).entries, e.parts = parts ∧ e.modeByte ≠ modeSymlink := by
  obtain ⟨hkind, hname⟩ := mem_nameAt.mp hname
  induction es using List.reverseRecOn with
  | nil => exact absurd ht List.not_mem_nil
  | append_singleton es t' ih =>
    have hsub : (seamOf strip es).entries ⊆ (materializeEntry strip (seamOf strip es) t').entries := by
      rw [materializeEntry]
      cases stripName strip t'.name with
      | none => exact List.Subset.refl _
      | some parts =>
        cases t'.kind with
        | dir => exact List.Subset.refl _
        | other => exact List.Subset.refl _
        | symlink => exact List.subset_append_left _ _
        | file => exact List.subset_append_left _ _
        | hardLink =>
          dsimp only
          cases stripName strip t'.linkname <;> exact List.Subset.refl _
    rw [seamOf_concat]
    rcases List.mem_append.mp ht with hmem | hmem
    · obtain ⟨e, he, hrest⟩ := ih hmem
      exact ⟨e, hsub he, hrest⟩
    · rw [List.mem_singleton.mp hmem] at hkind hname
      rw [materializeEntry, hname, hkind]
      exact ⟨_, List.mem_append_right _ (List.mem_singleton_self _), splitOn_joinParts hname, modeByte_ne_symlink _⟩

/-- The name of a hardlink stands for what is last at it, if it is that of a file and of no symlink. -/
theorem indexOf_link {raw : Bytes} {link : Path} (hlink : stripName strip raw = some link)
    (hfile : ∃ t ∈ es, link ∈ nameAt strip .file t) (hsymlink : ∀ t ∈ es, link ∉ nameAt strip .symlink t) :
    ∃ e, ((seamOf strip es).indexOf (joinParts link)).bind (fun i => (seamOf strip es).entries[i]?) = some e ∧
      lastAt (seamOf strip es).entries link = some (false, e.content) := by
  have hno : ∀ e ∈ (seamOf strip es).entries, e.parts = link → e.modeByte ≠ modeSymlink := fun e he hparts => by
    obtain ⟨t, ht, hname, ⟨hkind, -⟩ | ⟨-, hmode⟩⟩ := origin he
    · exact absurd (mem_nameAt.mpr ⟨hkind, by rw [hname, hparts]⟩) (hsymlink t ht)
    · rw [hmode]
      exact modeByte_ne_symlink _
  have hfind : ((seamOf strip es).entries.reverse.find? fun e => e.relpath = joinParts link ∧ e.modeByte ≠ modeSymlink) =
      (seamOf strip es).entries.reverse.find? fun e => e.parts = link := by
    refine List.find?_congr fun e he => decide_eq_decide.mpr ?_
    rw [relpath_eq_iff hlink]
    exact and_iff_left_of_imp (hno e (List.mem_reverse.mp he))
  rw [seamOf_indexed.last, hfind, lastAt]
  obtain ⟨t, ht, hname⟩ := hfile
  obtain ⟨e, he, hparts, -⟩ := exists_of_file ht hname
  cases hlast : (seamOf strip es).entries.reverse.find? fun e => e.parts = link with
  | none => exact absurd (decide_eq_true hparts) (List.find?_eq_none.mp hlast e (List.mem_reverse.mpr he))
  | some e' =>
    refine ⟨e', rfl, ?_⟩
    have hmem := hno e' (List.mem_reverse.mp (List.mem_of_find?_eq_some hlast)) (by simpa using List.find?_some hlast)
    rw [Option.map_some, decide_eq_false hmem]

/-! ### Hardlinks -/

/-- The hardlinks of an archive that keep a name. -/
def hardLinks (strip : ℕ) (es : List TarEntry) : List TarEntry := es.filter fun e => (nameAt strip .hardLink e).isSome

/-- The path of an entry, and of the target of a hardlink. -/
def nameParts (strip : ℕ) (raw : Bytes) : Path := (stripName strip raw).getD []

/-- What the first pass keeps of a hardlink. -/
def seamLink (strip : ℕ) (e : TarEntry) : Bytes × Bytes × UInt8 :=
  (joinParts (nameParts strip e.name), joinParts (nameParts strip e.linkname), modeByte e.mode)

theorem nameParts_eq {raw : Bytes} {parts : Path} (h : stripName strip raw = some parts) : nameParts strip raw = parts := by
  rw [nameParts, h, Option.getD_some]

theorem hardLinks_concat (e : TarEntry) : hardLinks strip (es ++ [e]) = hardLinks strip es ++ hardLinks strip [e] := List.filter_append _ _

theorem mem_hardLinks {e : TarEntry} : e ∈ hardLinks strip es ↔ e ∈ es ∧ ∃ parts, parts ∈ nameAt strip .hardLink e := by
  rw [hardLinks, List.mem_filter, Option.isSome_iff_exists]
  exact Iff.rfl

theorem seamOf_hardlinks (hlinked : ∀ e ∈ hardLinks strip es, stripName strip e.linkname ≠ none) :
    (seamOf strip es).hardlinks = (hardLinks strip es).map (seamLink strip) := by
  induction es using List.reverseRecOn with
  | nil => rfl
  | append_singleton es t ih =>
    rw [hardLinks_concat] at hlinked ⊢
    have hbefore := ih fun e he => hlinked e (List.mem_append_left _ he)
    rw [seamOf_concat, List.map_append, ← hbefore, materializeEntry]
    cases hname : stripName strip t.name with
    | none =>
      have hnone : hardLinks strip [t] = [] := by simp [hardLinks, nameAt, hname]
      rw [hnone, List.map_nil, List.append_nil]
    | some parts =>
      cases hkind : t.kind with
      | hardLink =>
        have hone : hardLinks strip [t] = [t] := by simp [hardLinks, nameAt, hname, hkind]
        rw [hone] at hlinked ⊢
        obtain ⟨link, hlink⟩ := Option.ne_none_iff_exists'.mp (hlinked t (List.mem_append_right _ (List.mem_singleton_self t)))
        simp [hlink, seamLink, nameParts, hname]
      | _ =>
        have hnone : hardLinks strip [t] = [] := by simp [hardLinks, nameAt, hkind]
        rw [hnone, List.map_nil, List.append_nil]

end Milpa.Core.SafeExtract

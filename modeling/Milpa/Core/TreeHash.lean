import Milpa.Core.ContentHash

/-!
# What the content hash of a tree depends on

A tree on disk and a sequence of entries have one identity, if the sequence has at every
path, outside of `.git`, the leaf that the tree has there (`computeContentHash_eq_ok`).
-/

namespace Milpa.Core

open DagIdentity Merkle Result
open Posix (slash)

/-! ### Texts of paths -/

theorem isUtf8_append {a b : Bytes} (ha : isUtf8 a = true) (hb : isUtf8 b = true) : isUtf8 (a ++ b) = true := by
  rw [isUtf8, beq_iff_eq] at ha hb ⊢
  rw [List.foldlM_append, ha]
  exact hb

theorem isUtf8_intercalate {path : List Bytes} (h : ∀ c ∈ path, isUtf8 c = true) : isUtf8 ([slash].intercalate path) = true := by
  induction path with
  | nil => rfl
  | cons c rest ih =>
    obtain ⟨hc, hrest⟩ := List.forall_mem_cons.mp h
    cases rest with
    | nil => simpa using hc
    | cons c' rest =>
      have hsplit : [slash].intercalate (c :: c' :: rest) = c ++ ([slash] ++ [slash].intercalate (c' :: rest)) := by
        simp [List.intercalate]
      rw [hsplit]
      exact isUtf8_append hc (isUtf8_append (by decide) (ih hrest))

/-- The bytes that must follow are no slashes. -/
theorem utf8Step_expected {expected expected' : List (UInt8 × UInt8)} {b : UInt8} (h : ∀ r ∈ expected, 0x80 ≤ r.1)
    (hstep : utf8Step expected b = some expected') : ∀ r ∈ expected', 0x80 ≤ r.1 := by
  cases expected with
  | cons r rest =>
    rw [utf8Step.eq_def] at hstep
    dsimp only at hstep
    split_ifs at hstep
    cases hstep
    exact (List.forall_mem_cons.mp h).2
  | nil =>
    rw [utf8Step.eq_def] at hstep
    dsimp only at hstep
    split_ifs at hstep <;> cases hstep <;> simp

/-- A slash begins another text. -/
theorem isUtf8_of_slash {a b : Bytes} (h : isUtf8 (a ++ slash :: b) = true) : isUtf8 a = true ∧ isUtf8 b = true := by
  rw [isUtf8, beq_iff_eq, List.foldlM_append] at h
  obtain ⟨expected, ha, hb⟩ := Option.bind_eq_some_iff.mp h
  rw [List.foldlM_cons] at hb
  obtain ⟨expected', hslash, hrest⟩ := Option.bind_eq_some_iff.mp hb
  have hall : ∀ bytes start, (∀ r ∈ start, 0x80 ≤ r.1) → List.foldlM utf8Step start bytes = some expected → ∀ r ∈ expected, 0x80 ≤ r.1 := by
    intro bytes
    induction bytes with
    | nil =>
      intro start hstart hend
      cases hend
      exact hstart
    | cons c bytes ih =>
      intro start hstart hend
      rw [List.foldlM_cons] at hend
      obtain ⟨next, hstep, hend⟩ := Option.bind_eq_some_iff.mp hend
      exact ih next (utf8Step_expected hstart hstep) hend
  have hhigh := hall a [] (fun r hr => absurd hr List.not_mem_nil) ha
  cases expected with
  | cons r rest =>
    -- a slash is below what could follow
    have hlow : r.1 ≤ slash ∧ slash ≤ r.2 := by
      rw [utf8Step.eq_def] at hslash
      dsimp only at hslash
      split_ifs at hslash with hrange
      exact hrange
    exact absurd ((List.forall_mem_cons.mp hhigh).1.trans hlow.1) (by decide)
  | nil =>
    have hempty : expected' = [] := by
      have hstep : utf8Step [] slash = some [] := by decide
      rw [hstep] at hslash
      exact (Option.some_inj.mp hslash).symm
    rw [hempty] at hrest
    rw [isUtf8, isUtf8, ha, hrest]
    exact ⟨rfl, rfl⟩

/-- The components of a text are texts without a slash. -/
theorem splitOn_slash (raw : Bytes) : ∀ c ∈ raw.splitOn slash, slash ∉ c ∧ (isUtf8 raw = true → isUtf8 c = true) := by
  induction hlen : raw.length using Nat.strong_induction_on generalizing raw with
  | _ n ih =>
    by_cases hslash : slash ∈ raw
    · obtain ⟨a, b, hraw, ha⟩ := List.eq_append_cons_of_mem hslash
      rw [hraw] at hlen ⊢
      rw [List.splitOn_append_cons_self_of_not_mem ha]
      intro c hc
      rcases List.mem_cons.mp hc with rfl | hc
      · exact ⟨ha, fun h => (isUtf8_of_slash h).1⟩
      · rw [List.length_append, List.length_cons] at hlen
        obtain ⟨hno, hutf8⟩ := ih b.length (by omega) b rfl c hc
        exact ⟨hno, fun h => hutf8 (isUtf8_of_slash h).2⟩
    · rw [List.splitOn_eq_singleton hslash]
      intro c hc
      rw [List.mem_singleton.mp hc]
      exact ⟨hslash, id⟩

/-! ### Identities that are there -/

variable {entries entries' : List MaterializedEntry}

theorem fits_of_checkName {name name' : Bytes} (h : checkName name = .ok name') : Fits name := by
  rw [checkName] at h
  split_ifs at h with hlong
  exact Nat.not_lt.mp hlong

theorem fits_of_insert {root root' : DagIdentity.Node} {parts : List Bytes} {mode : UInt8} {content : Bytes} (hne : parts ≠ [])
    (h : DagIdentity.insert root parts mode content = .ok root') : ∀ c ∈ parts, Fits c := by
  obtain ⟨_, hdirs, h⟩ := bind_eq_ok.mp h
  obtain ⟨_, hleaf, -⟩ := bind_eq_ok.mp h
  have hall : ∀ c ∈ parts.dropLast, Fits c := by
    generalize parts.dropLast = dirs at hdirs
    induction dirs with
    | nil => exact fun c hc => absurd hc List.not_mem_nil
    | cons c rest ih =>
      obtain ⟨_, hc, hrest⟩ := bind_eq_ok.mp hdirs
      obtain ⟨_, hc, -⟩ := bind_eq_ok.mp hc
      exact List.forall_mem_cons.mpr ⟨fits_of_checkName hc, ih hrest⟩
  rw [List.getLastD_eq_getLast?, List.getLast?_eq_some_getLast hne, Option.getD_some] at hleaf
  intro c hc
  rw [← List.dropLast_append_getLast hne] at hc
  rcases List.mem_append.mp hc with hc | hc
  · exact hall c hc
  · rw [List.mem_singleton.mp hc]
    exact fits_of_checkName hleaf

/-- A sequence with an identity has names within the ceiling. -/
theorem named_of_foldlM {root root' : DagIdentity.Node} (h : entries.foldlM addEntry root = .ok root') :
    ∀ e ∈ kept entries, ∀ c ∈ e.parts, Fits c := by
  induction entries generalizing root with
  | nil => exact fun e he => absurd he List.not_mem_nil
  | cons e rest ih =>
    obtain ⟨root₁, hadd, hrest⟩ := bind_eq_ok.mp h
    rw [addEntry] at hadd
    by_cases hgit : gitComponent ∈ e.parts
    · have hkept : kept (e :: rest) = kept rest := by simp [kept, hgit]
      rw [hkept]
      exact ih hrest
    · have hkept : kept (e :: rest) = e :: kept rest := by simp [kept, hgit]
      rw [if_neg hgit] at hadd
      rw [hkept]
      exact List.forall_mem_cons.mpr ⟨fits_of_insert (parts_ne_nil e) hadd, ih hrest⟩

/-- The identity of a sequence is there exactly when all names are within the ceiling, and is the hash of its tree. -/
theorem computeDagIdentity_eq_ok {s : Str} : computeDagIdentity entries = .ok s ↔
    (∀ e ∈ kept entries, ∀ c ∈ e.parts, Fits c) ∧ s = "dag-sha256:".toList ++ hexLower ((treeOf entries).hash dagScheme) := by
  have hok : (∀ e ∈ kept entries, ∀ c ∈ e.parts, Fits c) →
      computeDagIdentity entries = .ok ("dag-sha256:".toList ++ hexLower ((treeOf entries).hash dagScheme)) := fun hnamed => by
    rw [computeDagIdentity, foldlM_addEntry hnamed, ok_bind, hashTree_eq _ (treeOf_named hnamed)]
    rfl
  constructor
  · intro h
    obtain ⟨root, hfold, -⟩ := bind_eq_ok.mp h
    have hnamed := named_of_foldlM hfold
    rw [hok hnamed] at h
    exact ⟨hnamed, (Except.ok.inj h).symm⟩
  · rintro ⟨hnamed, rfl⟩
    exact hok hnamed

/-- An entry has a content at its path. -/
theorem contentAt_ne_none {e : MaterializedEntry} (h : e ∈ kept entries) : contentAt entries e.relpath ≠ none := by
  rw [contentAt, ne_eq, Option.map_eq_none_iff, List.find?_eq_none]
  intro hall
  exact hall e (List.mem_reverse.mpr h) (by simp)

theorem exists_of_contentAt {relpath : Bytes} (h : contentAt entries relpath ≠ none) : ∃ e ∈ kept entries, e.relpath = relpath := by
  obtain ⟨v, hv⟩ := Option.ne_none_iff_exists'.mp h
  obtain ⟨e, hfind, -⟩ := Option.map_eq_some_iff.mp hv
  exact ⟨e, List.mem_reverse.mp (List.mem_of_find?_eq_some hfind), by simpa using List.find?_some hfind⟩

theorem named_of_contents (hsame : ∀ relpath, contentAt entries relpath = contentAt entries' relpath)
    (hnamed : ∀ e ∈ kept entries, ∀ c ∈ e.parts, Fits c) : ∀ e ∈ kept entries', ∀ c ∈ e.parts, Fits c := by
  intro e' he'
  have hne := contentAt_ne_none he'
  rw [← hsame] at hne
  obtain ⟨e, he, hrelpath⟩ := exists_of_contentAt hne
  have hparts := hnamed e he
  rwa [MaterializedEntry.parts, hrelpath] at hparts

theorem proper_congr {t t' : DagIdentity.Node} (h : t.Proper dagScheme) (htidy : t'.Tidy) (hsame : t.SameLeaves t') : t'.Proper dagScheme where
  tidy := htidy
  apart dirs leaf ds l hne := by
    rw [← hsame] at hne ⊢
    exact h.apart dirs leaf ds l hne
  tags dirs leaf tag content hv := by
    rw [← hsame] at hv
    exact h.tags dirs leaf tag content hv
  readable dirs leaf hne := by
    rw [← hsame] at hne
    exact h.readable dirs leaf hne

/-- A sequence with the contents of another one, which would describe a tree if its names were short enough, has its identity. -/
theorem computeDagIdentity_congr (hdescribes : (∀ e ∈ kept entries, ∀ c ∈ e.parts, Fits c) → DescribesTree entries)
    (hsame : ∀ relpath, contentAt entries relpath = contentAt entries' relpath) (s : Str) :
    computeDagIdentity entries = .ok s ↔ computeDagIdentity entries' = .ok s := by
  rw [computeDagIdentity_eq_ok, computeDagIdentity_eq_ok]
  have hnamed : (∀ e ∈ kept entries, ∀ c ∈ e.parts, Fits c) ↔ ∀ e ∈ kept entries', ∀ c ∈ e.parts, Fits c :=
    ⟨named_of_contents hsame, named_of_contents fun relpath => (hsame relpath).symm⟩
  rw [← hnamed]
  refine and_congr_right fun h => ?_
  have hleaves := sameLeaves_iff.mpr hsame
  have hproper := (hdescribes h).proper
  rw [Directory.hash_eq_of_sameLeaves hproper (proper_congr hproper treeOf_tidy hleaves) hleaves]

/-! ### Trees on disk -/

/-- What a node is in the identity: the mode and the content of a leaf. -/
def leafOf : Posix.Node → Option (UInt8 × Bytes)
  | .file executable content => some (if executable then modeExecutable else modeRegular, content)
  | .symlink target => some (modeSymlink, target)
  | .dir => none
  | .other => none

/-- A tree that a file system can hold, with names and targets that are texts. -/
structure SoundTree (tree : DiskTree) : Prop where
  root : tree.get? [] = none
  parents : ∀ p c, p ≠ [] → tree.get? (p ++ [c]) ≠ none → tree.get? p = some .dir
  names : ∀ p, tree.get? p ≠ none → ∀ c ∈ p, slash ∉ c ∧ isUtf8 c = true
  targets : ∀ p target, tree.get? p = some (.symlink target) → isUtf8 target = true

/-- What the walk finds at a path. -/
def foundAt (path : List Bytes) (node : Posix.Node) : List MaterializedEntry :=
  if gitComponent ∈ path then [] else ((leafOf node).map fun v => ⟨[slash].intercalate path, v.1, v.2⟩).toList

/-- What the walk finds. -/
def found (tree : DiskTree) : List MaterializedEntry := tree.entries.flatMap fun e => foundAt e.1 e.2

namespace SoundTree

variable {tree : DiskTree}

theorem ne_nil (h : SoundTree tree) {p : List Bytes} (hp : tree.get? p ≠ none) : p ≠ [] := fun hnil => hp (hnil ▸ h.root)

theorem splitOn_intercalate (h : SoundTree tree) {p : List Bytes} (hp : tree.get? p ≠ none) :
    ([slash].intercalate p).splitOn slash = p :=
  List.splitOn_intercalate slash (fun c hc => (h.names p hp c hc).1) (h.ne_nil hp)

/-- Above what is there, there are directories. -/
theorem dir_of_prefix (h : SoundTree tree) {p q : List Bytes} (hp : p ≠ []) (hq : q ≠ []) (hnode : tree.get? (p ++ q) ≠ none) :
    tree.get? p = some .dir := by
  induction q using List.reverseRecOn with
  | nil => exact absurd rfl hq
  | append_singleton q c ih =>
    rw [← List.append_assoc] at hnode
    have hdir := h.parents (p ++ q) c (by simp [hp]) hnode
    by_cases hnil : q = []
    · rwa [hnil, List.append_nil] at hdir
    · exact ih hnil (by rw [hdir]; exact Option.some_ne_none _)

theorem walkChild_eq (h : SoundTree tree) {p : List Bytes} {node : Posix.Node} (hget : tree.get? p = some node) :
    walkChild p node = .ok (foundAt p node) := by
  have hne : tree.get? p ≠ none := by rw [hget]; exact Option.some_ne_none _
  have htext : isUtf8 ([slash].intercalate p) = true := isUtf8_intercalate fun c hc => (h.names p hne c hc).2
  have hslash : [slash].intercalate p = [0x2f].intercalate p := rfl
  rw [walkChild, foundAt]
  by_cases hgit : gitComponent ∈ p
  · rw [if_pos hgit, if_pos hgit]
  rw [if_neg hgit, if_neg hgit, ← hslash]
  dsimp only
  rw [htext, if_neg (by decide)]
  cases node with
  | symlink target =>
    have htarget := h.targets p target hget
    dsimp only
    rw [htarget, if_neg (by decide)]
    rfl
  | dir => rfl
  | file executable content => rfl
  | other => rfl

theorem enumerateLocalEntries_eq (h : SoundTree tree) : enumerateLocalEntries tree = .ok (found tree) := by
  have hwalk : ∀ l : List (List Bytes × Posix.Node), (∀ e ∈ l, tree.get? e.1 = some e.2) →
      l.mapM (fun e => walkChild e.1 e.2) = .ok (l.map fun e => foundAt e.1 e.2) := by
    intro l
    induction l with
    | nil => exact fun _ => rfl
    | cons e rest ih =>
      intro hl
      obtain ⟨he, hrest⟩ := List.forall_mem_cons.mp hl
      rw [List.mapM_cons, walkChild_eq h he, ok_bind, ih hrest]
      rfl
  rw [enumerateLocalEntries, hwalk tree.entries fun e he => BTreeMap.mem_entries.mp he, ok_bind, found, List.flatMap_def]
  rfl

theorem mem_found {e : MaterializedEntry} : e ∈ found tree ↔
    ∃ p node, tree.get? p = some node ∧ gitComponent ∉ p ∧ leafOf node = some (e.modeByte, e.content) ∧ e.relpath = [slash].intercalate p := by
  rw [found, List.mem_flatMap]
  constructor
  · rintro ⟨⟨p, node⟩, hmem, he⟩
    rw [foundAt] at he
    split_ifs at he with hgit
    · exact absurd he List.not_mem_nil
    obtain ⟨v, hv, rfl⟩ := Option.map_eq_some_iff.mp (Option.mem_toList.mp he)
    exact ⟨p, node, BTreeMap.mem_entries.mp hmem, hgit, hv, rfl⟩
  · rintro ⟨p, node, hget, hgit, hleaf, hrelpath⟩
    refine ⟨(p, node), BTreeMap.mem_entries.mpr hget, ?_⟩
    rw [foundAt, if_neg hgit, hleaf, Option.map_some, ← hrelpath]
    exact List.mem_singleton_self e

/-- The path of what is found. -/
theorem parts_of_mem (h : SoundTree tree) {e : MaterializedEntry} (he : e ∈ found tree) :
    ∃ node, tree.get? e.parts = some node ∧ gitComponent ∉ e.parts ∧ leafOf node = some (e.modeByte, e.content) := by
  obtain ⟨p, node, hget, hgit, hleaf, hrelpath⟩ := mem_found.mp he
  have hparts : e.parts = p := by
    rw [MaterializedEntry.parts, hrelpath]
    exact h.splitOn_intercalate (by rw [hget]; exact Option.some_ne_none _)
  rw [hparts]
  exact ⟨node, hget, hgit, hleaf⟩

theorem kept_found (h : SoundTree tree) : kept (found tree) = found tree :=
  List.filter_eq_self.mpr fun e he => by
    obtain ⟨_, -, hgit, -⟩ := h.parts_of_mem he
    simpa using hgit

theorem nodup_found (h : SoundTree tree) : ((kept (found tree)).map MaterializedEntry.relpath).Nodup := by
  rw [h.kept_found, found, List.nodup_iff_pairwise_ne, List.pairwise_map, List.pairwise_flatMap]
  constructor
  · intro e _
    rw [foundAt]
    split_ifs
    · exact List.Pairwise.nil
    · cases leafOf e.2 with
      | none => exact List.Pairwise.nil
      | some v => exact List.pairwise_singleton _ _
  · refine tree.sorted.imp_of_mem fun {a b} ha hb hlt x hx y hy heq => ?_
    have hpath : ∀ e : List Bytes × Posix.Node, e ∈ tree.entries → ∀ x ∈ foundAt e.1 e.2, x.relpath.splitOn slash = e.1 := fun e he x hx => by
      rw [foundAt] at hx
      split_ifs at hx
      · exact absurd hx List.not_mem_nil
      obtain ⟨v, -, rfl⟩ := Option.map_eq_some_iff.mp (Option.mem_toList.mp hx)
      exact h.splitOn_intercalate (by rw [BTreeMap.mem_entries.mp he]; exact Option.some_ne_none _)
    have hkeys : a.1 = b.1 := by rw [← hpath a ha x hx, ← hpath b hb y hy, heq]
    exact absurd hlt (by rw [hkeys]; exact lt_irrefl _)

/-- What the walk finds at a path is the leaf there. -/
theorem contentAt_found (h : SoundTree tree) (relpath : Bytes) : contentAt (found tree) relpath =
    if gitComponent ∈ relpath.splitOn slash then none else (tree.get? (relpath.splitOn slash)).bind leafOf := by
  refine Option.ext fun v => ?_
  rw [contentAt_eq_some h.nodup_found, h.kept_found]
  constructor
  · intro hmem
    obtain ⟨node, hget, hgit, hleaf⟩ := h.parts_of_mem hmem
    refine (if_neg hgit).trans ?_
    exact Option.bind_eq_some_iff.mpr ⟨node, hget, hleaf⟩
  · intro hv
    split_ifs at hv with hgit
    obtain ⟨node, hget, hleaf⟩ := Option.bind_eq_some_iff.mp hv
    exact mem_found.mpr ⟨_, node, hget, hgit, hleaf, (List.intercalate_splitOn slash).symm⟩

theorem describesTree (h : SoundTree tree) (hnamed : ∀ e ∈ kept (found tree), ∀ c ∈ e.parts, Fits c) : DescribesTree (found tree) where
  distinct := h.nodup_found
  named := hnamed
  apart e he e' he' hprefix := by
    rw [h.kept_found] at he he'
    obtain ⟨node, hget, -, hleaf⟩ := h.parts_of_mem he
    obtain ⟨node', hget', -, -⟩ := h.parts_of_mem he'
    obtain ⟨q, hq⟩ := hprefix
    by_contra hne
    -- a leaf with something below it would be a directory
    have hdir := h.dir_of_prefix (parts_ne_nil e) (q := q) (fun hnil => hne (by rw [← hq, hnil, List.append_nil]))
      (by rw [hq, hget']; exact Option.some_ne_none _)
    rw [hget] at hdir
    cases hdir
    cases hleaf
  modes e he := by
    rw [h.kept_found] at he
    obtain ⟨node, -, -, hleaf⟩ := h.parts_of_mem he
    cases node with
    | dir => cases hleaf
    | other => cases hleaf
    | symlink target =>
      obtain ⟨hmode, -⟩ := Prod.ext_iff.mp (Option.some_inj.mp hleaf)
      exact .inr (.inr hmode.symm)
    | file executable content =>
      obtain ⟨hmode, -⟩ := Prod.ext_iff.mp (Option.some_inj.mp hleaf)
      cases executable
      · exact .inl hmode.symm
      · exact .inr (.inl hmode.symm)

/-- **A tree has the identity of any sequence with its leaves.** -/
theorem computeContentHash_eq_ok (h : SoundTree tree)
    (hsame : ∀ relpath, gitComponent ∉ relpath.splitOn slash → contentAt entries relpath = (tree.get? (relpath.splitOn slash)).bind leafOf)
    (s : Str) : computeContentHash tree = .ok s ↔ computeDagIdentity entries = .ok s := by
  have hcontents : ∀ relpath, contentAt (found tree) relpath = contentAt entries relpath := fun relpath => by
    rw [h.contentAt_found]
    split_ifs with hgit
    · -- nothing is kept under `.git`
      by_contra hne
      obtain ⟨e, he, hrelpath⟩ := exists_of_contentAt (Ne.symm hne)
      have hnot : gitComponent ∉ e.parts := by simpa using (List.mem_filter.mp he).2
      rw [MaterializedEntry.parts, hrelpath] at hnot
      exact hnot hgit
    · exact (hsame relpath hgit).symm
  rw [← computeDagIdentity_congr h.describesTree hcontents, computeContentHash, h.enumerateLocalEntries_eq, ok_bind]
  cases computeDagIdentity (found tree) with
  | ok identity => exact pure_eq_ok.trans (by rw [Except.ok.injEq, eq_comm])
  | error e => exact ⟨fun hfail => absurd hfail throw_ne_ok, fun hfail => by cases hfail⟩

end SoundTree

end Milpa.Core

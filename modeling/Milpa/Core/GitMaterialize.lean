import Milpa.Core.ExtractFaithful
import Milpa.Core.GitTree
import Milpa.Posix.Inside

/-!
# The tree of a commit on disk

`materialize_git_tree` of `fetchers.rs` writes what the enumeration of a commit gives below
an empty directory, with checks that read the texts of paths. Where no path goes through a
symlink of the tree, and none has a `.git`, the directory has the identity of the entries,
nothing else is touched, and the result is the commits of the submodules
(`materializeGitTree_faithful`). Another tree can leave the directory
(`hostile_escapes`).
-/

namespace Milpa.Core.Git

open Posix Program DagIdentity
open SafeExtract (normalizeLexical joinText startsWith GoodName EmptyDest)

/-! ### Writing -/

/-- Programs of the materialization. -/
abbrev Materialize := Program GitError

/-- An error, where a condition holds. -/
def refuse (c : Prop) [Decidable c] (e : GitError) : Materialize Unit := if c then .fail e else pure ()

/-- `LFS_POINTER_FIRST_LINE`. -/
def lfsPointerFirstLine : Bytes := asciiBytes "version https://git-lfs.github.com/spec/v1\n"

/-- The components of a path. -/
def components (path : Path) : Path := path.filter fun c => decide (c ≠ here)

section Materialize

variable (destRoot : Path)

/-- `create_dir_all` of the parent of a path, where it has one. -/
def createParent (relpath : Bytes) (target : Path) : Materialize Unit :=
  if components target = [] then pure () else (createDirAll (components target).dropLast).mapError (.io relpath)

/-- The directory of a symlink: the destination where there is no parent. -/
def linkDir (target : Path) : Path := if components target = [] then destRoot else (components target).dropLast

/-- `materialize_symlink`. -/
def materializeSymlink (e : MaterializedEntry) (target : Path) : Materialize Unit := do
  refuse (isUtf8 e.content = false) (.nonUtf8Target e.relpath)
  refuse (startsWith (normalizeLexical (joinText (linkDir destRoot target) e.content)) destRoot = false) (.symlinkEscape e.relpath e.content)
  createParent e.relpath target
  (unlink target).ignore
  refuse (0 ∈ e.content) (.nulTarget e.relpath)
  (symlink e.content target).mapError (.io e.relpath)

/-- A blob that is no symlink; `check_lfs` comes first. -/
def materializeFile (e : MaterializedEntry) (target : Path) : Materialize Unit := do
  refuse (lfsPointerFirstLine.isPrefixOf e.content = true) (.lfsPointer e.relpath)
  createParent e.relpath target
  (writeFile target e.content).mapError (.io e.relpath)
  (chmod (decide (e.modeByte = modeExecutable)) target).mapError (.io e.relpath)

/-- One entry. -/
def materializeEntry (e : MaterializedEntry) : Materialize Unit := do
  let target := joinText destRoot e.relpath
  refuse (startsWith (normalizeLexical target) destRoot = false) (.zipSlip e.relpath)
  if e.modeByte = modeSymlink then materializeSymlink destRoot e target else materializeFile e target

/-- The entries, in order. -/
def materializeEntries : List MaterializedEntry → Materialize Unit
  | [] => pure ()
  | e :: rest => do
    materializeEntry destRoot e
    materializeEntries rest

/-- `materialize_git_tree`, into a directory with the path that `canonicalize` gives. -/
def materializeGitTree (store : Store) (commit : Str) (fetch : Option SubmoduleFetch) (superprojectUrl : Option Str) :
    Materialize (BTreeMap Bytes Str) := do
  let e ← .ofExcept (enumerateGitEntries store commit fetch superprojectUrl)
  materializeEntries destRoot e.entries
  pure e.results

end Materialize

/-! ### Plain trees -/

/-- Entries that the disk and the identity agree on. -/
structure PlainEntries (entries : List MaterializedEntry) : Prop where
  /-- All names are names, and none is `.git`. -/
  names : ∀ e ∈ entries, ∀ c ∈ e.parts, c ≠ [] ∧ c ≠ here ∧ c ≠ up ∧ c ≠ gitComponent
  /-- After a symlink, nothing goes through it or is written over it, but another symlink in its place. -/
  apart : entries.Pairwise fun s e => s.modeByte = modeSymlink → s.parts <+: e.parts → s.parts = e.parts ∧ e.modeByte = modeSymlink

instance (entries : List MaterializedEntry) : Decidable (PlainEntries entries) :=
  decidable_of_iff ((∀ e ∈ entries, ∀ c ∈ e.parts, c ≠ [] ∧ c ≠ here ∧ c ≠ up ∧ c ≠ gitComponent) ∧
      entries.Pairwise fun s e => s.modeByte = modeSymlink → s.parts <+: e.parts → s.parts = e.parts ∧ e.modeByte = modeSymlink)
    ⟨fun h => ⟨h.1, h.2⟩, fun h => ⟨h.names, h.apart⟩⟩

/-- The names of a text without empty ones. -/
theorem names_eq_splitOn {text : Bytes} (h : ∀ c ∈ text.splitOn slash, c ≠ []) : Posix.names text = text.splitOn slash := by
  have hlast : text.getLast? ≠ some slash := by
    intro hend
    obtain ⟨front, hfront⟩ := List.getLast?_eq_some_iff.mp hend
    refine h [] ?_ rfl
    rw [hfront, List.splitOn_append_cons_self]
    exact List.mem_append_right _ (by simp)
  rw [Posix.names, if_neg hlast, List.append_nil]
  exact List.filter_eq_self.mpr fun c hc => decide_eq_true (h c hc)

theorem not_isAbsolute {text : Bytes} (h : ∀ c ∈ text.splitOn slash, c ≠ []) : isAbsolute text = false := by
  cases text with
  | nil => rfl
  | cons b text =>
    refine decide_eq_false fun hhead => h [] ?_ rfl
    rw [List.head?_cons, Option.some.injEq] at hhead
    have hcons : b :: text = [] ++ slash :: text := by rw [hhead, List.nil_append]
    rw [hcons, List.splitOn_append_cons_self]
    exact List.mem_append_left _ (by simp)

/-- What a sequence has last at a path. -/
def leafAt (entries : List MaterializedEntry) (path : Path) : Option (UInt8 × Bytes) :=
  (entries.reverse.find? fun e => e.parts = path).map fun e => (e.modeByte, e.content)

theorem leafAt_concat (entries : List MaterializedEntry) (e : MaterializedEntry) (path : Path) :
    leafAt (entries ++ [e]) path = if e.parts = path then some (e.modeByte, e.content) else leafAt entries path := by
  rw [leafAt, List.reverse_append, List.reverse_singleton, List.singleton_append, List.find?_cons]
  by_cases h : e.parts = path
  · rw [decide_eq_true h, if_pos h]
    rfl
  · rw [decide_eq_false h, if_neg h]
    rfl

theorem exists_of_leafAt {entries : List MaterializedEntry} {path : Path} {v : UInt8 × Bytes} (h : leafAt entries path = some v) :
    ∃ e ∈ entries, e.parts = path ∧ v = (e.modeByte, e.content) := by
  obtain ⟨e, hfind, rfl⟩ := Option.map_eq_some_iff.mp h
  exact ⟨e, List.mem_reverse.mp (List.mem_of_find?_eq_some hfind), by simpa using List.find?_some hfind, rfl⟩

/-- Without a `.git`, the identity depends on what is last at each path. -/
theorem contentAt_eq_leafAt {entries : List MaterializedEntry} (h : ∀ e ∈ entries, gitComponent ∉ e.parts) (relpath : Bytes) :
    contentAt entries relpath = leafAt entries (relpath.splitOn slash) := by
  have hkept : kept entries = entries := List.filter_eq_self.mpr fun e he => by simpa using h e he
  have hfind : entries.reverse.find? (fun e => e.relpath = relpath) = entries.reverse.find? fun e => e.parts = relpath.splitOn slash := by
    refine List.find?_congr fun e _ => decide_eq_decide.mpr ⟨fun heq => by rw [MaterializedEntry.parts, heq]; rfl, fun heq => ?_⟩
    have hparts : e.parts = MaterializedEntry.parts ⟨relpath, 0, []⟩ := heq
    exact relpath_of_parts hparts
  rw [contentAt, hkept, leafAt, hfind]

/-! ### What is on disk -/

/-- A name below the directory. -/
def TreeName (c : Bytes) : Prop := GoodName c ∧ c ≠ gitComponent

/-- Below the directory there is what a sequence has, and nothing else has been touched. -/
structure Built (destRoot : Path) (fs₀ : FileSystem) (entries : List MaterializedEntry) (d : Disk) : Prop where
  housed : Housed destRoot TreeName d.fs
  leaves : ∀ q, (d.fs.get? (destRoot ++ q)).bind leafOf = leafAt entries q
  targets : ∀ q text, d.fs.get? (destRoot ++ q) = some (.symlink text) → isUtf8 text = true
  inside : Inside destRoot fs₀ d

section Built

variable {destRoot : Path} {fs₀ : FileSystem} {entries : List MaterializedEntry} {d d' : Disk} {e : MaterializedEntry}

/-- New directories do not matter. -/
theorem Built.grown (h : Built destRoot fs₀ entries d) (hhoused : Housed destRoot TreeName d'.fs) (hgrown : Grown d.fs d')
    (hinside : Inside destRoot fs₀ d') : Built destRoot fs₀ entries d' where
  housed := hhoused
  leaves q := by
    rw [← h.leaves q]
    rcases hgrown (destRoot ++ q) with hold | ⟨hnone, hnew⟩
    · rw [hold]
    · rw [hnone, hnew]
      rfl
  targets q text hget := by
    rcases hgrown (destRoot ++ q) with hold | ⟨-, hnew⟩
    · exact h.targets q text (by rw [← hold, hget])
    · rw [hnew] at hget
      cases hget
  inside := hinside

/-- Another node at the path of an entry is the entry there. -/
theorem Built.put (h : Built destRoot fs₀ entries d) (hhoused : Housed destRoot TreeName d'.fs) (hinside : Inside destRoot fs₀ d')
    {node : Posix.Node} (hget : ∀ p, d'.fs.get? p = if p = destRoot ++ e.parts then some node else d.fs.get? p)
    (hnode : leafOf node = some (e.modeByte, e.content)) (htarget : ∀ text, node = .symlink text → isUtf8 text = true) :
    Built destRoot fs₀ (entries ++ [e]) d' where
  housed := hhoused
  leaves q := by
    rw [leafAt_concat, hget]
    by_cases heq : e.parts = q
    · rw [if_pos heq, if_pos (by rw [heq])]
      exact hnode
    · rw [if_neg heq, if_neg fun h' => heq (List.append_cancel_left h').symm]
      exact h.leaves q
  targets q text hlink := by
    rw [hget] at hlink
    split_ifs at hlink with heq
    · exact htarget text (Option.some_inj.mp hlink)
    · exact h.targets q text hlink
  inside := hinside

theorem Built.exists_of_symlink (h : Built destRoot fs₀ entries d) {q : Path} {text : Bytes}
    (hget : d.fs.get? (destRoot ++ q) = some (.symlink text)) : ∃ s ∈ entries, s.parts = q ∧ s.modeByte = modeSymlink := by
  have hlast := h.leaves q
  rw [hget] at hlast
  obtain ⟨s, hs, hparts, hv⟩ := exists_of_leafAt hlast.symm
  exact ⟨s, hs, hparts, (Prod.ext_iff.mp hv).1.symm⟩

/-- An entry after those that are written: its names are names, and no symlink among them is on its way. -/
structure Next (destRoot : Path) (entries : List MaterializedEntry) (e : MaterializedEntry) : Prop where
  sound : SoundEntry e
  names : ∀ c ∈ e.parts, c ≠ [] ∧ c ≠ here ∧ c ≠ up ∧ c ≠ gitComponent
  apart : ∀ s ∈ entries, s.modeByte = modeSymlink → s.parts <+: e.parts → s.parts = e.parts ∧ e.modeByte = modeSymlink
  noHere : here ∉ destRoot
  noUp : up ∉ destRoot

theorem Next.target_eq (hnext : Next destRoot entries e) : joinText destRoot e.relpath = destRoot ++ e.parts := by
  have hne : ∀ c ∈ e.relpath.splitOn slash, c ≠ [] := fun c hc => (hnext.names c hc).1
  rw [joinText, not_isAbsolute hne, if_neg (by decide), names_eq_splitOn hne]
  rfl

theorem Next.noHere_target (hnext : Next destRoot entries e) : here ∉ destRoot ++ e.parts := by
  rw [List.mem_append, not_or]
  exact ⟨hnext.noHere, fun hmem => (hnext.names _ hmem).2.1 rfl⟩

theorem Next.noUp_target (hnext : Next destRoot entries e) : up ∉ destRoot ++ e.parts := by
  rw [List.mem_append, not_or]
  exact ⟨hnext.noUp, fun hmem => (hnext.names _ hmem).2.2.1 rfl⟩

theorem Next.treeNames (hnext : Next destRoot entries e) : ∀ c ∈ e.parts, TreeName c := fun c hc =>
  have hsplit := splitOn_slash e.relpath c hc
  ⟨⟨hsplit.1, hsplit.2 hnext.sound.text⟩, (hnext.names c hc).2.2.2⟩

theorem Next.components_eq (hnext : Next destRoot entries e) : components (destRoot ++ e.parts) = destRoot ++ e.parts :=
  List.filter_eq_self.mpr fun _ hc => decide_eq_true fun heq => hnext.noHere_target (heq ▸ hc)

/-- The path of the next entry crosses no symlink. -/
theorem Built.straight (h : Built destRoot fs₀ entries d) (hnext : Next destRoot entries e) : Straight d.fs (destRoot ++ e.parts) where
  noHere := hnext.noHere_target
  noUp := hnext.noUp_target
  noLink q hq hne hlast text hget := by
    rcases List.prefix_or_prefix_of_prefix hq (List.prefix_append destRoot e.parts) with habove | ⟨q', rfl⟩
    · rw [h.housed.rooted q habove hne] at hget
      cases hget
    · obtain ⟨s, hs, hparts, hmode⟩ := h.exists_of_symlink hget
      have hprefix : s.parts <+: e.parts := by
        rw [hparts]
        exact (List.prefix_append_right_inj destRoot).mp hq
      exact hlast (by rw [← hparts, (hnext.apart s hs hmode hprefix).1])

/-- A file is not written over a symlink. -/
theorem Built.not_symlink (h : Built destRoot fs₀ entries d) (hnext : Next destRoot entries e) (hmode : e.modeByte ≠ modeSymlink)
    (text : Bytes) : d.fs.get? (destRoot ++ e.parts) ≠ some (.symlink text) := fun hget => by
  obtain ⟨s, hs, hparts, hlink⟩ := h.exists_of_symlink hget
  exact hmode (hnext.apart s hs hlink (by rw [hparts])).2

/-! ### Steps -/

theorem refuse_cases {c : Prop} [Decidable c] {err : GitError} {α : Type} {f : Unit → Materialize α} {a : α}
    (h : ((refuse c err >>= f) d).1 = .ok a) : ¬ c ∧ (f () d).1 = .ok a ∧ (refuse c err >>= f) d = f () d := by
  by_cases hc : c
  · rw [refuse, if_pos hc] at h
    cases h
  · rw [refuse, if_neg hc] at h ⊢
    exact ⟨hc, h, rfl⟩

/-- The directories above the next entry. -/
theorem Built.createParent (h : Built destRoot fs₀ entries d) (hnext : Next destRoot entries e) (relpath : Bytes) :
    Built destRoot fs₀ entries (createParent relpath (destRoot ++ e.parts) d).2 := by
  rw [Git.createParent, hnext.components_eq]
  split_ifs
  · exact h
  obtain ⟨hhoused, hgrown⟩ := Housed.createDirAll hnext.noHere hnext.noUp hnext.treeNames (List.dropLast_prefix (destRoot ++ e.parts)) d
    ⟨h.housed, fun p => .inl rfl⟩
  exact h.grown hhoused hgrown (h.inside.createDirAll h.housed.rooted (h.straight hnext) (List.dropLast_prefix _))

theorem written_eq (old : Option Posix.Node) (content : Bytes) : ∃ executable, written old content = .file executable content := by
  rcases old with _ | _ | ⟨executable, _⟩ | _ | _
  · exact ⟨false, rfl⟩
  · exact ⟨false, rfl⟩
  · exact ⟨executable, rfl⟩
  · exact ⟨false, rfl⟩
  · exact ⟨false, rfl⟩

/-- A file is written, and its execute bit is set. -/
theorem Built.writeFile (h : Built destRoot fs₀ entries d) (hnext : Next destRoot entries e) (hmode : e.modeByte ≠ modeSymlink)
    (hok : (Posix.writeFile (destRoot ++ e.parts) e.content d).1 = .ok ()) :
    Built destRoot fs₀ (entries ++ [e]) (chmod (decide (e.modeByte = modeExecutable)) (destRoot ++ e.parts)
      (Posix.writeFile (destRoot ++ e.parts) e.content d).2).2 := by
  have hbelow : destRoot <+: destRoot ++ e.parts := List.prefix_append _ _
  have hstraight := h.straight hnext
  have hnot := h.not_symlink hnext hmode
  obtain ⟨hdir, hparent, hfs⟩ := writeFile_straight hstraight hnot h.housed.closed hok
  obtain ⟨old, hold⟩ := written_eq (d.fs.get? (destRoot ++ e.parts)) e.content
  rw [hold] at hfs
  have hhoused : Housed destRoot TreeName (Posix.writeFile (destRoot ++ e.parts) e.content d).2.fs := by
    rw [hfs]
    exact h.housed.insert hnext.treeNames hparent hdir _
  have hfile : (Posix.writeFile (destRoot ++ e.parts) e.content d).2.fs.get? (destRoot ++ e.parts) = some (.file old e.content) := by
    rw [hfs, BTreeMap.get?_insert, if_pos rfl]
  have hne : destRoot ++ e.parts ≠ [] := by
    obtain ⟨q, c, hq, -⟩ := hparent
    rw [hq]
    exact List.append_ne_nil_of_right_ne_nil _ (List.cons_ne_nil _ _)
  have hparent' : ∃ q c, destRoot ++ e.parts = q ++ [c] ∧ nodeAt (Posix.writeFile (destRoot ++ e.parts) e.content d).2.fs q = some .dir :=
    hhoused.closed.parent (by rw [nodeAt_of_ne hne, hfile]; simp) (by rw [nodeAt_of_ne hne, hfile]; simp)
  have hnode : leafOf (.file (decide (e.modeByte = modeExecutable)) e.content) = some (e.modeByte, e.content) := by
    -- the mode of a file that is no symlink is one of two
    rcases hnext.sound.mode with hregular | hexecutable | hlink
    · rw [hregular]
      rfl
    · rw [hexecutable]
      rfl
    · exact absurd hlink hmode
  rw [chmod_file hhoused.closed hnext.noHere_target hnext.noUp_target hne hfile]
  refine h.put (hhoused.insert hnext.treeNames hparent' (by rw [nodeAt_of_ne hne, hfile]; simp) _)
    ((h.inside.writeFile hbelow hstraight hnot e.content).insert hbelow _) (fun p => ?_) hnode fun text heq => by cases heq
  rw [BTreeMap.get?_insert, hfs, BTreeMap.get?_insert]
  split_ifs <;> rfl

/-- A symlink is made in the place of what was there. -/
theorem Built.symlink (h : Built destRoot fs₀ entries d) (hnext : Next destRoot entries e) (hmode : e.modeByte = modeSymlink)
    (hutf8 : isUtf8 e.content = true)
    (hok : (Posix.symlink e.content (destRoot ++ e.parts) (unlink (destRoot ++ e.parts) d).2).1 = .ok ()) :
    Built destRoot fs₀ (entries ++ [e]) (Posix.symlink e.content (destRoot ++ e.parts) (unlink (destRoot ++ e.parts) d).2).2 := by
  have hbelow : destRoot <+: destRoot ++ e.parts := List.prefix_append _ _
  have hstraight := h.straight hnext
  have hunlinked : Housed destRoot TreeName (unlink (destRoot ++ e.parts) d).2.fs ∧
      Straight (unlink (destRoot ++ e.parts) d).2.fs (destRoot ++ e.parts) ∧
      ∀ p, p ≠ destRoot ++ e.parts → (unlink (destRoot ++ e.parts) d).2.fs.get? p = d.fs.get? p := by
    rcases unlink_straight hstraight with hsame | ⟨hdir, herased⟩
    · rw [hsame]
      exact ⟨h.housed, hstraight, fun _ _ => rfl⟩
    · rw [herased]
      refine ⟨h.housed.erase hdir, ⟨hstraight.noHere, hstraight.noUp, fun q hq hne hlast text hget => ?_⟩, fun p hp => ?_⟩
      · rw [BTreeMap.get?_erase, if_neg hlast] at hget
        exact hstraight.noLink q hq hne hlast text hget
      · rw [BTreeMap.get?_erase, if_neg hp]
  obtain ⟨hhoused, hstraight', hother⟩ := hunlinked
  obtain ⟨hnone, hparent, hfs⟩ := symlink_straight hstraight' hhoused.closed hok
  have hdir : nodeAt (unlink (destRoot ++ e.parts) d).2.fs (destRoot ++ e.parts) ≠ some .dir := by
    obtain ⟨q, c, hp, -⟩ := hparent
    rw [hp, nodeAt_concat, ← hp, hnone]
    exact (Option.some_ne_none _).symm
  have hhoused' : Housed destRoot TreeName (Posix.symlink e.content (destRoot ++ e.parts) (unlink (destRoot ++ e.parts) d).2).2.fs := by
    rw [hfs]
    exact hhoused.insert hnext.treeNames hparent hdir _
  have hnode : leafOf (.symlink e.content) = some (e.modeByte, e.content) := by
    rw [hmode]
    rfl
  refine h.put hhoused' ((h.inside.unlink hbelow hstraight).symlink hbelow hstraight' e.content) (fun p => ?_) hnode fun text heq => ?_
  · rw [hfs, BTreeMap.get?_insert]
    split_ifs with hp
    · rfl
    · exact hother p hp
  · cases heq
    exact hutf8

/-- One entry. -/
theorem Built.step (h : Built destRoot fs₀ entries d) (hnext : Next destRoot entries e)
    (hok : (materializeEntry destRoot e d).1 = .ok ()) : Built destRoot fs₀ (entries ++ [e]) (materializeEntry destRoot e d).2 := by
  rw [materializeEntry, hnext.target_eq] at hok ⊢
  obtain ⟨-, hok, hrun⟩ := refuse_cases hok
  rw [hrun]
  clear hrun
  by_cases hmode : e.modeByte = modeSymlink
  · rw [if_pos hmode, materializeSymlink] at hok ⊢
    obtain ⟨hutf8, hok, hrun⟩ := refuse_cases hok
    rw [hrun]
    obtain ⟨-, hok, hrun⟩ := refuse_cases hok
    rw [hrun]
    obtain ⟨_, -, hok, hrun⟩ := bind_cases hok
    rw [hrun]
    obtain ⟨_, -, hok, hrun⟩ := bind_cases hok
    rw [hrun]
    obtain ⟨-, hok, hrun⟩ := refuse_cases hok
    rw [hrun]
    exact (h.createParent hnext e.relpath).symlink hnext hmode (by simpa using hutf8) (SafeExtract.mapError_eq_ok hok)
  · rw [if_neg hmode, materializeFile] at hok ⊢
    obtain ⟨-, hok, hrun⟩ := refuse_cases hok
    rw [hrun]
    obtain ⟨_, -, hok, hrun⟩ := bind_cases hok
    rw [hrun]
    obtain ⟨_, hwrite, hok, hrun⟩ := bind_cases hok
    rw [hrun]
    exact (h.createParent hnext e.relpath).writeFile hnext hmode (SafeExtract.mapError_eq_ok hwrite)

end Built

/-! ### Whole trees -/

section Faithful

variable {destRoot : Path} {fs : FileSystem}

theorem built_nil (hdest : EmptyDest destRoot fs) : Built destRoot fs [] ⟨fs, []⟩ where
  housed := ⟨hdest.rooted, hdest.closed, fun q hq => by
    obtain ⟨node, hget⟩ := Option.ne_none_iff_exists'.mp hq
    rw [(hdest.empty q node hget).1]
    exact fun c hc => absurd hc List.not_mem_nil⟩
  leaves q := by
    cases hget : fs.get? (destRoot ++ q) with
    | none => rfl
    | some node =>
      rw [(hdest.empty q node hget).2]
      rfl
  targets q text hget := by cases (hdest.empty q _ hget).2
  inside := ⟨fun p hp => absurd hp List.not_mem_nil, fun p _ => rfl⟩

/-- The loop over the entries, by induction on those that are left. -/
theorem Built.run {fs₀ : FileSystem} (hhere : here ∉ destRoot) (hup : up ∉ destRoot) {before rest : List MaterializedEntry} {d : Disk}
    (hplain : PlainEntries (before ++ rest)) (hsound : ∀ e ∈ before ++ rest, SoundEntry e) (h : Built destRoot fs₀ before d)
    (hok : (materializeEntries destRoot rest d).1 = .ok ()) :
    Built destRoot fs₀ (before ++ rest) (materializeEntries destRoot rest d).2 := by
  induction rest generalizing before d with
  | nil =>
    rw [List.append_nil]
    exact h
  | cons e rest ih =>
    rw [materializeEntries] at hok ⊢
    obtain ⟨_, hfirst, hlater, hrun⟩ := bind_cases hok
    rw [hrun]
    have hmem : e ∈ before ++ e :: rest := List.mem_append_right _ List.mem_cons_self
    have hnext : Next destRoot before e :=
      ⟨hsound e hmem, hplain.names e hmem, fun s hs => (List.pairwise_append.mp hplain.apart).2.2 s hs e List.mem_cons_self, hhere, hup⟩
    have hsplit : before ++ e :: rest = before ++ [e] ++ rest := by simp
    rw [hsplit] at hplain hsound ⊢
    exact ih hplain hsound (h.step hnext hfirst) hlater

/-- The tree below the directory is one that can be hashed. -/
theorem Built.soundTree {fs₀ : FileSystem} {entries : List MaterializedEntry} {d : Disk} (h : Built destRoot fs₀ entries d) :
    SoundTree (below destRoot d.fs) where
  root := by rw [get?_below, if_pos rfl]
  parents p c hp hget := by
    rw [get?_below, if_neg (by simp), ← List.append_assoc] at hget
    rw [get?_below, if_neg hp, ← nodeAt_of_ne (by simp [hp])]
    exact h.housed.closed _ c hget
  names p hget := by
    rw [get?_below] at hget
    split_ifs at hget
    · exact absurd rfl hget
    · exact fun c hc => (h.housed.names p hget c hc).1
  targets p target hget := by
    rw [get?_below] at hget
    split_ifs at hget
    exact h.targets p target hget

/-- No path has two commits. -/
def OnePinEach (pins : List (Bytes × Str)) : Prop := ∀ path sha sha', (path, sha) ∈ pins → (path, sha') ∈ pins → sha = sha'

/-- The last pins are all pins exactly when no path has two. -/
theorem lastPin_iff_mem (pins : List (Bytes × Str)) : (∀ path sha, lastPin pins path = some sha ↔ (path, sha) ∈ pins) ↔ OnePinEach pins := by
  constructor
  · intro h path sha sha' hmem hmem'
    have heq := ((h path sha).mpr hmem).symm.trans ((h path sha').mpr hmem')
    exact Option.some_inj.mp heq
  · intro h path sha
    refine ⟨mem_of_lastPin, fun hmem => ?_⟩
    obtain ⟨sha', hlast⟩ := exists_of_mem_pins hmem
    rw [hlast, h path sha' sha (mem_of_lastPin hlast) hmem]

/-- What a materialization is for: it stays inside of the directory, which gets no `.git` and the identity of the entries, and it gives
the commits of all gitlinks that it has followed. -/
structure Faithful (destRoot : Path) (fs : FileSystem) (entries : List MaterializedEntry) (pins : List (Bytes × Str))
    (results : BTreeMap Bytes Str) (d : Disk) : Prop where
  inside : Inside destRoot fs d
  noGit : ∀ q, d.fs.get? (destRoot ++ q) ≠ none → gitComponent ∉ q
  identity : ∀ s, computeContentHash (below destRoot d.fs) = .ok s ↔ computeDagIdentity entries = .ok s
  pinned : ∀ path sha, results.get? path = some sha ↔ (path, sha) ∈ pins

/-- **A plain tree is materialized faithfully** if none of its gitlinks has the path of another one with another commit, and otherwise
not. -/
theorem materializeGitTree_faithful (store : Store) (commit : Str) (fetch : Option SubmoduleFetch) (url : Option Str)
    (hhere : here ∉ destRoot) (hup : up ∉ destRoot) (hdest : EmptyDest destRoot fs)
    (hplain : ∀ s, splice fetch maxSubmoduleDepth store commit url = some s → PlainEntries s.entries) {results : BTreeMap Bytes Str}
    (hok : (materializeGitTree destRoot store commit fetch url ⟨fs, []⟩).1 = .ok results) :
    ∃ s, splice fetch maxSubmoduleDepth store commit url = some s ∧ enumerateGitEntries store commit fetch url = .ok ⟨s.entries, results⟩ ∧
      (Faithful destRoot fs s.entries s.pins results (materializeGitTree destRoot store commit fetch url ⟨fs, []⟩).2 ↔ OnePinEach s.pins) := by
  rw [materializeGitTree] at hok ⊢
  obtain ⟨e, he, hok, hrun⟩ := bind_cases hok
  rw [hrun]
  obtain ⟨_, hwritten, hok, hrun⟩ := bind_cases hok
  rw [hrun]
  cases hok
  obtain ⟨s, hs, hgives⟩ := enumerateInner_splice he
  rw [hgives.entries] at hwritten
  have hbuilt := Built.run hhere hup (show PlainEntries ([] ++ s.entries) from hplain s hs) hgives.sound (built_nil hdest) hwritten
  have hidentity : ∀ text, computeContentHash (below destRoot (materializeEntries destRoot s.entries ⟨fs, []⟩).2.fs) = .ok text ↔
      computeDagIdentity s.entries = .ok text := by
    refine hbuilt.soundTree.computeContentHash_eq_ok fun relpath _ => ?_
    rw [contentAt_eq_leafAt fun entry hentry hgit => ((hplain s hs).names entry hentry _ hgit).2.2.2 rfl, get?_below,
      if_neg (List.splitOn_ne_nil _ _)]
    exact (hbuilt.leaves _).symm
  have hpins : (∀ path sha, e.results.get? path = some sha ↔ (path, sha) ∈ s.pins) ↔ OnePinEach s.pins := by
    rw [← lastPin_iff_mem]
    exact forall_congr' fun path => by rw [hgives.results]
  rw [hgives.entries]
  refine ⟨s, hs, ?_, fun h => hpins.mp h.pinned, fun h => ⟨hbuilt.inside, fun q hq hgit => ?_, hidentity, hpins.mpr h⟩⟩
  · rw [← hgives.entries]
    exact he
  · exact (hbuilt.housed.names q hq _ hgit).2 rfl

end Faithful

instance (pins : List (Bytes × Str)) : Decidable (OnePinEach pins) :=
  decidable_of_iff (∀ pin ∈ pins, ∀ pin' ∈ pins, pin.1 = pin'.1 → pin.2 = pin'.2)
    ⟨fun h _ _ _ hmem hmem' => h _ hmem _ hmem' rfl, fun h pin hpin pin' hpin' heq => h pin.1 pin.2 pin'.2 hpin (heq ▸ hpin')⟩

/-! ### A tree with a submodule -/

/-- A record, with the type that its mode asks for. -/
def record (mode sha path : String) (h : Token mode ∧ Token sha ∧ 0 ∉ textBytes path := by decide +kernel) : TreeRecord :=
  ⟨mode, if mode = "160000" then .commit else .blob, sha, textBytes path, h⟩

/-- A store with one commit. -/
def storeOf (commit : String) (records : List TreeRecord) (objects : List (String × String)) : Store where
  tree name := if name = commit.toList then some records else none
  object sha := (objects.find? fun o => decide (o.1.toList = sha)).bind fun o =>
    if h : (textBytes o.2).length < 2 ^ 64 then some ⟨.blob, textBytes o.2, h⟩ else none

/-- A project with a symlink, and with a submodule at a relative URL. -/
def projectStore : Store :=
  storeOf "c0" [record "100644" "a1" ".gitmodules", record "120000" "a2" "doc", record "160000" "d0" "lib", record "100644" "a3" "src/app.nim"]
    [("a1", "[submodule \"lib\"]\n\tpath = lib\n\turl = ../lib\n"), ("a2", "lib/doc"), ("a3", "import lib")]

/-- The submodule, with an executable. -/
def libStore : Store := storeOf "d0" [record "100644" "b1" "doc/a", record "100755" "b2" "run"] [("b1", "alpha"), ("b2", "boo")]

/-- What there is to fetch. -/
def libFetch : SubmoduleFetch := fun url _ => if url = "https://h/lib".toList then .ok libStore else .error ("FETCH-FAILED", [])

theorem materializeGitTree_faithful_project :
    ∃ s results, splice (some libFetch) maxSubmoduleDepth projectStore "c0" (some "https://h/o/app") = some s ∧
      s.pins = [(textBytes "lib", "d0".toList)] ∧ Faithful SafeExtract.pkg SafeExtract.emptyPkg s.entries s.pins results
        (materializeGitTree SafeExtract.pkg projectStore "c0" (some libFetch) (some "https://h/o/app") ⟨SafeExtract.emptyPkg, []⟩).2 := by
  have hplain : ∀ s ∈ splice (some libFetch) maxSubmoduleDepth projectStore "c0" (some "https://h/o/app"),
      PlainEntries s.entries ∧ s.pins = [(textBytes "lib", "d0".toList)] := by decide +kernel
  have hsome : (materializeGitTree SafeExtract.pkg projectStore "c0" (some libFetch) (some "https://h/o/app")
      ⟨SafeExtract.emptyPkg, []⟩).1.toOption.isSome = true := by decide +kernel
  cases hresult : (materializeGitTree SafeExtract.pkg projectStore "c0" (some libFetch) (some "https://h/o/app")
      ⟨SafeExtract.emptyPkg, []⟩).1 with
  | error err =>
    rw [hresult] at hsome
    cases hsome
  | ok results =>
    obtain ⟨s, hs, -, hfaithful⟩ := materializeGitTree_faithful projectStore "c0" (some libFetch) (some "https://h/o/app") (by decide)
      (by decide) SafeExtract.emptyPkg_emptyDest (fun s hs => (hplain s hs).1) hresult
    have hpins := (hplain s hs).2
    refine ⟨s, results, hs, hpins, hfaithful.mpr ?_⟩
    rw [hpins]
    decide

/-! ### A tree that leaves its directory -/

/-- Two symlinks that lead back to the directory, as far as their texts say, the second made through the first, and a file below that. -/
def hostileStore : Store :=
  storeOf "c0" [record "120000" "a1" "x", record "120000" "a2" "x/y", record "100644" "a3" "y/evil"]
    [("a1", "."), ("a2", ".."), ("a3", "boo")]

/-- The materialization succeeds, and the file is written outside of the directory. -/
theorem hostile_escapes :
    let r := materializeGitTree SafeExtract.pkg hostileStore "c0" none none ⟨SafeExtract.emptyPkg, []⟩
    r.1.toOption.isSome = true ∧ ¬ SafeExtract.pkg <+: [textBytes "evil"] ∧ [textBytes "evil"] ∈ r.2.touched ∧
      r.2.fs.get? [textBytes "evil"] = some (.file false (textBytes "boo")) := by
  decide +kernel

end Milpa.Core.Git

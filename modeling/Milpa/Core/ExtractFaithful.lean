import Milpa.Core.ExtractContained
import Milpa.Core.Seam
import Milpa.Posix.Straight

/-!
# An extracted tree and its sequence

`extract_tar` writes the entries of an archive to a disk, and `tar_materialize_entries`
makes a sequence of them. For a plain archive, extracted below an empty directory, the tree
on disk has the identity of the sequence (`extractTar_faithful`). An archive with an
executable has not (`executable_differs`).
-/

namespace Milpa.Core.SafeExtract

open Posix Program
open DagIdentity (MaterializedEntry modeRegular modeSymlink gitComponent computeDagIdentity contentAt textBytes)

/-! ### Plain archives -/

/-- The name of an entry that is written as a file or as a symlink. -/
def leafName (strip : ℕ) (e : TarEntry) : Option Path := if e.kind = .dir ∨ e.kind = .other then none else stripName strip e.name

/-- An archive that the extraction and the sequence agree on. -/
structure PlainArchive (strip : ℕ) (es : List TarEntry) : Prop where
  /-- No name has a `..`. -/
  noUp : ∀ e ∈ es, ∀ p ∈ leafName strip e, up ∉ p
  /-- No file has an execute bit, except under `.git`. -/
  regular : ∀ e ∈ es, e.kind ≠ .symlink → ∀ p ∈ leafName strip e, gitComponent ∉ p → modeByte e.mode = modeRegular
  /-- No name goes through a symlink. -/
  notCrossed : ∀ s ∈ es, ∀ q ∈ nameAt strip .symlink s, ∀ e ∈ es, ∀ p ∈ leafName strip e, q <+: p → q = p
  /-- No file comes after a symlink of its name. -/
  notOver : es.Pairwise fun s e => ∀ p ∈ nameAt strip .symlink s, p ∉ nameAt strip .file e
  /-- No hardlink has the name of a symlink. -/
  linkApart : ∀ h ∈ es, ∀ p ∈ nameAt strip .hardLink h, ∀ s ∈ es, p ∉ nameAt strip .symlink s
  /-- Each hardlink is to a name of a file, and of no symlink. -/
  linked : ∀ h ∈ es, ∀ _p ∈ nameAt strip .hardLink h, ∃ link ∈ stripName strip h.linkname,
    (∃ f ∈ es, link ∈ nameAt strip .file f) ∧ ∀ s ∈ es, link ∉ nameAt strip .symlink s
  /-- No hardlink is to a name that an earlier one has, except to itself. -/
  unwritten : es.Pairwise fun h h' => ∀ p ∈ nameAt strip .hardLink h, ∀ _p' ∈ nameAt strip .hardLink h',
    p ∈ stripName strip h'.linkname → p ∈ stripName strip h.linkname

theorem mem_leafName {strip : ℕ} {e : TarEntry} {p : Path} :
    p ∈ leafName strip e ↔ (e.kind ≠ .dir ∧ e.kind ≠ .other) ∧ stripName strip e.name = some p := by
  rw [leafName, Option.mem_def]
  split_ifs with h
  · exact ⟨fun hp => hp.elim, fun hp => absurd hp.1 (by rcases h with h | h <;> simp [h])⟩
  · exact ⟨fun hp => ⟨not_or.mp h, hp⟩, fun hp => hp.2⟩

set_option synthInstance.maxSize 256 in
instance (strip : ℕ) (es : List TarEntry) : Decidable (PlainArchive strip es) :=
  decidable_of_iff ((∀ e ∈ es, ∀ p ∈ leafName strip e, up ∉ p) ∧
      (∀ e ∈ es, e.kind ≠ .symlink → ∀ p ∈ leafName strip e, gitComponent ∉ p → modeByte e.mode = modeRegular) ∧
      (∀ s ∈ es, ∀ q ∈ nameAt strip .symlink s, ∀ e ∈ es, ∀ p ∈ leafName strip e, q <+: p → q = p) ∧
      (es.Pairwise fun s e => ∀ p ∈ nameAt strip .symlink s, p ∉ nameAt strip .file e) ∧
      (∀ h ∈ es, ∀ p ∈ nameAt strip .hardLink h, ∀ s ∈ es, p ∉ nameAt strip .symlink s) ∧
      (∀ h ∈ es, ∀ _p ∈ nameAt strip .hardLink h, ∃ link ∈ stripName strip h.linkname,
        (∃ f ∈ es, link ∈ nameAt strip .file f) ∧ ∀ s ∈ es, link ∉ nameAt strip .symlink s) ∧
      es.Pairwise fun h h' => ∀ p ∈ nameAt strip .hardLink h, ∀ _p' ∈ nameAt strip .hardLink h',
        p ∈ stripName strip h'.linkname → p ∈ stripName strip h.linkname)
    ⟨fun ⟨h₁, h₂, h₃, h₄, h₅, h₆, h₇⟩ => ⟨h₁, h₂, h₃, h₄, h₅, h₆, h₇⟩,
      fun h => ⟨h.noUp, h.regular, h.notCrossed, h.notOver, h.linkApart, h.linked, h.unwritten⟩⟩

/-! ### What a tree has of a sequence -/

/-- What a node is, up to its execute bit: whether it is a symlink, and its content. -/
def leafKind : Posix.Node → Option (Bool × Bytes)
  | .file _ content => some (false, content)
  | .symlink target => some (true, target)
  | .dir => none
  | .other => none

/-- Below the destination there is what a sequence has, and no file has an execute bit. -/
structure Written (destRoot : Path) (entries : List MaterializedEntry) (fs : FileSystem) : Prop where
  housed : Housed destRoot GoodName fs
  leaves : ∀ q, (fs.get? (destRoot ++ q)).bind leafKind = lastAt entries q
  unset : ∀ q executable content, fs.get? (destRoot ++ q) = some (.file executable content) → executable = false
  targets : ∀ q text, fs.get? (destRoot ++ q) = some (.symlink text) → isUtf8 text = true

section Written

variable {destRoot : Path} {entries : List MaterializedEntry} {fs : FileSystem} {d : Disk}

/-- New directories do not matter. -/
theorem Written.grown (h : Written destRoot entries fs) (hhoused : Housed destRoot GoodName d.fs) (hgrown : Grown fs d) :
    Written destRoot entries d.fs where
  housed := hhoused
  leaves q := by
    rw [← h.leaves q]
    rcases hgrown (destRoot ++ q) with hold | ⟨hnone, hnew⟩
    · rw [hold]
    · rw [hnone, hnew]
      rfl
  unset q executable content hget := by
    rcases hgrown (destRoot ++ q) with hold | ⟨-, hnew⟩
    · exact h.unset q executable content (by rw [← hold, hget])
    · rw [hnew] at hget
      cases hget
  targets q text hget := by
    rcases hgrown (destRoot ++ q) with hold | ⟨-, hnew⟩
    · exact h.targets q text (by rw [← hold, hget])
    · rw [hnew] at hget
      cases hget

/-- Another node at a path is another entry there. -/
theorem Written.put (h : Written destRoot entries fs) (node : Posix.Node) {fs' : FileSystem} (hhoused : Housed destRoot GoodName fs')
    {parts : Path} (hget : ∀ p, fs'.get? p = if p = destRoot ++ parts then some node else fs.get? p) {e : MaterializedEntry}
    (hparts : e.parts = parts) (hnode : leafKind node = some (decide (e.modeByte = modeSymlink), e.content))
    (hunset : ∀ content, node ≠ .file true content) (htarget : ∀ text, node = .symlink text → isUtf8 text = true) :
    Written destRoot (entries ++ [e]) fs' where
  housed := hhoused
  leaves q := by
    rw [lastAt_concat, hget, hparts]
    by_cases heq : parts = q
    · rw [if_pos heq, if_pos (by rw [heq])]
      exact hnode
    · rw [if_neg heq, if_neg fun h' => heq (List.append_cancel_left h').symm]
      exact h.leaves q
  unset q executable content hfile := by
    rw [hget] at hfile
    split_ifs at hfile with heq
    · cases executable with
      | false => rfl
      | true => exact absurd (Option.some_inj.mp hfile) (hunset content)
    · exact h.unset q executable content hfile
  targets q text hlink := by
    rw [hget] at hlink
    split_ifs at hlink with heq
    · exact htarget text (Option.some_inj.mp hlink)
    · exact h.targets q text hlink

/-- A symlink below the destination is one of the sequence. -/
theorem Written.exists_of_symlink (h : Written destRoot entries fs) {q : Path} {text : Bytes}
    (hget : fs.get? (destRoot ++ q) = some (.symlink text)) : ∃ e ∈ entries, e.parts = q ∧ e.modeByte = modeSymlink := by
  have hlast := h.leaves q
  rw [hget] at hlast
  obtain ⟨e, he, hparts, hv⟩ := exists_of_lastAt hlast.symm
  exact ⟨e, he, hparts, of_decide_eq_true (Prod.ext_iff.mp hv).1.symm⟩

/-- A file that is last at a path is there. -/
theorem Written.exists_of_file (h : Written destRoot entries fs) {q : Path} {content : Bytes} (hlast : lastAt entries q = some (false, content)) :
    ∃ executable, fs.get? (destRoot ++ q) = some (.file executable content) := by
  rw [← h.leaves q] at hlast
  obtain ⟨node, hget, hnode⟩ := Option.bind_eq_some_iff.mp hlast
  cases node with
  | dir => cases hnode
  | other => cases hnode
  | symlink text => cases hnode
  | file executable content' =>
    cases hnode
    exact ⟨executable, hget⟩

/-- The entries that are symlinks have names of symlinks of the archive. -/
def LinksFrom (strip : ℕ) (es : List TarEntry) (entries : List MaterializedEntry) : Prop :=
  ∀ e ∈ entries, e.modeByte = modeSymlink → ∃ s ∈ es, e.parts ∈ nameAt strip .symlink s

/-- The name of an entry crosses no symlink that was written. -/
theorem Written.straight {strip : ℕ} {es : List TarEntry} (h : Written destRoot entries fs) (hplain : PlainArchive strip es)
    (hfrom : LinksFrom strip es entries) (hhere : here ∉ destRoot) (hup : up ∉ destRoot) {e : TarEntry} (he : e ∈ es) {parts : Path}
    (hname : parts ∈ leafName strip e) : Straight fs (destRoot ++ parts) where
  noHere := by
    rw [List.mem_append, not_or]
    exact ⟨hhere, here_notMem (mem_leafName.mp hname).2⟩
  noUp := by
    rw [List.mem_append, not_or]
    exact ⟨hup, hplain.noUp e he parts hname⟩
  noLink q hq hne hlast text hget := by
    rcases List.prefix_or_prefix_of_prefix hq (List.prefix_append destRoot parts) with habove | ⟨q', rfl⟩
    · rw [h.housed.rooted q habove hne] at hget
      cases hget
    · obtain ⟨e', he', hparts, hmode⟩ := h.exists_of_symlink hget
      obtain ⟨s, hs, hsname⟩ := hfrom e' he' hmode
      rw [hparts] at hsname
      have heq := hplain.notCrossed s hs q' hsname e he parts hname ((List.prefix_append_right_inj destRoot).mp hq)
      exact hlast (by rw [heq])

end Written

/-! ### What an extraction that succeeds has done -/

section Runs

variable {destRoot : Path} {strip : ℕ} {limits : Limits} {d : Disk}

/-- A program that succeeds has run its parts. -/
theorem bind_run {α β : Type} {m : Extract α} {f : α → Extract β} {b : β} (h : ((m >>= f) d).1 = .ok b) :
    ∃ a, (m d).1 = .ok a ∧ (f a (m d).2).1 = .ok b ∧ (m >>= f) d = f a (m d).2 := by
  obtain ⟨a, hm, hf⟩ := bind_eq_ok h
  exact ⟨a, hm, hf, bind_ok hm⟩

theorem mapError_eq_ok {ε ε' α : Type} {g : ε → ε'} {m : Program ε α} {a : α} (h : (m.mapError g d).1 = .ok a) : (m d).1 = .ok a := by
  change (m d).1.mapError g = .ok a at h
  cases hm : (m d).1 with
  | error e =>
    rw [hm] at h
    cases h
  | ok a' =>
    rw [hm] at h
    have heq : a' = a := Except.ok.inj h
    rw [heq]

theorem reject_disk (c : Prop) [Decidable c] (e : ExtractError) : (reject c e d).2 = d := by
  rw [reject]
  split_ifs <;> rfl

theorem countFile_disk (p : Progress) : (countFile limits p d).2 = d := by
  by_cases h : limits.maxFileCount < p.fileCount + 1
  · rw [countFile, reject_error h]
  · rw [countFile, reject_ok h]
    rfl

theorem countBytes_disk (p : Progress) (size : ℕ) : (countBytes limits p size d).2 = d := by
  by_cases h : limits.maxTotalSize < p.totalBytes + size
  · rw [countBytes, reject_error h]
  · rw [countBytes, reject_ok h]
    rfl

theorem extractFile_run {p p' : Progress} {entry : TarEntry} {target : Path}
    (hok : (extractFile limits p entry target d).1 = .ok p') :
    (writeFile target entry.data (createParent entry.name target d).2).1 = .ok () ∧
      (extractFile limits p entry target d).2 = (writeFile target entry.data (createParent entry.name target d).2).2 := by
  rw [extractFile] at hok ⊢
  obtain ⟨_, -, hok, hrun⟩ := bind_run hok
  rw [hrun, reject_disk]
  rw [reject_disk] at hok
  obtain ⟨p₁, -, hok, hrun⟩ := bind_run hok
  rw [hrun, countBytes_disk]
  rw [countBytes_disk] at hok
  obtain ⟨p₂, -, hok, hrun⟩ := bind_run hok
  rw [hrun, countFile_disk]
  rw [countFile_disk] at hok
  obtain ⟨_, -, hok, hrun⟩ := bind_run hok
  rw [hrun]
  obtain ⟨_, hwrite, -, hrun⟩ := bind_run hok
  rw [hrun]
  exact ⟨mapError_eq_ok hwrite, rfl⟩

theorem extractSymlink_run {p p' : Progress} {entry : TarEntry} {target : Path}
    (hok : (extractSymlink destRoot limits p entry target d).1 = .ok p') :
    (Posix.symlink entry.linkname target (unlink target (createParent entry.name target d).2).2).1 = .ok () ∧
      (extractSymlink destRoot limits p entry target d).2 =
        (Posix.symlink entry.linkname target (unlink target (createParent entry.name target d).2).2).2 := by
  rw [extractSymlink] at hok ⊢
  obtain ⟨_, -, hok, hrun⟩ := bind_run hok
  rw [hrun, reject_disk]
  rw [reject_disk] at hok
  obtain ⟨_, -, hok, hrun⟩ := bind_run hok
  rw [hrun]
  obtain ⟨_, -, hok, hrun⟩ := bind_run hok
  rw [hrun]
  obtain ⟨_, hlink, -, hrun⟩ := bind_run hok
  rw [hrun, countFile_disk]
  exact ⟨mapError_eq_ok hlink, rfl⟩

/-- The making of a parent adds directories. -/
theorem createParent_grown (name : Bytes) {parts : Path} (hhere : here ∉ destRoot) (hup : up ∉ destRoot) (hgood : ∀ c ∈ parts, GoodName c)
    (h : Housed destRoot GoodName d.fs) : Housed destRoot GoodName (createParent name (destRoot ++ parts) d).2.fs ∧
      Grown d.fs (createParent name (destRoot ++ parts) d).2 := by
  rw [createParent]
  split_ifs
  · exact ⟨h, fun p => .inl rfl⟩
  · exact Housed.createDirAll hhere hup hgood (List.dropLast_prefix _) d ⟨h, fun p => .inl rfl⟩

variable {entries : List MaterializedEntry} {es : List TarEntry}

/-- A file that is written is the last entry of its name. -/
theorem Written.writeFile (h : Written destRoot entries d.fs) {parts : Path} {content : Bytes} (hstraight : Straight d.fs (destRoot ++ parts))
    (hlast : ∀ text, d.fs.get? (destRoot ++ parts) ≠ some (.symlink text)) (hgood : ∀ c ∈ parts, GoodName c)
    (hok : (writeFile (destRoot ++ parts) content d).1 = .ok ()) {e : MaterializedEntry} (hparts : e.parts = parts)
    (hmode : e.modeByte ≠ modeSymlink) (hcontent : e.content = content) :
    Written destRoot (entries ++ [e]) (writeFile (destRoot ++ parts) content d).2.fs := by
  obtain ⟨hdir, hparent, hfs⟩ := writeFile_straight hstraight hlast h.housed.closed hok
  rw [hfs]
  have hunset : ∀ executable content', d.fs.get? (destRoot ++ parts) = some (.file executable content') → executable = false := h.unset parts
  refine h.put (written (d.fs.get? (destRoot ++ parts)) content) (h.housed.insert hgood hparent hdir _) (fun p => ?_) hparts ?_ ?_ ?_
  · rw [BTreeMap.get?_insert]
    split_ifs <;> rfl
  · rw [decide_eq_false hmode, hcontent]
    rcases d.fs.get? (destRoot ++ parts) with _ | _ | _ | _ | _ <;> rfl
  · intro content' heq
    rcases hold : d.fs.get? (destRoot ++ parts) with _ | _ | ⟨executable, old⟩ | _ | _ <;> rw [hold] at heq <;> cases heq
    cases hunset true old hold
  · exact fun text heq => absurd heq (written_ne_symlink _ _ _)

/-- A symlink that is made, in the place of what was there, is the last entry of its name. -/
theorem Written.symlink (h : Written destRoot entries d.fs) {parts : Path} {target : Bytes} (hstraight : Straight d.fs (destRoot ++ parts))
    (hgood : ∀ c ∈ parts, GoodName c) (hutf8 : isUtf8 target = true)
    (hok : (Posix.symlink target (destRoot ++ parts) (unlink (destRoot ++ parts) d).2).1 = .ok ()) {e : MaterializedEntry}
    (hparts : e.parts = parts) (hmode : e.modeByte = modeSymlink) (hcontent : e.content = target) :
    Written destRoot (entries ++ [e]) (Posix.symlink target (destRoot ++ parts) (unlink (destRoot ++ parts) d).2).2.fs := by
  have hunlinked : Housed destRoot GoodName (unlink (destRoot ++ parts) d).2.fs ∧ Straight (unlink (destRoot ++ parts) d).2.fs (destRoot ++ parts) ∧
      ∀ p, p ≠ destRoot ++ parts → (unlink (destRoot ++ parts) d).2.fs.get? p = d.fs.get? p := by
    rcases unlink_straight hstraight with hsame | ⟨hdir, herased⟩
    · rw [hsame]
      exact ⟨h.housed, hstraight, fun _ _ => rfl⟩
    · rw [herased]
      refine ⟨h.housed.erase hdir, ⟨hstraight.noHere, hstraight.noUp, fun q hq hne hlast text hget => ?_⟩, fun p hp => ?_⟩
      · rw [BTreeMap.get?_erase, if_neg hlast] at hget
        exact hstraight.noLink q hq hne hlast text hget
      · rw [BTreeMap.get?_erase, if_neg hp]
  obtain ⟨hhoused, hstraight', hother⟩ := hunlinked
  obtain ⟨hnone, hparent, hfs⟩ := symlink_straight hstraight' hhoused.closed hok
  have hdir : nodeAt (unlink (destRoot ++ parts) d).2.fs (destRoot ++ parts) ≠ some .dir := by
    obtain ⟨q, c, hp, -⟩ := hparent
    rw [hp, nodeAt_concat, ← hp, hnone]
    exact (Option.some_ne_none _).symm
  rw [hfs]
  refine h.put (.symlink target) (hhoused.insert hgood hparent hdir _) (fun p => ?_) hparts ?_ ?_ ?_
  · rw [BTreeMap.get?_insert]
    split_ifs with hp
    · rfl
    · exact hother p hp
  · rw [hmode, hcontent]
    rfl
  · intro content heq
    cases heq
  · intro text heq
    cases heq
    exact hutf8

end Runs

/-! ### The first pass -/

section FirstPass

variable {destRoot : Path} {strip : ℕ} {limits : Limits} {es : List TarEntry} {d : Disk}

/-- A name without `..` is kept as it is. -/
theorem targetOf_plain (hhere : here ∉ destRoot) (hup : up ∉ destRoot) {parts : Path} (hhere' : here ∉ parts) (hup' : up ∉ parts) :
    targetOf destRoot parts = destRoot ++ parts :=
  normalizeLexical_plain (by simp [hhere, hhere']) (by simp [hup, hup'])

theorem startsWith_append (destRoot parts : Path) : startsWith (destRoot ++ parts) destRoot = true :=
  List.isPrefixOf_iff_prefix.mpr (List.prefix_append destRoot parts)

theorem normalizeStep_split {root out : Path} {Good : Bytes → Prop} (hup : Good up) {c : Bytes} (hc : Good c)
    (h : ∃ r added, out = r ++ added ∧ r <+: root ∧ ∀ c ∈ added, Good c) :
    ∃ r added, normalizeStep out c = r ++ added ∧ r <+: root ∧ ∀ c ∈ added, Good c := by
  obtain ⟨r, added, rfl, hr, hadded⟩ := h
  rw [normalizeStep]
  split_ifs
  · exact ⟨[], [up], rfl, List.nil_prefix, List.forall_mem_singleton.mpr hup⟩
  · by_cases hnil : added = []
    · refine ⟨r.dropLast, [], ?_, (List.dropLast_prefix r).trans hr, fun c hc => absurd hc List.not_mem_nil⟩
      rw [hnil, List.append_nil, List.append_nil]
    · exact ⟨r, added.dropLast, List.dropLast_append_of_ne_nil hnil, hr, fun c hc => hadded c (List.dropLast_subset _ hc)⟩
  · exact ⟨r, added, rfl, hr, hadded⟩
  · refine ⟨r, added ++ [c], List.append_assoc _ _ _, hr, fun c' hc' => ?_⟩
    rcases List.mem_append.mp hc' with hmem | hmem
    · exact hadded c' hmem
    · rw [List.mem_singleton.mp hmem]
      exact hc

/-- A target below the destination has good names from there. -/
theorem targetOf_tail (hhere : here ∉ destRoot) (hup : up ∉ destRoot) {parts : Path} (hgood : ∀ c ∈ parts, GoodName c)
    (hstart : startsWith (targetOf destRoot parts) destRoot = true) :
    ∃ tail, targetOf destRoot parts = destRoot ++ tail ∧ ∀ c ∈ tail, GoodName c := by
  have hfold : ∀ out, (∃ r added, out = r ++ added ∧ r <+: destRoot ∧ ∀ c ∈ added, GoodName c) →
      ∃ r added, parts.foldl normalizeStep out = r ++ added ∧ r <+: destRoot ∧ ∀ c ∈ added, GoodName c := by
    clear hstart
    induction parts with
    | nil => exact fun out h => h
    | cons c parts ih =>
      obtain ⟨hc, hrest⟩ := List.forall_mem_cons.mp hgood
      exact fun out h => ih hrest _ (normalizeStep_split ⟨by decide, by decide⟩ hc h)
  obtain ⟨r, added, hsplit, ⟨r', hr⟩, hadded⟩ := hfold destRoot ⟨destRoot, [], by simp, List.prefix_refl _, fun c hc => absurd hc List.not_mem_nil⟩
  have htarget : targetOf destRoot parts = r ++ added := by
    have hroot := normalizeLexical_plain hhere hup
    rw [normalizeLexical] at hroot
    rw [targetOf, normalizeLexical, List.foldl_append, hroot, hsplit]
  obtain ⟨tail, htail⟩ := List.isPrefixOf_iff_prefix.mp hstart
  refine ⟨tail, htail.symm, fun c hc => hadded c ?_⟩
  rw [htarget, ← hr, List.append_assoc, List.append_right_inj] at htail
  rw [← htail]
  exact List.mem_append_right _ hc

/-- What holds of the entries of a plain archive: the symlinks are from it, and there is no executable outside of `.git`. -/
structure FromPlain (strip : ℕ) (es : List TarEntry) (entries : List MaterializedEntry) : Prop where
  links : LinksFrom strip es entries
  modes : ∀ e ∈ entries, gitComponent ∉ e.parts → e.modeByte = modeRegular ∨ e.modeByte = modeSymlink

theorem seamOf_fromPlain (hplain : PlainArchive strip es) {before : List TarEntry} (hsub : before ⊆ es) :
    FromPlain strip es (seamOf strip before).entries where
  links e he hmode := by
    obtain ⟨t, ht, hname, ⟨hkind, -⟩ | ⟨-, hmode'⟩⟩ := origin he
    · exact ⟨t, hsub ht, mem_nameAt.mpr ⟨hkind, hname⟩⟩
    · exact absurd (hmode'.symm.trans hmode) (modeByte_ne_symlink _)
  modes e he hgit := by
    obtain ⟨t, ht, hname, ⟨-, hmode⟩ | ⟨hkind, hmode⟩⟩ := origin he
    · exact .inr hmode
    · rw [hmode]
      exact .inl (hplain.regular t (hsub ht) (by simp [hkind]) e.parts (mem_leafName.mpr ⟨by simp [hkind], hname⟩) hgit)

/-- What waits of a hardlink. -/
def pendingOf (destRoot : Path) (strip : ℕ) (e : TarEntry) : PendingHardlink := ⟨e.name, e.linkname, targetOf destRoot (nameParts strip e.name)⟩

/-- Where a symlink is at the name of an entry, one of that name is before it. -/
theorem exists_before {before : List TarEntry} (h : Written destRoot (seamOf strip before).entries d.fs) {parts : Path} {text : Bytes}
    (hget : d.fs.get? (destRoot ++ parts) = some (.symlink text)) : ∃ s ∈ before, parts ∈ nameAt strip .symlink s := by
  obtain ⟨e, he, hparts, hmode⟩ := h.exists_of_symlink hget
  obtain ⟨t, ht, hname, ⟨hkind, -⟩ | ⟨-, hmode'⟩⟩ := origin he
  · exact ⟨t, ht, mem_nameAt.mpr ⟨hkind, by rw [hname, hparts]⟩⟩
  · exact absurd (hmode'.symm.trans hmode) (modeByte_ne_symlink _)

/-- One entry of the first pass writes what the sequence gets, and puts a hardlink off. -/
theorem extractEntry_written (hplain : PlainArchive strip es) (hhere : here ∉ destRoot) (hup : up ∉ destRoot)
    {before after : List TarEntry} {entry : TarEntry} (hsplit : es = before ++ entry :: after)
    (h : Written destRoot (seamOf strip before).entries d.fs) {p p' : Progress}
    (hok : (extractEntry destRoot strip limits p entry d).1 = .ok p') :
    Written destRoot (seamOf strip (before ++ [entry])).entries (extractEntry destRoot strip limits p entry d).2.fs ∧
      p'.hardlinks = p.hardlinks ++ (hardLinks strip [entry]).map (pendingOf destRoot strip) := by
  have hmem : entry ∈ es := by simp [hsplit]
  have hfrom : FromPlain strip es (seamOf strip before).entries := seamOf_fromPlain hplain (by simp [hsplit])
  rw [seamOf_concat, materializeEntry]
  rw [extractEntry] at hok ⊢
  cases hname : stripName strip entry.name with
  | none =>
    rw [hname] at hok
    have hnone : hardLinks strip [entry] = [] := by simp [hardLinks, nameAt, hname]
    cases hok
    exact ⟨h, by rw [hnone, List.map_nil, List.append_nil]⟩
  | some parts =>
    rw [hname] at hok
    dsimp only at hok ⊢
    rw [extractAt] at hok ⊢
    obtain ⟨_, -, hok', hrun⟩ := bind_run hok
    have hstart : startsWith (targetOf destRoot parts) destRoot = true := by
      by_contra hno
      rw [reject_error (by simpa using hno)] at hok
      cases hok
    rw [hrun, reject_disk]
    rw [reject_disk] at hok'
    clear hok hrun
    have hgood := goodName_of_stripName hname entry.utf8.1
    have hnone : entry.kind ≠ .hardLink → hardLinks strip [entry] = [] := fun hkind => by simp [hardLinks, nameAt, hkind]
    cases hkind : entry.kind with
    | hardLink =>
      have hone : hardLinks strip [entry] = [entry] := by simp [hardLinks, nameAt, hkind, hname]
      rw [hkind] at hok'
      cases hok'
      refine ⟨?_, by rw [hone, List.map_singleton, pendingOf, nameParts_eq hname]⟩
      dsimp only
      cases stripName strip entry.linkname <;> exact h
    | dir =>
      rw [hkind] at hok'
      dsimp only at hok' ⊢
      obtain ⟨_, -, hp, hrun⟩ := bind_run hok'
      rw [hrun, hnone (by simp [hkind]), List.map_nil, List.append_nil]
      cases hp
      obtain ⟨tail, htail, htailGood⟩ := targetOf_tail hhere hup hgood hstart
      have hmade : Housed destRoot GoodName (createDirAll (targetOf destRoot parts) d).2.fs ∧ Grown d.fs (createDirAll (targetOf destRoot parts) d).2 := by
        rw [htail]
        exact Housed.createDirAll hhere hup htailGood (List.prefix_refl _) d ⟨h.housed, fun p => .inl rfl⟩
      exact ⟨h.grown hmade.1 hmade.2, rfl⟩
    | other =>
      rw [hkind] at hok'
      cases hok'
      exact ⟨h, by rw [hnone (by simp [hkind]), List.map_nil, List.append_nil]⟩
    | symlink =>
      rw [hkind] at hok'
      dsimp only at hok' ⊢
      have hleaf : parts ∈ leafName strip entry := mem_leafName.mpr ⟨by simp [hkind], hname⟩
      obtain ⟨hlink, hrun⟩ := extractSymlink_run hok'
      rw [extractSymlink_hardlinks hok', hnone (by simp [hkind]), List.map_nil, List.append_nil]
      refine ⟨?_, rfl⟩
      rw [hrun]
      rw [targetOf_plain hhere hup (here_notMem hname) (hplain.noUp entry hmem parts hleaf)] at hlink ⊢
      obtain ⟨hhoused, hgrown⟩ := createParent_grown entry.name hhere hup hgood h.housed
      have hparent := h.grown hhoused hgrown
      exact hparent.symlink (hparent.straight hplain hfrom.links hhere hup hmem hleaf) hgood entry.utf8.2 hlink (splitOn_joinParts hname) rfl rfl
    | file =>
      rw [hkind] at hok'
      dsimp only at hok' ⊢
      have hleaf : parts ∈ leafName strip entry := mem_leafName.mpr ⟨by simp [hkind], hname⟩
      obtain ⟨hwrite, hrun⟩ := extractFile_run hok'
      rw [extractFile_hardlinks hok', hnone (by simp [hkind]), List.map_nil, List.append_nil]
      refine ⟨?_, rfl⟩
      rw [hrun]
      rw [targetOf_plain hhere hup (here_notMem hname) (hplain.noUp entry hmem parts hleaf)] at hwrite ⊢
      obtain ⟨hhoused, hgrown⟩ := createParent_grown entry.name hhere hup hgood h.housed
      have hparent := h.grown hhoused hgrown
      -- a symlink of that name would be before the file
      have hlast : ∀ text, (createParent entry.name (destRoot ++ parts) d).2.fs.get? (destRoot ++ parts) ≠ some (.symlink text) := fun text hget => by
        obtain ⟨s, hs, hsname⟩ := exists_before hparent hget
        have hpairs := hplain.notOver
        rw [hsplit, List.pairwise_append] at hpairs
        exact hpairs.2.2 s hs entry List.mem_cons_self parts hsname (mem_nameAt.mpr ⟨hkind, hname⟩)
      exact hparent.writeFile (hparent.straight hplain hfrom.links hhere hup hmem hleaf) hlast hgood hwrite (splitOn_joinParts hname)
        (modeByte_ne_symlink _) rfl

/-- The first pass, by induction on the entries that are left. -/
theorem firstPass_written (hplain : PlainArchive strip es) (hhere : here ∉ destRoot) (hup : up ∉ destRoot) {rest : List TarEntry}
    {before : List TarEntry} (hsplit : es = before ++ rest) (h : Written destRoot (seamOf strip before).entries d.fs) {p p' : Progress}
    (hlinks : p.hardlinks = (hardLinks strip before).map (pendingOf destRoot strip))
    (hok : (firstPass destRoot strip limits rest p d).1 = .ok p') :
    Written destRoot (seamOf strip es).entries (firstPass destRoot strip limits rest p d).2.fs ∧
      p'.hardlinks = (hardLinks strip es).map (pendingOf destRoot strip) := by
  induction rest generalizing before p d with
  | nil =>
    rw [List.append_nil] at hsplit
    cases hok
    rw [hsplit]
    exact ⟨h, hlinks⟩
  | cons entry rest ih =>
    rw [firstPass] at hok ⊢
    obtain ⟨p₁, hentry, hrest, hrun⟩ := bind_run hok
    rw [hrun]
    obtain ⟨hwritten, hlinks'⟩ := extractEntry_written hplain hhere hup hsplit h hentry
    have hwaiting : p₁.hardlinks = (hardLinks strip (before ++ [entry])).map (pendingOf destRoot strip) := by
      rw [hlinks', hlinks, hardLinks_concat, List.map_append]
    have hsplit' : es = (before ++ [entry]) ++ rest := by simp [hsplit]
    exact ih hsplit' hwritten hwaiting hrest

end FirstPass

/-! ### Errors -/

section Errors

variable {α β : Type} {d : Disk} {limits : Limits} {destRoot : Path}

/-- A hardlink whose target could not be read. -/
def Unread (e : ExtractError) : Prop := ∃ name linkname errno, e = .hardlinkUnread name linkname errno

/-- A program that does not fail on the target of a hardlink. -/
def Reads (m : Extract α) : Prop := ∀ d e, (m d).1 = .error e → ¬ Unread e

theorem bind_eq_error {m : Extract α} {f : α → Extract β} {e : ExtractError} (h : ((m >>= f) d).1 = .error e) :
    (m d).1 = .error e ∨ ∃ a, (m d).1 = .ok a ∧ (f a (m d).2).1 = .error e := by
  cases hm : (m d).1 with
  | error e' =>
    rw [bind_error hm] at h
    exact .inl (congrArg Except.error (Except.error.inj h))
  | ok a =>
    rw [bind_ok hm] at h
    exact .inr ⟨a, rfl, h⟩

theorem Reads.pure (a : α) : Reads (Pure.pure a : Extract α) := fun d e h => by cases h

theorem Reads.bind {m : Extract α} {f : α → Extract β} (hm : Reads m) (hf : ∀ a, Reads (f a)) : Reads (m >>= f) := by
  intro d e h
  rcases bind_eq_error h with h | ⟨a, -, h⟩
  · exact hm d e h
  · exact hf a _ e h

theorem Reads.reject {c : Prop} [Decidable c] {e : ExtractError} (he : ¬ Unread e) : Reads (reject c e) := by
  intro d e' h
  rw [SafeExtract.reject] at h
  by_cases hc : c
  · rw [if_pos hc] at h
    cases h
    exact he
  · rw [if_neg hc] at h
    cases h

theorem Reads.mapError {ε : Type} {m : Program ε α} {g : ε → ExtractError} (hg : ∀ e, ¬ Unread (g e)) : Reads (m.mapError g) := by
  intro d e h
  change (m d).1.mapError g = .error e at h
  cases hm : (m d).1 with
  | error e' =>
    rw [hm] at h
    cases h
    exact hg e'
  | ok a =>
    rw [hm] at h
    cases h

theorem io_read (name : Bytes) (e : Errno) : ¬ Unread (.io name e) := by
  rintro ⟨_, _, _, h⟩
  cases h

theorem countFile_reads (p : Progress) : Reads (countFile limits p) :=
  (Reads.reject (by rintro ⟨_, _, _, h⟩; cases h)).bind fun _ => Reads.pure _

theorem countBytes_reads (p : Progress) (size : ℕ) : Reads (countBytes limits p size) :=
  (Reads.reject (by rintro ⟨_, _, _, h⟩; cases h)).bind fun _ => Reads.pure _

theorem createParent_reads (name : Bytes) (target : Path) : Reads (createParent name target) := by
  rw [createParent]
  split_ifs
  · exact Reads.pure _
  · exact Reads.mapError (io_read name)

theorem extractFile_reads (p : Progress) (entry : TarEntry) (target : Path) : Reads (extractFile limits p entry target) :=
  (Reads.reject (by rintro ⟨_, _, _, h⟩; cases h)).bind fun _ => (countBytes_reads _ _).bind fun _ => (countFile_reads _).bind fun _ =>
    (createParent_reads _ _).bind fun _ => (Reads.mapError (io_read _)).bind fun _ => Reads.pure _

theorem extractSymlink_reads (p : Progress) (entry : TarEntry) (target : Path) : Reads (extractSymlink destRoot limits p entry target) :=
  have hunlink : Reads ((unlink target).ignore : Extract Unit) := fun d e h => by cases h
  (Reads.reject (by rintro ⟨_, _, _, h⟩; cases h)).bind fun _ => (createParent_reads _ _).bind fun _ => hunlink.bind fun _ =>
    (Reads.mapError (io_read _)).bind fun _ => countFile_reads _

theorem extractEntry_reads {strip : ℕ} (p : Progress) (entry : TarEntry) : Reads (extractEntry destRoot strip limits p entry) := by
  rw [extractEntry]
  cases stripName strip entry.name with
  | none => exact Reads.pure p
  | some parts =>
    refine (Reads.reject (by rintro ⟨_, _, _, h⟩; cases h)).bind fun _ => ?_
    cases entry.kind with
    | hardLink => exact Reads.pure _
    | symlink => exact extractSymlink_reads _ _ _
    | dir => exact (Reads.mapError (io_read _)).bind fun _ => Reads.pure _
    | file => exact extractFile_reads _ _ _
    | other => exact Reads.pure _

theorem firstPass_reads {strip : ℕ} (es : List TarEntry) (p : Progress) : Reads (firstPass destRoot strip limits es p) := by
  induction es generalizing p with
  | nil => exact Reads.pure p
  | cons entry rest ih => exact (extractEntry_reads p entry).bind fun p' => ih p'

end Errors

/-! ### The second pass -/

section SecondPass

variable {destRoot : Path} {strip : ℕ} {limits : Limits} {es : List TarEntry} {d : Disk}

/-- Once its target is read, a hardlink is written as a file. -/
theorem extractHardlink_eq {h : TarEntry} {link : Path} {content : Bytes} {p : Progress} (hlink : stripName strip h.linkname = some link)
    (hstart : startsWith (targetOf destRoot link) destRoot = true) (hread : (readFile (targetOf destRoot link) d).1 = .ok content) :
    extractHardlink destRoot strip limits p (pendingOf destRoot strip h) d =
      extractFile limits p ⟨h.name, h.linkname, content.length, .file, h.mode, content, h.utf8⟩ (targetOf destRoot (nameParts strip h.name))
        (readFile (targetOf destRoot link) d).2 := by
  have hmapped : ((readFile (targetOf destRoot link)).mapError (ExtractError.hardlinkUnread h.name h.linkname) d).1 = .ok content := by
    change (readFile (targetOf destRoot link) d).1.mapError _ = _
    rw [hread]
    rfl
  unfold extractHardlink
  dsimp only [pendingOf]
  rw [hlink]
  refine (bind_ok rfl).trans ((reject_ok ?_ _ _).trans (bind_ok hmapped))
  rw [hstart]
  decide

/-- A hardlink makes an entry of the content of its target. -/
theorem materializeHardlink_eq (extra : List MaterializedEntry) {h : TarEntry} {parts link : Path} (hname : stripName strip h.name = some parts)
    (hlink : stripName strip h.linkname = some link) {target : MaterializedEntry}
    (htarget : ((seamOf strip es).indexOf (joinParts link)).bind (fun i => (seamOf strip es).entries[i]?) = some target) :
    materializeHardlink (seamOf strip es) ((seamOf strip es).entries ++ extra) (seamLink strip h) =
      (seamOf strip es).entries ++ extra ++ [⟨joinParts parts, modeByte h.mode, target.content⟩] := by
  rw [materializeHardlink, seamLink, nameParts_eq hname, nameParts_eq hlink]
  dsimp only
  rw [seamOf_indexed.getElem?_append, htarget]

/-- What holds before the hardlinks that are left: the tree is that of the sequence, which has grown, and each hardlink finds the
content that the first pass has left for it. -/
structure Linking (destRoot : Path) (strip : ℕ) (es rest : List TarEntry) (entries : List MaterializedEntry) (fs : FileSystem) : Prop where
  written : Written destRoot entries fs
  plain : FromPlain strip es entries
  grown : ∃ extra, entries = (seamOf strip es).entries ++ extra
  targets : ∀ h ∈ rest, ∀ link, stripName strip h.linkname = some link → lastAt entries link = lastAt (seamOf strip es).entries link

theorem Linking.step (hplain : PlainArchive strip es) (hhere : here ∉ destRoot) (hup : up ∉ destRoot) {h : TarEntry} {rest : List TarEntry}
    {entries : List MaterializedEntry} (hrest : (h :: rest).Sublist (hardLinks strip es)) (hl : Linking destRoot strip es (h :: rest) entries d.fs)
    (limits : Limits) (p : Progress) :
    (∀ e, (extractHardlink destRoot strip limits p (pendingOf destRoot strip h) d).1 = .error e → ¬ Unread e) ∧
      ∀ p', (extractHardlink destRoot strip limits p (pendingOf destRoot strip h) d).1 = .ok p' →
        Linking destRoot strip es rest (materializeHardlink (seamOf strip es) entries (seamLink strip h))
          (extractHardlink destRoot strip limits p (pendingOf destRoot strip h) d).2.fs := by
  obtain ⟨hmem, parts, hparts⟩ := mem_hardLinks.mp (hrest.subset List.mem_cons_self)
  obtain ⟨hkind, hname⟩ := mem_nameAt.mp hparts
  have hleaf : parts ∈ leafName strip h := mem_leafName.mpr ⟨by simp [hkind], hname⟩
  obtain ⟨link, hlink, hfile, hsymlink⟩ := hplain.linked h hmem parts hparts
  rw [Option.mem_def] at hlink
  -- the target is the file that the sequence has
  obtain ⟨target, htarget, hlast⟩ := indexOf_link hlink hfile hsymlink
  obtain ⟨f, hf, hfname⟩ := hfile
  obtain ⟨hfkind, hfname⟩ := mem_nameAt.mp hfname
  have hlinkUp : up ∉ link := hplain.noUp f hf link (mem_leafName.mpr ⟨by simp [hfkind], hfname⟩)
  have hresolved := targetOf_plain hhere hup (here_notMem hlink) hlinkUp
  rw [← hl.targets h List.mem_cons_self link hlink] at hlast
  obtain ⟨executable, hget⟩ := hl.written.exists_of_file hlast
  have hreads : (readFile (targetOf destRoot link) d).1 = .ok target.content ∧ (readFile (targetOf destRoot link) d).2.fs = d.fs := by
    rw [hresolved]
    exact readFile_straight hl.written.housed.closed (by simp [hhere, here_notMem hlink]) (by simp [hup, hlinkUp])
      (by simp [stripName_ne_nil hlink]) hget
  obtain ⟨hread, hsame⟩ := hreads
  rw [extractHardlink_eq hlink (by rw [hresolved]; exact startsWith_append _ _) hread]
  refine ⟨fun e => extractFile_reads _ _ _ _ e, fun p' hok => ?_⟩
  obtain ⟨hwrite, hrun⟩ := extractFile_run hok
  rw [hrun]
  obtain ⟨extra, hextra⟩ := hl.grown
  have hentries := materializeHardlink_eq extra hname hlink htarget
  rw [← hextra] at hentries
  rw [hentries]
  rw [nameParts_eq hname, targetOf_plain hhere hup (here_notMem hname) (hplain.noUp h hmem parts hleaf)] at hwrite ⊢
  have hgood := goodName_of_stripName hname h.utf8.1
  obtain ⟨hhoused, hgrown⟩ := createParent_grown h.name hhere hup hgood (d := (readFile (targetOf destRoot link) d).2)
    (by rw [hsame]; exact hl.written.housed)
  rw [hsame] at hgrown
  have hparent := hl.written.grown hhoused hgrown
  have hpath : (⟨joinParts parts, modeByte h.mode, target.content⟩ : MaterializedEntry).parts = parts := splitOn_joinParts hname
  have hnot : ∀ text, (createParent h.name (destRoot ++ parts) (readFile (targetOf destRoot link) d).2).2.fs.get? (destRoot ++ parts) ≠
      some (.symlink text) := fun text hlinked => by
    obtain ⟨e, he, heparts, hmode⟩ := hparent.exists_of_symlink hlinked
    obtain ⟨s, hs, hsname⟩ := hl.plain.links e he hmode
    rw [heparts] at hsname
    exact hplain.linkApart h hmem parts hparts s hs hsname
  refine ⟨?_, ⟨?_, ?_⟩, ⟨extra ++ [_], by rw [hextra, List.append_assoc]⟩, ?_⟩
  · exact hparent.writeFile (hparent.straight hplain hl.plain.links hhere hup hmem hleaf) hnot hgood hwrite hpath (modeByte_ne_symlink _) rfl
  · intro e he hmode
    rcases List.mem_append.mp he with he | he
    · exact hl.plain.links e he hmode
    · rw [List.mem_singleton.mp he] at hmode
      exact absurd hmode (modeByte_ne_symlink _)
  · intro e he hgit
    rcases List.mem_append.mp he with he | he
    · exact hl.plain.modes e he hgit
    · rw [List.mem_singleton.mp he] at hgit ⊢
      rw [hpath] at hgit
      exact .inl (hplain.regular h hmem (by simp [hkind]) parts hleaf hgit)
  · intro h' hh' link' hlink'
    rw [lastAt_concat, hpath, ← hl.targets h' (List.mem_cons_of_mem _ hh') link' hlink']
    split_ifs with heq
    · -- the earlier hardlink is one to itself, and its content was there already
      subst heq
      have hpair : ∀ p ∈ nameAt strip .hardLink h, ∀ _p' ∈ nameAt strip .hardLink h', p ∈ stripName strip h'.linkname →
          p ∈ stripName strip h.linkname :=
        (List.pairwise_cons.mp (hplain.unwritten.sublist (hrest.trans List.filter_sublist))).1 h' hh'
      obtain ⟨-, parts', hparts'⟩ := mem_hardLinks.mp (hrest.subset (List.mem_cons_of_mem _ hh'))
      have hself := hpair parts hparts parts' hparts' hlink'
      rw [Option.mem_def, hlink, Option.some_inj] at hself
      rw [hself] at hlast
      rw [hlast, decide_eq_false (modeByte_ne_symlink _)]
    · rfl

/-- The second pass, by induction on the hardlinks that are left. -/
theorem secondPass_written (hplain : PlainArchive strip es) (hhere : here ∉ destRoot) (hup : up ∉ destRoot) {rest : List TarEntry}
    (hrest : rest.Sublist (hardLinks strip es)) {entries : List MaterializedEntry} (hl : Linking destRoot strip es rest entries d.fs)
    (p : Progress) :
    (∀ e, (secondPass destRoot strip limits (rest.map (pendingOf destRoot strip)) p d).1 = .error e → ¬ Unread e) ∧
      ∀ p', (secondPass destRoot strip limits (rest.map (pendingOf destRoot strip)) p d).1 = .ok p' →
        Linking destRoot strip es [] ((rest.map (seamLink strip)).foldl (materializeHardlink (seamOf strip es)) entries)
          (secondPass destRoot strip limits (rest.map (pendingOf destRoot strip)) p d).2.fs := by
  induction rest generalizing entries p d with
  | nil =>
    refine ⟨fun e herror => ?_, fun p' _ => hl⟩
    cases herror
  | cons h rest ih =>
    obtain ⟨hunread, hstep⟩ := Linking.step hplain hhere hup hrest hl limits p
    rw [List.map_cons, List.map_cons, List.foldl_cons, secondPass]
    refine ⟨fun e herror => ?_, fun p' hok => ?_⟩
    · rcases bind_eq_error herror with herror | ⟨p₁, hok, herror⟩
      · exact hunread e herror
      · exact (ih ((List.sublist_cons_self h rest).trans hrest) (hstep p₁ hok) p₁).1 e herror
    · obtain ⟨p₁, hfirst, hlater, hrun⟩ := bind_run hok
      rw [hrun]
      exact (ih ((List.sublist_cons_self h rest).trans hrest) (hstep p₁ hfirst) p₁).2 p' hlater

end SecondPass

/-! ### Whole extractions -/

section Faithful

variable {destRoot : Path} {strip : ℕ} {limits : Limits} {fs : FileSystem}

/-- A destination with nothing in it. -/
structure EmptyDest (destRoot : Path) (fs : FileSystem) : Prop where
  rooted : Rooted destRoot fs
  closed : Closed fs
  empty : ∀ q node, fs.get? (destRoot ++ q) = some node → q = [] ∧ node = .dir

theorem EmptyDest.written (h : EmptyDest destRoot fs) : Written destRoot [] fs where
  housed := ⟨h.rooted, h.closed, fun q hq => by
    obtain ⟨node, hget⟩ := Option.ne_none_iff_exists'.mp hq
    rw [(h.empty q node hget).1]
    exact fun c hc => absurd hc List.not_mem_nil⟩
  leaves q := by
    cases hget : fs.get? (destRoot ++ q) with
    | none => rfl
    | some node =>
      rw [(h.empty q node hget).2]
      rfl
  unset q executable content hget := by cases (h.empty q _ hget).2
  targets q text hget := by cases (h.empty q _ hget).2

/-- The tree below the destination is one that can be hashed. -/
theorem Written.soundTree {entries : List MaterializedEntry} (h : Written destRoot entries fs) : SoundTree (below destRoot fs) where
  root := by rw [get?_below, if_pos rfl]
  parents p c hp hget := by
    rw [get?_below, if_neg (by simp), ← List.append_assoc] at hget
    rw [get?_below, if_neg hp, ← nodeAt_of_ne (by simp [hp])]
    exact h.housed.closed _ c hget
  names p hget := by
    rw [get?_below] at hget
    split_ifs at hget
    · exact absurd rfl hget
    · exact h.housed.names p hget
  targets p target hget := by
    rw [get?_below] at hget
    split_ifs at hget
    exact h.targets p target hget

/-- Below the destination there are the contents of the sequence. -/
theorem Written.contentAt_eq {entries : List MaterializedEntry} (h : Written destRoot entries fs)
    (hmodes : ∀ e ∈ entries, gitComponent ∉ e.parts → e.modeByte = modeRegular ∨ e.modeByte = modeSymlink) {relpath : Bytes}
    (hgit : gitComponent ∉ relpath.splitOn slash) :
    contentAt entries relpath = ((below destRoot fs).get? (relpath.splitOn slash)).bind leafOf := by
  rw [contentAt_eq_lastAt hmodes hgit, get?_below, if_neg (List.splitOn_ne_nil _ _), ← h.leaves]
  have hunset := h.unset (relpath.splitOn slash)
  cases hget : fs.get? (destRoot ++ relpath.splitOn slash) with
  | none => rfl
  | some node =>
    cases node with
    | dir => rfl
    | other => rfl
    | symlink target => rfl
    | file executable content =>
      rw [hunset executable content hget]
      rfl

/-- **A plain archive has one identity, extracted and as a sequence**, and its extraction does not fail on a missing target of a
hardlink. -/
theorem extractTar_faithful (tar : TarStream) (hhere : here ∉ destRoot) (hup : up ∉ destRoot) (hdest : EmptyDest destRoot fs)
    (hplain : PlainArchive strip tar.entries) :
    (∀ result, (extractTar destRoot strip limits tar ⟨fs, []⟩).1 = .ok result → ∃ entries, tarMaterializeEntries tar strip = .ok entries ∧
      ∀ s, computeContentHash (below destRoot (extractTar destRoot strip limits tar ⟨fs, []⟩).2.fs) = .ok s ↔ computeDagIdentity entries = .ok s) ∧
    ∀ name linkname e, (extractTar destRoot strip limits tar ⟨fs, []⟩).1 = .error (.hardlinkUnread name linkname e) →
      ∃ e', tarMaterializeEntries tar strip = .error e' := by
  have hsequence : tar.ended = .ok () → tarMaterializeEntries tar strip =
      .ok (((hardLinks strip tar.entries).map (seamLink strip)).foldl (materializeHardlink (seamOf strip tar.entries))
        (seamOf strip tar.entries).entries) := fun hended => by
    have hlinked : ∀ e ∈ hardLinks strip tar.entries, stripName strip e.linkname ≠ none := fun e he => by
      obtain ⟨hmem, parts, hparts⟩ := mem_hardLinks.mp he
      obtain ⟨link, hlink, -⟩ := hplain.linked e hmem parts hparts
      rw [Option.mem_def.mp hlink]
      exact Option.some_ne_none _
    rw [tarMaterializeEntries, hended, ← seamOf_hardlinks hlinked]
    rfl
  -- the second pass, after a first pass that has succeeded
  have hsecond : ∀ p, (firstPass destRoot strip limits tar.entries ⟨0, 0, []⟩ ⟨fs, []⟩).1 = .ok p →
      p.hardlinks = (hardLinks strip tar.entries).map (pendingOf destRoot strip) ∧
      Linking destRoot strip tar.entries (hardLinks strip tar.entries) (seamOf strip tar.entries).entries
        (firstPass destRoot strip limits tar.entries ⟨0, 0, []⟩ ⟨fs, []⟩).2.fs := fun p hp => by
    obtain ⟨hwritten, hlinks⟩ := firstPass_written (d := ⟨fs, []⟩) hplain hhere hup (List.nil_append _).symm hdest.written rfl hp
    exact ⟨hlinks, hwritten, seamOf_fromPlain hplain (List.Subset.refl _), ⟨[], (List.append_nil _).symm⟩, fun _ _ _ _ => rfl⟩
  constructor
  · intro result hok
    rw [extractTar] at hok ⊢
    obtain ⟨p, hp, hok, hrun⟩ := bind_run hok
    rw [hrun]
    obtain ⟨_, hended, hok, hrun⟩ := bind_run hok
    rw [hrun]
    obtain ⟨p', hp', -, hrun⟩ := bind_run hok
    rw [hrun]
    obtain ⟨hlinks, hl⟩ := hsecond p hp
    have hended' : tar.ended = .ok () := by
      cases he : tar.ended with
      | ok u => rfl
      | error e =>
        rw [he] at hended
        cases hended
    rw [hlinks] at hp' ⊢
    have hend := (secondPass_written hplain hhere hup (List.Sublist.refl _) hl p).2 p' hp'
    refine ⟨_, hsequence hended', fun s => ?_⟩
    exact hend.written.soundTree.computeContentHash_eq_ok (fun relpath hgit => hend.written.contentAt_eq hend.plain.modes hgit) s
  · intro name linkname e herror
    have hunread : Unread (.hardlinkUnread name linkname e) := ⟨name, linkname, e, rfl⟩
    rw [extractTar] at herror
    rcases bind_eq_error herror with herror | ⟨p, hp, herror⟩
    · exact absurd hunread (firstPass_reads _ _ _ _ herror)
    rcases bind_eq_error herror with herror | ⟨_, -, herror⟩
    · cases he : tar.ended with
      | ok u =>
        rw [he] at herror
        cases herror
      | error e' =>
        rw [he] at herror
        cases herror
    obtain ⟨hlinks, hl⟩ := hsecond p hp
    rcases bind_eq_error herror with herror | ⟨_, -, herror⟩
    · rw [hlinks] at herror
      exact absurd hunread ((secondPass_written hplain hhere hup (List.Sublist.refl _) hl p).1 _ herror)
    · cases herror

end Faithful

theorem emptyPkg_emptyDest : EmptyDest pkg emptyPkg where
  rooted p hp hne := by
    have heq : p = pkg := by
      rcases List.prefix_cons_iff.mp hp with rfl | ⟨tail, rfl, htail⟩
      · exact absurd rfl hne
      · rw [List.prefix_nil.mp htail]
        rfl
    rw [heq]
    decide
  closed p c hget := by
    rw [emptyPkg, BTreeMap.get?_insert] at hget
    split_ifs at hget with heq
    · have hnil : p = [] := (List.append_inj' (heq.trans (List.nil_append _).symm) rfl).1
      rw [hnil]
      rfl
    · exact absurd rfl hget
  empty q node hget := by
    rw [emptyPkg, BTreeMap.get?_insert] at hget
    split_ifs at hget with heq
    · exact ⟨List.append_right_eq_self.mp heq, (Option.some_inj.mp hget).symm⟩
    · cases hget

/-- An archive with a directory, a file that is there twice, a symlink, a hardlink before its file, and an executable under `.git`. -/
def sourceTar : TarStream :=
  ⟨[fileEntry "v1/doc/a" "alpha" 0o644, hardLinkEntry "v1/b" "v1/doc/c", symlinkEntry "v1/link" "doc/a", fileEntry "v1/doc/a" "beta" 0o600,
    fileEntry "v1/doc/c" "gamma" 0o644, fileEntry "v1/.git/hook" "run" 0o755], .ok ()⟩

theorem extractTar_faithful_source : ∃ entries, tarMaterializeEntries sourceTar 1 = .ok entries ∧
    ∀ s, computeContentHash (below pkg (extractTar pkg 1 .default sourceTar ⟨emptyPkg, []⟩).2.fs) = .ok s ↔ computeDagIdentity entries = .ok s :=
  (extractTar_faithful sourceTar (by decide +kernel) (by decide +kernel) emptyPkg_emptyDest (by decide +kernel)).1 (6, 22) (by decide +kernel)

/-- An archive with an executable. -/
def executableTar : TarStream := ⟨[fileEntry "run" "x" 0o755], .ok ()⟩

/-- The extracted file has lost its execute bit, and the tree has another identity than the sequence. -/
theorem executable_differs :
    let r := extractTar pkg 0 .default executableTar ⟨emptyPkg, []⟩
    r.1 = .ok (1, 1) ∧
      computeContentHash (below pkg r.2.fs) = .ok "dag-sha256:324ab81745eac388acc9baf3c5b25409064709f9dfddbace94362b7e81d25836".toList ∧
      (tarMaterializeEntries executableTar 0).toOption.bind (fun es => (computeDagIdentity es).toOption) =
        some "dag-sha256:24cdebe91252a272c3ee16d834494f40b79ec679170f262005ba4486c8f1e804".toList := by
  decide +kernel

end Milpa.Core.SafeExtract

import Milpa.Merkle.Hash
import Milpa.Types.Result
import Milpa.Types.Sha256

/-!
# The identity of a tree

`dag_identity.rs`: a sequence of files and symlinks becomes a tree of directories, each
directory is hashed from its entries in the order of their names, and a directory without a
file is left out. A path is the bytes of its text.
-/

namespace Milpa.Core.DagIdentity

open Merkle Result

/-! ### Building the tree -/

/-- The mode of a regular file. -/
def modeRegular : UInt8 := 0x00

/-- The mode of an executable file. -/
def modeExecutable : UInt8 := 0x01

/-- The mode of a symlink. -/
def modeSymlink : UInt8 := 0x80

/-- The mode of a directory. -/
def modeTree : UInt8 := 0x40

/-- `NAME_BYTE_CEILING`. -/
def nameByteCeiling : ℕ := 4096

/-- `GIT_COMPONENT`: `.git`. -/
def gitComponent : Bytes := [0x2e, 0x67, 0x69, 0x74]

/-- A file or a symlink of a tree; the content of a symlink is its target. -/
structure MaterializedEntry where
  relpath : Bytes
  modeByte : UInt8
  content : Bytes
  deriving DecidableEq

/-- `ID-NAME-TOO-LONG`. -/
structure NameTooLong where
  name : Bytes
  deriving DecidableEq

/-- `Node`: a directory with the modes and the contents of its files. -/
abbrev Node := Directory Bytes (UInt8 × Bytes)

/-- `check_name`. -/
def checkName (name : Bytes) : Except NameTooLong Bytes :=
  if nameByteCeiling < name.length then .error ⟨name⟩ else .ok name

/-- `insert`. -/
def insert (root : Node) (parts : List Bytes) (modeByte : UInt8) (content : Bytes) : Except NameTooLong Node := do
  let dirs := parts.dropLast
  let leaf := parts.getLastD []
  dirs.forM fun component => do
    let _ ← checkName component
  let _ ← checkName leaf
  pure (root.insert leaf (modeByte, content) dirs)

/-- The components of a path. -/
def MaterializedEntry.parts (e : MaterializedEntry) : List Bytes := e.relpath.splitOn 0x2f

/-- One turn of the loop over the entries: what is under `.git` is dropped. -/
def addEntry (root : Node) (e : MaterializedEntry) : Except NameTooLong Node :=
  if gitComponent ∈ e.parts then .ok root else insert root e.parts e.modeByte e.content

/-! ### Hashing it -/

/-- `encode_entry`. -/
def encodeEntry (e : Bytes × UInt8 × Digest) : Bytes :=
  Sha256.bigEndian 4 e.1.length ++ e.1 ++ e.2.1 :: e.2.2.bytes

/-- The item of a file. -/
def blobItem (e : Bytes × UInt8 × Bytes) : Except NameTooLong (Bytes × UInt8 × Digest) := do
  let name ← checkName e.1
  pure (name, e.2.1, sha256 e.2.2)

mutual

/-- `hash_tree`: the hash of a directory, and whether it is left out. -/
def hashTree : Node → Except NameTooLong (Digest × Bool)
  | .node blobs subdirs => do
    let files ← blobs.mapM blobItem
    let dirs ← hashSubdirs subdirs
    let items := sortByKey Prod.fst (files ++ dirs)
    pure (sha256 (items.flatMap encodeEntry), items.isEmpty)

/-- The items of the subdirectories. -/
def hashSubdirs : Forest Bytes (UInt8 × Bytes) → Except NameTooLong (List (Bytes × UInt8 × Digest))
  | .nil => .ok []
  | .cons leaf sub rest => do
    let hashed ← hashTree sub
    if hashed.2 then hashSubdirs rest
    else
      let name ← checkName leaf
      let items ← hashSubdirs rest
      pure ((name, modeTree, hashed.1) :: items)

end

/-- `compute_dag_identity`. -/
def computeDagIdentity (entries : List MaterializedEntry) : Except NameTooLong Str := do
  let root ← entries.foldlM addEntry .empty
  let hashed ← hashTree root
  pure ("dag-sha256:".toList ++ hexLower hashed.1)

/-- The text of a path or of a content. -/
def textBytes (s : String) : Bytes := s.toList.map fun c => UInt8.ofNat c.toNat

/-- A tree with a file and a directory of nearly one name. -/
def nested : List MaterializedEntry :=
  [⟨textBytes "a.txt", modeRegular, textBytes "alpha\n"⟩, ⟨textBytes "a/b.txt", modeRegular, textBytes "beta\n"⟩,
   ⟨textBytes "a/run.sh", modeExecutable, textBytes "#!/bin/sh\necho hi\n"⟩, ⟨textBytes "link", modeSymlink, textBytes "a/b.txt"⟩]

example : computeDagIdentity nested =
    .ok "dag-sha256:e3213019260649b72bb0295aaec004eb20a625dd55fcd4bac9e35df96bce316f".toList := by decide +kernel

/-! ### It is a hash of trees -/

theorem encodeEntry_append_injective {e e' : Bytes × UInt8 × Digest} {rest rest' : Bytes} (he : e.1.length < 2 ^ 32)
    (he' : e'.1.length < 2 ^ 32) (h : encodeEntry e ++ rest = encodeEntry e' ++ rest') : e = e' ∧ rest = rest' := by
  obtain ⟨name, mode, digest, hdigest⟩ := e
  obtain ⟨name', mode', digest', hdigest'⟩ := e'
  simp only [encodeEntry, List.append_assoc, List.cons_append] at h
  obtain ⟨hlength, hname⟩ := List.append_inj h (by simp)
  -- the length says where the name ends
  obtain ⟨hname, hmode⟩ := List.append_inj hname (Sha256.bigEndian_injective he he' hlength)
  obtain ⟨hmode, hbytes⟩ := List.cons.inj hmode
  obtain ⟨hbytes, hrest⟩ := List.append_inj hbytes (hdigest.trans hdigest'.symm)
  subst hname hmode hbytes
  exact ⟨rfl, hrest⟩

theorem encodeEntry_ne_nil (e : Bytes × UInt8 × Digest) : encodeEntry e ≠ [] := by simp [encodeEntry]

theorem flatMap_encodeEntry_injective : ∀ es es' : List (Bytes × UInt8 × Digest), (∀ e ∈ es, e.1.length < 2 ^ 32) →
    (∀ e ∈ es', e.1.length < 2 ^ 32) → es.flatMap encodeEntry = es'.flatMap encodeEntry → es = es'
  | [], [], _, _, _ => rfl
  | [], e' :: es', _, _, h => by simp [encodeEntry_ne_nil] at h
  | e :: es, [], _, _, h => by simp [encodeEntry_ne_nil] at h
  | e :: es, e' :: es', hes, hes', h => by
    obtain ⟨he, hes⟩ := List.forall_mem_cons.mp hes
    obtain ⟨he', hes'⟩ := List.forall_mem_cons.mp hes'
    rw [List.flatMap_cons, List.flatMap_cons] at h
    obtain ⟨heq, hrest⟩ := encodeEntry_append_injective he he' h
    rw [heq, flatMap_encodeEntry_injective es es' hes hes' hrest]

/-- The hash of directories. -/
def dagScheme : Scheme Bytes UInt8 Bytes Digest where
  hash := sha256
  encode es := es.flatMap encodeEntry
  treeTag := modeTree
  Readable name := name.length < 2 ^ 32
  encode_injective := flatMap_encodeEntry_injective

/-- A name within the ceiling. -/
def Fits (name : Bytes) : Prop := name.length ≤ nameByteCeiling

instance : DecidablePred Fits := fun name => inferInstanceAs (Decidable (name.length ≤ nameByteCeiling))

theorem checkName_eq {name : Bytes} (h : Fits name) : checkName name = .ok name := if_neg (Nat.not_lt.mpr h)

theorem blobs_eq {blobs : List (Bytes × UInt8 × Bytes)} (h : ∀ e ∈ blobs, Fits e.1) :
    blobs.mapM blobItem = .ok (blobs.map fun e => (e.1, e.2.1, dagScheme.hash e.2.2)) := by
  induction blobs with
  | nil => rfl
  | cons e rest ih =>
    obtain ⟨he, hrest⟩ := List.forall_mem_cons.mp h
    rw [List.mapM_cons, ih hrest, blobItem, checkName_eq he]
    rfl

mutual

theorem entries_isEmpty : ∀ root : Node, (root.entries dagScheme).isEmpty = root.isEmpty
  | .node blobs subdirs => by
    rw [Directory.isEmpty, ← forest_entries_isEmpty subdirs, Directory.entries]
    cases blobs <;> rfl

theorem forest_entries_isEmpty : ∀ subdirs : Forest Bytes (UInt8 × Bytes), (subdirs.entries dagScheme).isEmpty = subdirs.allEmpty
  | .nil => rfl
  | .cons leaf sub rest => by
    rw [Forest.entries, Forest.allEmpty]
    cases sub.isEmpty
    · rfl
    · rw [if_pos rfl, forest_entries_isEmpty rest, Bool.true_and]

end

mutual

/-- With names within the ceiling, the hash of the code is that of the scheme. -/
theorem hashTree_eq : ∀ root : Node, root.Named Fits → hashTree root = .ok (root.hash dagScheme, root.isEmpty)
  | .node blobs subdirs, ⟨hblobs, hsubdirs⟩ => by
    have hempty : (sortByKey Prod.fst ((Directory.node blobs subdirs).entries dagScheme)).isEmpty = (Directory.node blobs subdirs).isEmpty := by
      rw [← entries_isEmpty]
      cases hentries : (Directory.node blobs subdirs).entries dagScheme with
      | nil => rfl
      | cons e rest =>
        refine (List.isEmpty_eq_false_iff.mpr fun hnil => ?_).trans rfl
        cases sortByKey_eq_nil.mp hnil
    rw [hashTree, blobs_eq hblobs, hashSubdirs_eq subdirs hsubdirs]
    rw [Directory.entries] at hempty
    rw [← hempty]
    rfl

theorem hashSubdirs_eq : ∀ subdirs : Forest Bytes (UInt8 × Bytes), subdirs.Named Fits →
    hashSubdirs subdirs = .ok (subdirs.entries dagScheme)
  | .nil, _ => rfl
  | .cons leaf sub rest, ⟨hleaf, hsub, hrest⟩ => by
    rw [hashSubdirs, hashTree_eq sub hsub, hashSubdirs_eq rest hrest, checkName_eq hleaf, Forest.entries]
    cases sub.isEmpty <;> rfl

end

/-! ### The tree of a sequence -/

variable {entries entries' : List MaterializedEntry}

/-- The entries that are not under `.git`. -/
def kept (entries : List MaterializedEntry) : List MaterializedEntry := entries.filter fun e => gitComponent ∉ e.parts

/-- The mode and the content at a path: those of the last entry there. -/
def contentAt (entries : List MaterializedEntry) (relpath : Bytes) : Option (UInt8 × Bytes) :=
  ((kept entries).reverse.find? fun e => e.relpath = relpath).map fun e => (e.modeByte, e.content)

/-- The tree of a sequence. -/
def treeOf (entries : List MaterializedEntry) : Node :=
  (kept entries).foldl (fun root e => root.insert (e.parts.getLastD []) (e.modeByte, e.content) e.parts.dropLast) .empty

/-- What is hashed for a sequence. -/
def hashedTexts (entries : List MaterializedEntry) : List Bytes := (treeOf entries).preimages dagScheme

theorem parts_ne_nil (e : MaterializedEntry) : e.parts ≠ [] := List.splitOn_ne_nil _ _

theorem parts_eq (e : MaterializedEntry) : e.parts.dropLast ++ [e.parts.getLastD []] = e.parts := by
  rw [List.getLastD_eq_getLast?, List.getLast?_eq_some_getLast (parts_ne_nil e), Option.getD_some]
  exact List.dropLast_append_getLast (parts_ne_nil e)

/-- A path is read back from its components. -/
theorem relpath_of_parts {e e' : MaterializedEntry} (h : e.parts = e'.parts) : e.relpath = e'.relpath := by
  have heq := congrArg (List.intercalate [0x2f]) h
  rwa [MaterializedEntry.parts, MaterializedEntry.parts, List.intercalate_splitOn, List.intercalate_splitOn] at heq

theorem insert_eq {root : Node} {parts : List Bytes} {mode : UInt8} {content : Bytes} (hparts : ∀ c ∈ parts, Fits c) (hne : parts ≠ []) :
    insert root parts mode content = .ok (root.insert (parts.getLastD []) (mode, content) parts.dropLast) := by
  have hdirs : (parts.dropLast.forM fun component => do let _ ← checkName component) = Except.ok (ε := NameTooLong) PUnit.unit := by
    have hall : ∀ c ∈ parts.dropLast, Fits c := fun c hc => hparts c (List.mem_of_mem_dropLast hc)
    generalize parts.dropLast = dirs at hall
    induction dirs with
    | nil => rfl
    | cons c rest ih =>
      obtain ⟨hc, hrest⟩ := List.forall_mem_cons.mp hall
      rw [List.forM, checkName_eq hc]
      exact ih hrest
  have hleaf : Fits (parts.getLastD []) := by
    rw [List.getLastD_eq_getLast?, List.getLast?_eq_some_getLast hne]
    exact hparts _ (List.getLast_mem hne)
  rw [insert, hdirs, checkName_eq hleaf]
  rfl

/-- The loop over the entries builds the tree of the sequence. -/
theorem foldlM_addEntry (hnamed : ∀ e ∈ kept entries, ∀ c ∈ e.parts, Fits c) :
    entries.foldlM addEntry .empty = .ok (treeOf entries) := by
  rw [treeOf]
  generalize (Directory.empty : Node) = root
  induction entries generalizing root with
  | nil => rfl
  | cons e rest ih =>
    rw [List.foldlM_cons, addEntry]
    by_cases hgit : gitComponent ∈ e.parts
    · have hkept : kept (e :: rest) = kept rest := by simp [kept, hgit]
      rw [hkept] at hnamed ⊢
      rw [if_pos hgit]
      exact ih hnamed root
    · have hkept : kept (e :: rest) = e :: kept rest := by simp [kept, hgit]
      rw [hkept] at hnamed ⊢
      obtain ⟨he, hrest⟩ := List.forall_mem_cons.mp hnamed
      rw [if_neg hgit, insert_eq he (parts_ne_nil e), List.foldl_cons]
      exact ih hrest _

/-- The leaf at a path is what the last entry there has. -/
theorem lookup_treeOf (dirs : List Bytes) (leaf : Bytes) : (treeOf entries).lookup dirs leaf =
    ((kept entries).reverse.find? fun e => e.parts = dirs ++ [leaf]).map fun e => (e.modeByte, e.content) := by
  rw [treeOf]
  induction kept entries using List.reverseRecOn with
  | nil => exact Directory.lookup_empty dirs leaf
  | append_singleton es e ih =>
    have hparts : (e.parts.dropLast = dirs ∧ e.parts.getLastD [] = leaf) ↔ e.parts = dirs ++ [leaf] := by
      constructor
      · rintro ⟨rfl, rfl⟩
        exact (parts_eq e).symm
      · intro h
        rw [h, List.dropLast_concat, List.getLastD_concat]
        exact ⟨rfl, rfl⟩
    rw [List.foldl_append, List.foldl_cons, List.foldl_nil, Directory.lookup_insert, ih, List.reverse_append, List.reverse_singleton,
      List.singleton_append, List.find?_cons]
    by_cases h : e.parts = dirs ++ [leaf]
    · rw [if_pos (hparts.mpr h), decide_eq_true h]
      rfl
    · rw [if_neg fun heq => h (hparts.mp heq), decide_eq_false h]

theorem find_parts_eq {e : MaterializedEntry} {es : List MaterializedEntry} :
    (es.find? fun e' => e'.parts = e.parts) = es.find? fun e' => e'.relpath = e.relpath := by
  refine congrArg (fun p => List.find? p es) (funext fun e' => ?_)
  refine decide_eq_decide.mpr ⟨relpath_of_parts, fun h => ?_⟩
  rw [MaterializedEntry.parts, MaterializedEntry.parts, h]

/-- What the sequence has at a path is the leaf there. -/
theorem contentAt_eq_lookup (e : MaterializedEntry) :
    contentAt entries e.relpath = (treeOf entries).lookup e.parts.dropLast (e.parts.getLastD []) := by
  rw [contentAt, lookup_treeOf, parts_eq, find_parts_eq]

/-- A leaf is at the path of an entry. -/
theorem exists_of_lookup {dirs : List Bytes} {leaf : Bytes} (h : (treeOf entries).lookup dirs leaf ≠ none) :
    ∃ e ∈ kept entries, e.parts = dirs ++ [leaf] ∧ (treeOf entries).lookup dirs leaf = some (e.modeByte, e.content) := by
  rw [lookup_treeOf] at h ⊢
  cases hfind : (kept entries).reverse.find? fun e => e.parts = dirs ++ [leaf] with
  | none => simp [hfind] at h
  | some e =>
    exact ⟨e, List.mem_reverse.mp (List.mem_of_find?_eq_some hfind), by simpa using List.find?_some hfind, rfl⟩

/-- Two trees have the same leaves when the sequences have the same map. -/
theorem sameLeaves_iff : (treeOf entries).SameLeaves (treeOf entries') ↔ ∀ relpath, contentAt entries relpath = contentAt entries' relpath := by
  constructor
  · intro h relpath
    have hlookup := h (MaterializedEntry.parts ⟨relpath, 0, []⟩).dropLast ((MaterializedEntry.parts ⟨relpath, 0, []⟩).getLastD [])
    rwa [← contentAt_eq_lookup, ← contentAt_eq_lookup] at hlookup
  · intro h dirs leaf
    -- a path of the tree is the path of an entry of one of the sequences, or of none
    by_cases hpath : ∃ e : MaterializedEntry, e.parts = dirs ++ [leaf]
    · obtain ⟨e, he⟩ := hpath
      have heq := h e.relpath
      rwa [contentAt_eq_lookup, contentAt_eq_lookup, he, List.dropLast_concat, List.getLastD_concat] at heq
    · have hnone : ∀ es : List MaterializedEntry, (treeOf es).lookup dirs leaf = none := fun es => by
        by_contra hne
        obtain ⟨e, -, he, -⟩ := exists_of_lookup hne
        exact hpath ⟨e, he⟩
      rw [hnone, hnone]

/-! ### Sequences that describe a tree -/

/-- A sequence describes a tree: no two entries have one path, no file lies below a file, the names are within the ceiling,
and the modes are those of files and symlinks. -/
structure DescribesTree (entries : List MaterializedEntry) : Prop where
  distinct : ((kept entries).map MaterializedEntry.relpath).Nodup
  apart : ∀ e ∈ kept entries, ∀ e' ∈ kept entries, e.parts <+: e'.parts → e.parts = e'.parts
  named : ∀ e ∈ kept entries, ∀ c ∈ e.parts, Fits c
  modes : ∀ e ∈ kept entries, e.modeByte = modeRegular ∨ e.modeByte = modeExecutable ∨ e.modeByte = modeSymlink

theorem treeOf_tidy : (treeOf entries).Tidy := by
  rw [treeOf]
  induction kept entries using List.reverseRecOn with
  | nil => exact Directory.tidy_empty
  | append_singleton es e ih =>
    rw [List.foldl_append]
    exact ih.insert

theorem treeOf_named (hnamed : ∀ e ∈ kept entries, ∀ c ∈ e.parts, Fits c) : (treeOf entries).Named Fits := by
  rw [treeOf]
  generalize kept entries = es at hnamed
  induction es using List.reverseRecOn with
  | nil => exact Directory.named_empty
  | append_singleton es e ih =>
    have he : ∀ c ∈ e.parts, Fits c := hnamed e (List.mem_append_right es (List.mem_singleton_self e))
    rw [← parts_eq e] at he
    rw [List.foldl_append]
    exact (ih fun e he => hnamed e (List.mem_append_left _ he)).insert (fun d hd => he d (List.mem_append_left _ hd))
      (he _ (by simp))

namespace DescribesTree

/-- The tree is one that hashes can tell apart from others. -/
theorem proper (h : DescribesTree entries) : (treeOf entries).Proper dagScheme where
  tidy := treeOf_tidy
  apart dirs leaf ds l hne := by
    by_contra hbelow
    obtain ⟨e, he, hparts, -⟩ := exists_of_lookup hne
    obtain ⟨e', he', hparts', -⟩ := exists_of_lookup hbelow
    have heq := h.apart e he e' he' (by rw [hparts, hparts']; simp)
    rw [hparts, hparts'] at heq
    simpa using congrArg List.length heq
  tags dirs leaf tag content hv := by
    obtain ⟨e, he, -, heq⟩ := exists_of_lookup (by rw [hv]; exact Option.some_ne_none _)
    rw [hv] at heq
    cases heq
    rcases h.modes e he with hmode | hmode | hmode <;> rw [hmode] <;> decide
  readable dirs leaf hne := by
    have hlt : ∀ c, Fits c → c.length < 2 ^ 32 := fun c hc => Nat.lt_of_le_of_lt hc (by decide)
    obtain ⟨hdirs, hleaf⟩ := (treeOf_named h.named).of_lookup hne
    exact ⟨fun d hd => hlt d (hdirs d hd), hlt leaf hleaf⟩

/-- The identity of a tree is its hash. -/
theorem computeDagIdentity_eq (h : DescribesTree entries) :
    computeDagIdentity entries = .ok ("dag-sha256:".toList ++ hexLower ((treeOf entries).hash dagScheme)) := by
  rw [computeDagIdentity, foldlM_addEntry h.named, ok_bind, hashTree_eq _ (treeOf_named h.named)]
  rfl

/-- Two trees have one identity exactly when they have the same files. -/
theorem identity_eq_iff (h : DescribesTree entries) (h' : DescribesTree entries')
    (hcoll : dagScheme.NoCollision (hashedTexts entries ++ hashedTexts entries')) :
    "dag-sha256:".toList ++ hexLower ((treeOf entries).hash dagScheme) =
      "dag-sha256:".toList ++ hexLower ((treeOf entries').hash dagScheme) ↔
      ∀ relpath, contentAt entries relpath = contentAt entries' relpath := by
  rw [List.append_cancel_left_eq, hexLower_injective.eq_iff, Directory.hash_eq_iff h.proper h'.proper hcoll, sameLeaves_iff]

end DescribesTree

/-! ### Equal identities, equal contents -/

instance : Decidable (DescribesTree entries) :=
  decidable_of_iff (((kept entries).map MaterializedEntry.relpath).Nodup ∧
      (∀ e ∈ kept entries, ∀ e' ∈ kept entries, e.parts <+: e'.parts → e.parts = e'.parts) ∧
      (∀ e ∈ kept entries, ∀ c ∈ e.parts, Fits c) ∧
      ∀ e ∈ kept entries, e.modeByte = modeRegular ∨ e.modeByte = modeExecutable ∨ e.modeByte = modeSymlink)
    ⟨fun ⟨hd, ha, hn, hm⟩ => ⟨hd, ha, hn, hm⟩, fun h => ⟨h.distinct, h.apart, h.named, h.modes⟩⟩

theorem contentAt_eq_some (h : ((kept entries).map MaterializedEntry.relpath).Nodup) {relpath : Bytes} {v : UInt8 × Bytes} :
    contentAt entries relpath = some v ↔ ⟨relpath, v.1, v.2⟩ ∈ kept entries := by
  rw [← List.mem_reverse]
  rw [← List.nodup_reverse, ← List.map_reverse] at h
  rw [contentAt]
  generalize (kept entries).reverse = es at h
  induction es with
  | nil => simp
  | cons e rest ih =>
    obtain ⟨hnot, hrest⟩ := List.nodup_cons.mp h
    by_cases heq : e.relpath = relpath
    · subst heq
      have hrest : ∀ mode content, ⟨e.relpath, mode, content⟩ ∉ rest := fun mode content hmem =>
        hnot (List.mem_map.mpr ⟨_, hmem, rfl⟩)
      rw [List.find?_cons_of_pos (by simp), List.mem_cons, or_iff_left (hrest _ _)]
      obtain ⟨relpath, mode, content⟩ := e
      simp [Prod.ext_iff, eq_comm]
    · have hne : (⟨relpath, v.1, v.2⟩ : MaterializedEntry) ≠ e := fun h' => heq (congrArg MaterializedEntry.relpath h').symm
      rw [List.find?_cons_of_neg (by simpa using heq), List.mem_cons, or_iff_right hne]
      exact ih hrest

/-- The order of a sequence, and what it has under `.git`, do not change the map. -/
theorem contentAt_eq_of_perm (h : DescribesTree entries) (h' : DescribesTree entries') (hperm : (kept entries).Perm (kept entries'))
    (relpath : Bytes) : contentAt entries relpath = contentAt entries' relpath := by
  refine Option.ext fun v => ?_
  rw [contentAt_eq_some h.distinct, contentAt_eq_some h'.distinct, hperm.mem_iff]

/-- **The identity is exactly the content.** As far as the hash has no collision among what is hashed, two sequences that describe
trees have one identity if and only if they have one map from paths to modes and contents. So neither the order of the entries nor
what is under `.git` matters, and a tree with a file is told apart from one with a directory in its place. -/
theorem identity_is_content (h : DescribesTree entries) (h' : DescribesTree entries')
    (hcoll : dagScheme.NoCollision (hashedTexts entries ++ hashedTexts entries')) :
    ∃ s s', computeDagIdentity entries = .ok s ∧ computeDagIdentity entries' = .ok s' ∧
      (s = s' ↔ ∀ relpath, contentAt entries relpath = contentAt entries' relpath) ∧
      ((kept entries).Perm (kept entries') → s = s') ∧
      ∀ e ∈ kept entries, ∀ e' ∈ kept entries', e.parts <+: e'.parts → e.parts ≠ e'.parts → s ≠ s' := by
  have hiff := h.identity_eq_iff h' hcoll
  refine ⟨_, _, h.computeDagIdentity_eq, h'.computeDagIdentity_eq, hiff, fun hperm => ?_, fun e he e' he' hprefix hne heq => ?_⟩
  · exact hiff.mpr (contentAt_eq_of_perm h h' hperm)
  · -- the file below is a file of the first tree too
    have hbelow : ⟨e'.relpath, e'.modeByte, e'.content⟩ ∈ kept entries := by
      rw [← contentAt_eq_some (v := (e'.modeByte, e'.content)) h.distinct, hiff.mp heq]
      exact (contentAt_eq_some h'.distinct).mpr he'
    exact hne (h.apart e he _ hbelow hprefix)

theorem identity_is_content_below :
    let tree := [⟨textBytes "a/b", modeRegular, textBytes "x"⟩]
    let polluted := ⟨textBytes "vendor/.git/config", modeRegular, textBytes "junk"⟩ :: tree
    let file := [⟨textBytes "a", modeRegular, textBytes "x"⟩]
    computeDagIdentity tree = computeDagIdentity polluted ∧ computeDagIdentity file ≠ computeDagIdentity tree := by
  intro tree polluted file
  have htree : DescribesTree tree := by decide +kernel
  have hpolluted : DescribesTree polluted := by decide +kernel
  have hfile : DescribesTree file := by decide +kernel
  constructor
  · obtain ⟨s, s', hs, hs', -, hperm, -⟩ := identity_is_content htree hpolluted (by decide +kernel)
    rw [hs, hs', hperm (by decide +kernel)]
  · obtain ⟨s, s', hs, hs', -, -, himitates⟩ := identity_is_content hfile htree (by decide +kernel)
    rw [hs, hs']
    intro heq
    exact himitates ⟨textBytes "a", modeRegular, textBytes "x"⟩ (by decide +kernel)
      ⟨textBytes "a/b", modeRegular, textBytes "x"⟩ (by decide +kernel) (by decide +kernel) (by decide +kernel)
      (Except.ok.inj heq)

end Milpa.Core.DagIdentity

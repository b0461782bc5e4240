import Milpa.Core.TreeHash

/-!
# Two trees with one identity

As far as the hash has no collision among what is hashed, a tree on disk whose content hash
is that of another one has its content: the same leaves at the same paths, outside `.git`
(`sameContent_of_hash`). That the hash is there says that the names are texts.
-/

namespace Milpa.Core

open DagIdentity Result
open Posix (slash)

/-- A tree that a file system can hold. -/
structure OnDisk (tree : DiskTree) : Prop where
  root : tree.get? [] = none
  parents : ∀ p c, p ≠ [] → tree.get? (p ++ [c]) ≠ none → tree.get? p = some .dir
  names : ∀ p, tree.get? p ≠ none → ∀ c ∈ p, slash ∉ c

/-- The same leaves at the same paths; neither an empty directory nor what is under `.git` matters. -/
def SameContent (tree tree' : DiskTree) : Prop :=
  ∀ path, gitComponent ∉ path → (tree.get? path).bind leafOf = (tree'.get? path).bind leafOf

/-- The hash has no collision among what is hashed of two trees. -/
def NoTreeCollision (tree tree' : DiskTree) : Prop :=
  dagScheme.NoCollision (hashedTexts (found tree) ++ hashedTexts (found tree'))

/-! ### What the walk has seen -/

/-- What the walk makes of a child, and what it has checked of one outside `.git`. -/
theorem walkChild_cases {path : List Bytes} {node : Posix.Node} {r : List MaterializedEntry} (h : walkChild path node = .ok r) :
    r = foundAt path node ∧ (gitComponent ∉ path →
      isUtf8 ([slash].intercalate path) = true ∧ ∀ target, node = .symlink target → isUtf8 target = true) := by
  have hslash : [slash].intercalate path = [0x2f].intercalate path := rfl
  rw [walkChild] at h
  rw [foundAt, hslash]
  by_cases hgit : gitComponent ∈ path
  · rw [if_pos hgit] at h ⊢
    exact ⟨(Except.ok.inj h).symm, fun hnot => absurd hgit hnot⟩
  rw [if_neg hgit] at h ⊢
  dsimp only at h
  split_ifs at h with hutf8
  have htext : isUtf8 ([0x2f].intercalate path) = true := by simpa using hutf8
  cases node with
  | symlink target =>
    dsimp only at h
    split_ifs at h with htarget
    exact ⟨(Except.ok.inj h).symm, fun _ => ⟨htext, fun t ht => by cases ht; simpa using htarget⟩⟩
  | dir => exact ⟨(Except.ok.inj h).symm, fun _ => ⟨htext, by simp⟩⟩
  | file executable content => exact ⟨(Except.ok.inj h).symm, fun _ => ⟨htext, by simp⟩⟩
  | other => exact ⟨(Except.ok.inj h).symm, fun _ => ⟨htext, by simp⟩⟩

/-- A walk that goes through has found what is there, and has checked it. -/
theorem enumerateLocalEntries_cases {tree : DiskTree} {entries : List MaterializedEntry} (h : enumerateLocalEntries tree = .ok entries) :
    entries = found tree ∧ ∀ path node, tree.get? path = some node → gitComponent ∉ path →
      isUtf8 ([slash].intercalate path) = true ∧ ∀ target, node = .symlink target → isUtf8 target = true := by
  obtain ⟨parts, hparts, h⟩ := bind_eq_ok.mp h
  obtain rfl := pure_eq_ok.mp h
  have hwalk : ∀ (l : List (List Bytes × Posix.Node)) (parts : List (List MaterializedEntry)),
      l.mapM (fun e => walkChild e.1 e.2) = .ok parts →
        parts.flatten = l.flatMap (fun e => foundAt e.1 e.2) ∧ ∀ e ∈ l, ∃ r, walkChild e.1 e.2 = .ok r := by
    intro l
    induction l with
    | nil =>
      intro parts hparts
      obtain rfl := pure_eq_ok.mp hparts
      exact ⟨rfl, fun e he => absurd he List.not_mem_nil⟩
    | cons e rest ih =>
      intro parts hparts
      rw [List.mapM_cons] at hparts
      obtain ⟨r, hr, hparts⟩ := bind_eq_ok.mp hparts
      obtain ⟨rs, hrs, hparts⟩ := bind_eq_ok.mp hparts
      obtain rfl := pure_eq_ok.mp hparts
      obtain ⟨hflat, hall⟩ := ih rs hrs
      refine ⟨?_, List.forall_mem_cons.mpr ⟨⟨r, hr⟩, hall⟩⟩
      rw [List.flatten_cons, List.flatMap_cons, hflat, (walkChild_cases hr).1]
  obtain ⟨hflat, hall⟩ := hwalk _ _ hparts
  refine ⟨hflat, fun path node hget hgit => ?_⟩
  obtain ⟨r, hr⟩ := hall (path, node) (BTreeMap.mem_entries.mpr hget)
  exact (walkChild_cases hr).2 hgit

/-! ### Without `.git` -/

/-- A tree without what is under `.git`. -/
def withoutGit (tree : DiskTree) : DiskTree :=
  ⟨tree.entries.filter fun e => decide (gitComponent ∉ e.1), tree.sorted.filter _⟩

theorem get?_withoutGit (tree : DiskTree) (path : List Bytes) :
    (withoutGit tree).get? path = if gitComponent ∈ path then none else tree.get? path := by
  refine Option.ext fun node => ?_
  rw [← BTreeMap.mem_entries, withoutGit, List.mem_filter, BTreeMap.mem_entries]
  split_ifs with hgit
  · simp [hgit]
  · simp [hgit]

theorem found_withoutGit (tree : DiskTree) : found (withoutGit tree) = found tree := by
  have hskip : ∀ l : List (List Bytes × Posix.Node),
      (l.filter fun e => decide (gitComponent ∉ e.1)).flatMap (fun e => foundAt e.1 e.2) = l.flatMap fun e => foundAt e.1 e.2 := by
    intro l
    induction l with
    | nil => rfl
    | cons e rest ih =>
      by_cases hgit : gitComponent ∈ e.1
      · rw [List.filter_cons_of_neg (by simpa using hgit), ih, List.flatMap_cons, foundAt, if_pos hgit, List.nil_append]
      · rw [List.filter_cons_of_pos (by simpa using hgit), List.flatMap_cons, List.flatMap_cons, ih]
  exact hskip tree.entries

theorem isUtf8_of_intercalate {path : List Bytes} (hne : path ≠ []) (hslash : ∀ c ∈ path, slash ∉ c)
    (h : isUtf8 ([slash].intercalate path) = true) : ∀ c ∈ path, isUtf8 c = true := by
  have hsplit : ([slash].intercalate path).splitOn slash = path := List.splitOn_intercalate slash hslash hne
  intro c hc
  exact (splitOn_slash _ c (hsplit.symm ▸ hc)).2 h

/-- A tree that was walked is sound where the walk goes. -/
theorem OnDisk.sound {tree : DiskTree} (h : OnDisk tree) {entries : List MaterializedEntry}
    (hwalk : enumerateLocalEntries tree = .ok entries) : SoundTree (withoutGit tree) := by
  have hget : ∀ p, (withoutGit tree).get? p ≠ none → gitComponent ∉ p ∧ tree.get? p ≠ none := fun p hp => by
    rw [get?_withoutGit] at hp
    split_ifs at hp with hgit
    · exact absurd rfl hp
    · exact ⟨hgit, hp⟩
  have hchecked := (enumerateLocalEntries_cases hwalk).2
  refine ⟨?_, fun p c hne hp => ?_, fun p hp c hc => ?_, fun p target hp => ?_⟩
  · rw [get?_withoutGit, h.root, ite_self]
  · obtain ⟨hgit, hp⟩ := hget _ hp
    rw [get?_withoutGit, if_neg fun hmem => hgit (List.mem_append_left _ hmem)]
    exact h.parents p c hne hp
  · obtain ⟨hgit, hp⟩ := hget _ hp
    obtain ⟨node, hnode⟩ := Option.ne_none_iff_exists'.mp hp
    have hne : p ≠ [] := fun hnil => hp (hnil ▸ h.root)
    exact ⟨h.names p hp c hc, isUtf8_of_intercalate hne (h.names p hp) (hchecked p node hnode hgit).1 c hc⟩
  · rw [get?_withoutGit] at hp
    split_ifs at hp with hgit
    exact (hchecked p _ hp hgit).2 target rfl

/-! ### Equal hashes -/

/-- A tree with a content hash: what the walk finds describes a tree, whose identity is the hash. -/
theorem OnDisk.described {tree : DiskTree} (h : OnDisk tree) {s : Str} (hhash : computeContentHash tree = .ok s) :
    SoundTree (withoutGit tree) ∧ DescribesTree (found tree) ∧ computeDagIdentity (found tree) = .ok s := by
  obtain ⟨entries, hwalk, hhash⟩ := bind_eq_ok.mp hhash
  have hsound := h.sound hwalk
  obtain ⟨rfl, -⟩ := enumerateLocalEntries_cases hwalk
  have hidentity : computeDagIdentity (found tree) = .ok s := by
    split at hhash
    · rename_i identity hok
      rw [hok, pure_eq_ok.mp hhash]
    · exact absurd hhash throw_ne_ok
  have hnamed := (computeDagIdentity_eq_ok.mp hidentity).1
  rw [← found_withoutGit] at hnamed
  have hdescribes := hsound.describesTree hnamed
  rw [found_withoutGit] at hdescribes
  exact ⟨hsound, hdescribes, hidentity⟩

/-- **Two trees with one content hash have one content.** -/
theorem sameContent_of_hash {tree tree' : DiskTree} (h : OnDisk tree) (h' : OnDisk tree') (hcoll : NoTreeCollision tree tree')
    {s : Str} (hhash : computeContentHash tree = .ok s) (hhash' : computeContentHash tree' = .ok s) : SameContent tree tree' := by
  obtain ⟨hsound, hdescribes, hidentity⟩ := h.described hhash
  obtain ⟨hsound', hdescribes', hidentity'⟩ := h'.described hhash'
  obtain ⟨i, i', hi, hi', hiff, -⟩ := identity_is_content hdescribes hdescribes' hcoll
  have hsame : i = i' := by
    rw [hidentity] at hi
    rw [hidentity'] at hi'
    exact (Except.ok.inj hi).symm.trans (Except.ok.inj hi')
  have hcontent := hiff.mp hsame
  have hat : ∀ {t : DiskTree}, OnDisk t → SoundTree (withoutGit t) → ∀ path, path ≠ [] → (∀ c ∈ path, slash ∉ c) → gitComponent ∉ path →
      contentAt (found t) ([slash].intercalate path) = (t.get? path).bind leafOf := by
    intro t _ hsound path hne hslash hgit
    rw [← found_withoutGit, hsound.contentAt_found, List.splitOn_intercalate slash hslash hne, if_neg hgit, get?_withoutGit, if_neg hgit]
  intro path hgit
  by_cases hne : path = []
  · rw [hne, h.root, h'.root]
  by_cases hslash : ∀ c ∈ path, slash ∉ c
  · rw [← hat h hsound path hne hslash hgit, ← hat h' hsound' path hne hslash hgit, hcontent]
  · -- No file system has such a name.
    have hnone : ∀ {t : DiskTree}, OnDisk t → t.get? path = none := fun ht => by
      by_contra hsome
      exact hslash (ht.names path hsome)
    rw [hnone h, hnone h']

end Milpa.Core

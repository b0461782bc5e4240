import Milpa.Merkle.Tree

/-!
# Hashing trees

The hash of a directory is that of its serialized entries, in the order of their names: a
leaf by the hash of its content, a subdirectory by its own hash. Subdirectories without a
leaf are left out. As far as the hash function has no collision among what is hashed, two
trees have the same hash exactly when they have the same leaves (`Directory.hash_eq_iff`).
-/

namespace Milpa.Merkle

/-- A way to hash trees whose leaves have a tag and a content. -/
structure Scheme (N T B D : Type) where
  hash : B → D
  /-- The text of the entries of a directory. -/
  encode : List (N × T × D) → B
  /-- The tag of a subdirectory. -/
  treeTag : T
  /-- The names that can be read back. -/
  Readable : N → Prop
  encode_injective : ∀ es es', (∀ e ∈ es, Readable e.1) → (∀ e ∈ es', Readable e.1) → encode es = encode es' → es = es'

variable {N T B D : Type}

/-- The hash function has no collision among these texts. -/
def Scheme.NoCollision (S : Scheme N T B D) (texts : List B) : Prop := ∀ x ∈ texts, ∀ y ∈ texts, S.hash x = S.hash y → x = y

instance {S : Scheme N T B D} {texts : List B} [DecidableEq B] [DecidableEq D] : Decidable (S.NoCollision texts) :=
  inferInstanceAs (Decidable (∀ x ∈ texts, ∀ y ∈ texts, S.hash x = S.hash y → x = y))

theorem Scheme.NoCollision.mono {S : Scheme N T B D} {texts texts' : List B} (h : S.NoCollision texts) (hsub : texts' ⊆ texts) :
    S.NoCollision texts' :=
  fun x hx y hy => h x (hsub hx) y (hsub hy)

/-! ### Emptiness -/

mutual

/-- There is no leaf below. -/
def Directory.isEmpty : Directory N (T × B) → Bool
  | .node leaves subdirs => leaves.isEmpty && subdirs.allEmpty

/-- There is no leaf below any of them. -/
def Forest.allEmpty : Forest N (T × B) → Bool
  | .nil => true
  | .cons _ child rest => child.isEmpty && rest.allEmpty

end

section Hash

variable [LinearOrder N] (S : Scheme N T B D)

mutual

/-- The entries of a directory, in the order in which they came. -/
def Directory.entries : Directory N (T × B) → List (N × T × D)
  | .node leaves subdirs => leaves.map (fun e => (e.1, e.2.1, S.hash e.2.2)) ++ subdirs.entries

/-- The entries of subdirectories: those that have a leaf. -/
def Forest.entries : Forest N (T × B) → List (N × T × D)
  | .nil => []
  | .cons name child rest =>
    if child.isEmpty then rest.entries
    else (name, S.treeTag, S.hash (S.encode (sortByKey Prod.fst child.entries))) :: rest.entries

end

/-- The text of a directory. -/
def Directory.text (t : Directory N (T × B)) : B := S.encode (sortByKey Prod.fst (t.entries S))

/-- The hash of a directory. -/
def Directory.hash (t : Directory N (T × B)) : D := S.hash (t.text S)

mutual

/-- What is hashed. -/
def Directory.preimages : Directory N (T × B) → List B
  | .node leaves subdirs => (Directory.node leaves subdirs).text S :: leaves.map (fun e => e.2.2) ++ subdirs.preimages

/-- What is hashed below subdirectories. -/
def Forest.preimages : Forest N (T × B) → List B
  | .nil => []
  | .cons _ child rest => child.preimages ++ rest.preimages

end

theorem Forest.entries_names_sublist : ∀ s : Forest N (T × B), ((s.entries S).map Prod.fst).Sublist s.names
  | .nil => List.Sublist.refl _
  | .cons k child rest => by
    have ih : ((rest.entries S).map Prod.fst).Sublist rest.names := entries_names_sublist rest
    rw [entries, names]
    split_ifs
    · exact ih.cons k
    · exact ih.cons_cons k

theorem Directory.text_mem_preimages (t : Directory N (T × B)) : t.text S ∈ t.preimages S := by
  obtain ⟨leaves, subdirs⟩ := t
  exact List.mem_cons_self

end Hash

/-! ### Directories and what is below them -/

section Shape

variable [DecidableEq N] {S : Scheme N T B D} {t : Directory N (T × B)}

theorem Forest.mem_names_of_find {name : N} {child : Directory N (T × B)} {s : Forest N (T × B)} (h : s.find name = some child) :
    name ∈ s.names := by
  match s with
  | nil => cases h
  | cons k _ rest =>
    rw [find] at h
    split_ifs at h with hk
    · exact hk ▸ List.mem_cons_self
    · exact List.mem_cons_of_mem _ (mem_names_of_find h)

theorem Forest.Tidy.find {name : N} {child : Directory N (T × B)} : ∀ {s : Forest N (T × B)}, s.Tidy → s.find name = some child → child.Tidy
  | .cons k _ rest, ⟨_, hchild, hrest⟩, h => by
    rw [Forest.find] at h
    split_ifs at h with hk
    · cases h
      exact hchild
    · exact hrest.find h

theorem Forest.sizeOf_find {name : N} {child : Directory N (T × B)} {s : Forest N (T × B)} (h : s.find name = some child) :
    sizeOf child < sizeOf s := by
  match s with
  | nil => cases h
  | cons k _ rest =>
    rw [find] at h
    split_ifs at h with hk
    · cases h
      simp
      omega
    · have := sizeOf_find h
      simp
      omega

theorem Directory.sizeOf_find {name : N} {child : Directory N (T × B)} (h : t.subdirs.find name = some child) : sizeOf child < sizeOf t := by
  obtain ⟨leaves, subdirs⟩ := t
  have hlt : sizeOf child < sizeOf subdirs := Forest.sizeOf_find h
  simp
  omega

/-- The induction rule: what holds of a tree if it holds of its subdirectories holds of every tree. -/
theorem Directory.child_induction {motive : Directory N (T × B) → Prop}
    (step : ∀ t, (∀ name child, t.subdirs.find name = some child → motive child) → motive t) (t : Directory N (T × B)) : motive t :=
  step t fun _ child _ => child_induction step child
termination_by sizeOf t
decreasing_by exact sizeOf_find ‹_›

theorem Directory.Tidy.child (h : t.Tidy) {name : N} {child : Directory N (T × B)} (hfind : t.subdirs.find name = some child) : child.Tidy := by
  obtain ⟨leaves, subdirs⟩ := t
  exact h.2.find hfind

theorem Directory.lookup_cons {name : N} {child : Directory N (T × B)} (hfind : t.subdirs.find name = some child) (dirs : List N) (leaf : N) :
    t.lookup (name :: dirs) leaf = child.lookup dirs leaf := by
  rw [lookup, hfind]

theorem Directory.lookup_cons_none {name : N} (hfind : t.subdirs.find name = none) (dirs : List N) (leaf : N) :
    t.lookup (name :: dirs) leaf = none := by
  rw [lookup, hfind]

theorem Forest.allEmpty_iff : ∀ {s : Forest N (T × B)}, s.Tidy →
    (s.allEmpty = true ↔ ∀ name child, s.find name = some child → child.isEmpty = true)
  | .nil, _ => by simp [allEmpty, Forest.find]
  | .cons k child rest, ⟨hnot, _, hrest⟩ => by
    rw [allEmpty, Bool.and_eq_true, allEmpty_iff hrest]
    constructor
    · rintro ⟨hchild, hall⟩ name child' hfind
      rw [Forest.find] at hfind
      split_ifs at hfind with hk
      · cases hfind
        exact hchild
      · exact hall name child' hfind
    · intro hall
      refine ⟨hall k child (by rw [Forest.find, if_pos rfl]), fun name child' hfind => hall name child' ?_⟩
      have hne : k ≠ name := fun heq => hnot (heq ▸ mem_names_of_find hfind)
      rw [Forest.find, if_neg hne, hfind]

theorem Directory.isEmpty_node (h : t.Tidy) :
    t.isEmpty = true ↔ t.leaves = [] ∧ ∀ name child, t.subdirs.find name = some child → child.isEmpty = true := by
  obtain ⟨leaves, subdirs⟩ := t
  rw [isEmpty, Bool.and_eq_true, List.isEmpty_iff, Forest.allEmpty_iff h.2]
  rfl

/-- A tree is empty when it has no leaf at any path. -/
theorem Directory.isEmpty_iff (h : t.Tidy) : t.isEmpty = true ↔ ∀ dirs leaf, t.lookup dirs leaf = none := by
  induction t using Directory.child_induction with
  | step t ih =>
    rw [isEmpty_node h]
    constructor
    · rintro ⟨hleaves, hall⟩ dirs leaf
      cases dirs with
      | nil => rw [lookup, hleaves, assoc]
      | cons d dirs =>
        cases hfind : t.subdirs.find d with
        | none => exact lookup_cons_none hfind dirs leaf
        | some child =>
          rw [lookup_cons hfind]
          exact (ih d child hfind (h.child hfind)).mp (hall d child hfind) dirs leaf
    · intro hall
      constructor
      · have hnone := fun leaf => hall [] leaf
        simp only [lookup] at hnone
        cases hleaves : t.leaves with
        | nil => rfl
        | cons e rest => simpa [hleaves, assoc] using hnone e.1
      · intro name child hfind
        refine (ih name child hfind (h.child hfind)).mpr fun dirs leaf => ?_
        rw [← lookup_cons hfind]
        exact hall (name :: dirs) leaf

/-- A tree that is not empty has a leaf. -/
theorem Directory.exists_leaf (h : t.Tidy) (hempty : t.isEmpty = false) : ∃ dirs leaf, t.lookup dirs leaf ≠ none := by
  by_contra hnone
  have hall : ∀ dirs leaf, t.lookup dirs leaf = none := fun dirs leaf => by
    by_contra hne
    exact hnone ⟨dirs, leaf, hne⟩
  rw [(isEmpty_iff h).mpr hall] at hempty
  cases hempty

/-- Where there is a leaf, the tree is not empty. -/
theorem Directory.isEmpty_eq_false (h : t.Tidy) {dirs : List N} {leaf : N} {v : T × B} (hv : t.lookup dirs leaf = some v) :
    t.isEmpty = false := by
  by_contra hne
  rw [(isEmpty_iff h).mp (by simpa using hne)] at hv
  cases hv

/-- What a scheme can tell apart: no leaf has the name of a directory with a leaf, no leaf has the tag of a directory, and the
names on the way to a leaf can be read back. -/
structure Directory.Proper (S : Scheme N T B D) (t : Directory N (T × B)) : Prop where
  tidy : t.Tidy
  apart : ∀ dirs leaf ds l, t.lookup dirs leaf ≠ none → t.lookup (dirs ++ leaf :: ds) l = none
  tags : ∀ dirs leaf tag content, t.lookup dirs leaf = some (tag, content) → tag ≠ S.treeTag
  readable : ∀ dirs leaf, t.lookup dirs leaf ≠ none → (∀ d ∈ dirs, S.Readable d) ∧ S.Readable leaf

theorem Directory.Proper.child (h : t.Proper S) {name : N} {child : Directory N (T × B)} (hfind : t.subdirs.find name = some child) : child.Proper S where
  tidy := h.tidy.child hfind
  apart dirs leaf ds l hne := by
    rw [← lookup_cons hfind] at hne ⊢
    exact h.apart (name :: dirs) leaf ds l hne
  tags dirs leaf tag content hv := by
    rw [← lookup_cons hfind] at hv
    exact h.tags (name :: dirs) leaf tag content hv
  readable dirs leaf hne := by
    rw [← lookup_cons hfind] at hne
    obtain ⟨hdirs, hleaf⟩ := h.readable (name :: dirs) leaf hne
    exact ⟨fun d hd => hdirs d (List.mem_cons_of_mem _ hd), hleaf⟩

end Shape

/-! ### What the entries are -/

section Entries

variable [DecidableEq N] [LinearOrder N] {S : Scheme N T B D} {t t' : Directory N (T × B)}

/-- The entries of subdirectories are those that have a leaf. -/
theorem Forest.mem_entries {n : N} {tag : T} {d : D} : ∀ {s : Forest N (T × B)}, s.Tidy →
    ((n, tag, d) ∈ s.entries S ↔ ∃ child, s.find n = some child ∧ child.isEmpty = false ∧ tag = S.treeTag ∧ d = child.hash S)
  | .nil, _ => by simp [entries, Forest.find]
  | .cons k child rest, ⟨hnot, _, hrest⟩ => by
    have ih : (n, tag, d) ∈ rest.entries S ↔
        ∃ child, rest.find n = some child ∧ child.isEmpty = false ∧ tag = S.treeTag ∧ d = child.hash S := mem_entries hrest
    by_cases hk : k = n
    · subst hk
      have hnone : (k, tag, d) ∉ rest.entries S := fun hmem => by
        obtain ⟨child', hfind, -⟩ := ih.mp hmem
        exact hnot (mem_names_of_find hfind)
      rw [entries, Forest.find, if_pos rfl]
      cases hempty : child.isEmpty <;> simp [hnone, hempty, Directory.hash, Directory.text]
    · rw [entries, Forest.find, if_neg hk]
      cases hempty : child.isEmpty <;> simp [ih, Ne.symm hk]

/-- The entries of a directory are its leaves and the subdirectories that have a leaf. -/
theorem Directory.mem_entries {n : N} {tag : T} {d : D} (h : t.Tidy) :
    (n, tag, d) ∈ t.entries S ↔ (∃ content, t.lookup [] n = some (tag, content) ∧ d = S.hash content) ∨
      ∃ child, t.subdirs.find n = some child ∧ child.isEmpty = false ∧ tag = S.treeTag ∧ d = child.hash S := by
  obtain ⟨leaves, subdirs⟩ := t
  rw [entries, List.mem_append, Forest.mem_entries h.2]
  refine or_congr_left ?_
  constructor
  · intro hmem
    obtain ⟨⟨k, tag', content⟩, hleaf, heq⟩ := List.mem_map.mp hmem
    cases heq
    exact ⟨content, assoc_of_mem h.1 hleaf, rfl⟩
  · rintro ⟨content, hlookup, rfl⟩
    exact List.mem_map.mpr ⟨(n, tag, content), mem_of_assoc hlookup, rfl⟩

namespace Directory.Proper

/-- No two entries have one name. -/
theorem nodup (h : t.Proper S) : ((t.entries S).map Prod.fst).Nodup := by
  obtain ⟨leaves, subdirs⟩ := t
  have hleaves : (leaves.map fun e => (e.1, e.2.1, S.hash e.2.2)).map Prod.fst = leaves.map Prod.fst := by
    rw [List.map_map]
    rfl
  rw [entries, List.map_append, hleaves, List.nodup_append']
  refine ⟨h.tidy.1, h.tidy.2.names_nodup.sublist (Forest.entries_names_sublist S subdirs), fun name hleaf hsub => ?_⟩
  obtain ⟨⟨_, tag, content⟩, hmem, rfl⟩ := List.mem_map.mp hleaf
  obtain ⟨⟨_, tag', d⟩, hentry, hname⟩ := List.mem_map.mp hsub
  dsimp only at hname
  subst hname
  obtain ⟨child, hfind, hempty, -⟩ := (Forest.mem_entries h.tidy.2).mp hentry
  obtain ⟨dirs, leaf, hne⟩ := exists_leaf (h.tidy.2.find hfind) hempty
  refine hne ?_
  rw [← lookup_cons (t := .node leaves subdirs) hfind]
  refine h.apart [] _ dirs leaf ?_
  rw [lookup, Directory.leaves, assoc_of_mem h.tidy.1 hmem]
  exact Option.some_ne_none _

/-- The names of the entries can be read back. -/
theorem readable_entries (h : t.Proper S) : ∀ e ∈ sortByKey Prod.fst (t.entries S), S.Readable e.1 := by
  rintro ⟨name, tag, d⟩ hmem
  rcases (mem_entries h.tidy).mp (mem_sortByKey.mp hmem) with ⟨content, hv, -⟩ | ⟨child, hfind, hempty, -⟩
  · exact (h.readable [] name (by rw [hv]; exact Option.some_ne_none _)).2
  · obtain ⟨dirs, leaf, hne⟩ := exists_leaf (h.tidy.child hfind) hempty
    rw [← lookup_cons hfind] at hne
    exact (h.readable (name :: dirs) leaf hne).1 name List.mem_cons_self

end Directory.Proper

/-! ### Preimages -/

theorem Directory.content_mem_preimages {name : N} {tag : T} {content : B} (hv : t.lookup [] name = some (tag, content)) :
    content ∈ t.preimages S := by
  obtain ⟨leaves, subdirs⟩ := t
  have hmem := mem_of_assoc hv
  exact List.mem_append_left _ (List.mem_cons_of_mem _ (List.mem_map.mpr ⟨(name, tag, content), hmem, rfl⟩))

theorem Forest.preimages_subset {name : N} {child : Directory N (T × B)} {s : Forest N (T × B)} (hfind : s.find name = some child) :
    child.preimages S ⊆ s.preimages S := by
  match s with
  | nil => cases hfind
  | cons k _ rest =>
    rw [find] at hfind
    split_ifs at hfind with hk
    · cases hfind
      exact List.subset_append_left _ _
    · exact List.Subset.trans (preimages_subset hfind) (List.subset_append_right _ _)

theorem Directory.preimages_subset {name : N} {child : Directory N (T × B)} (hfind : t.subdirs.find name = some child) :
    child.preimages S ⊆ t.preimages S := by
  obtain ⟨leaves, subdirs⟩ := t
  exact List.Subset.trans (Forest.preimages_subset hfind) (List.subset_append_right _ _)

/-! ### Hashes and leaves -/

/-- Trees with the same leaves have the same entries. -/
theorem Directory.hash_eq_of_sameLeaves (h : t.Proper S) (h' : t'.Proper S) (hsame : t.SameLeaves t') : t.hash S = t'.hash S := by
  induction t using Directory.child_induction generalizing t' with
  | step t ih =>
    have hmem : ∀ e, e ∈ t.entries S ↔ e ∈ t'.entries S := by
      rintro ⟨name, tag, d⟩
      rw [mem_entries h.tidy, mem_entries h'.tidy]
      refine or_congr (by rw [hsame]) ?_
      constructor
      · rintro ⟨child, hfind, hempty, rfl, rfl⟩
        obtain ⟨dirs, leaf, hne⟩ := exists_leaf (h.tidy.child hfind) hempty
        cases hfind' : t'.subdirs.find name with
        | none =>
          rw [← lookup_cons hfind, hsame, lookup_cons_none hfind'] at hne
          exact absurd rfl hne
        | some child' =>
          have hchild : child.SameLeaves child' := fun ds l => by
            rw [← lookup_cons hfind, hsame, lookup_cons hfind']
          rw [hchild] at hne
          obtain ⟨v, hv⟩ := Option.ne_none_iff_exists'.mp hne
          exact ⟨child', rfl, isEmpty_eq_false (h'.tidy.child hfind') hv, rfl,
            ih name child hfind (h.child hfind) (h'.child hfind') hchild⟩
      · rintro ⟨child', hfind', hempty, rfl, rfl⟩
        obtain ⟨dirs, leaf, hne⟩ := exists_leaf (h'.tidy.child hfind') hempty
        cases hfind : t.subdirs.find name with
        | none =>
          rw [← lookup_cons hfind', ← hsame, lookup_cons_none hfind] at hne
          exact absurd rfl hne
        | some child =>
          have hchild : child.SameLeaves child' := fun ds l => by
            rw [← lookup_cons hfind, hsame, lookup_cons hfind']
          rw [← hchild] at hne
          obtain ⟨v, hv⟩ := Option.ne_none_iff_exists'.mp hne
          exact ⟨child, rfl, isEmpty_eq_false (h.tidy.child hfind) hv, rfl,
            (ih name child hfind (h.child hfind) (h'.child hfind') hchild).symm⟩
    rw [hash, hash, text, text, sortByKey_eq_of_mem_iff h.nodup h'.nodup hmem]

/-- Trees with the same hash have the same entries. -/
theorem Directory.entries_of_hash_eq (h : t.Proper S) (h' : t'.Proper S) (hcoll : S.NoCollision (t.preimages S ++ t'.preimages S))
    (heq : t.hash S = t'.hash S) {e : N × T × D} (he : e ∈ t.entries S) : e ∈ t'.entries S := by
  have htext : t.text S = t'.text S :=
    hcoll _ (List.mem_append_left _ (t.text_mem_preimages S)) _ (List.mem_append_right _ (t'.text_mem_preimages S)) heq
  have hsort : sortByKey Prod.fst (t.entries S) = sortByKey Prod.fst (t'.entries S) :=
    S.encode_injective _ _ h.readable_entries h'.readable_entries htext
  have hmem : e ∈ sortByKey Prod.fst (t.entries S) := mem_sortByKey.mpr he
  rw [hsort] at hmem
  exact mem_sortByKey.mp hmem

/-- The leaves of a tree are those of one with the same hash. -/
theorem Directory.lookup_of_hash_eq (h : t.Proper S) (h' : t'.Proper S) (hcoll : S.NoCollision (t.preimages S ++ t'.preimages S))
    (heq : t.hash S = t'.hash S) {dirs : List N} {leaf : N} {v : T × B} (hv : t.lookup dirs leaf = some v) :
    t'.lookup dirs leaf = some v := by
  induction dirs generalizing t t' with
  | nil =>
    obtain ⟨tag, content⟩ := v
    have hentry := entries_of_hash_eq h h' hcoll heq ((mem_entries h.tidy).mpr (.inl ⟨content, hv, rfl⟩))
    rcases (mem_entries h'.tidy).mp hentry with ⟨content', hv', hhash⟩ | ⟨child', -, -, htag, -⟩
    · rw [hcoll content (List.mem_append_left _ (content_mem_preimages hv)) content'
        (List.mem_append_right _ (content_mem_preimages hv')) hhash]
      exact hv'
    · exact absurd htag (h.tags [] leaf tag content hv)
  | cons name dirs ih =>
    cases hfind : t.subdirs.find name with
    | none =>
      rw [lookup_cons_none hfind] at hv
      cases hv
    | some child =>
      rw [lookup_cons hfind] at hv
      have hempty : child.isEmpty = false := isEmpty_eq_false (h.tidy.child hfind) hv
      have hentry := entries_of_hash_eq h h' hcoll heq ((mem_entries h.tidy).mpr (.inr ⟨child, hfind, hempty, rfl, rfl⟩))
      rcases (mem_entries h'.tidy).mp hentry with ⟨content', hv', -⟩ | ⟨child', hfind', -, -, hhash⟩
      · exact absurd rfl (h'.tags [] name S.treeTag content' hv')
      · rw [lookup_cons hfind']
        refine ih (h.child hfind) (h'.child hfind') (hcoll.mono ?_) hhash hv
        exact List.append_subset.mpr ⟨List.Subset.trans (preimages_subset hfind) (List.subset_append_left _ _),
          List.Subset.trans (preimages_subset hfind') (List.subset_append_right _ _)⟩

/-- **Two trees have the same hash exactly when they have the same leaves.** -/
theorem Directory.hash_eq_iff (h : t.Proper S) (h' : t'.Proper S) (hcoll : S.NoCollision (t.preimages S ++ t'.preimages S)) :
    t.hash S = t'.hash S ↔ t.SameLeaves t' := by
  refine ⟨fun heq dirs leaf => Option.ext fun v => ⟨lookup_of_hash_eq h h' hcoll heq, ?_⟩, hash_eq_of_sameLeaves h h'⟩
  exact lookup_of_hash_eq h' h (hcoll.mono (List.append_subset.mpr ⟨List.subset_append_right _ _, List.subset_append_left _ _⟩))
    heq.symm

end Entries

end Milpa.Merkle

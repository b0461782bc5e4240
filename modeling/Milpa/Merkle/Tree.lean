import Milpa.Types.Sort

/-!
# Trees of named leaves

A directory as a program builds it: leaves and subdirectories, each under a name. What a
tree is for is the leaf at each path (`Directory.lookup`); two trees with the same leaves can
still differ in the order in which names came, and in subdirectories without a leaf.
-/

namespace Milpa.Merkle

mutual

/-- A directory: its leaves and its subdirectories. -/
inductive Directory (N L : Type) where
  | node (leaves : List (N × L)) (subdirs : Forest N L)

/-- Subdirectories with their names. -/
inductive Forest (N L : Type) where
  | nil
  | cons (name : N) (child : Directory N L) (rest : Forest N L)

end

variable {N L : Type}

/-! ### Looking up -/

namespace Forest

/-- The names. -/
def names : Forest N L → List N
  | nil => []
  | cons k _ rest => k :: names rest

end Forest

namespace Directory

/-- The leaves of the directory itself. -/
def leaves : Directory N L → List (N × L)
  | node leaves _ => leaves

/-- The subdirectories. -/
def subdirs : Directory N L → Forest N L
  | node _ subdirs => subdirs

/-- A directory without anything. -/
def empty : Directory N L := node [] .nil

end Directory

section Lookup

variable [DecidableEq N]

/-- The value of the first pair with a key. -/
def assoc (key : N) : List (N × L) → Option L
  | [] => none
  | (k, v) :: rest => if k = key then some v else assoc key rest

/-- The subdirectory of a name. -/
def Forest.find (name : N) : Forest N L → Option (Directory N L)
  | nil => none
  | cons k child rest => if k = name then some child else find name rest

namespace Directory

/-- The leaf at a path: the directories on the way, and its own name. -/
def lookup (t : Directory N L) : List N → N → Option L
  | [], leaf => assoc leaf t.leaves
  | dir :: dirs, leaf =>
    match t.subdirs.find dir with
    | some child => child.lookup dirs leaf
    | none => none

/-- Two trees have the same leaves. -/
def SameLeaves (t t' : Directory N L) : Prop := ∀ dirs leaf, t.lookup dirs leaf = t'.lookup dirs leaf

end Directory

end Lookup

/-! ### Inserting -/

section Insert

variable [DecidableEq N]

/-- A pair in the place of the one with its key, or else at the end. -/
def setAssoc (key : N) (value : L) : List (N × L) → List (N × L)
  | [] => [(key, value)]
  | (k, v) :: rest => if k = key then (k, value) :: rest else (k, v) :: setAssoc key value rest

/-- The subdirectory of a name, changed; one that is not there is made from an empty one. -/
def Forest.modify (name : N) (f : Directory N L → Directory N L) : Forest N L → Forest N L
  | nil => cons name (f .empty) nil
  | cons k child rest => if k = name then cons k (f child) rest else cons k child (Forest.modify name f rest)

/-- A leaf at a path, with the directories on the way. -/
def Directory.insert (leaf : N) (value : L) : List N → Directory N L → Directory N L
  | [], node leaves subdirs => node (setAssoc leaf value leaves) subdirs
  | dir :: dirs, node leaves subdirs => node leaves (subdirs.modify dir (Directory.insert leaf value dirs))

theorem assoc_setAssoc (key k : N) (value : L) (l : List (N × L)) :
    assoc k (setAssoc key value l) = if key = k then some value else assoc k l := by
  induction l with
  | nil => rfl
  | cons p rest ih =>
    obtain ⟨k', v⟩ := p
    by_cases hk : k' = key
    · subst hk
      by_cases h : k' = k <;> simp [setAssoc, assoc, h]
    · rw [setAssoc, if_neg hk, assoc, ih, assoc]
      by_cases h : key = k
      · subst h
        simp [hk]
      · simp [h]

theorem Forest.find_modify (name k : N) (f : Directory N L → Directory N L) (s : Forest N L) :
    (s.modify name f).find k = if name = k then some (f ((s.find name).getD .empty)) else s.find k := by
  match s with
  | nil => rfl
  | cons k' child rest =>
    have ih := find_modify name k f rest
    by_cases hk : k' = name
    · subst hk
      by_cases h : k' = k <;> simp [modify, find, h]
    · rw [modify, if_neg hk, find, ih, find, find, if_neg hk]
      by_cases h : name = k
      · subst h
        simp [hk]
      · simp [h]

@[simp] theorem Directory.lookup_empty (dirs : List N) (leaf : N) : (Directory.empty : Directory N L).lookup dirs leaf = none := by
  cases dirs <;> rfl

/-- **What is inserted is at its path, and nothing else changes.** -/
theorem Directory.lookup_insert (leaf l : N) (value : L) (dirs ds : List N) (t : Directory N L) :
    (t.insert leaf value dirs).lookup ds l = if dirs = ds ∧ leaf = l then some value else t.lookup ds l := by
  induction dirs generalizing ds t with
  | nil =>
    obtain ⟨leaves, subdirs⟩ := t
    cases ds with
    | nil => simp [insert, lookup, Directory.leaves, assoc_setAssoc]
    | cons d ds => simp [insert, lookup, Directory.subdirs]
  | cons dir dirs ih =>
    obtain ⟨leaves, subdirs⟩ := t
    cases ds with
    | nil => simp [insert, lookup, Directory.leaves]
    | cons d ds =>
      rw [insert, lookup, Directory.subdirs, Forest.find_modify]
      by_cases hd : dir = d
      · subst hd
        rw [if_pos rfl]
        dsimp only
        rw [ih]
        simp only [List.cons.injEq, true_and]
        congr 1
        rw [lookup, Directory.subdirs]
        cases subdirs.find dir <;> simp
      · rw [if_neg hd, if_neg (fun h => hd (List.cons.inj h.1).1), lookup, Directory.subdirs]

end Insert

/-! ### Tidy trees -/

mutual

/-- No directory has two leaves, or two subdirectories, of one name. -/
def Directory.Tidy : Directory N L → Prop
  | .node leaves subdirs => (leaves.map Prod.fst).Nodup ∧ subdirs.Tidy

/-- No two have one name, and they are tidy. -/
def Forest.Tidy : Forest N L → Prop
  | .nil => True
  | .cons name child rest => name ∉ rest.names ∧ child.Tidy ∧ rest.Tidy

end

theorem Directory.tidy_empty : (Directory.empty : Directory N L).Tidy := ⟨List.nodup_nil, trivial⟩

theorem Forest.Tidy.names_nodup : ∀ {s : Forest N L}, s.Tidy → s.names.Nodup
  | .nil, _ => List.nodup_nil
  | .cons _ _ _, ⟨hnot, _, hrest⟩ => List.nodup_cons.mpr ⟨hnot, hrest.names_nodup⟩

section Tidy

variable [DecidableEq N]

theorem mem_keys_setAssoc {key k : N} {value : L} {l : List (N × L)} :
    k ∈ (setAssoc key value l).map Prod.fst ↔ k = key ∨ k ∈ l.map Prod.fst := by
  induction l with
  | nil => simp [setAssoc]
  | cons p rest ih =>
    obtain ⟨k', v⟩ := p
    by_cases hk : k' = key
    · subst hk
      simp [setAssoc]
    · rw [setAssoc, if_neg hk, List.map_cons, List.mem_cons, ih, List.map_cons, List.mem_cons]
      tauto

theorem nodup_setAssoc {key : N} {value : L} {l : List (N × L)} (h : (l.map Prod.fst).Nodup) :
    ((setAssoc key value l).map Prod.fst).Nodup := by
  induction l with
  | nil => simp [setAssoc]
  | cons p rest ih =>
    obtain ⟨k', v⟩ := p
    obtain ⟨hnot, hrest⟩ := List.nodup_cons.mp h
    by_cases hk : k' = key
    · rw [setAssoc, if_pos hk]
      exact h
    · rw [setAssoc, if_neg hk, List.map_cons]
      refine List.nodup_cons.mpr ⟨fun hmem => ?_, ih hrest⟩
      rcases mem_keys_setAssoc.mp hmem with heq | hmem
      · exact hk heq
      · exact hnot hmem

theorem Forest.mem_names_modify {name k : N} {f : Directory N L → Directory N L} {s : Forest N L} :
    k ∈ (s.modify name f).names ↔ k = name ∨ k ∈ s.names := by
  match s with
  | nil => simp [modify, names]
  | cons k' child rest =>
    by_cases hk : k' = name
    · subst hk
      simp [modify, names]
    · rw [modify, if_neg hk, names, List.mem_cons, mem_names_modify, names, List.mem_cons]
      tauto

theorem Forest.Tidy.modify {name : N} {f : Directory N L → Directory N L} (hf : ∀ t : Directory N L, t.Tidy → (f t).Tidy) :
    ∀ {s : Forest N L}, s.Tidy → (s.modify name f).Tidy
  | .nil, _ => ⟨by simp [names], hf _ Directory.tidy_empty, trivial⟩
  | .cons k child rest, ⟨hnot, hchild, hrest⟩ => by
    by_cases hk : k = name
    · rw [Forest.modify, if_pos hk]
      exact ⟨hnot, hf child hchild, hrest⟩
    · rw [Forest.modify, if_neg hk]
      refine ⟨fun hmem => ?_, hchild, Forest.Tidy.modify hf hrest⟩
      rcases mem_names_modify.mp hmem with heq | hmem
      · exact hk heq
      · exact hnot hmem

/-- Inserting keeps a tree tidy. -/
theorem Directory.Tidy.insert {leaf : N} {value : L} {dirs : List N} {t : Directory N L} (h : t.Tidy) : (t.insert leaf value dirs).Tidy := by
  induction dirs generalizing t with
  | nil =>
    obtain ⟨leaves, subdirs⟩ := t
    exact ⟨nodup_setAssoc h.1, h.2⟩
  | cons dir dirs ih =>
    obtain ⟨leaves, subdirs⟩ := t
    exact ⟨h.1, h.2.modify fun _ ht => ih ht⟩

theorem mem_of_assoc {key : N} {value : L} {l : List (N × L)} (h : assoc key l = some value) : (key, value) ∈ l := by
  induction l with
  | nil => cases h
  | cons p rest ih =>
    obtain ⟨k, v⟩ := p
    rw [assoc] at h
    split_ifs at h with hk
    · cases h
      exact hk ▸ List.mem_cons_self
    · exact List.mem_cons_of_mem _ (ih h)

theorem assoc_of_mem {key : N} {value : L} {l : List (N × L)} (hl : (l.map Prod.fst).Nodup) (h : (key, value) ∈ l) :
    assoc key l = some value := by
  induction l with
  | nil => cases h
  | cons p rest ih =>
    obtain ⟨k, v⟩ := p
    obtain ⟨hnot, hrest⟩ := List.nodup_cons.mp hl
    rcases List.mem_cons.mp h with h | h
    · cases h
      simp [assoc]
    · have hne : k ≠ key := fun heq => hnot (heq ▸ List.mem_map.mpr ⟨(key, value), h, rfl⟩)
      rw [assoc, if_neg hne]
      exact ih hrest h

end Tidy

/-! ### Names -/

mutual

/-- Every name of a leaf or a directory has a property. -/
def Directory.Named (P : N → Prop) : Directory N L → Prop
  | .node leaves subdirs => (∀ e ∈ leaves, P e.1) ∧ subdirs.Named P

/-- Every name of a leaf or a directory has a property. -/
def Forest.Named (P : N → Prop) : Forest N L → Prop
  | .nil => True
  | .cons name child rest => P name ∧ child.Named P ∧ rest.Named P

end

theorem Directory.named_empty {P : N → Prop} : (Directory.empty : Directory N L).Named P := ⟨by simp, trivial⟩

section Named

variable [DecidableEq N] {P : N → Prop}

theorem named_setAssoc {key : N} {value : L} {l : List (N × L)} (hkey : P key) (h : ∀ e ∈ l, P e.1) :
    ∀ e ∈ setAssoc key value l, P e.1 := by
  intro e he
  rcases mem_keys_setAssoc.mp (List.mem_map.mpr ⟨e, he, rfl⟩) with heq | hmem
  · exact heq ▸ hkey
  · obtain ⟨e', he', heq⟩ := List.mem_map.mp hmem
    exact heq ▸ h e' he'

theorem Forest.Named.modify {name : N} {f : Directory N L → Directory N L} (hname : P name) (hf : ∀ t : Directory N L, t.Named P → (f t).Named P) :
    ∀ {s : Forest N L}, s.Named P → (s.modify name f).Named P
  | .nil, _ => ⟨hname, hf _ Directory.named_empty, trivial⟩
  | .cons k child rest, ⟨hk, hchild, hrest⟩ => by
    by_cases h : k = name
    · rw [Forest.modify, if_pos h]
      exact ⟨hk, hf child hchild, hrest⟩
    · rw [Forest.modify, if_neg h]
      exact ⟨hk, hchild, Forest.Named.modify hname hf hrest⟩

/-- Inserting adds the names on the way. -/
theorem Directory.Named.insert {leaf : N} {value : L} {dirs : List N} (hdirs : ∀ d ∈ dirs, P d) (hleaf : P leaf) {t : Directory N L}
    (h : t.Named P) : (t.insert leaf value dirs).Named P := by
  induction dirs generalizing t with
  | nil =>
    obtain ⟨leaves, subdirs⟩ := t
    exact ⟨named_setAssoc hleaf h.1, h.2⟩
  | cons dir dirs ih =>
    obtain ⟨leaves, subdirs⟩ := t
    obtain ⟨hdir, hdirs⟩ := List.forall_mem_cons.mp hdirs
    exact ⟨h.1, h.2.modify hdir fun _ ht => ih hdirs ht⟩

theorem Forest.Named.find {name : N} {child : Directory N L} : ∀ {s : Forest N L}, s.Named P → s.find name = some child →
    P name ∧ child.Named P
  | .cons k _ rest, ⟨hk, hchild, hrest⟩, h => by
    rw [Forest.find] at h
    split_ifs at h with heq
    · cases h
      exact ⟨heq ▸ hk, hchild⟩
    · exact hrest.find h

/-- The names on the way to a leaf are names of the tree. -/
theorem Directory.Named.of_lookup {dirs : List N} {leaf : N} {t : Directory N L} (h : t.Named P) (hne : t.lookup dirs leaf ≠ none) :
    (∀ d ∈ dirs, P d) ∧ P leaf := by
  induction dirs generalizing t with
  | nil =>
    obtain ⟨leaves, subdirs⟩ := t
    obtain ⟨v, hv⟩ := Option.ne_none_iff_exists'.mp hne
    exact ⟨by simp, h.1 (leaf, v) (mem_of_assoc hv)⟩
  | cons dir dirs ih =>
    obtain ⟨leaves, subdirs⟩ := t
    rw [lookup, Directory.subdirs] at hne
    cases hfind : subdirs.find dir with
    | none =>
      rw [hfind] at hne
      exact absurd rfl hne
    | some child =>
      rw [hfind] at hne
      obtain ⟨hdir, hchild⟩ := h.2.find hfind
      obtain ⟨hdirs, hleaf⟩ := ih hchild hne
      exact ⟨List.forall_mem_cons.mpr ⟨hdir, hdirs⟩, hleaf⟩

end Named

end Milpa.Merkle

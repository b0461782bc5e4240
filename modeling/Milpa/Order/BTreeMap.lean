import Mathlib.Data.List.Sort

/-!
# Ordered maps

A map whose entries are kept in the order of their keys, one for each key: what a
`BTreeMap` is to the code that uses it. Iteration goes over `entries`; a key is looked up
with `get?`, and `insert` replaces what is there.
-/

namespace Milpa

universe u v

/-- An ordered map. -/
structure BTreeMap (κ : Type u) (ν : Type v) [LinearOrder κ] where
  entries : List (κ × ν)
  sorted : entries.Pairwise fun a b => a.1 < b.1

namespace BTreeMap

variable {κ : Type u} {ν : Type v} [LinearOrder κ]

/-- The map without entries. -/
def empty : BTreeMap κ ν := ⟨[], .nil⟩

/-- The value of a key. -/
def get? (m : BTreeMap κ ν) (k : κ) : Option ν := (m.entries.find? fun e => decide (e.1 = k)).map Prod.snd

/-- The entries with one more, or with another value for a key that is there. -/
def insertEntry (k : κ) (v : ν) : List (κ × ν) → List (κ × ν)
  | [] => [(k, v)]
  | e :: l => if k < e.1 then (k, v) :: e :: l else if k = e.1 then (k, v) :: l else e :: insertEntry k v l

theorem mem_insertEntry {k : κ} {v : ν} {l : List (κ × ν)} {e : κ × ν} (h : e ∈ insertEntry k v l) :
    e = (k, v) ∨ e ∈ l := by
  induction l with
  | nil => exact Or.inl (by simpa [insertEntry] using h)
  | cons e' l ih =>
    rw [insertEntry] at h
    split_ifs at h
    · simpa using h
    · rcases List.mem_cons.mp h with h | h
      · exact Or.inl h
      · exact Or.inr (List.mem_cons_of_mem _ h)
    · rcases List.mem_cons.mp h with h | h
      · exact Or.inr (h ▸ List.mem_cons_self)
      · exact (ih h).imp_right (List.mem_cons_of_mem _)

theorem sorted_insertEntry {k : κ} {v : ν} {l : List (κ × ν)} (h : l.Pairwise fun a b => a.1 < b.1) :
    (insertEntry k v l).Pairwise fun a b => a.1 < b.1 := by
  induction l with
  | nil => exact List.pairwise_singleton _ _
  | cons e l ih =>
    obtain ⟨he, hl⟩ := List.pairwise_cons.mp h
    rw [insertEntry]
    split_ifs with hlt heq
    · refine List.pairwise_cons.mpr ⟨fun b hb => ?_, h⟩
      rcases List.mem_cons.mp hb with rfl | hb
      · exact hlt
      · exact hlt.trans (he b hb)
    · exact List.pairwise_cons.mpr ⟨fun b hb => heq ▸ he b hb, hl⟩
    · refine List.pairwise_cons.mpr ⟨fun b hb => ?_, ih hl⟩
      rcases mem_insertEntry hb with rfl | hb
      · exact lt_of_le_of_ne (not_lt.mp hlt) (Ne.symm heq)
      · exact he b hb

/-- The map with a value for a key. -/
def insert (k : κ) (v : ν) (m : BTreeMap κ ν) : BTreeMap κ ν := ⟨insertEntry k v m.entries, sorted_insertEntry m.sorted⟩

@[simp] theorem get?_empty (k : κ) : (empty : BTreeMap κ ν).get? k = none := rfl

theorem find?_insertEntry (k : κ) (v : ν) (l : List (κ × ν)) (j : κ) :
    (insertEntry k v l).find? (fun e => decide (e.1 = j)) =
      if j = k then some (k, v) else l.find? fun e => decide (e.1 = j) := by
  induction l with
  | nil =>
    by_cases hj : j = k
    · simp [insertEntry, hj]
    · simp [insertEntry, hj, Ne.symm hj]
  | cons e l ih =>
    rw [insertEntry]
    by_cases hj : j = k
    · rw [if_pos hj] at ih ⊢
      split_ifs with hlt heq
      · rw [List.find?_cons_of_pos (by simp [hj])]
      · rw [List.find?_cons_of_pos (by simp [hj])]
      · rw [List.find?_cons_of_neg (by simpa [hj] using Ne.symm heq), ih]
    · rw [if_neg hj] at ih ⊢
      split_ifs with hlt heq
      · rw [List.find?_cons_of_neg (by simpa using Ne.symm hj)]
      · rw [List.find?_cons_of_neg (by simpa using Ne.symm hj),
          List.find?_cons_of_neg (by simpa [← heq] using Ne.symm hj)]
      · rw [List.find?_cons, List.find?_cons, ih]

/-- **A key that is inserted has its value, and every other key the one it had.** -/
theorem get?_insert (m : BTreeMap κ ν) (k : κ) (v : ν) (j : κ) :
    (m.insert k v).get? j = if j = k then some v else m.get? j := by
  rw [get?, insert, find?_insertEntry, get?]
  split_ifs <;> rfl

/-- After a run of insertions a key has the value that was inserted for it last, or the one it had. -/
theorem get?_foldl_insert {ι : Type*} (f : ι → ν) (l : List (κ × ι)) (m : BTreeMap κ ν) (k : κ) :
    (l.foldl (fun m e => m.insert e.1 (f e.2)) m).get? k =
      ((l.reverse.find? fun e => decide (e.1 = k)).map fun e => f e.2).or (m.get? k) := by
  induction l generalizing m with
  | nil => rfl
  | cons e l ih =>
    rw [List.foldl_cons, ih, get?_insert, List.reverse_cons, List.find?_append]
    by_cases hk : k = e.1
    · rw [if_pos hk, List.find?_cons_of_pos (by simp [hk])]
      cases l.reverse.find? fun e => decide (e.1 = k) <;> rfl
    · rw [if_neg hk, List.find?_cons_of_neg (by simpa using Ne.symm hk), List.find?_nil, Option.or_none]

/-- A map that is filled from a list in which each key has one value has that value. -/
theorem get?_foldl_insert_of_unique {l : List (κ × ν)} (hl : ∀ x ∈ l, ∀ y ∈ l, x.1 = y.1 → x = y) {k : κ} {v : ν} :
    (l.foldl (fun m e => m.insert e.1 e.2) empty).get? k = some v ↔ (k, v) ∈ l := by
  show (l.foldl (fun m e => m.insert e.1 (id e.2)) empty).get? k = some v ↔ _
  rw [get?_foldl_insert id l empty k, get?_empty, Option.or_none, Option.map_eq_some_iff]
  constructor
  · rintro ⟨e, he, rfl⟩
    have hkey : e.1 = k := by simpa using List.find?_some he
    rw [← hkey]
    exact List.mem_reverse.mp (List.mem_of_find?_eq_some he)
  · intro hmem
    obtain ⟨e, he⟩ := Option.isSome_iff_exists.mp
      (List.find?_isSome.mpr ⟨(k, v), List.mem_reverse.mpr hmem, decide_eq_true rfl⟩ :
        (l.reverse.find? fun e => decide (e.1 = k)).isSome = true)
    have hkey : e.1 = k := by simpa using List.find?_some he
    have heq : e = (k, v) := hl e (List.mem_reverse.mp (List.mem_of_find?_eq_some he)) _ hmem hkey
    exact ⟨e, he, by rw [heq]; rfl⟩

/-- After a loop that collects items under their keys, a key has the items that are kept for it, in order. -/
theorem get?_foldl_collect {ι : Type*} (key : ι → κ) (skip : ι → Bool) (l : List ι) (m : BTreeMap κ (List ι)) (k : κ) :
    (l.foldl (fun m i => if skip i then m else m.insert (key i) ((m.get? (key i)).getD [] ++ [i])) m).get? k =
      if (l.filter fun i => !skip i && decide (key i = k)) = [] then m.get? k
      else some ((m.get? k).getD [] ++ l.filter fun i => !skip i && decide (key i = k)) := by
  induction l generalizing m with
  | nil => rfl
  | cons i l ih =>
    rw [List.foldl_cons, ih]
    cases hskip : skip i with
    | true => simp [hskip]
    | false =>
      by_cases hk : key i = k
      · subst hk
        simp only [Bool.false_eq_true, if_false, get?_insert, if_true, Option.getD_some, List.filter_cons, hskip,
          Bool.not_false, Bool.true_and, decide_true, List.cons_ne_nil]
        split_ifs with hnil
        · rw [hnil]
        · rw [List.append_assoc, List.singleton_append]
      · have hk' : ¬ k = key i := fun h => hk h.symm
        simp [hskip, hk, hk', get?_insert]

theorem find?_eq_some_iff_mem {l : List (κ × ν)} (h : l.Pairwise fun a b => a.1 < b.1) {k : κ} {v : ν} :
    l.find? (fun e => decide (e.1 = k)) = some (k, v) ↔ (k, v) ∈ l := by
  induction l with
  | nil => simp
  | cons e l ih =>
    obtain ⟨he, hl⟩ := List.pairwise_cons.mp h
    by_cases hk : e.1 = k
    · rw [List.find?_cons_of_pos (by simpa using hk), List.mem_cons, Option.some.injEq, eq_comm]
      refine (or_iff_left fun hmem => ?_).symm
      exact absurd hk (he _ hmem).ne
    · rw [List.find?_cons_of_neg (by simpa using hk), ih hl, List.mem_cons]
      refine (or_iff_right fun heq => ?_).symm
      exact hk (congrArg Prod.fst heq).symm

/-- **The entries are the keys with their values.** -/
theorem mem_entries {m : BTreeMap κ ν} {k : κ} {v : ν} : (k, v) ∈ m.entries ↔ m.get? k = some v := by
  rw [← find?_eq_some_iff_mem m.sorted, get?, Option.map_eq_some_iff]
  constructor
  · exact fun h => ⟨(k, v), h, rfl⟩
  · rintro ⟨⟨k', v'⟩, hf, rfl⟩
    have hk : k' = k := by simpa using List.find?_some hf
    exact hk ▸ hf

/-- The keys, in order. -/
def keys (m : BTreeMap κ ν) : List κ := m.entries.map Prod.fst

theorem mem_keys {m : BTreeMap κ ν} {k : κ} : k ∈ m.keys ↔ ∃ v, m.get? k = some v := by
  simp only [keys, List.mem_map, Prod.exists, exists_and_right, exists_eq_right, mem_entries]

/-- The map without a key. -/
def erase (k : κ) (m : BTreeMap κ ν) : BTreeMap κ ν :=
  ⟨m.entries.filter fun e => decide (e.1 ≠ k), m.sorted.filter _⟩

theorem get?_erase (m : BTreeMap κ ν) (k j : κ) : (m.erase k).get? j = if j = k then none else m.get? j := by
  refine Option.ext fun v => ?_
  rw [← mem_entries, erase, List.mem_filter, mem_entries]
  by_cases hj : j = k
  · simp [hj]
  · simp [hj]

/-- A map is known by its lookups. -/
theorem ext_get? {m n : BTreeMap κ ν} (h : ∀ k, m.get? k = n.get? k) : m = n := by
  have hsub : ∀ {a b : BTreeMap κ ν}, (∀ k, a.get? k = b.get? k) → a.entries ⊆ b.entries := by
    rintro a b hab ⟨k, v⟩ he
    exact mem_entries.mpr (hab k ▸ mem_entries.mp he)
  have hnodup : ∀ a : BTreeMap κ ν, a.entries.Nodup := fun a => a.sorted.imp fun hlt heq => by
    rw [heq] at hlt
    exact lt_irrefl _ hlt
  have hperm : m.entries.Perm n.entries :=
    (List.perm_ext_iff_of_nodup (hnodup m) (hnodup n)).mpr fun e => ⟨fun he => hsub h he, fun he => hsub (fun k => (h k).symm) he⟩
  have heq : m.entries = n.entries := hperm.eq_of_pairwise (fun a b _ _ hab hba => absurd hab hba.not_gt) m.sorted n.sorted
  cases m
  cases n
  simp only at heq
  subst heq
  rfl

end BTreeMap

end Milpa

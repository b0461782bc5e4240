import Milpa.Order.BTreeMap
import Milpa.Types.Version

/-!
# Maps keyed by versions

A `BTreeMap` whose keys are versions. It tells its keys apart by their precedence, and an
insertion for a key that is there replaces the value and leaves the key as it was: the
version under which a value is found again can differ, in its build string, from the one
it was inserted under.
-/

namespace Milpa

universe u

/-- A map keyed by versions: under each precedence, the key that came first and the value that came last. -/
abbrev VersionMap (ν : Type u) := BTreeMap VersionKey (Version × ν)

namespace VersionMap

variable {ν : Type u}

/-- The key and the value that are found for a version. -/
def entry (m : VersionMap ν) (v : Version) : Option (Version × ν) := BTreeMap.get? m v.precedenceKey

/-- The value of a version. -/
def get? (m : VersionMap ν) (v : Version) : Option ν := (m.entry v).map Prod.snd

/-- The map with a value for a version. -/
def insert (v : Version) (a : ν) (m : VersionMap ν) : VersionMap ν :=
  BTreeMap.insert v.precedenceKey (((m.entry v).map Prod.fst).getD v, a) m

/-- The map with the values of a list of versions. -/
def extend (m : VersionMap ν) (l : List (Version × ν)) : VersionMap ν := l.foldl (fun m e => m.insert e.1 e.2) m

/-- The map without a version. -/
def erase (v : Version) (m : VersionMap ν) : VersionMap ν := BTreeMap.erase v.precedenceKey m

/-- The versions, as their keys are, with their values. -/
def toList (m : VersionMap ν) : List (Version × ν) := m.entries.map Prod.snd

/-- The keys. -/
def versions (m : VersionMap ν) : List Version := m.toList.map Prod.fst

@[simp] theorem entry_empty (v : Version) : entry (BTreeMap.empty : VersionMap ν) v = none := rfl

theorem entry_insert (m : VersionMap ν) (v w : Version) (a : ν) :
    (m.insert v a).entry w =
      if w.precedenceKey = v.precedenceKey then some (((m.entry v).map Prod.fst).getD v, a) else m.entry w :=
  BTreeMap.get?_insert m v.precedenceKey _ w.precedenceKey

theorem get?_insert (m : VersionMap ν) (v w : Version) (a : ν) :
    (m.insert v a).get? w = if w.precedenceKey = v.precedenceKey then some a else m.get? w := by
  rw [get?, entry_insert]
  split_ifs <;> rfl

theorem entry_erase (m : VersionMap ν) (v w : Version) :
    (m.erase v).entry w = if w.precedenceKey = v.precedenceKey then none else m.entry w :=
  BTreeMap.get?_erase m v.precedenceKey w.precedenceKey

theorem entry_congr (m : VersionMap ν) {v w : Version} (h : v.precedenceKey = w.precedenceKey) :
    m.entry v = m.entry w := by
  rw [entry, h, entry]

/-- After a run of insertions there is, under each precedence, the value that was inserted last, with the key that was
there or was inserted first. -/
theorem get?_extend (m : VersionMap ν) (l : List (Version × ν)) (key : VersionKey) :
    BTreeMap.get? (m.extend l) key =
      ((l.reverse.find? fun e => decide (e.1.precedenceKey = key)).map fun last =>
        (((BTreeMap.get? m key).map Prod.fst).or ((l.find? fun e => decide (e.1.precedenceKey = key)).map Prod.fst)
          |>.getD last.1, last.2)).or (BTreeMap.get? m key) := by
  induction l generalizing m with
  | nil => rfl
  | cons e l ih =>
    have hinsert : BTreeMap.get? (m.insert e.1 e.2) key =
        if key = e.1.precedenceKey then some (((m.entry e.1).map Prod.fst).getD e.1, e.2) else BTreeMap.get? m key :=
      BTreeMap.get?_insert m e.1.precedenceKey _ key
    rw [extend, List.foldl_cons, ← extend, ih, hinsert, List.reverse_cons, List.find?_append]
    by_cases he : key = e.1.precedenceKey
    · rw [if_pos he, List.find?_cons_of_pos (by simp [he]), List.find?_cons_of_pos (by simp [he]), he, ← entry]
      cases hl : l.reverse.find? fun e' => decide (e'.1.precedenceKey = e.1.precedenceKey) <;>
        cases hm : m.entry e.1 <;> simp
    · rw [if_neg he, List.find?_cons_of_neg (by simpa using Ne.symm he), List.find?_cons_of_neg (by simpa using Ne.symm he),
        List.find?_nil, Option.or_none]

/-- Each key is found under its precedence. -/
def WellKeyed (m : VersionMap ν) : Prop := ∀ key v a, BTreeMap.get? m key = some (v, a) → v.precedenceKey = key

theorem mem_toList {t : VersionMap ν} (ht : t.WellKeyed) {e : Version × ν} :
    e ∈ t.toList ↔ BTreeMap.get? t e.1.precedenceKey = some e := by
  rw [toList, List.mem_map, ← BTreeMap.mem_entries]
  constructor
  · rintro ⟨⟨key, v, a⟩, he, rfl⟩
    rwa [ht key v a (BTreeMap.mem_entries.mp he)]
  · exact fun he => ⟨_, he, rfl⟩

/-- Inserting the entries of a map into a part of it gives the map. -/
theorem extend_toList {m t : VersionMap ν} (ht : t.WellKeyed)
    (hm : ∀ key e, BTreeMap.get? m key = some e → BTreeMap.get? t key = some e) : m.extend t.toList = t := by
  refine BTreeMap.ext_get? fun key => ?_
  rw [get?_extend]
  have hfound : ∀ {l : List (Version × ν)} {e : Version × ν}, (∀ x ∈ l, x ∈ t.toList) →
      l.find? (fun e => decide (e.1.precedenceKey = key)) = some e → BTreeMap.get? t key = some e := by
    intro l e hl he
    have hkey : e.1.precedenceKey = key := by simpa using List.find?_some he
    rw [← hkey]
    exact (mem_toList ht).mp (hl e (List.mem_of_find?_eq_some he))
  cases hlast : t.toList.reverse.find? fun e => decide (e.1.precedenceKey = key) with
  | none =>
    have hnone : BTreeMap.get? t key = none := by
      refine Option.eq_none_iff_forall_not_mem.mpr fun e he => ?_
      have hkey := ht key e.1 e.2 he
      have hmem : e ∈ t.toList.reverse := List.mem_reverse.mpr ((mem_toList ht).mpr (hkey ▸ he))
      exact absurd hkey (by simpa using List.find?_eq_none.mp hlast e hmem)
    have hpart : BTreeMap.get? m key = none := Option.eq_none_iff_forall_not_mem.mpr fun e he => by
      rw [hm key e he] at hnone
      cases hnone
    rw [hpart, hnone]
    rfl
  | some e =>
    have he := hfound (fun x hx => List.mem_reverse.mp hx) hlast
    rw [he, Option.map_some, Option.some_or]
    congr 1
    refine Prod.ext ?_ rfl
    cases hpart : BTreeMap.get? m key with
    | some e' =>
      have heq : e' = e := Option.some.inj ((hm key e' hpart).symm.trans he)
      simp [heq]
    | none =>
      cases hfirst : t.toList.find? fun e => decide (e.1.precedenceKey = key) with
      | none => rfl
      | some e' =>
        have heq : e' = e := Option.some.inj ((hfound (fun x hx => hx) hfirst).symm.trans he)
        simp [heq]

end VersionMap

end Milpa

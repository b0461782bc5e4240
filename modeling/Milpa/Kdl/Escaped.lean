import Milpa.Kdl.Document

/-!
# Documents whose strings are escaped

A writer of KDL takes a document, writes each string of it as the body of a quoted
string, and lays the result out. Where it has escaped every string so that the body
stands for the string, the text is read back as the document (`decode_mapStr`); where one
string has a body that stands for nothing, nothing is read (`decode_mapStr_eq_none`).
-/

namespace Milpa.Kdl

/-! ### The strings of a document -/

def KdlValue.mapStr (f : Str → Str) : KdlValue → KdlValue
  | .string s => .string (f s)
  | v => v

def KdlEntry.mapStr (f : Str → Str) (e : KdlEntry) : KdlEntry := { e with value := e.value.mapStr f }

mutual

/-- The node with each string in it changed. -/
def KdlNode.mapStr (f : Str → Str) : KdlNode → KdlNode
  | .mk name entries children => .mk name (entries.map (KdlEntry.mapStr f)) (mapStrs f children)

/-- The nodes with each string in them changed. -/
def mapStrs (f : Str → Str) : List KdlNode → List KdlNode
  | [] => []
  | n :: ns => n.mapStr f :: mapStrs f ns

end

theorem mapStrs_eq_map (f : Str → Str) (ns : List KdlNode) : mapStrs f ns = ns.map (KdlNode.mapStr f) := by
  induction ns with
  | nil => rfl
  | cons n ns ih => rw [mapStrs, ih, List.map_cons]

theorem mapStrs_append (f : Str → Str) (ns ms : List KdlNode) :
    mapStrs f (ns ++ ms) = mapStrs f ns ++ mapStrs f ms := by
  simp only [mapStrs_eq_map, List.map_append]

/-- The strings of entries. -/
def entriesStrings (entries : List KdlEntry) : List Str := entries.filterMap fun e => e.value.asString

mutual

/-- The strings of a node, in the order of the text. -/
def KdlNode.strings : KdlNode → List Str
  | .mk _ entries children => entriesStrings entries ++ nodesStrings children

/-- The strings of nodes. -/
def nodesStrings : List KdlNode → List Str
  | [] => []
  | n :: ns => n.strings ++ nodesStrings ns

end

@[simp] theorem nodesStrings_append (ns ms : List KdlNode) :
    nodesStrings (ns ++ ms) = nodesStrings ns ++ nodesStrings ms := by
  induction ns with
  | nil => rfl
  | cons n ns ih => simp [nodesStrings, ih]

/-! ### Reading them back -/

variable {esc : Str → Str}

theorem KdlEntry.decode_mapStr {e : KdlEntry} (h : ∀ s ∈ e.value.asString, decodeBody (esc s) = some s) :
    (e.mapStr esc).decode = some e := by
  obtain ⟨ty, name, v⟩ := e
  cases v with
  | string s => simp [KdlEntry.mapStr, KdlValue.mapStr, KdlEntry.decode, KdlValue.decode, h s rfl]
  | integer n => rfl
  | float => rfl
  | bool b => rfl
  | null => rfl

theorem decodeEntries_map {entries : List KdlEntry} (h : ∀ s ∈ entriesStrings entries, decodeBody (esc s) = some s) :
    decodeEntries (entries.map (KdlEntry.mapStr esc)) = some entries := by
  induction entries with
  | nil => rfl
  | cons e es ih =>
    have he : ∀ s ∈ e.value.asString, decodeBody (esc s) = some s := fun s hs =>
      h s (List.mem_filterMap.mpr ⟨e, List.mem_cons_self, hs⟩)
    have hes : ∀ s ∈ entriesStrings es, decodeBody (esc s) = some s := by
      intro s hs
      obtain ⟨e', he', hs⟩ := List.mem_filterMap.mp hs
      exact h s (List.mem_filterMap.mpr ⟨e', List.mem_cons_of_mem _ he', hs⟩)
    rw [List.map_cons, decodeEntries, KdlEntry.decode_mapStr he, ih hes]
    rfl

theorem decodeEntries_map_eq_none {entries : List KdlEntry} {s : Str} (hs : s ∈ entriesStrings entries)
    (h : decodeBody (esc s) = none) : decodeEntries (entries.map (KdlEntry.mapStr esc)) = none := by
  obtain ⟨e, he, hes⟩ := List.mem_filterMap.mp hs
  induction entries with
  | nil => simp at he
  | cons e' es ih =>
    rw [List.map_cons, decodeEntries]
    rcases List.mem_cons.mp he with rfl | he
    · obtain ⟨ty, name, v⟩ := e
      cases v with
      | string t =>
        obtain rfl : t = s := by simpa [KdlValue.asString] using hes
        simp [KdlEntry.mapStr, KdlValue.mapStr, KdlEntry.decode, KdlValue.decode, h]
      | integer n => simp [KdlValue.asString] at hes
      | float => simp [KdlValue.asString] at hes
      | bool b => simp [KdlValue.asString] at hes
      | null => simp [KdlValue.asString] at hes
    · rw [ih (List.mem_filterMap.mpr ⟨e, he, hes⟩) he]
      simp

mutual

/-- **A document is read back where its strings are.** -/
theorem KdlNode.decode_mapStr (n : KdlNode) (h : ∀ s ∈ n.strings, decodeBody (esc s) = some s) :
    (n.mapStr esc).decode = some n := by
  match n with
  | .mk name entries children =>
    rw [KdlNode.strings, List.forall_mem_append] at h
    rw [KdlNode.mapStr, KdlNode.decode, decodeEntries_map h.1, Option.bind_some, decodeNodes_mapStrs children h.2]
    rfl

theorem decodeNodes_mapStrs (ns : List KdlNode) (h : ∀ s ∈ nodesStrings ns, decodeBody (esc s) = some s) :
    decodeNodes (mapStrs esc ns) = some ns := by
  match ns with
  | [] => rfl
  | n :: ns =>
    rw [nodesStrings, List.forall_mem_append] at h
    rw [mapStrs, decodeNodes, KdlNode.decode_mapStr n h.1, Option.bind_some, decodeNodes_mapStrs ns h.2]
    rfl

end

mutual

/-- **A document is not read back where one of its strings stands for nothing.** -/
theorem KdlNode.decode_mapStr_eq_none (n : KdlNode) {s : Str} (hs : s ∈ n.strings) (h : decodeBody (esc s) = none) :
    (n.mapStr esc).decode = none := by
  match n with
  | .mk name entries children =>
    rw [KdlNode.strings, List.mem_append] at hs
    rw [KdlNode.mapStr, KdlNode.decode]
    rcases hs with hs | hs
    · rw [decodeEntries_map_eq_none hs h]
      rfl
    · rw [decodeNodes_mapStrs_eq_none children hs h]
      simp

theorem decodeNodes_mapStrs_eq_none (ns : List KdlNode) {s : Str} (hs : s ∈ nodesStrings ns)
    (h : decodeBody (esc s) = none) : decodeNodes (mapStrs esc ns) = none := by
  match ns with
  | [] => simp [nodesStrings] at hs
  | n :: ns =>
    rw [nodesStrings, List.mem_append] at hs
    rw [mapStrs, decodeNodes]
    rcases hs with hs | hs
    · rw [KdlNode.decode_mapStr_eq_none n hs h]
      rfl
    · rw [decodeNodes_mapStrs_eq_none ns hs h]
      simp

end

end Milpa.Kdl

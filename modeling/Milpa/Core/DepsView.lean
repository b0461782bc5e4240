import Milpa.Core.ContentHash
import Milpa.Core.LockfileGraph
import Milpa.Core.ViewSlots

/-!
# The view and its verification

`rebuild_deps_view` of `frozen.rs`, which makes `_deps/` of a graph, and
`verify_lockfile_against_deps` of `lockfile.rs`, which compares it with a lockfile. What is
in `_deps/` is a map from slots: a slot is the name of an entry, or `@ns/name` for an entry
of the directory of a namespace.
-/

namespace Milpa.Core.DepsView

open ImportSlot (slotOf isElsewhere Linked viewEntries_eq mem_viewEntries)
open Nimcfg (join)
open Resolver (viewEntries depsView)

/-! ### The directory -/

/-- What a path leads to; what cannot be read is there all the same. -/
inductive Reached where
  | tree (tree : DiskTree)
  | unreadable
  | gone

/-- What is in a slot: a directory, or a symbolic link with the path that its target has. -/
structure Entry where
  target : Option PathBuf
  reached : Reached

/-- `_deps/`. -/
abbrev DepsDir := BTreeMap Str Entry

/-- `symlink_metadata` says that it is a link. -/
def Entry.isSymlink (e : Entry) : Bool := e.target.isSome

/-- `exists`, which follows a link. -/
def Entry.exists (e : Entry) : Bool :=
  match e.reached with
  | .gone => false
  | _ => true

/-- `canonicalize` of a slot. -/
def Entry.canonicalize (depsDir : PathBuf) (slot : Str) (e : Entry) : Option PathBuf :=
  if e.exists then some (e.target.getD (join depsDir slot)) else none

/-! ### Verification -/

/-- What `verify_lockfile_against_deps` reports, each with the name that its message begins with. -/
inductive Divergence where
  | missing (name : Str)
  | dangling (name : Str)
  | sourceGone (name : Str)
  | plainDirectory (name : Str)
  | identityMismatch (name : Str) (locked : Option Str) (actual : Str)
  | storeIoError (name : Str)
  | cannotHash (name : Str) (e : HashError)
  | aliasMissing (name canonical : Str)
  | aliasElsewhere (name canonical : Str)
  | extra (name : Str)
  deriving DecidableEq

/-- The name that the message begins with. -/
def Divergence.name : Divergence → Str
  | .missing name | .dangling name | .sourceGone name | .plainDirectory name | .identityMismatch name _ _ | .storeIoError name
  | .cannotHash name _ | .aliasMissing name _ | .aliasElsewhere name _ | .extra name => name

/-- `classify_dep_path`. -/
def classifyDepPath (name : Str) : Option Entry → Option Divergence
  | none => some (.missing name)
  | some e => if e.isSymlink && !e.exists then some (.dangling name) else none

/-- A `local` record. -/
def isLocalRecord : ProvenanceRecord → Bool
  | .local .. => true
  | _ => false

/-- `is_local_dep`. -/
def isLocalDep (locked : LockedDep) : Bool := locked.provenances.any isLocalRecord

/-- `verify_local_dep_liveness`. -/
def verifyLocalDepLiveness (name : Str) : Option Entry → Option Divergence
  | none => some (.missing name)
  | some e =>
    if e.isSymlink && !e.exists then some (.sourceGone name)
    else if !e.isSymlink && !e.exists then some (.missing name)
    else if !e.isSymlink then some (.plainDirectory name)
    else none

/-- The comparison of an identity: what it reports, and where the slot leads. -/
def verifyIdentity (depsDir : PathBuf) (locked : LockedDep) (slot : Str) (e : Entry) : List Divergence × Option PathBuf :=
  match e.reached with
  | .tree tree =>
    match computeContentHash tree with
    | .ok actual =>
      (if locked.identity = some actual then [] else [.identityMismatch locked.name locked.identity actual], e.canonicalize depsDir slot)
    | .error err => ([.cannotHash locked.name err], e.canonicalize depsDir slot)
  | _ => ([.storeIoError locked.name], none)

/-- The check of an alias. -/
def verifyAlias (depsDir : PathBuf) (deps : DepsDir) (locked : LockedDep) (canonical : Option PathBuf) (name : Str) : Option Divergence :=
  match deps.get? name with
  | none => some (.aliasMissing name locked.name)
  | some e =>
    if e.isSymlink && !e.exists then some (.aliasMissing name locked.name)
    else if canonical = none ∨ e.canonicalize depsDir name = none ∨ e.canonicalize depsDir name ≠ canonical then
      some (.aliasElsewhere name locked.name)
    else none

/-- The slot of a locked dependency. -/
def lockedSlot (locked : LockedDep) : Str := depDirName locked.name locked.namespace

/-- One round of the loop over the lockfile. -/
def verifyLocked (depsDir : PathBuf) (deps : DepsDir) (locked : LockedDep) : List Divergence :=
  let e? := deps.get? (lockedSlot locked)
  if isLocalDep locked then (verifyLocalDepLiveness locked.name e?).toList
  else
    match classifyDepPath locked.name e?, e? with
    | none, some e =>
      let (found, canonical) := verifyIdentity depsDir locked (lockedSlot locked) e
      found ++ (sortByKey id locked.aliases).filterMap (verifyAlias depsDir deps locked canonical)
    | structural, _ => structural.toList

/-- The slots that a lockfile speaks of. -/
def expectedNames (l : Lockfile) : List Str := l.deps.flatMap fun locked => lockedSlot locked :: locked.aliases

/-- A name that the scan passes over. -/
def isHidden (slot : Str) : Bool := decide (slot.head? = some '.')

/-- The scan for entries that the lockfile does not speak of. -/
def extras (l : Lockfile) (deps : DepsDir) : List Divergence :=
  (deps.keys.filter fun slot => !isHidden slot && decide (slot ∉ expectedNames l)).map .extra

/-- `verify_lockfile_against_deps`. -/
def verifyLockfileAgainstDeps (l : Lockfile) (depsDir : PathBuf) (deps : DepsDir) : List Divergence :=
  l.deps.flatMap (verifyLocked depsDir deps) ++ extras l deps

/-! ### The view -/

/-- What there is at the paths of the store. -/
abbrev StoreTrees := PathBuf → Option DiskTree

variable (store : CaStore) (trees : StoreTrees)

/-- The link of an identity; `none` where the identity is malformed or not in the store. -/
def linkTo (identity : Str) : Option Entry := do
  let path ← (store.pathFor identity).toOption
  let tree ← trees path
  return ⟨some path, .tree tree⟩

/-- `CaStore::link`. -/
def link (deps : DepsDir) (slot identity : Str) : DepsDir :=
  match linkTo store trees identity with
  | some e => deps.insert slot e
  | none => deps

/-- The first record is a local one. -/
def isLocalNode (d : ResolvedDep) : Bool :=
  match d.provenances.head? with
  | some (.local ..) => true
  | _ => false

/-- The names of the local dependencies. -/
def localNames (graph : List ResolvedDep) : List Str := (graph.filter isLocalNode).map ResolvedDep.name

/-- An entry of the directory of a namespace. -/
def isNested (slot : Str) : Bool := decide (slot.head? = some '@') && decide ('/' ∈ slot)

/-- An entry that is not stale. -/
def isKept (graph : List ResolvedDep) (slot : Str) : Bool :=
  ((depsView graph).get? slot).isSome || !isNested slot && decide (slot ∈ localNames graph)

/-- The removal of stale entries. -/
def sweep (graph : List ResolvedDep) (deps : DepsDir) : DepsDir :=
  ⟨deps.entries.filter fun e => isKept graph e.1, deps.sorted.filter _⟩

/-- `rebuild_deps_view`. -/
def rebuildDepsView (graph : List ResolvedDep) (deps : DepsDir) : DepsDir :=
  (depsView graph).entries.foldl (fun deps e => link store trees deps e.1 e.2) (sweep graph deps)

/-! ### What is in the view -/

section Rebuild

variable {store trees} {graph : List ResolvedDep} {deps : DepsDir} {slot : Str}

theorem get?_depsView : (depsView graph).get? slot =
    ((graph.flatMap viewEntries).reverse.find? fun e => decide (e.1 = slot)).map Prod.snd := by
  show BTreeMap.get? (List.foldl (fun m e => m.insert e.1 (id e.2)) BTreeMap.empty (graph.flatMap viewEntries)) slot = _
  rw [BTreeMap.get?_foldl_insert id, BTreeMap.get?_empty, Option.or_none]
  simp only [id]
  convert rfl

/-- What a slot of the view is linked to is linked for a node. -/
theorem mem_of_depsView {identity : Str} (h : (depsView graph).get? slot = some identity) : (slot, identity) ∈ graph.flatMap viewEntries := by
  rw [get?_depsView, Option.map_eq_some_iff] at h
  obtain ⟨e, he, rfl⟩ := h
  have hslot : e.1 = slot := by simpa using List.find?_some he
  exact hslot ▸ List.mem_reverse.mp (List.mem_of_find?_eq_some he)

/-- A slot that a node is linked under is one of the view. -/
theorem exists_depsView {identity : Str} (h : (slot, identity) ∈ graph.flatMap viewEntries) :
    ∃ last, (depsView graph).get? slot = some last := by
  rw [get?_depsView]
  obtain ⟨e, he⟩ := Option.isSome_iff_exists.mp
    (List.find?_isSome.mpr ⟨(slot, identity), List.mem_reverse.mpr h, decide_eq_true rfl⟩ :
      ((graph.flatMap viewEntries).reverse.find? fun e => decide (e.1 = slot)).isSome = true)
  exact ⟨e.2, by rw [he]; rfl⟩

theorem get?_sweep : (sweep graph deps).get? slot = if isKept graph slot = true then deps.get? slot else none := by
  refine Option.ext fun e => ?_
  rw [← BTreeMap.mem_entries, sweep, List.mem_filter, BTreeMap.mem_entries]
  split_ifs with hkept
  · simp [hkept]
  · simp [hkept]

theorem get?_link {identity : Str} : (link store trees deps slot identity).get? slot =
    (linkTo store trees identity).or (deps.get? slot) := by
  unfold link
  cases linkTo store trees identity with
  | none => rfl
  | some e => rw [BTreeMap.get?_insert, if_pos rfl, Option.some_or]

theorem get?_link_of_ne {identity other : Str} (h : slot ≠ other) :
    (link store trees deps other identity).get? slot = deps.get? slot := by
  unfold link
  cases linkTo store trees identity with
  | none => rfl
  | some e => rw [BTreeMap.get?_insert, if_neg h]

theorem get?_links {entries : List (Str × Str)} (h : entries.Pairwise fun a b => a.1 < b.1) :
    (entries.foldl (fun deps e => link store trees deps e.1 e.2) deps).get? slot =
      (((entries.find? fun e => decide (e.1 = slot)).map Prod.snd).bind (linkTo store trees)).or (deps.get? slot) := by
  induction entries generalizing deps with
  | nil => rfl
  | cons e rest ih =>
    obtain ⟨hfirst, hrest⟩ := List.pairwise_cons.mp h
    rw [List.foldl_cons, ih hrest]
    by_cases hslot : e.1 = slot
    · -- The slot does not occur again.
      have hnone : rest.find? (fun e => decide (e.1 = slot)) = none :=
        List.find?_eq_none.mpr fun e' he' heq => (hfirst e' he').ne (hslot.trans (of_decide_eq_true heq).symm)
      rw [List.find?_cons_of_pos (by simpa using hslot), hnone, ← hslot, get?_link]
      rfl
    · rw [List.find?_cons_of_neg (by simpa using hslot), get?_link_of_ne (Ne.symm hslot)]

/-- **What is in a slot after a rebuild**: the link of the view, or else what was there of a local dependency. -/
theorem get?_rebuildDepsView : (rebuildDepsView store trees graph deps).get? slot =
    (((depsView graph).get? slot).bind (linkTo store trees)).or (if isKept graph slot = true then deps.get? slot else none) := by
  have hfind : (depsView graph).get? slot = ((depsView graph).entries.find? fun e => decide (e.1 = slot)).map Prod.snd := by
    rw [BTreeMap.get?]
    convert rfl
  rw [rebuildDepsView, get?_links (depsView graph).sorted, get?_sweep, hfind]

end Rebuild

end Milpa.Core.DepsView

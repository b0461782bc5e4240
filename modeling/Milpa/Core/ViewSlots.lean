import Milpa.Core.ImportSlot
import Milpa.Core.Nimcfg

/-!
# The slots of the view

What `check_directory_slot_collisions` promises to `rebuild_deps_view`. The view links a
node under its directory and under each of its aliases, and the check compares the
directories alone: it keeps the view free of two contents for one slot just where no alias
of a linked node leads to a slot of another one (`slot_safe_iff`). Its errors are in any
case about two nodes of one directory (`hasPair_of_error`).
-/

namespace Milpa.Core.ImportSlot

open Nimcfg (Components join)
open Resolver (viewEntries depsView)

/-! ### The entries of the view -/

/-- A node whose source is elsewhere: a member, or a local one. -/
def isElsewhere (d : ResolvedDep) : Bool :=
  match d.provenances.head? with
  | some (.member ..) | some (.local ..) => true
  | _ => false

/-- A node that the view links. -/
def Linked (d : ResolvedDep) : Prop := isElsewhere d = false ∧ d.identity ≠ []

theorem viewEntries_eq (d : ResolvedDep) :
    viewEntries d = if isElsewhere d = true ∨ d.identity = [] then []
      else (slotOf d, d.identity) :: d.aliases.map fun name => (name, d.identity) := by
  unfold viewEntries isElsewhere
  cases d.provenances.head? with
  | none => simp [slotOf]
  | some p => cases p <;> simp [slotOf]

theorem mem_viewEntries {d : ResolvedDep} {e : Str × Str} :
    e ∈ viewEntries d ↔ Linked d ∧ (e.1 = slotOf d ∨ e.1 ∈ d.aliases) ∧ e.2 = d.identity := by
  obtain ⟨slot, identity⟩ := e
  rw [viewEntries_eq]
  split_ifs with h
  · refine iff_of_false List.not_mem_nil fun ⟨⟨helsewhere, hne⟩, _⟩ => ?_
    rcases h with h | h
    · exact absurd h (by simp [helsewhere])
    · exact hne h
  · have hlinked : Linked d := by simpa [Linked] using h
    simp only [List.mem_cons, List.mem_map, Prod.mk.injEq]
    constructor
    · rintro (⟨rfl, rfl⟩ | ⟨name, hname, rfl, rfl⟩)
      · exact ⟨hlinked, .inl rfl, rfl⟩
      · exact ⟨hlinked, .inr hname, rfl⟩
    · rintro ⟨-, rfl | hname, rfl⟩
      · exact .inl ⟨rfl, rfl⟩
      · exact .inr ⟨slot, hname, rfl, rfl⟩

/-- No slot of the view is that of two entries with different contents. -/
def ViewApart (depsDir : Components) (graph : List ResolvedDep) : Prop :=
  ∀ e ∈ graph.flatMap viewEntries, ∀ e' ∈ graph.flatMap viewEntries, join depsDir e.1 = join depsDir e'.1 → e.2 = e'.2

/-- Each entry of such a view is linked to its own content. -/
theorem ViewApart.depsView_get? {depsDir : Components} {graph : List ResolvedDep} (h : ViewApart depsDir graph)
    {slot identity : Str} (hmem : (slot, identity) ∈ graph.flatMap viewEntries) : (depsView graph).get? slot = some identity :=
  (BTreeMap.get?_foldl_insert_of_unique fun x hx y hy hkey =>
    Prod.ext hkey (h x hx y hy (by rw [hkey]))).mpr hmem

/-! ### What the check promises -/

/-- Two linked nodes of different content, where an alias of the first one leads to a slot of the second one. -/
def AliasMeets (depsDir : Components) (a b : ResolvedDep) : Prop :=
  Linked a ∧ Linked b ∧ a.identity ≠ b.identity ∧
    ∃ name ∈ a.aliases, ∃ slot, (slot = slotOf b ∨ slot ∈ b.aliases) ∧ join depsDir name = join depsDir slot

/-- Two linked nodes of different content, whose directories are two spellings of one path. -/
def Respelled (depsDir : Components) (a b : ResolvedDep) : Prop :=
  Linked a ∧ Linked b ∧ a.identity ≠ b.identity ∧ slotOf a ≠ slotOf b ∧ join depsDir (slotOf a) = join depsDir (slotOf b)

/-- The check keeps the view apart, and raises only for two nodes of one directory whose contents differ or are unknown. -/
def SlotSafe (depsDir : Components) (graph : List ResolvedDep) : Prop :=
  (checkDirectorySlotCollisions graph = .ok () → ViewApart depsDir graph) ∧
    ∀ e, checkDirectorySlotCollisions graph = .error e →
      HasPair graph fun a b => slotOf a = slotOf b ∧ sameContent a b = false

theorem hasPair_of_error {graph : List ResolvedDep} {e : ImportCollision} (h : checkDirectorySlotCollisions graph = .error e) :
    HasPair graph fun a b => slotOf a = slotOf b ∧ sameContent a b = false := by
  by_contra hnone
  have hapart : DirectoriesApart graph :=
    (pairwise_iff_not_hasPair.mpr hnone).imp fun hab heq => by simpa using fun hne => hab ⟨heq, hne⟩
  rw [checkDirectorySlotCollisions_eq_ok.mpr hapart] at h
  cases h

/-- Nodes with one directory have one content, in whichever order they stand. -/
theorem DirectoriesApart.identity_eq {graph : List ResolvedDep} (h : DirectoriesApart graph) {a b : ResolvedDep}
    (ha : a ∈ graph) (hb : b ∈ graph) (hslot : slotOf a = slotOf b) : a.identity = b.identity := by
  by_cases hab : a = b
  · rw [hab]
  have hsymm : Std.Symm fun a b : ResolvedDep => slotOf a = slotOf b → a.identity = b.identity :=
    ⟨fun a b hab hba => (hab hba.symm).symm⟩
  have hpair : graph.Pairwise fun a b => slotOf a = slotOf b → a.identity = b.identity :=
    h.imp fun hsame heq => by simpa [sameContent] using (Bool.and_eq_true_iff.mp (hsame heq)).2
  exact hpair.forall ha hb hab hslot

theorem viewApart_iff {depsDir : Components} {graph : List ResolvedDep} (h : DirectoriesApart graph) :
    ViewApart depsDir graph ↔ ∀ a ∈ graph, ∀ b ∈ graph, ¬ AliasMeets depsDir a b ∧ ¬ Respelled depsDir a b := by
  constructor
  · intro hview a ha b hb
    have hentry : ∀ d ∈ graph, Linked d → ∀ slot, (slot = slotOf d ∨ slot ∈ d.aliases) →
        (slot, d.identity) ∈ graph.flatMap viewEntries := fun d hd hlinked slot hslot =>
      List.mem_flatMap.mpr ⟨d, hd, mem_viewEntries.mpr ⟨hlinked, hslot, rfl⟩⟩
    refine ⟨fun ⟨hla, hlb, hne, _, hname, _, hslot, hjoin⟩ => ?_, fun ⟨hla, hlb, hne, _, hjoin⟩ => ?_⟩
    · exact hne (hview _ (hentry a ha hla _ (.inr hname)) _ (hentry b hb hlb _ hslot) hjoin)
    · exact hne (hview _ (hentry a ha hla _ (.inl rfl)) _ (hentry b hb hlb _ (.inl rfl)) hjoin)
  · intro hno e he e' he' hjoin
    obtain ⟨a, ha, hea⟩ := List.mem_flatMap.mp he
    obtain ⟨b, hb, heb⟩ := List.mem_flatMap.mp he'
    obtain ⟨hla, hslot, hidentity⟩ := mem_viewEntries.mp hea
    obtain ⟨hlb, hslot', hidentity'⟩ := mem_viewEntries.mp heb
    rw [hidentity, hidentity']
    by_contra hne
    rcases hslot with hdir | halias
    · rcases hslot' with hdir' | halias'
      · rw [hdir, hdir'] at hjoin
        exact (hno a ha b hb).2 ⟨hla, hlb, hne, fun heq => hne (h.identity_eq ha hb heq), hjoin⟩
      · exact (hno b hb a ha).1 ⟨hlb, hla, Ne.symm hne, e'.1, halias', e.1, .inl hdir, hjoin.symm⟩
    · exact (hno a ha b hb).1 ⟨hla, hlb, hne, e.1, halias, e'.1, hslot', hjoin⟩

/-- **What the check leaves open**: where it lets a graph through, its aliases have to keep to slots of their own. -/
theorem slot_safe_iff (depsDir : Components) (graph : List ResolvedDep) :
    SlotSafe depsDir graph ↔
      (DirectoriesApart graph → ∀ a ∈ graph, ∀ b ∈ graph, ¬ AliasMeets depsDir a b ∧ ¬ Respelled depsDir a b) := by
  rw [SlotSafe, and_iff_left fun e => hasPair_of_error, checkDirectorySlotCollisions_eq_ok]
  exact forall_congr' viewApart_iff

/-- Two packages, where the name of the second one is an alias of the first one. -/
def sharedAlias : List ResolvedDep :=
  [⟨"http", none, "dag-sha256:1", .release 1 0 0, [], [], [], none, [], ["net".toList], [], none, none, none⟩,
   ⟨"net", none, "dag-sha256:2", .release 1 0 0, [], [], [], none, [], [], [], none, none, none⟩]

theorem sharedAlias_accepted : ¬ ∀ depsDir graph, SlotSafe depsDir graph := by
  intro h
  have hcheck : checkDirectorySlotCollisions sharedAlias = .ok () := by decide
  have hview := (h ["_deps".toList] sharedAlias).1 hcheck ("net".toList, "dag-sha256:1".toList) (by decide)
    ("net".toList, "dag-sha256:2".toList) (by decide) rfl
  exact absurd hview (by decide)

end Milpa.Core.ImportSlot

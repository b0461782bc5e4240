import Mathlib.Data.List.Pairwise
import Milpa.Core.Graph
import Milpa.Core.Store

/-!
# Import slots

`import_slot.rs`, with `check_directory_slot_collisions` of `lockfile.rs`: two packages of
a graph may not have one directory, and may not provide one module, unless they have the
same content or the pair is exempt. A pair is exempt when its registry namespaces differ or
one package requires the other; but what a package requires is a list of qualified names,
and the exemption looks for the bare one (`import_check_exact_iff`).
-/

namespace Milpa.Core.ImportSlot

open Result

/-! ### The seam -/

/-- `Fidelity`. -/
inductive Fidelity where
  | manifestDeclared
  | treeScanned
  deriving DecidableEq, Repr

/-- `ImportSlot`. -/
structure Slot where
  module : Str
  fidelity : Fidelity
  deriving DecidableEq, Repr

/-- A set of slots. -/
structure SlotSet where
  slots : List Slot
  nodup : slots.Nodup

/-- `SymbolProviderPort`: what a package provides, by its source and the path of its tree. -/
abbrev SymbolProvider := Option SourceId → PathBuf → SlotSet

/-- `dep_origin_label`: the source, or else a text made from the records. -/
inductive OriginLabel where
  | source (sid : SourceId)
  | origin (text : Str)
  deriving DecidableEq, Repr

/-- `RES-IMPORT-COLLISION`, with what its two messages quote. -/
inductive ImportCollision where
  | directory (slot : Str) (existing conflicting : OriginLabel)
  | module (module : Str) (existing conflicting : OriginLabel)
  deriving DecidableEq, Repr

/-- `format_dep_origin`. -/
def formatDepOrigin (dep : ResolvedDep) : Str :=
  match (dep.provenances.find? fun p => decide (p.origin = "observed".toList)).or dep.provenances.head? with
  | none => dep.name
  | some (.git url _ _ _ _) => "git+".toList ++ url
  | some (.tarball url _ _) => "tar+".toList ++ url
  | some (.oci registry repository _ _) => "oci+".toList ++ registry ++ "/".toList ++ repository
  | some (.local path _) => "file+".toList ++ path
  | some (.member name _) => "member+".toList ++ name
  | some (.root name _) => "root+".toList ++ name

/-- `dep_origin_label`. -/
def depOriginLabel (dep : ResolvedDep) : OriginLabel :=
  match dep.sourceId with
  | some sid => .source sid
  | none => .origin (formatDepOrigin dep)

/-! ### Directories -/

/-- The entries of a map from keys to the packages that have them. -/
def groupBy (items : List (Str × ResolvedDep)) : BTreeMap Str (List ResolvedDep) :=
  items.foldl (fun m item => m.insert item.1 ((m.get? item.1).getD [] ++ [item.2])) BTreeMap.empty

/-- The directory of a package. -/
def slotOf (dep : ResolvedDep) : Str := depDirName dep.name dep.namespace

/-- `all_same_and_known`. -/
def allSameAndKnown (first : ResolvedDep) (group : List ResolvedDep) : Bool :=
  !first.identity.isEmpty && group.all fun d => decide (d.identity = first.identity)

/-- One turn of the loop over the directories. -/
def checkDirectory (e : Str × List ResolvedDep) : Except ImportCollision Unit :=
  match e.2 with
  | first :: second :: rest =>
    if allSameAndKnown first (first :: second :: rest) then .ok ()
    else .error (.directory e.1 (depOriginLabel first) (depOriginLabel second))
  | _ => .ok ()

/-- `check_directory_slot_collisions`. -/
def checkDirectorySlotCollisions (graph : List ResolvedDep) : Except ImportCollision Unit :=
  (groupBy (graph.map fun d => (slotOf d, d))).entries.forM checkDirectory

/-! ### Modules -/

section Check

variable (provider : SymbolProvider) (store : Option CaStore)

/-- `materialized_path_for`. -/
def materializedPathFor (dep : ResolvedDep) : PathBuf :=
  let unmaterialized := components ("<unmaterialized:".toList ++ dep.name ++ ">".toList)
  if dep.identity = [] then unmaterialized
  else
    match store with
    | none => unmaterialized
    | some store =>
      match store.pathFor dep.identity with
      | .ok path => path
      | .error _ => unmaterialized

/-- The slots of a package. -/
def slotsOf (dep : ResolvedDep) : List Slot := (provider dep.sourceId (materializedPathFor store dep)).slots

/-- `is_exempt_pair`. -/
def isExemptPair (a b : ResolvedDep) : Bool :=
  match a.namespace, b.namespace with
  | some ans, some bns => decide (ans ≠ bns) || (decide (b.name ∈ a.requires) || decide (a.name ∈ b.requires))
  | _, _ => decide (b.name ∈ a.requires) || decide (a.name ∈ b.requires)

/-- The identities are the same and known. -/
def sameContent (first second : ResolvedDep) : Bool := !first.identity.isEmpty && decide (first.identity = second.identity)

/-- A pair for which the check fails. -/
def collides (first second : ResolvedDep) : Bool := !sameContent first second && !isExemptPair first second

/-- The first pair `i < j` of a group. -/
def firstPair (bad : ResolvedDep → ResolvedDep → Bool) : List ResolvedDep → Option (ResolvedDep × ResolvedDep)
  | [] => none
  | first :: rest =>
    match rest.find? (bad first) with
    | some second => some (first, second)
    | none => firstPair bad rest

/-- One turn of the loop over the modules. -/
def checkModule (e : Str × List ResolvedDep) : Except ImportCollision Unit :=
  match firstPair collides e.2 with
  | some (first, second) => .error (.module e.1 (depOriginLabel first) (depOriginLabel second))
  | none => .ok ()

/-- `by_module`. -/
def byModule (graph : List ResolvedDep) : BTreeMap Str (List ResolvedDep) :=
  groupBy (graph.flatMap fun d => (slotsOf provider store d).map fun s => (s.module, d))

/-- `check_import_slot_collisions`. -/
def checkImportSlotCollisions (graph : List ResolvedDep) : Except ImportCollision Unit := do
  checkDirectorySlotCollisions graph
  (byModule provider store graph).entries.forM checkModule

end Check

/-! ### What the loops see -/

theorem getD_groupBy (items : List (Str × ResolvedDep)) (k : Str) :
    ((groupBy items).get? k).getD [] = (items.filter fun item => item.1 = k).map Prod.snd := by
  have hgeneral : ∀ m : BTreeMap Str (List ResolvedDep),
      ((items.foldl (fun m item => m.insert item.1 ((m.get? item.1).getD [] ++ [item.2])) m).get? k).getD [] =
        (m.get? k).getD [] ++ (items.filter fun item => item.1 = k).map Prod.snd := by
    induction items with
    | nil => simp
    | cons item items ih =>
      intro m
      rw [List.foldl_cons, ih, BTreeMap.get?_insert]
      by_cases hk : k = item.1
      · subst hk
        simp
      · rw [if_neg hk, List.filter_cons_of_neg (by simpa using fun h => hk h.symm)]
  simpa [groupBy] using hgeneral BTreeMap.empty

/-- What holds of every group holds of the items with a key, for every key. -/
theorem forall_groupBy {items : List (Str × ResolvedDep)} {P : List ResolvedDep → Prop} (hnil : P []) :
    (∀ e ∈ (groupBy items).entries, P e.2) ↔ ∀ k, P ((items.filter fun item => item.1 = k).map Prod.snd) := by
  constructor
  · intro h k
    rw [← getD_groupBy]
    cases hget : (groupBy items).get? k with
    | none => exact hnil
    | some group => exact h (k, group) (BTreeMap.mem_entries.mpr hget)
  · rintro h ⟨k, group⟩ he
    have hgroup := h k
    rwa [← getD_groupBy, BTreeMap.mem_entries.mp he] at hgroup

theorem forall_pairwise {α ι : Type} {R : ι → α → α → Prop} {l : List α} :
    (∀ i, l.Pairwise (R i)) ↔ l.Pairwise fun a b => ∀ i, R i a b := by
  simp only [List.pairwise_iff_forall_sublist]
  exact ⟨fun h a b hab i => h i hab, fun h i a b hab => h hab i⟩

theorem sameContent_iff {a b : ResolvedDep} : sameContent a b = true ↔ a.identity ≠ [] ∧ a.identity = b.identity := by
  simp [sameContent]

theorem allSameAndKnown_iff {first second : ResolvedDep} {rest : List ResolvedDep} :
    allSameAndKnown first (first :: second :: rest) = true ↔
      (first :: second :: rest).Pairwise fun a b => sameContent a b = true := by
  simp only [allSameAndKnown, Bool.and_eq_true, Bool.not_eq_true', List.isEmpty_eq_false_iff, List.all_eq_true, decide_eq_true_eq,
    sameContent_iff]
  constructor
  · rintro ⟨hknown, hsame⟩
    refine List.pairwise_of_forall_mem_list fun a ha b hb => ?_
    rw [hsame a ha, hsame b hb]
    exact ⟨hknown, rfl⟩
  · intro h
    have hfirst := (List.pairwise_cons.mp h).1
    refine ⟨(hfirst second List.mem_cons_self).1, fun d hd => ?_⟩
    rcases List.mem_cons.mp hd with rfl | hd
    · rfl
    · exact (hfirst d hd).2.symm

theorem checkDirectory_eq_ok {e : Str × List ResolvedDep} :
    checkDirectory e = .ok () ↔ e.2.Pairwise fun a b => sameContent a b = true := by
  obtain ⟨slot, group⟩ := e
  match group with
  | [] => simp [checkDirectory]
  | [d] => simp [checkDirectory]
  | first :: second :: rest =>
    rw [checkDirectory]
    dsimp only
    split_ifs with h
    · exact iff_of_true rfl (allSameAndKnown_iff.mp h)
    · exact iff_of_false (by simp) fun hall => h (allSameAndKnown_iff.mpr hall)

theorem firstPair_eq_none {bad : ResolvedDep → ResolvedDep → Bool} {group : List ResolvedDep} :
    firstPair bad group = none ↔ group.Pairwise fun a b => bad a b = false := by
  induction group with
  | nil => simp [firstPair]
  | cons first rest ih =>
    rw [firstPair, List.pairwise_cons]
    cases hfind : rest.find? (bad first) with
    | none => simpa [ih] using fun _ => List.find?_eq_none.mp hfind
    | some second =>
      have hbad := List.find?_some hfind
      refine iff_of_false (by simp) fun h => ?_
      rw [h.1 second (List.mem_of_find?_eq_some hfind)] at hbad
      cases hbad

theorem checkModule_eq_ok {e : Str × List ResolvedDep} :
    checkModule e = .ok () ↔ e.2.Pairwise fun a b => collides a b = false := by
  rw [← firstPair_eq_none, checkModule]
  cases firstPair collides e.2 <;> simp

/-! ### What the check is for -/

section Spec

variable (provider : SymbolProvider) (store : Option CaStore)

/-- Packages with one directory have the same content. -/
def DirectoriesApart (graph : List ResolvedDep) : Prop :=
  graph.Pairwise fun a b => slotOf a = slotOf b → sameContent a b = true

/-- Two packages provide a common module. -/
def Shares (a b : ResolvedDep) : Prop := ∃ s ∈ slotsOf provider store a, ∃ t ∈ slotsOf provider store b, s.module = t.module

/-- Two packages are in two registry namespaces. -/
def TwoNamespaces (a b : ResolvedDep) : Prop := ∃ ns ∈ a.namespace, ∃ ns' ∈ b.namespace, ns ≠ ns'

/-- One of two packages requires the other one: its qualified name is among the names that the first one requires. -/
def Edge (a b : ResolvedDep) : Prop :=
  (DepKey.mk b.name b.namespace).solverVar ∈ a.requires ∨ (DepKey.mk a.name a.namespace).solverVar ∈ b.requires

/-- One of two packages requires the bare name of the other one. -/
def BareEdge (a b : ResolvedDep) : Prop := b.name ∈ a.requires ∨ a.name ∈ b.requires

/-- Two packages provide a common module with different or unknown contents, and are not in two registry namespaces. -/
def Clash (a b : ResolvedDep) : Prop := Shares provider store a b ∧ sameContent a b = false ∧ ¬ TwoNamespaces a b

/-- No two packages collide: neither their directories, nor the modules that they provide, unless one requires the other. -/
def NoImportCollision (graph : List ResolvedDep) : Prop :=
  DirectoriesApart graph ∧ graph.Pairwise fun a b => Clash provider store a b → Edge a b

/-- A package of unknown content that provides one module in two ways is compared with itself. -/
def ComparedWithItself (a : ResolvedDep) : Prop :=
  (∃ s ∈ slotsOf provider store a, ∃ t ∈ slotsOf provider store a, s ≠ t ∧ s.module = t.module) ∧ a.identity = [] ∧ a.name ∉ a.requires

/-- Two packages of the graph are related. -/
def HasPair (graph : List ResolvedDep) (R : ResolvedDep → ResolvedDep → Prop) : Prop := ∃ a b, [a, b].Sublist graph ∧ R a b

end Spec

section Exact

variable {provider : SymbolProvider} {store : Option CaStore} {graph graph' : List ResolvedDep}

theorem hasPair_or {R S : ResolvedDep → ResolvedDep → Prop} :
    HasPair graph (fun a b => R a b ∨ S a b) ↔ HasPair graph R ∨ HasPair graph S := by
  constructor
  · rintro ⟨a, b, hab, h | h⟩
    · exact .inl ⟨a, b, hab, h⟩
    · exact .inr ⟨a, b, hab, h⟩
  · rintro (⟨a, b, hab, h⟩ | ⟨a, b, hab, h⟩)
    · exact ⟨a, b, hab, .inl h⟩
    · exact ⟨a, b, hab, .inr h⟩

theorem pairwise_iff_not_hasPair {R : ResolvedDep → ResolvedDep → Prop} :
    graph.Pairwise (fun a b => ¬ R a b) ↔ ¬ HasPair graph R := by
  rw [List.pairwise_iff_forall_sublist, HasPair]
  exact ⟨fun h ⟨a, b, hab, hR⟩ => h hab hR, fun h a b hab hR => h ⟨a, b, hab, hR⟩⟩

theorem isExemptPair_iff {a b : ResolvedDep} : isExemptPair a b = true ↔ TwoNamespaces a b ∨ BareEdge a b := by
  rw [isExemptPair, TwoNamespaces, BareEdge]
  cases a.namespace <;> cases b.namespace <;> simp

/-- The check for directories. -/
theorem checkDirectorySlotCollisions_eq_ok : checkDirectorySlotCollisions graph = .ok () ↔ DirectoriesApart graph := by
  rw [checkDirectorySlotCollisions, forM_eq_ok]
  simp only [checkDirectory_eq_ok]
  rw [forall_groupBy (P := fun group => group.Pairwise fun a b => sameContent a b = true) List.Pairwise.nil]
  have hfilter : ∀ k, (((graph.map fun d => (slotOf d, d)).filter fun item => item.1 = k).map Prod.snd) =
      graph.filter fun d => slotOf d = k := fun k => by
    rw [List.filter_map, List.map_map]
    exact List.map_id _
  simp only [hfilter, List.pairwise_filter, decide_eq_true_eq, forall_pairwise, DirectoriesApart]
  exact ⟨fun h => h.imp fun hk heq => hk _ rfl heq.symm, fun h => h.imp fun hab k ha hb => hab (ha.trans hb.symm)⟩

/-- The slots of a package with one module are fewer than two, unless it provides the module in two ways. -/
theorem pairwise_slots {a : ResolvedDep} {p : Prop} :
    (∀ k, (((slotsOf provider store a).filter fun s => s.module = k).Pairwise fun _ _ => p)) ↔
      ((∃ s ∈ slotsOf provider store a, ∃ t ∈ slotsOf provider store a, s ≠ t ∧ s.module = t.module) → p) := by
  simp only [List.pairwise_filter, decide_eq_true_eq, forall_pairwise]
  constructor
  · rintro h ⟨s, hs, t, ht, hne, hmodule⟩
    have : Std.Symm fun s t : Slot => ∀ k, s.module = k → t.module = k → p := ⟨fun s t hst k ht hs => hst k hs ht⟩
    exact h.forall hs ht hne s.module rfl hmodule.symm
  · intro h
    refine (provider a.sourceId (materializedPathFor store a)).nodup.pairwise_of_forall_ne fun s hs t ht hne k hk hk' => ?_
    exact h ⟨s, hs, t, ht, hne, hk.trans hk'.symm⟩

/-- The check for modules. -/
theorem checkModules_eq_ok : (byModule provider store graph).entries.forM checkModule = .ok () ↔
    (∀ a ∈ graph, ¬ ComparedWithItself provider store a) ∧
      graph.Pairwise fun a b => Shares provider store a b → collides a b = false := by
  rw [forM_eq_ok]
  simp only [checkModule_eq_ok]
  rw [byModule, forall_groupBy (P := fun group => group.Pairwise fun a b => collides a b = false) List.Pairwise.nil]
  have hfilter : ∀ k, (((graph.flatMap fun d => (slotsOf provider store d).map fun s => (s.module, d)).filter
      fun item => item.1 = k).map Prod.snd) =
      graph.flatMap fun d => ((slotsOf provider store d).filter fun s => s.module = k).map fun _ => d := fun k => by
    rw [List.filter_flatMap, List.map_flatMap]
    refine List.flatMap_congr fun d _ => ?_
    rw [List.filter_map, List.map_map]
    rfl
  simp only [hfilter, List.pairwise_flatMap, forall_and, List.pairwise_map]
  refine and_congr ?_ ?_
  · rw [forall_comm]
    refine forall_congr' fun a => ?_
    rw [forall_comm]
    refine forall_congr' fun _ => ?_
    rw [pairwise_slots, ComparedWithItself, not_and]
    refine imp_congr_right fun _ => ?_
    have hexempt : isExemptPair a a = true ↔ a.name ∈ a.requires := by
      rw [isExemptPair_iff, TwoNamespaces, BareEdge, or_self, or_iff_right]
      rintro ⟨ns, hns, ns', hns', hne⟩
      exact hne (Option.some_inj.mp (hns.symm.trans hns'))
    by_cases hidentity : a.identity = [] <;> simp [collides, sameContent, hidentity, hexempt]
  · rw [forall_pairwise]
    simp only [List.forall_mem_map, List.mem_filter, decide_eq_true_eq]
    constructor
    · exact fun h => h.imp fun hab ⟨s, hs, t, ht, heq⟩ => hab s.module s ⟨hs, rfl⟩ t ⟨ht, heq.symm⟩
    · exact fun h => h.imp fun hab k s hs t ht => hab ⟨s, hs.1, t, ht.1, hs.2.trans ht.2.symm⟩

/-- A pair with a common module collides when it clashes and neither package requires the bare name of the other one. -/
theorem collides_iff {a b : ResolvedDep} :
    ¬ (Shares provider store a b → collides a b = false) ↔ Clash provider store a b ∧ ¬ BareEdge a b := by
  have hcollides : collides a b = false ↔ sameContent a b = true ∨ TwoNamespaces a b ∨ BareEdge a b := by
    rw [← isExemptPair_iff, collides]
    cases sameContent a b <;> cases isExemptPair a b <;> decide
  rw [hcollides, Clash, Bool.eq_false_iff]
  tauto

/-- The check succeeds when nothing collides, as far as bare names tell. -/
theorem check_eq_ok_iff : checkImportSlotCollisions provider store graph = .ok () ↔
    DirectoriesApart graph ∧ (∀ a ∈ graph, ¬ ComparedWithItself provider store a) ∧
      ¬ HasPair graph fun a b => Clash provider store a b ∧ ¬ BareEdge a b := by
  have hpairs : graph.Pairwise (fun a b => Shares provider store a b → collides a b = false) ↔
      ¬ HasPair graph fun a b => Clash provider store a b ∧ ¬ BareEdge a b := by
    simp only [← pairwise_iff_not_hasPair, ← collides_iff, not_not]
  rw [checkImportSlotCollisions, bind_eq_ok, ← hpairs, ← checkModules_eq_ok]
  exact ⟨fun ⟨_, hdir, hmod⟩ => ⟨checkDirectorySlotCollisions_eq_ok.mp hdir, hmod⟩,
    fun ⟨hdir, hmod⟩ => ⟨(), checkDirectorySlotCollisions_eq_ok.mpr hdir, hmod⟩⟩

theorem noImportCollision_iff : NoImportCollision provider store graph ↔
    DirectoriesApart graph ∧ ¬ HasPair graph fun a b => Clash provider store a b ∧ ¬ Edge a b := by
  simp only [NoImportCollision, ← pairwise_iff_not_hasPair, not_and, not_not]

/-- A relation that is symmetric has its pairs in any order. -/
theorem hasPair_perm {R : ResolvedDep → ResolvedDep → Prop} (hR : ∀ a b, R a b → R b a) (hperm : graph'.Perm graph) :
    HasPair graph' R ↔ HasPair graph R := by
  rw [← not_iff_not, ← pairwise_iff_not_hasPair, ← pairwise_iff_not_hasPair]
  exact hperm.pairwise_iff fun hab hba => hab (hR _ _ hba)

theorem Clash.symm {a b : ResolvedDep} (h : Clash provider store a b) : Clash provider store b a := by
  obtain ⟨⟨s, hs, t, ht, heq⟩, hcontent, hns⟩ := h
  refine ⟨⟨t, ht, s, hs, heq.symm⟩, ?_, fun ⟨ns, hns', ns', hns'', hne⟩ => hns ⟨ns', hns'', ns, hns', hne.symm⟩⟩
  rw [Bool.eq_false_iff, Ne, sameContent_iff] at hcontent ⊢
  exact fun ⟨hknown, heq⟩ => hcontent ⟨heq ▸ hknown, heq.symm⟩

/-- The order of the graph does not matter. -/
theorem check_perm (hperm : graph'.Perm graph) :
    checkImportSlotCollisions provider store graph' = .ok () ↔ checkImportSlotCollisions provider store graph = .ok () := by
  rw [check_eq_ok_iff, check_eq_ok_iff]
  refine and_congr ?_ (and_congr ?_ (not_congr (hasPair_perm ?_ hperm)))
  · refine hperm.pairwise_iff fun {a b} hab heq => ?_
    rw [sameContent_iff] at hab ⊢
    have hcontent := hab heq.symm
    exact ⟨hcontent.2 ▸ hcontent.1, hcontent.2.symm⟩
  · exact forall_congr' fun a => imp_congr_left hperm.mem_iff
  · exact fun a b h => ⟨h.1.symm, fun hbare => h.2 hbare.symm⟩

/-- The bare names tell the edges of the graph: two directories collide, or a pair clashes that is joined by neither; or else a pair
whose edge the bare name misses, or a package that is compared with itself, is there only together with a pair without an edge that a
namesake exempts. -/
def EdgesTold (provider : SymbolProvider) (store : Option CaStore) (graph : List ResolvedDep) : Prop :=
  ¬ DirectoriesApart graph ∨ (HasPair graph fun a b => Clash provider store a b ∧ ¬ Edge a b ∧ ¬ BareEdge a b) ∨
    (((∃ a ∈ graph, ComparedWithItself provider store a) ∨ HasPair graph fun a b => Clash provider store a b ∧ Edge a b ∧ ¬ BareEdge a b) ↔
      HasPair graph fun a b => Clash provider store a b ∧ BareEdge a b ∧ ¬ Edge a b)

/-- **The check is exact when the bare names tell the edges**, and its outcome never depends on the order of the graph. -/
theorem import_check_exact_iff (provider : SymbolProvider) (store : Option CaStore) (graph : List ResolvedDep) :
    ((checkImportSlotCollisions provider store graph = .ok () ↔ NoImportCollision provider store graph) ∧
      ∀ graph', graph'.Perm graph →
        (checkImportSlotCollisions provider store graph' = .ok () ↔ checkImportSlotCollisions provider store graph = .ok ())) ↔
      EdgesTold provider store graph := by
  have hbare : (HasPair graph fun a b => Clash provider store a b ∧ ¬ BareEdge a b) ↔
      (HasPair graph fun a b => Clash provider store a b ∧ ¬ Edge a b ∧ ¬ BareEdge a b) ∨
        HasPair graph fun a b => Clash provider store a b ∧ Edge a b ∧ ¬ BareEdge a b := by
    rw [← hasPair_or]
    refine exists_congr fun a => exists_congr fun b => and_congr_right fun _ => ?_
    by_cases h : Edge a b <;> simp [h]
  have hedge : (HasPair graph fun a b => Clash provider store a b ∧ ¬ Edge a b) ↔
      (HasPair graph fun a b => Clash provider store a b ∧ ¬ Edge a b ∧ ¬ BareEdge a b) ∨
        HasPair graph fun a b => Clash provider store a b ∧ BareEdge a b ∧ ¬ Edge a b := by
    rw [← hasPair_or]
    refine exists_congr fun a => exists_congr fun b => and_congr_right fun _ => ?_
    by_cases h : BareEdge a b <;> simp [h]
  have hself : (∀ a ∈ graph, ¬ ComparedWithItself provider store a) ↔ ¬ ∃ a ∈ graph, ComparedWithItself provider store a := by
    push Not
    rfl
  rw [and_iff_left fun graph' => check_perm, check_eq_ok_iff, noImportCollision_iff, hbare, hedge, hself, EdgesTold]
  by_cases hdir : DirectoriesApart graph
  · by_cases hneither : HasPair graph fun a b => Clash provider store a b ∧ ¬ Edge a b ∧ ¬ BareEdge a b
    · simp [hneither]
    · simp only [hdir, hneither, true_and, false_or, not_true_eq_false]
      rw [← not_or, not_iff_not]
  · simp [hdir]

/-- Packages whose check misses an edge: `app` requires the `bar` of a registry namespace, and both provide one module. -/
def missedEdge : List ResolvedDep :=
  [⟨"app", none, "1", .release 1 0 0, [], ["tg::bar".toList], [], none, [], [], [], none, none, none⟩,
   ⟨"bar", some "tg", "2", .release 1 0 0, [], [], [], none, [], [], [], none, none, none⟩]

/-- A provider for which every package provides one module. -/
def oneModule : SymbolProvider := fun _ _ => ⟨[⟨"util", .manifestDeclared⟩], by decide⟩

theorem missedEdge_refused :
    ¬ ∀ provider store graph, (checkImportSlotCollisions provider store graph = .ok () ↔ NoImportCollision provider store graph) ∧
      ∀ graph', graph'.Perm graph →
        (checkImportSlotCollisions provider store graph' = .ok () ↔ checkImportSlotCollisions provider store graph = .ok ()) := by
  intro h
  obtain ⟨hexact, -⟩ := h oneModule none missedEdge
  have hspec : NoImportCollision oneModule none missedEdge := by
    refine ⟨by unfold DirectoriesApart; decide, List.pairwise_pair.mpr fun _ => ?_⟩
    unfold Edge
    decide
  have hcheck : (checkImportSlotCollisions oneModule none missedEdge).isOk = true := by rw [hexact.mpr hspec]; rfl
  revert hcheck
  decide

end Exact

end Milpa.Core.ImportSlot

import Milpa.Core.GraphNodes
import Milpa.Core.StubTable

/-!
# What the graph keeps of a solution

Every package of a solution is in the graph, as a node or as an alias of one, and the edges
lead to nodes. Folding takes no account of what it folds: a member that has the content of
another package is folded like any package, and the directory of an alias has the bare name
even if the package has a namespace. So nothing else is lost where packages with one
content are plain (`losesNothing_iff`).
-/

namespace Milpa.Core.Resolver

open Solver Result

variable {ctx : ResolveCtx} {c : Config} {σ : ResolveState} {solution : Solution} {name other : Str} {trust : Option EntryTrust}
  {graph : List ResolvedDep}

/-! ### What is asked of the graph -/

/-- Every package of the solution is a node or an alias of a node, once. -/
def Represented (σ : ResolveState) (solution : Solution) (graph : List ResolvedDep) : Prop :=
  (graph.flatMap fun d => d.name :: d.aliases).Perm ((solvedNames σ solution).map fun name => (σ.depkeyForSolvedName name).name)

/-- Every edge leads to a node. -/
def EdgesNamed (graph : List ResolvedDep) : Prop :=
  ∀ d ∈ graph, ∀ r ∈ d.requires, ∃ d' ∈ graph, (DepKey.mk d'.name d'.namespace).solverVar = r

/-- The key of the node of a member. -/
def memberKey (d : ResolvedDep) : Option DepKey :=
  match d.provenances.head? with
  | some (.member ..) => some ⟨d.name, d.namespace⟩
  | _ => none

/-- The package is a member of the workspace. -/
def memberOf (σ : ResolveState) (solution : Solution) (name : Str) : Bool := (picked σ solution name).any isMember

/-- Every member of the solution has a node of its own. -/
def MembersKept (σ : ResolveState) (solution : Solution) (graph : List ResolvedDep) : Prop :=
  (graph.filterMap memberKey).Perm
    ((solvedNames σ solution).filterMap fun name => if memberOf σ solution name then some (σ.depkeyForSolvedName name) else none)

/-- The package has a directory in `_deps/` that links to its content. -/
def linked (σ : ResolveState) (solution : Solution) (name : Str) : Bool :=
  (picked σ solution name).any fun c => !isMember c && !isLocal c && !c.identity.isEmpty

/-- The entry of `_deps/` for a package that is not folded. -/
def ownEntry (σ : ResolveState) (solution : Solution) (name : Str) : List (Str × Str) :=
  if linked σ solution name then [(σ.dirOf name, pickedIdentity σ solution name)] else []

/-- `_deps/` has the entries that it would have if no package were folded. -/
def SlotsExact (σ : ResolveState) (solution : Solution) (graph : List ResolvedDep) : Prop :=
  (graph.flatMap viewEntries).Perm ((solvedNames σ solution).flatMap (ownEntry σ solution))

/-- The graph loses nothing of the solution. -/
structure LosesNothing (σ : ResolveState) (solution : Solution) (graph : List ResolvedDep) : Prop where
  represented : Represented σ solution graph
  edges : EdgesNamed graph
  members : MembersKept σ solution graph
  slots : SlotsExact σ solution graph

/-- In a solution, what is required is solved. -/
def Closed (σ : ResolveState) (solution : Solution) : Prop :=
  ∀ name ∈ solvedNames σ solution, ∀ r ∈ requiresOf σ solution name, r ∈ solvedNames σ solution

/-- Packages with one content are plain: none is a member, and of two of them, the one that was discovered later has no
namespace. -/
def SharedPlainly (σ : ResolveState) (solution : Solution) : Prop :=
  ∀ name ∈ solvedNames σ solution, ∀ other ∈ solvedNames σ solution, other ≠ name → pickedIdentity σ solution name ≠ [] →
    pickedIdentity σ solution other = pickedIdentity σ solution name →
    memberOf σ solution name = false ∧
      (discoveryKey σ other < discoveryKey σ name → (σ.depkeyForSolvedName name).namespace = none)

/-! ### Nodes by the packages they stand for -/

theorem mem_graph (h : graphOf σ solution trust = .ok graph) {d : ResolvedDep} (hd : d ∈ graph) :
    ∃ name ∈ survivors σ solution, ∃ cand, picked σ solution name = some cand ∧ withoutConds d = nodeOf σ solution cand := by
  have hmem := (graphOf_eq_ok h).mem_iff.mp (List.mem_map_of_mem (f := withoutConds) hd)
  obtain ⟨name, hname, hnode⟩ := List.mem_filterMap.mp hmem
  obtain ⟨cand, hcand, hnode⟩ := Option.map_eq_some_iff.mp hnode
  exact ⟨name, hname, cand, hcand, hnode.symm⟩

theorem exists_node (h : graphOf σ solution trust = .ok graph) (hname : name ∈ survivors σ solution) :
    ∃ d ∈ graph, ∃ cand, picked σ solution name = some cand ∧ withoutConds d = nodeOf σ solution cand := by
  obtain ⟨cand, hcand⟩ := Option.isSome_iff_exists.mp (isSome_picked (mem_survivors.mp hname).1)
  have hmem : nodeOf σ solution cand ∈ (survivors σ solution).filterMap (nodeFor σ solution) :=
    List.mem_filterMap.mpr ⟨name, hname, by rw [nodeFor, hcand]; rfl⟩
  obtain ⟨d, hd, hnode⟩ := List.mem_map.mp ((graphOf_eq_ok h).mem_iff.mpr hmem)
  exact ⟨d, hd, cand, hcand, hnode⟩

/-- What a graph says, where it says of every node what is said of its package. -/
theorem flatMap_graph_perm {β : Type*} (h : graphOf σ solution trust = .ok graph) {f : ResolvedDep → List β} {g : Str → List β}
    (hf : ∀ d, f (withoutConds d) = f d)
    (hg : ∀ name ∈ survivors σ solution, ∀ cand, picked σ solution name = some cand → (f (nodeOf σ solution cand)).Perm (g name)) :
    (graph.flatMap f).Perm ((survivors σ solution).flatMap g) := by
  have hgraph : graph.flatMap f = (graph.map withoutConds).flatMap f := by
    rw [List.flatMap_map]
    exact List.flatMap_congr fun d _ => (hf d).symm
  rw [hgraph]
  refine ((graphOf_eq_ok h).flatMap_right f).trans ?_
  rw [List.filterMap_eq_flatMap_toList, List.flatMap_assoc]
  refine List.Perm.flatMap_left _ fun name hname => ?_
  obtain ⟨cand, hcand⟩ := Option.isSome_iff_exists.mp (isSome_picked (mem_survivors.mp hname).1)
  rw [nodeFor, hcand, Option.map_some, Option.toList_some, List.flatMap_singleton]
  exact hg name hname cand hcand

/-- What is said of the packages of a solution is said of the survivors and of their aliases. -/
theorem flatMap_solved_perm {β : Type*} (g : Str → List β) :
    ((solvedNames σ solution).flatMap g).Perm
      ((survivors σ solution).flatMap fun name => g name ++ (aliasesOf σ solution name).flatMap g) := by
  refine (survivors_perm.flatMap_right g).symm.trans ?_
  rw [List.flatMap_assoc]
  exact .refl _

theorem folded_of_mem_aliasesOf (hname : name ∈ survivors σ solution) (h : other ∈ aliasesOf σ solution name) :
    other ∈ solvedNames σ solution ∧ representative σ solution other = name ∧ representative σ solution other ≠ other := by
  obtain ⟨hsolved, hrep⟩ := mem_survivors.mp hname
  obtain ⟨hother, hne, heq⟩ := (mem_aliasesOf hsolved hrep).mp h
  exact ⟨hother, heq, fun h => hne (h.symm.trans heq)⟩

theorem mem_aliasesOf_representative (h : name ∈ solvedNames σ solution) (hne : representative σ solution name ≠ name) :
    representative σ solution name ∈ survivors σ solution ∧ name ∈ aliasesOf σ solution (representative σ solution name) := by
  have hrep := representative_representative h
  exact ⟨mem_survivors.mpr ⟨solved_representative h, hrep⟩,
    (mem_aliasesOf (solved_representative h) hrep).mpr ⟨h, hne.symm, rfl⟩⟩

/-- Packages with one content are plain if those that are folded are, and what they are folded into is no member. -/
theorem sharedPlainly_iff :
    SharedPlainly σ solution ↔
      ∀ name ∈ solvedNames σ solution, representative σ solution name ≠ name →
        memberOf σ solution name = false ∧ memberOf σ solution (representative σ solution name) = false ∧
          (σ.depkeyForSolvedName name).namespace = none := by
  constructor
  · intro h name hname hne
    obtain ⟨hidentity, hsame, hlt⟩ := folded_cases hname hne
    have hrep := solved_representative hname
    have hlater := h name hname _ hrep hne hidentity hsame
    have hfirst := h _ hrep name hname hne.symm (by rwa [hsame]) hsame.symm
    exact ⟨hlater.1, hfirst.1, hlater.2 hlt⟩
  · intro h name hname other hother hne hidentity hsame
    have hplain := fun hfolded => h name hname hfolded
    refine ⟨?_, fun hlt => (hplain (folded_of_before hname hother hidentity hsame hlt)).2.2⟩
    rcases lt_or_gt_of_ne fun heq => hne (discoveryKey_injective (σ := σ) heq) with hlt | hlt
    · exact (hplain (folded_of_before hname hother hidentity hsame hlt)).1
    · -- the other one is folded; unless it is folded into this one, this one is folded too
      have hfolded := folded_of_before hother hname (by rwa [hsame]) hsame.symm hlt
      by_cases hrep : representative σ solution name = name
      · have hmem : other ∈ groupOf σ solution name := by
          unfold groupOf
          rw [if_neg (by simpa using hidentity)]
          exact List.mem_filter.mpr ⟨hother, decide_eq_true hsame⟩
        have hinto := (representative_eq_iff hname hother hrep).mpr hmem
        have hfirst := (h other hother hfolded).2.1
        rwa [hinto] at hfirst
      · exact (hplain hrep).1

/-! ### Nothing is lost of names and edges -/

theorem picked_name (hfiled : Filed σ) {cand : Candidate} (h : picked σ solution name = some cand) : cand.name = name := by
  obtain ⟨v, -, hcand⟩ := Option.bind_eq_some_iff.mp h
  exact (hfiled name v cand hcand).1

/-- **Every package is represented.** -/
theorem represented_graphOf (hfiled : Filed σ) (h : graphOf σ solution trust = .ok graph) : Represented σ solution graph := by
  refine (flatMap_graph_perm h (g := fun name => (name :: aliasesOf σ solution name).map fun n => (σ.depkeyForSolvedName n).name)
    (fun d => rfl) fun name hname cand hcand => ?_).trans ?_
  · rw [List.map_cons, nodeOf, resolvedDep]
    dsimp only
    rw [show (redirected σ solution cand).name = cand.name from rfl, picked_name hfiled hcand]
    exact List.Perm.cons _ (sortByKey_perm id _)
  · rw [← List.map_flatMap]
    exact survivors_perm.map _

/-- **Every edge leads to a node**, in a solution. -/
theorem edgesNamed_graphOf (hfiled : Filed σ) (hclosed : Closed σ solution) (h : graphOf σ solution trust = .ok graph) :
    EdgesNamed graph := by
  intro d hd r hr
  obtain ⟨name, hname, cand, hcand, hnode⟩ := mem_graph h hd
  have hrequires : d.requires = (redirected σ solution cand).requiresNames.map (shownName σ) :=
    (congrArg ResolvedDep.requires hnode :)
  rw [hrequires] at hr
  obtain ⟨r', hr', rfl⟩ := List.mem_map.mp hr
  obtain ⟨required, hrequired, rfl⟩ := List.mem_map.mp hr'
  have hsolved : required ∈ solvedNames σ solution :=
    hclosed name (mem_survivors.mp hname).1 required (by rw [requiresOf, hcand]; exact hrequired)
  have hsurvivor := mem_survivors.mpr ⟨solved_representative hsolved, representative_representative hsolved⟩
  obtain ⟨d', hd', cand', hcand', hnode'⟩ := exists_node h hsurvivor
  have hkey : (⟨d'.name, d'.namespace⟩ : DepKey) = σ.depkeyForSolvedName cand'.name := by
    have hname' : d'.name = (σ.depkeyForSolvedName cand'.name).name := (congrArg ResolvedDep.name hnode' :)
    have hns : d'.namespace = (σ.depkeyForSolvedName cand'.name).namespace := (congrArg ResolvedDep.namespace hnode' :)
    rw [hname', hns]
  refine ⟨d', hd', ?_⟩
  rw [hkey, picked_name hfiled hcand', shownName, getD_get?_aliasesMap hsolved]

/-! ### Members -/

theorem memberKey_nodeOf (hfiled : Filed σ) {cand : Candidate} (hcand : picked σ solution name = some cand) :
    memberKey (nodeOf σ solution cand) = if memberOf σ solution name then some (σ.depkeyForSolvedName name) else none := by
  rw [memberOf, hcand, Option.any_some, ← picked_name hfiled hcand]
  unfold memberKey isMember nodeOf resolvedDep provenancesOf observedRecord redirected redirect
  dsimp only
  rw [List.cons_append, List.head?_cons]
  cases cand.provenance with
  | none => rfl
  | some record => cases record <;> rfl

/-- **Every member has a node of its own if no member is folded.** -/
theorem membersKept_iff (hfiled : Filed σ) (h : graphOf σ solution trust = .ok graph) :
    MembersKept σ solution graph ↔
      ∀ name ∈ solvedNames σ solution, representative σ solution name ≠ name → memberOf σ solution name = false := by
  let key (name : Str) : List DepKey := if memberOf σ solution name then [σ.depkeyForSolvedName name] else []
  have htoList : ∀ name, (if memberOf σ solution name then some (σ.depkeyForSolvedName name) else none).toList = key name := by
    intro name
    cases hmember : memberOf σ solution name <;> simp [key, hmember]
  have hgraph : (graph.filterMap memberKey).Perm ((survivors σ solution).flatMap key) := by
    rw [List.filterMap_eq_flatMap_toList]
    refine flatMap_graph_perm h (fun d => rfl) fun name _ cand hcand => ?_
    rw [memberKey_nodeOf hfiled hcand, htoList]
  have hsolved : ((solvedNames σ solution).filterMap fun name =>
        if memberOf σ solution name then some (σ.depkeyForSolvedName name) else none).Perm
      ((survivors σ solution).flatMap fun name => key name ++ (aliasesOf σ solution name).flatMap key) := by
    rw [List.filterMap_eq_flatMap_toList, List.flatMap_congr fun name _ => htoList name]
    exact flatMap_solved_perm key
  constructor
  · intro hkept name hname hne
    obtain ⟨hsurvivor, halias⟩ := mem_aliasesOf_representative hname hne
    -- a member among the aliases would have a key on the one side alone
    have hweight := weight_eq_of_flatMap_perm (fun _ => 1) (fun a _ => by simp) (hgraph.symm.trans (hkept.trans hsolved)) _ hsurvivor
    have hnil : (aliasesOf σ solution (representative σ solution name)).flatMap key = [] :=
      List.length_eq_zero_iff.mp (by simpa using hweight)
    have hkey := List.flatMap_eq_nil_iff.mp hnil name halias
    by_contra hmember
    simp [key, hmember] at hkey
  · intro hplain
    refine hgraph.trans (List.Perm.trans ?_ hsolved.symm)
    refine List.Perm.flatMap_left _ fun name hname => ?_
    have hnil : (aliasesOf σ solution name).flatMap key = [] := by
      refine List.flatMap_eq_nil_iff.mpr fun other hother => ?_
      obtain ⟨hsolved', -, hne⟩ := folded_of_mem_aliasesOf hname hother
      simp [key, hplain other hsolved' hne]
    rw [hnil, List.append_nil]

/-! ### Directories -/

/-- The entries of `_deps/` for the packages that are folded into a package. -/
def aliasEntries (σ : ResolveState) (solution : Solution) (name : Str) : List (Str × Str) :=
  (aliasesOf σ solution name).map fun other => ((σ.depkeyForSolvedName other).name, pickedIdentity σ solution name)

theorem viewEntries_nodeOf (hfiled : Filed σ) {cand : Candidate} (hcand : picked σ solution name = some cand) :
    (viewEntries (nodeOf σ solution cand)).Perm
      (if linked σ solution name then (σ.dirOf name, pickedIdentity σ solution name) :: aliasEntries σ solution name else []) := by
  have hname := picked_name hfiled hcand
  have hentries : viewEntries (nodeOf σ solution cand) =
      if linked σ solution name then
        (σ.dirOf name, cand.identity) ::
          (sortByKey id ((aliasesOf σ solution name).map fun other => (σ.depkeyForSolvedName other).name)).map fun n =>
            (n, cand.identity)
      else [] := by
    rw [linked, hcand, Option.any_some, ← hname]
    unfold viewEntries nodeOf resolvedDep provenancesOf observedRecord redirected redirect isMember isLocal
    dsimp only
    rw [List.cons_append, List.head?_cons]
    cases cand.provenance with
    | none => rfl
    | some record =>
      cases record with
      | member n origin => rfl
      | «local» path origin => rfl
      | git url refSpec commitSha origin shas => cases cand.identity <;> rfl
      | tarball url sha origin => cases cand.identity <;> rfl
      | oci registry repository digest origin => cases cand.identity <;> rfl
      | root n origin => cases cand.identity <;> rfl
  have hidentity : pickedIdentity σ solution name = cand.identity := by rw [pickedIdentity, hcand]; rfl
  rw [hentries, hidentity]
  split_ifs
  · refine List.Perm.cons _ ?_
    rw [aliasEntries, hidentity]
    refine ((sortByKey_perm id _).map _).trans (List.Perm.of_eq ?_)
    rw [List.map_map]
    rfl
  · exact .refl _

/-- A package that is folded, and that is no member, would have a directory of its own. -/
theorem linked_of_identity (hfiled : Filed σ) (hname : name ∈ solvedNames σ solution) (hidentity : pickedIdentity σ solution name ≠ [])
    (hmember : memberOf σ solution name = false) : linked σ solution name = true := by
  obtain ⟨cand, hcand⟩ := Option.isSome_iff_exists.mp (isSome_picked hname)
  have hcandidate : cand.identity ≠ [] := by simpa [pickedIdentity, hcand] using hidentity
  obtain ⟨v, -, hget⟩ := Option.bind_eq_some_iff.mp hcand
  have hlocal : isLocal cand = false := by
    cases hlocal : isLocal cand with
    | false => rfl
    | true => exact absurd ((hfiled name v cand hget).2 hlocal) hcandidate
  rw [memberOf, hcand, Option.any_some] at hmember
  simp [linked, hcand, hmember, hlocal, hcandidate]

theorem not_linked_of_memberOf (h : memberOf σ solution name = true) : linked σ solution name = false := by
  unfold memberOf at h
  unfold linked
  cases hcand : picked σ solution name with
  | none => rfl
  | some cand =>
    rw [hcand, Option.any_some] at h
    simp [h]

theorem length_name_lt_dirOf {ns : Str} (h : (σ.depkeyForSolvedName name).namespace = some ns) :
    (σ.depkeyForSolvedName name).name.length < (σ.dirOf name).length := by
  unfold ResolveState.dirOf depDirName
  dsimp only
  rw [h]
  simp only [List.length_append]
  show _ < 1 + _ + 1 + _
  omega

theorem dirOf_eq_name (h : (σ.depkeyForSolvedName name).namespace = none) : σ.dirOf name = (σ.depkeyForSolvedName name).name := by
  unfold ResolveState.dirOf depDirName
  dsimp only
  rw [h]

theorem length_name_le_dirOf (name : Str) : (σ.depkeyForSolvedName name).name.length ≤ (σ.dirOf name).length := by
  cases hns : (σ.depkeyForSolvedName name).namespace with
  | none => rw [dirOf_eq_name hns]
  | some ns => exact (length_name_lt_dirOf hns).le

/-- The entries that the aliases of a package would have if they were not folded. -/
theorem flatMap_ownEntry_aliasesOf (hfiled : Filed σ)
    (hplain : ∀ name ∈ solvedNames σ solution, representative σ solution name ≠ name → memberOf σ solution name = false)
    (hname : name ∈ survivors σ solution) :
    (aliasesOf σ solution name).flatMap (ownEntry σ solution) =
      (aliasesOf σ solution name).map fun other => (σ.dirOf other, pickedIdentity σ solution name) := by
  rw [List.map_eq_flatMap]
  refine List.flatMap_congr fun other hother => ?_
  obtain ⟨hsolved, hrep, hne⟩ := folded_of_mem_aliasesOf hname hother
  obtain ⟨hidentity, hsame, -⟩ := folded_cases hsolved hne
  rw [ownEntry, if_pos (linked_of_identity hfiled hsolved hidentity (hplain other hsolved hne)), ← hsame, hrep]

/-- The length of the directory of an entry, and one. -/
def slotWeight (e : Str × Str) : ℕ := e.1.length + 1

theorem slotWeight_aliases_lt (hfolded : other ∈ aliasesOf σ solution name) {ns : Str}
    (hns : (σ.depkeyForSolvedName other).namespace = some ns) :
    ((aliasEntries σ solution name).map slotWeight).sum <
      (((aliasesOf σ solution name).map fun other => (σ.dirOf other, pickedIdentity σ solution name)).map slotWeight).sum := by
  unfold aliasEntries
  rw [List.map_map, List.map_map]
  refine List.sum_lt_sum _ _ (fun n _ => ?_) ⟨other, hfolded, ?_⟩
  · exact Nat.succ_le_succ (length_name_le_dirOf n)
  · exact Nat.succ_lt_succ (length_name_lt_dirOf hns)

theorem slotWeight_aliases_le (σ : ResolveState) (solution : Solution) (name : Str) :
    ((aliasEntries σ solution name).map slotWeight).sum ≤
      (((aliasesOf σ solution name).map fun other => (σ.dirOf other, pickedIdentity σ solution name)).map slotWeight).sum := by
  unfold aliasEntries
  rw [List.map_map, List.map_map]
  exact List.sum_le_sum fun n _ => Nat.succ_le_succ (length_name_le_dirOf n)

/-- **`_deps/` is as it would be without folding if what is folded has no namespace, and is not folded into a member.** -/
theorem slotsExact_iff (hfiled : Filed σ) (h : graphOf σ solution trust = .ok graph)
    (hplain : ∀ name ∈ solvedNames σ solution, representative σ solution name ≠ name → memberOf σ solution name = false) :
    SlotsExact σ solution graph ↔
      ∀ name ∈ solvedNames σ solution, representative σ solution name ≠ name →
        memberOf σ solution (representative σ solution name) = false ∧ (σ.depkeyForSolvedName name).namespace = none := by
  let slots (name : Str) : List (Str × Str) :=
    if linked σ solution name then (σ.dirOf name, pickedIdentity σ solution name) :: aliasEntries σ solution name else []
  let own (name : Str) : List (Str × Str) :=
    ownEntry σ solution name ++ (aliasesOf σ solution name).map fun other => (σ.dirOf other, pickedIdentity σ solution name)
  have hgraph : (graph.flatMap viewEntries).Perm ((survivors σ solution).flatMap slots) :=
    flatMap_graph_perm h (fun d => rfl) fun name _ cand hcand => viewEntries_nodeOf hfiled hcand
  have hsolved : ((solvedNames σ solution).flatMap (ownEntry σ solution)).Perm ((survivors σ solution).flatMap own) := by
    refine (flatMap_solved_perm _).trans (List.Perm.flatMap_left _ fun name hname => ?_)
    rw [flatMap_ownEntry_aliasesOf hfiled hplain hname]
  have hle : ∀ name ∈ survivors σ solution, ((slots name).map slotWeight).sum ≤ ((own name).map slotWeight).sum := by
    intro name _
    have haliases := slotWeight_aliases_le σ solution name
    by_cases hlinked : linked σ solution name = true
    · simp only [slots, own, ownEntry, if_pos hlinked, List.map_cons, List.map_append, List.sum_append, List.sum_cons, List.map_nil,
        List.sum_nil]
      omega
    · simp only [slots, if_neg hlinked, List.map_nil, List.sum_nil, Nat.zero_le]
  constructor
  · intro hexact name hname hne
    obtain ⟨hsurvivor, halias⟩ := mem_aliasesOf_representative hname hne
    have hweight := weight_eq_of_flatMap_perm slotWeight hle (hgraph.symm.trans (hexact.trans hsolved)) _ hsurvivor
    by_cases hlinked : linked σ solution (representative σ solution name) = true
    · refine ⟨?_, ?_⟩
      · cases hmember : memberOf σ solution (representative σ solution name) with
        | false => rfl
        | true =>
          rw [not_linked_of_memberOf hmember] at hlinked
          cases hlinked
      · cases hns : (σ.depkeyForSolvedName name).namespace with
        | none => rfl
        | some ns =>
          have hlt := slotWeight_aliases_lt halias hns
          simp only [slots, own, ownEntry, if_pos hlinked, List.map_cons, List.map_append, List.sum_append, List.sum_cons,
            List.map_nil, List.sum_nil] at hweight
          omega
    · -- the aliases of a package without a directory have none either
      have hweights : ∀ w ∈ (own (representative σ solution name)).map slotWeight, 0 < w := by
        intro w hw
        obtain ⟨e, -, rfl⟩ := List.mem_map.mp hw
        exact Nat.succ_pos _
      have hpos := List.sum_pos _ hweights (by
        simp only [own, List.map_append, ne_eq, List.append_eq_nil_iff, List.map_eq_nil_iff, not_and]
        exact fun _ => List.ne_nil_of_mem halias)
      simp only [slots, if_neg hlinked, List.map_nil, List.sum_nil] at hweight
      omega
  · intro hplainly
    refine hgraph.trans (List.Perm.trans (List.Perm.of_eq ?_) hsolved.symm)
    refine List.flatMap_congr fun name hname => ?_
    by_cases hlinked : linked σ solution name = true
    · simp only [slots, own, ownEntry, if_pos hlinked, List.singleton_append, List.cons.injEq, true_and]
      refine List.map_congr_left fun other hother => ?_
      obtain ⟨hsolved', -, hne⟩ := folded_of_mem_aliasesOf hname hother
      rw [dirOf_eq_name (hplainly other hsolved' hne).2]
    · -- a package without a directory has no aliases
      have hnil : aliasesOf σ solution name = [] := by
        refine List.eq_nil_iff_forall_not_mem.mpr fun other hother => ?_
        obtain ⟨hsolved', hrep, hne⟩ := folded_of_mem_aliasesOf hname hother
        obtain ⟨hidentity, hsame, -⟩ := folded_cases hsolved' hne
        rw [hrep] at hsame
        have hfirst := (hplainly other hsolved' hne).1
        rw [hrep] at hfirst
        exact hlinked (linked_of_identity hfiled (mem_survivors.mp hname).1 (by rwa [hsame]) hfirst)
      simp only [slots, own, ownEntry, if_neg hlinked, hnil, List.map_nil, List.append_nil]

/-! ### The claim -/

theorem filed_of_reachable (h : Reachable ctx c) : Filed c.state := by
  obtain ⟨c₀, hstart, hrun⟩ := h
  obtain ⟨r, σ, queue, -, rfl, huntouched, -⟩ := starts_cases hstart
  have hinvariant : ∀ c c', Filed c.state → Step ctx c c' → Filed c'.state := fun _ _ h hstep => Filed.step h hstep
  exact Run.invariant hrun huntouched.filed hinvariant

instance : Decidable (Closed σ solution) :=
  inferInstanceAs (Decidable (∀ name ∈ solvedNames σ solution, ∀ r ∈ requiresOf σ solution name, r ∈ solvedNames σ solution))

instance : Decidable (SharedPlainly σ solution) :=
  inferInstanceAs (Decidable (∀ name ∈ solvedNames σ solution, ∀ other ∈ solvedNames σ solution, other ≠ name →
    pickedIdentity σ solution name ≠ [] → pickedIdentity σ solution other = pickedIdentity σ solution name →
    memberOf σ solution name = false ∧
      (discoveryKey σ other < discoveryKey σ name → (σ.depkeyForSolvedName name).namespace = none)))

/-- A root that depends on a repository and on a package of the index. -/
def twinUser (ns : Option Str) : Manifest :=
  { Manifest.initial with
    name := some "app"
    deps := [.url (urlDep "a" "https://h/a" "main" none), .named ⟨"lib", none, none, [], false, [], ns⟩] }

/-- A world where the repository and the package have one content. -/
def twinWorld (ns : Str) : ResolveCtx :=
  { ResolveCtx.offline with
    index := ⟨[⟨"lib", ns, [{ entryOf "1.0.0" "sha256:a" with «namespace» := ns }]⟩]⟩
    fetch := fetchFrom [("https://h/a", treeOf "sha256:a" Manifest.initial), ("https://h/lib", treeOf "sha256:a" Manifest.initial)] }

/-- The solution in that world: the package has this solver key. -/
def twinSolution (key : Str) : Solution :=
  let git : Str := "git+https://h/a#ref=main"
  (BTreeMap.empty.insert git urlDepVersion).insert key (.release 1 0 0)

/-- A resolve comes, in so many steps and with one query for the package, to a state and a graph that are looked for. -/
def twinsCome (ns : Option Str) (key : Str) (good : ResolveState → List ResolvedDep → Bool) : Bool :=
  let env := twinWorld (ns.getD [])
  comesTo (fun _ => true) env (twinUser ns) 9 fun c =>
    match queried (packageCtx env (twinUser ns) (treeOf [] (twinUser ns))) c key (.release 1 0 0) with
    | some c =>
      match graphOf c.state (twinSolution key) none with
      | .ok graph => decide (Closed c.state (twinSolution key)) && good c.state graph
      | .error _ => false
    | none => false

theorem reachable_of_twinsCome {ns : Option Str} {key : Str} {good : ResolveState → List ResolvedDep → Bool}
    (h : twinsCome ns key good = true) :
    ∃ ctx c graph, Reachable ctx c ∧ Closed c.state (twinSolution key) ∧ graphOf c.state (twinSolution key) none = .ok graph ∧
      good c.state graph = true := by
  obtain ⟨c₀, c, hstart, hrun, hgood⟩ := run_of_comesTo h
  split at hgood
  · rename_i c' hquery
    split at hgood
    · rename_i graph hgraph
      obtain ⟨hclosed, hgood⟩ := (Bool.and_eq_true _ _).mp hgood
      exact ⟨_, c', graph, ⟨c₀, hstart, hrun.tail (step_of_queried hquery)⟩, of_decide_eq_true hclosed, hgraph, hgood⟩
    · cases hgood
  · cases hgood

/-- **The graph of a solution loses nothing if and only if packages with one content are plain.** -/
theorem losesNothing_iff (hreach : Reachable ctx c) (hclosed : Closed c.state solution)
    (h : graphOf c.state solution trust = .ok graph) :
    LosesNothing c.state solution graph ↔ SharedPlainly c.state solution := by
  have hfiled := filed_of_reachable hreach
  rw [sharedPlainly_iff]
  constructor
  · intro hlost name hname hne
    have hmembers := (membersKept_iff hfiled h).mp hlost.members
    have hslots := (slotsExact_iff hfiled h hmembers).mp hlost.slots name hname hne
    exact ⟨hmembers name hname hne, hslots.1, hslots.2⟩
  · intro hplain
    have hmembers := fun name hname hne => (hplain name hname hne).1
    refine ⟨represented_graphOf hfiled h, edgesNamed_graphOf hfiled hclosed h, (membersKept_iff hfiled h).mpr hmembers, ?_⟩
    exact (slotsExact_iff hfiled h hmembers).mpr fun name hname hne => (hplain name hname hne).2

/-- A repository and a package without a namespace that have one content. -/
theorem losesNothing_iff_twins :
    ∃ ctx c solution graph, Reachable ctx c ∧ graphOf c.state solution none = .ok graph ∧ graph.length = 1 ∧
      LosesNothing c.state solution graph := by
  have hcome : twinsCome none "pkg+tianguis/lib" (fun σ graph =>
      decide (SharedPlainly σ (twinSolution "pkg+tianguis/lib")) && decide (graph.length = 1)) = true := by
    decide
  obtain ⟨ctx, c, graph, hreach, hclosed, hgraph, hgood⟩ := reachable_of_twinsCome hcome
  obtain ⟨hplain, hlength⟩ := (Bool.and_eq_true _ _).mp hgood
  exact ⟨ctx, c, _, graph, hreach, hgraph, of_decide_eq_true hlength,
    (losesNothing_iff hreach hclosed hgraph).mpr (of_decide_eq_true hplain)⟩

/-- A package with a namespace that is folded gets the directory of another one. -/
theorem alias_without_namespace :
    ¬ ∀ ctx c solution trust graph, Reachable ctx c → Closed c.state solution → graphOf c.state solution trust = .ok graph →
      LosesNothing c.state solution graph := by
  intro h
  have hcome : twinsCome (some "ns1") "pkg+tianguis/ns1/lib" (fun σ graph =>
      decide ((("lib", "sha256:a") : Str × Str) ∈ graph.flatMap viewEntries) &&
        decide ((("lib", "sha256:a") : Str × Str) ∉ (solvedNames σ (twinSolution "pkg+tianguis/ns1/lib")).flatMap
          (ownEntry σ (twinSolution "pkg+tianguis/ns1/lib")))) = true := by
    decide
  obtain ⟨ctx, c, graph, hreach, hclosed, hgraph, hgood⟩ := reachable_of_twinsCome hcome
  obtain ⟨hentry, hnone⟩ := (Bool.and_eq_true _ _).mp hgood
  have hslots := (h ctx c _ none graph hreach hclosed hgraph).slots
  exact of_decide_eq_true hnone (hslots.mem_iff.mp (of_decide_eq_true hentry))

end Milpa.Core.Resolver

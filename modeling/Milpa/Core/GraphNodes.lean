import Milpa.Core.GraphFolds
import Milpa.Core.WorkerCases

/-!
# The nodes of the graph

`finalize` changes nothing but the requirements of the packages that are not folded, and
`build_graph` makes one node of each of them, whatever the order: the graph is known up to
the order of its nodes and to their conditional requirements (`graphOf_eq_ok`).
-/

namespace Milpa.Core.Resolver

open Result

variable {σ : ResolveState} {solution : Solution} {name other : Str} {trust : Option EntryTrust} {graph : List ResolvedDep}

/-! ### What finalize changes -/

theorem get?_modifyCandidate (f : Candidate → Candidate) (v : Version) (p : Str) (w : Version) :
    ((modifyCandidate σ name v f).candidatesOf p).get? w =
      if p = name ∧ w.precedenceKey = v.precedenceKey then ((σ.candidatesOf name).get? v).map f else (σ.candidatesOf p).get? w := by
  unfold modifyCandidate
  cases hentry : (σ.candidatesOf name).entry v with
  | none =>
    dsimp only
    split_ifs with hsame
    · obtain ⟨rfl, hw⟩ := hsame
      rw [VersionMap.get?, VersionMap.get?, VersionMap.entry_congr _ hw, hentry]
      rfl
    · rfl
  | some e =>
    obtain ⟨key, c⟩ := e
    dsimp only
    rw [candidatesOf_insert]
    by_cases hp : p = name
    · subst hp
      rw [if_pos rfl, VersionMap.get?, VersionMap.entry, BTreeMap.get?_insert]
      by_cases hw : w.precedenceKey = v.precedenceKey
      · rw [if_pos hw, if_pos ⟨rfl, hw⟩, VersionMap.get?, hentry]
        rfl
      · rw [if_neg hw, if_neg fun h => hw h.2]
        rfl
    · rw [if_neg hp, if_neg fun h => hp h.1]

/-- The state after candidates were changed. -/
structure CandidatesChanged (σ σ' : ResolveState) : Prop where
  rest : σ' = { σ with candidates := σ'.candidates }

theorem CandidatesChanged.trans {τ τ' : ResolveState} (h : CandidatesChanged σ τ) (h' : CandidatesChanged τ τ') :
    CandidatesChanged σ τ' := by
  have h₁ := h.rest
  have h₂ := h'.rest
  rw [h₁] at h₂
  exact ⟨h₂⟩

theorem candidatesChanged_modifyCandidate (f : Candidate → Candidate) (v : Version) :
    CandidatesChanged σ (modifyCandidate σ name v f) := by
  unfold modifyCandidate
  split <;> exact ⟨rfl⟩

/-- The loop of `finalize` over packages. -/
theorem picked_foldl_modifyCandidate (f : Candidate → Candidate) {names : List Str} (hnodup : names.Nodup) (σ : ResolveState)
    (other : Str) :
    picked (names.foldl (fun σ name =>
        match solution.get? name with
        | some version => modifyCandidate σ name version f
        | none => σ) σ) solution other =
      if other ∈ names then (picked σ solution other).map f else picked σ solution other := by
  induction names generalizing σ with
  | nil => simp
  | cons name names ih =>
    obtain ⟨hname, hnodup⟩ := List.nodup_cons.mp hnodup
    rw [List.foldl_cons, ih hnodup]
    have hstep : picked (match solution.get? name with
        | some version => modifyCandidate σ name version f
        | none => σ) solution other = if other = name then (picked σ solution other).map f else picked σ solution other := by
      cases hversion : solution.get? name with
      | none =>
        dsimp only
        split_ifs with hsame
        · rw [hsame, picked, hversion]
          rfl
        · rfl
      | some version =>
        dsimp only
        by_cases hsame : other = name
        · rw [if_pos hsame, hsame, picked, picked, hversion, Option.bind_some, Option.bind_some, get?_modifyCandidate,
            if_pos ⟨rfl, rfl⟩]
        · rw [if_neg hsame, picked, picked]
          cases solution.get? other with
          | none => rfl
          | some w => rw [Option.bind_some, Option.bind_some, get?_modifyCandidate, if_neg fun h => hsame h.1]
    rw [hstep]
    by_cases hsame : other = name
    · rw [if_pos hsame, if_neg (hsame ▸ hname), if_pos (hsame ▸ List.mem_cons_self)]
    · rw [if_neg hsame]
      simp [hsame]

/-- The requirements that `finalize` leaves. -/
def redirected (σ : ResolveState) (solution : Solution) : Candidate → Candidate :=
  redirect (aliasesMap (canonicalAliases σ solution))

theorem picked_finalize (other : Str) :
    picked (finalize σ solution).1 solution other =
      if other ∈ survivors σ solution then (picked σ solution other).map (redirected σ solution) else picked σ solution other :=
  picked_foldl_modifyCandidate _ (nodup_survivors σ solution) σ other

theorem candidatesChanged_foldl_modifyCandidate (f : Candidate → Candidate) (names : List Str) (σ : ResolveState) :
    CandidatesChanged σ (names.foldl (fun σ name =>
        match solution.get? name with
        | some version => modifyCandidate σ name version f
        | none => σ) σ) := by
  induction names generalizing σ with
  | nil => exact ⟨rfl⟩
  | cons name names ih =>
    rw [List.foldl_cons]
    refine CandidatesChanged.trans ?_ (ih _)
    split
    · exact candidatesChanged_modifyCandidate f _
    · exact ⟨rfl⟩

theorem finalize_rest : CandidatesChanged σ (finalize σ solution).1 :=
  candidatesChanged_foldl_modifyCandidate _ _ σ

theorem solvedNames_finalize : solvedNames (finalize σ solution).1 solution = solvedNames σ solution := by
  refine List.filter_congr fun name _ => ?_
  rw [picked_finalize]
  split_ifs
  · rw [Option.isSome_map]
  · rfl

/-! ### Nodes -/

/-- A node without its conditional requirements. -/
def withoutConds (d : ResolvedDep) : ResolvedDep := { d with condRequires := [] }

/-- The node of a candidate that is not folded, without its conditional requirements. -/
def nodeOf (σ : ResolveState) (solution : Solution) (c : Candidate) : ResolvedDep :=
  resolvedDep σ solution (canonicalAliases σ solution) (redirected σ solution c) []

theorem provenancesOf_finalize (aliases : BTreeMap Str (List Str)) (c : Candidate) :
    provenancesOf (finalize σ solution).1 solution aliases c = provenancesOf σ solution aliases c := by
  unfold provenancesOf
  dsimp only
  congr 1
  refine List.filterMap_congr fun other _ => ?_
  rw [picked_finalize]
  split_ifs
  · cases picked σ solution other <;> rfl
  · rfl

theorem resolvedDep_finalize (aliases : BTreeMap Str (List Str)) (c : Candidate) (conds : List CondRequire) :
    resolvedDep (finalize σ solution).1 solution aliases c conds = resolvedDep σ solution aliases c conds := by
  have hparts : ∀ τ : ResolveState, τ = { σ with candidates := τ.candidates } → resolvedDep τ solution aliases c conds =
      { resolvedDep σ solution aliases c conds with provenances := provenancesOf τ solution aliases c } := by
    intro τ hτ
    rw [hτ]
    rfl
  rw [hparts _ finalize_rest.rest, provenancesOf_finalize]
  rfl

theorem buildNode_eq_ok {aliases : BTreeMap Str (List Str)} {c : Candidate} {d : ResolvedDep}
    (h : buildNode σ solution trust aliases c = .ok d) : withoutConds d = resolvedDep σ solution aliases c [] := by
  unfold buildNode at h
  split at h
  · cases h
  · obtain ⟨-, -, h⟩ := bind_eq_ok.mp h
    obtain rfl := pure_eq_ok.mp h
    rfl

/-- A loop that gives, for each element, a result of which a part is known. -/
theorem map_eq_of_mapM_eq_ok {ε α β γ : Type*} {f : α → Except ε β} {part : β → γ} {g : α → γ}
    (hf : ∀ a b, f a = .ok b → part b = g a) {l : List α} {r : List β} (h : l.mapM f = .ok r) : r.map part = l.map g := by
  induction l generalizing r with
  | nil =>
    rw [List.mapM_nil] at h
    obtain rfl := pure_eq_ok.mp h
    rfl
  | cons a l ih =>
    rw [List.mapM_cons] at h
    obtain ⟨b, hb, h⟩ := bind_eq_ok.mp h
    obtain ⟨bs, hbs, h⟩ := bind_eq_ok.mp h
    obtain rfl := pure_eq_ok.mp h
    rw [List.map_cons, List.map_cons, hf a b hb, ih hbs]

/-- The node of a package that is not folded, without its conditional requirements. -/
def nodeFor (σ : ResolveState) (solution : Solution) (name : Str) : Option ResolvedDep :=
  (picked σ solution name).map (nodeOf σ solution)

/-- **The graph has one node for each package that is not folded**, in some order. -/
theorem graphOf_eq_ok (h : graphOf σ solution trust = .ok graph) :
    (graph.map withoutConds).Perm ((survivors σ solution).filterMap (nodeFor σ solution)) := by
  have hbuild : buildGraph (finalize σ solution).1 solution trust (finalize σ solution).2 = .ok graph := h
  obtain ⟨-, -, h⟩ := bind_eq_ok.mp hbuild
  have hchosen : (solvedNames (finalize σ solution).1 solution).filter
      (fun name => ((aliasesMap (finalize σ solution).2).get? name).isNone) = survivors σ solution := by
    rw [solvedNames_finalize]
    rfl
  simp only [hchosen] at h
  have hperm := Topo.order_perm (requiresOf (finalize σ solution).1 solution) (nodup_survivors σ solution)
  refine List.Perm.trans ?_ (hperm.filterMap (nodeFor σ solution))
  refine List.Perm.of_eq ?_
  rw [map_eq_of_mapM_eq_ok (fun c d => buildNode_eq_ok) h]
  have hpicked : ∀ name ∈ Topo.order (survivors σ solution) (requiresOf (finalize σ solution).1 solution),
      picked (finalize σ solution).1 solution name = (picked σ solution name).map (redirected σ solution) := fun name hname => by
    rw [picked_finalize, if_pos (hperm.mem_iff.mp hname)]
  rw [List.filterMap_congr hpicked]
  have hmap : ∀ l : List Str, (l.filterMap fun name => (picked σ solution name).map (redirected σ solution)) =
      (l.filterMap (picked σ solution)).map (redirected σ solution) := fun l => (List.map_filterMap).symm
  rw [hmap, List.map_map, show nodeFor σ solution = fun name => (picked σ solution name).map (nodeOf σ solution) from rfl,
    ← List.map_filterMap]
  exact List.map_congr_left fun c _ => resolvedDep_finalize _ _ _

end Milpa.Core.Resolver

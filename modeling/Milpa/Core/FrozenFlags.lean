import Milpa.Core.EntryAgree
import Milpa.Core.LockfileGraph

/-!
# A selection of features, told from a lockfile

`check_frozen_active_flags_mismatch` of `resolver.rs`. A lockfile does not record the flags
it was written under; the check infers them from the names in it: a dependency under a flag
should be there exactly when the flags of the selection admit it. A name can be absent for
another reason, because the platform drops the dependency or because its package was folded
into one of another name, and it can be there for another reason, because something else
brings it in. Then the check refuses a lockfile that was written under the very same
selection (`frozen_check_ok_iff`).
-/

namespace Milpa.Core.Resolver

variable {host : Host} {opts : ResolveOpts} {manifest : Manifest} {profile : Option Profile} {sel : FeatureSelection}
  {σ : ResolveState} {solution : Solution} {graph : List ResolvedDep} {lock : Lockfile}

/-! ### The check -/

/-- What the check reports, with the code `FROZEN-ACTIVE-FLAGS-MISMATCH`. -/
inductive FrozenFlagsError where
  | featureUndeclared (feature : Str)
  | mismatch (name : Str)
  deriving DecidableEq, Repr

/-- `has_flag_pred`. -/
def hasFlagPred (dep : Dep) : Bool := dep.predicates.any fun p => decide (p.name = "flag".toList)

/-- `admitted`, of a dependency, by the closure of the selection. -/
def admittedBy (manifest : Manifest) (sel : FeatureSelection) (dep : Dep) : Bool :=
  depPassesFlagPredicates dep (flagEnablesClosure manifest.flags (cliSeed manifest.flags sel))

/-- `check_frozen_active_flags_mismatch`. -/
def checkFrozenActiveFlagsMismatch (manifest : Manifest) (lock : Lockfile) (sel : FeatureSelection) : Except FrozenFlagsError Unit :=
  match sel.features.find? fun f => decide (f ∉ manifest.flags.map FlagDecl.name) with
  | some f => .error (.featureUndeclared f)
  | none =>
    let lockedNames := lock.deps.map LockedDep.name
    match manifest.deps.find? fun dep => hasFlagPred dep && decide (admittedBy manifest sel dep ≠ decide (dep.name ∈ lockedNames)) with
    | some dep => .error (.mismatch dep.name)
    | none => .ok ()

theorem checkFrozenActiveFlagsMismatch_eq_ok :
    checkFrozenActiveFlagsMismatch manifest lock sel = .ok () ↔
      (∀ f ∈ sel.features, f ∈ manifest.flags.map FlagDecl.name) ∧
        ∀ dep ∈ manifest.deps, hasFlagPred dep = true → (admittedBy manifest sel dep = true ↔ dep.name ∈ lock.deps.map LockedDep.name) := by
  unfold checkFrozenActiveFlagsMismatch
  constructor
  · intro h
    split at h
    · cases h
    · rename_i hdeclared
      dsimp only at h
      split at h
      · cases h
      · rename_i hnone
        refine ⟨by simpa using List.find?_eq_none.mp hdeclared, fun dep hdep hgated => ?_⟩
        have hsame := List.find?_eq_none.mp hnone dep hdep
        rw [hgated, Bool.true_and, decide_eq_true_iff, not_not] at hsame
        rw [hsame, decide_eq_true_iff]
  · rintro ⟨hdeclared, hsame⟩
    have hfeatures : sel.features.find? (fun f => decide (f ∉ manifest.flags.map FlagDecl.name)) = none :=
      List.find?_eq_none.mpr fun f hf => by simpa using hdeclared f hf
    rw [hfeatures]
    dsimp only
    rw [List.find?_eq_none.mpr]
    intro dep hdep hbad
    obtain ⟨hgated, hne⟩ := Bool.and_eq_true_iff.mp hbad
    exact of_decide_eq_true hne (by rw [Bool.eq_iff_iff, decide_eq_true_iff]; exact hsame dep hdep hgated)

/-! ### What a resolve leaves -/

/-- The features of a resolve that succeeds are declared. -/
theorem declared_of_selectFeatures {seed : Option (List Str)} (h : selectFeatures manifest sel = .ok seed) :
    ∀ f ∈ sel.features, f ∈ manifest.flags.map FlagDecl.name := by
  intro f hf
  have hgiven : sel.given = true := by
    have hne : sel.features.isEmpty = false := List.isEmpty_eq_false_iff.mpr (List.ne_nil_of_mem hf)
    rw [FeatureSelection.given, hne]
    rfl
  rw [selectFeatures, if_pos hgiven] at h
  obtain ⟨_, hcheck, _⟩ := Result.bind_eq_ok.mp h
  unfold checkFeatures at hcheck
  split at hcheck
  · cases hcheck
  · rename_i hnone
    simpa using List.find?_eq_none.mp hnone f hf

/-- A graph that a resolve gives is that of a state and a solution. -/
theorem graphOf_of_resolve (h : (resolveWithFeatures host opts manifest profile sel).run = some (.ok graph)) :
    (∀ f ∈ sel.features, f ∈ manifest.flags.map FlagDecl.name) ∧
      ∃ σ solution, graphOf σ solution opts.entryTrust = .ok graph := by
  obtain ⟨seed, hseed, h⟩ := Outcome.bind_eq_ok h
  obtain ⟨p, -, h⟩ := Outcome.bind_eq_ok h
  refine ⟨declared_of_selectFeatures (Outcome.of_lift hseed), ?_⟩
  obtain ⟨c, -, h⟩ := Outcome.bind_eq_ok h
  obtain ⟨search, -, h⟩ := Outcome.bind_eq_ok h
  split at h
  · rename_i solution hsolve
    obtain ⟨_, -, h⟩ := Outcome.bind_eq_ok h
    obtain ⟨⟨σ, aliases⟩, hfinal, h⟩ := Outcome.bind_eq_ok h
    obtain ⟨_, -, h⟩ := Outcome.bind_eq_ok h
    obtain ⟨graph', hgraph, h⟩ := Outcome.bind_eq_ok h
    obtain ⟨_, -, h⟩ := Outcome.bind_eq_ok h
    obtain rfl : graph' = graph := Except.ok.inj (Option.some.inj h)
    obtain ⟨c', -, hfinal⟩ := Outcome.bind_eq_ok hfinal
    have hfinal : finalize c'.state solution = (σ, aliases) := Except.ok.inj (Option.some.inj hfinal)
    refine ⟨c'.state, solution, ?_⟩
    rw [graphOf, hfinal]
    exact Outcome.of_lift hgraph
  · cases h
  · cases h

/-- A package of the solution that is not folded into another one is shown under the name. -/
def Shown (σ : ResolveState) (solution : Solution) (name : Str) : Prop :=
  ∃ package ∈ survivors σ solution, ∃ cand, picked σ solution package = some cand ∧ (σ.depkeyForSolvedName cand.name).name = name

/-- The names of a graph are those that are shown. -/
theorem mem_names_graphOf {trust : Option EntryTrust} (h : graphOf σ solution trust = .ok graph) {name : Str} :
    name ∈ graph.map ResolvedDep.name ↔ Shown σ solution name := by
  have hname : ∀ {d : ResolvedDep} {cand : Candidate}, withoutConds d = nodeOf σ solution cand →
      d.name = (σ.depkeyForSolvedName cand.name).name := fun hnode => congrArg ResolvedDep.name hnode
  constructor
  · intro hmem
    obtain ⟨d, hd, rfl⟩ := List.mem_map.mp hmem
    obtain ⟨package, hpackage, cand, hcand, hnode⟩ := mem_graph h hd
    exact ⟨package, hpackage, cand, hcand, (hname hnode).symm⟩
  · rintro ⟨package, hpackage, cand, hcand, rfl⟩
    obtain ⟨d, hd, cand', hcand', hnode⟩ := exists_node h hpackage
    obtain rfl : cand' = cand := Option.some.inj (hcand'.symm.trans hcand)
    exact List.mem_map.mpr ⟨d, hd, hname hnode⟩

/-- What is written of a graph has its names. -/
theorem names_of_lockedFromResolved {deps : List LockedDep} (h : graph.mapM lockedFromResolved = some deps) :
    deps.map LockedDep.name = graph.map ResolvedDep.name := by
  induction graph generalizing deps with
  | nil =>
    obtain rfl : [] = deps := Option.some.inj h
    rfl
  | cons d graph ih =>
    rw [List.mapM_cons] at h
    obtain ⟨locked, hlocked, h⟩ := Option.bind_eq_some_iff.mp h
    obtain ⟨rest, hrest, h⟩ := Option.bind_eq_some_iff.mp h
    obtain rfl : locked :: rest = deps := Option.some.inj h
    obtain ⟨keyed, -, hlocked⟩ := Option.bind_eq_some_iff.mp hlocked
    obtain rfl := Option.some.inj hlocked
    rw [List.map_cons, List.map_cons, ih hrest]
    rfl

/-- The names of a lockfile are those of the graph. -/
theorem mem_names_fromGraph {strategy : Str} {excludeNewer : Option Timestamp} (h : fromGraph graph strategy excludeNewer = some lock)
    {name : Str} : name ∈ lock.deps.map LockedDep.name ↔ name ∈ graph.map ResolvedDep.name := by
  obtain ⟨deps, hdeps, h⟩ := Option.bind_eq_some_iff.mp h
  obtain rfl := Option.some.inj h
  rw [← names_of_lockedFromResolved hdeps]
  exact ((sortByKey_perm lockedKey deps).map LockedDep.name).mem_iff

/-! ### Where the names tell the flags -/

/-- What is shown tells of each dependency under a flag whether the flags admit it. -/
structure NamesTell (manifest : Manifest) (profile : Option Profile) (sel : FeatureSelection) (σ : ResolveState)
    (solution : Solution) : Prop where
  /-- What the resolve was given and the flags admit has not been folded into a package of another name. -/
  kept : ∀ dep ∈ manifest.deps, hasFlagPred dep = true → admittedBy manifest sel dep = true →
    profile.all (passesProfile · dep) = true → Shown σ solution dep.name
  /-- What the flags admit and the platform drops is brought in by something else. -/
  dropped : ∀ dep ∈ manifest.deps, hasFlagPred dep = true → admittedBy manifest sel dep = true →
    profile.all (passesProfile · dep) = false → Shown σ solution dep.name
  /-- What the flags do not admit is brought in by nothing, in no namespace. -/
  excluded : ∀ dep ∈ manifest.deps, hasFlagPred dep = true → admittedBy manifest sel dep = false → ¬ Shown σ solution dep.name

theorem namesTell_iff :
    NamesTell manifest profile sel σ solution ↔
      ∀ dep ∈ manifest.deps, hasFlagPred dep = true → (admittedBy manifest sel dep = true ↔ Shown σ solution dep.name) := by
  constructor
  · intro h dep hdep hgated
    cases hadmitted : admittedBy manifest sel dep with
    | false => simpa using h.excluded dep hdep hgated hadmitted
    | true =>
      cases hprofile : profile.all (passesProfile · dep) with
      | false => simpa using h.dropped dep hdep hgated hadmitted hprofile
      | true => simpa using h.kept dep hdep hgated hadmitted hprofile
  · intro h
    exact ⟨fun dep hdep hgated hadmitted _ => (h dep hdep hgated).mp hadmitted,
      fun dep hdep hgated hadmitted _ => (h dep hdep hgated).mp hadmitted,
      fun dep hdep hgated hadmitted hshown => by simp [(h dep hdep hgated).mpr hshown] at hadmitted⟩

/-- The lockfile that an outcome leaves. -/
def lockAfter (x : Outcome ResError (List ResolvedDep)) : Option Lockfile :=
  match x.run with
  | some (.ok graph) => fromGraph graph "maxver".toList none
  | _ => none

theorem exists_of_lockAfter {x : Outcome ResError (List ResolvedDep)} (h : lockAfter x = some lock) :
    ∃ graph, x.run = some (.ok graph) ∧ fromGraph graph "maxver".toList none = some lock := by
  unfold lockAfter at h
  split at h
  · rename_i graph hgraph
    exact ⟨graph, hgraph, h⟩
  · cases h

/-- The selection of the feature of the helper. -/
def extraSelected : FeatureSelection := ⟨["extra"], false, false⟩

/-- A package whose dependency is under a flag that is on, on one platform. -/
def platformUser : Manifest :=
  { gatedUser with deps := [.local ⟨"helper", "../helper", [⟨"flag", ["base"], false⟩, ⟨"platform", ["linux"], false⟩], none⟩] }

end Milpa.Core.Resolver

import Milpa.Core.EntryTrust
import Milpa.Core.GraphExact
import Milpa.Core.RegistryCandidates

/-!
# The mandate of the entries

`build_graph` asks the gate about every package of the solution that comes from the registry,
folded or not, and does otherwise what it does without a gate (`graphOf_eq_ok_iff`). It asks
under the name that the package is shown under and with the version as it prints, not with what
was published. So the gate is exact where the two are the same, and for no other package
(`mandate_exact`): a version that was published as "v1.0.0" is refused though it is
grandfathered.
-/

namespace Milpa.Core.Resolver

open Solver Result

variable {ctx : ResolveCtx} {c : Config} {σ : ResolveState} {solution : Solution} {name : Str} {cand : Candidate} {pkg : Package}
  {e : IndexVersion} {check : EntryTrust} {graph : List ResolvedDep} {raise : EntryTrustError → ResError}

/-! ### What build_graph asks about -/

/-- The packages of a solution that come from the registry pass a check. -/
def Checked (σ : ResolveState) (solution : Solution) (check : EntryTrust) : Prop :=
  ∀ name ∈ solvedNames σ solution, ∀ cand, picked σ solution name = some cand → cand.isRegistry = true →
    check cand (σ.depkeyForSolvedName cand.name) = .ok ()

theorem checkTrust_eq_ok : checkTrust σ (some check) cand = .ok () ↔
    (cand.isRegistry = true → check cand (σ.depkeyForSolvedName cand.name) = .ok ()) := by
  unfold checkTrust
  dsimp only
  split_ifs with hregistry
  · simp [hregistry]
  · simp [hregistry]

/-- A node is built if it is built without the check, and passes. -/
theorem buildNode_eq_ok_iff {aliases : BTreeMap Str (List Str)} {d : ResolvedDep} :
    buildNode σ solution (some check) aliases cand = .ok d ↔
      buildNode σ solution none aliases cand = .ok d ∧ checkTrust σ (some check) cand = .ok () := by
  unfold buildNode
  cases condRequiresOf σ cand with
  | none => simp
  | some conds =>
    dsimp only
    simp only [bind_eq_ok, pure_eq_ok]
    constructor
    · rintro ⟨_, hcheck, hd⟩
      exact ⟨⟨(), rfl, hd⟩, hcheck⟩
    · rintro ⟨⟨_, -, hd⟩, hcheck⟩
      exact ⟨(), hcheck, hd⟩

/-- The check of the packages of some names. -/
theorem forM_checkTrust {trust : Option EntryTrust} {names : List Str} :
    (names.forM fun name => match picked σ solution name with
      | some c => checkTrust σ trust c
      | none => .ok ()) = .ok () ↔
    ∀ name ∈ names, ∀ cand, picked σ solution name = some cand → checkTrust σ trust cand = .ok () := by
  rw [forM_eq_ok]
  refine forall₂_congr fun name _ => ?_
  cases picked σ solution name <;> simp

/-- The graph is built if it is built without the check, and all packages pass. -/
theorem buildGraph_eq_ok_iff {aliases : BTreeMap Str (List Str)} :
    buildGraph σ solution (some check) aliases = .ok graph ↔
      buildGraph σ solution none aliases = .ok graph ∧ Checked σ solution check := by
  have hperm := Topo.order_perm (requiresOf σ solution)
    (nodup_solvedNames.filter fun name => ((aliasesMap aliases).get? name).isNone : (((solvedNames σ solution).filter _).Nodup))
  unfold buildGraph
  dsimp only
  simp only [bind_eq_ok, mapM_eq_ok_and fun cand d => buildNode_eq_ok_iff]
  constructor
  · rintro ⟨_, hfolded, hgraph, hchosen⟩
    refine ⟨⟨(), forM_checkTrust.mpr fun _ _ _ _ => rfl, hgraph⟩, fun name hname cand hcand => checkTrust_eq_ok.mp ?_⟩
    cases hfold : (aliasesMap aliases).get? name with
    | some canonical => exact forM_checkTrust.mp hfolded name (List.mem_filter.mpr ⟨hname, by simp [hfold]⟩) cand hcand
    | none =>
      have hmem := hperm.mem_iff.mpr (List.mem_filter.mpr ⟨hname, by simp [hfold]⟩)
      exact hchosen cand (List.mem_filterMap.mpr ⟨name, hmem, hcand⟩)
  · rintro ⟨⟨_, -, hgraph⟩, hchecked⟩
    refine ⟨(), forM_checkTrust.mpr fun name hname cand hcand => ?_, hgraph, fun cand hcand => ?_⟩
    · exact checkTrust_eq_ok.mpr (hchecked name (List.mem_filter.mp hname).1 cand hcand)
    · obtain ⟨name, hname, hcand⟩ := List.mem_filterMap.mp hcand
      exact checkTrust_eq_ok.mpr (hchecked name (List.mem_filter.mp (hperm.mem_iff.mp hname)).1 cand hcand)

/-- `finalize` changes nothing that a check looks at, if it does not look at requirements. -/
theorem checked_finalize (hblind : ∀ aliases c key, check (redirect aliases c) key = check c key) :
    Checked (finalize σ solution).1 solution check ↔ Checked σ solution check := by
  have hkey (name : Str) : (finalize σ solution).1.depkeyForSolvedName name = σ.depkeyForSolvedName name := by
    rw [finalize_rest.rest]
    rfl
  unfold Checked
  rw [solvedNames_finalize]
  refine forall₂_congr fun name _ => ?_
  rw [picked_finalize]
  split_ifs
  · cases picked σ solution name with
    | none => simp
    | some cand =>
      simp only [Option.map_some, Option.some.injEq, forall_eq', hkey, redirected, hblind]
      rfl
  · simp only [hkey]

/-- **The graph of a solution is what it is without the check, if all packages pass.** -/
theorem graphOf_eq_ok_iff (hblind : ∀ aliases c key, check (redirect aliases c) key = check c key) :
    graphOf σ solution (some check) = .ok graph ↔ graphOf σ solution none = .ok graph ∧ Checked σ solution check := by
  unfold graphOf
  dsimp only
  rw [buildGraph_eq_ok_iff, checked_finalize hblind]

/-! ### What was published -/

/-- A package of the solution that comes from the registry, and what it was chosen from: an entry of a package of the index. -/
structure Chosen (ctx : ResolveCtx) (σ : ResolveState) (solution : Solution) (name : Str) (cand : Candidate) (pkg : Package)
    (e : IndexVersion) : Prop where
  solved : name ∈ solvedNames σ solution
  picked : picked σ solution name = some cand
  registry : cand.isRegistry = true
  listed : Listed ctx name pkg
  entry : ∃ v, solution.get? name = some v ∧ (tableOf ctx pkg).get? v = some e

/-- The identity that an entry was published with. -/
def publishedIdentity (pkg : Package) (e : IndexVersion) : PreEpochIdentity := ⟨e.namespace, pkg.name, e.version, e.contentHash⟩

/-- A candidate is shown as what it was made of was published: under the name of its package, and with the version as it prints. -/
structure ShownAsPublished (σ : ResolveState) (cand : Candidate) (pkg : Package) (e : IndexVersion) : Prop where
  name : (σ.depkeyForSolvedName cand.name).name = pkg.name
  version : cand.version.display = e.version

theorem exists_entry (hfrom : FromIndex ctx σ) (hfiled : Filed σ) (hmade : EveryCandidate RegistryMade σ)
    (hpicked : picked σ solution name = some cand) (hregistry : cand.isRegistry = true) :
    ∃ pkg e v, Listed ctx name pkg ∧ solution.get? name = some v ∧ (tableOf ctx pkg).get? v = some e ∧ MadeOf cand e := by
  obtain ⟨v, hv, hcand⟩ := Option.bind_eq_some_iff.mp hpicked
  have hkey : RegistryKey name := picked_name hfiled hpicked ▸ (hmade name v cand hcand hregistry).1
  have hshape : shapeOf σ name v = some (withoutTerms cand) := by
    rw [shapeOf, hcand]
    rfl
  obtain ⟨pkg, e, hlisted, he, hfrom⟩ := hfrom.candidates name v _ hkey hshape
  exact ⟨pkg, e, v, hlisted, hv, he, madeOf_withoutTerms.mp hfrom⟩

/-- A candidate was made of the entry that it was chosen from. -/
theorem Chosen.madeOf (h : Chosen ctx σ solution name cand pkg e) (hfrom : FromIndex ctx σ) (hfiled : Filed σ)
    (hmade : EveryCandidate RegistryMade σ) : MadeOf cand e := by
  obtain ⟨pkg', e', v', hlisted, hv', he', hcand⟩ := exists_entry hfrom hfiled hmade h.picked h.registry
  obtain ⟨v, hv, he⟩ := h.entry
  obtain rfl := h.listed.unique hlisted
  obtain rfl := Option.some.inj (hv.symm.trans hv')
  obtain rfl := Option.some.inj (he.symm.trans he')
  exact hcand

/-- The gate is given the identity that was published if the candidate is shown so. -/
theorem gateIdentity_eq_iff (hcand : MadeOf cand e) :
    gateIdentity cand (σ.depkeyForSolvedName cand.name) = publishedIdentity pkg e ↔ ShownAsPublished σ cand pkg e := by
  rw [gateIdentity, publishedIdentity, PreEpochIdentity.mk.injEq]
  exact ⟨fun ⟨_, hname, hversion, _⟩ => ⟨hname, hversion⟩,
    fun h => ⟨hcand.namespace, h.name, h.version, hcand.identity⟩⟩

/-! ### The claim -/

/-- The gate decides about a package what the mandate asks of what was published, whatever is armed and trusted. -/
def GateExact (raise : EntryTrustError → ResError) (σ : ResolveState) (cand : Candidate) (pkg : Package) (e : IndexVersion) : Prop :=
  ∀ cfg S E, StrictTrust cfg →
    (entryTrustOf raise cfg (.armed S E) cand (σ.depkeyForSolvedName cand.name) = .ok () ↔
      Mandate cfg S e.attestation (publishedIdentity pkg e))

/-- With the gate, the graph of a solution is the one without it exactly if the mandate holds of all packages of the registry. -/
def ResolveExact (raise : EntryTrustError → ResError) (ctx : ResolveCtx) (σ : ResolveState) (solution : Solution) : Prop :=
  ∀ cfg S E graph, StrictTrust cfg →
    (graphOf σ solution (some (entryTrustOf raise cfg (.armed S E))) = .ok graph ↔
      graphOf σ solution none = .ok graph ∧
        ∀ name cand pkg e, Chosen ctx σ solution name cand pkg e → Mandate cfg S e.attestation (publishedIdentity pkg e))

theorem entryTrustOf_eq_ok {cfg : EntryTrustConfig} {S : List PreEpochIdentity} {E : ℤ} (hstrict : StrictTrust cfg)
    (hscheme : ':' ∈ cand.identity) (key : DepKey) :
    entryTrustOf raise cfg (.armed S E) cand key = .ok () ↔ Mandate cfg S cand.attestation (gateIdentity cand key) :=
  mapError_eq_ok.trans (entryGate_eq_ok_iff hstrict hscheme)

/-- A strict policy without a store of bundles: what is not grandfathered is refused. -/
def noBundles : EntryTrustConfig where
  policy := .strict
  trustBundle := ⟨[], []⟩
  expectedVendorSigner := []
  verifier _ _ _ _ := .bundleMalformed
  bundleStore := none
  breakGlass := false

theorem strictTrust_noBundles : StrictTrust noBundles := ⟨rfl, rfl⟩

theorem mandate_noBundles {S : List PreEpochIdentity} {attestation : Option EntryAttestation} {id : PreEpochIdentity} :
    Mandate noBundles S attestation id ↔ id ∈ S := by
  have hnone : ∀ pin bytes, ¬ FindsBundle noBundles attestation pin bytes := by
    rintro pin bytes ⟨att, -, -, store, hstore, -⟩
    cases hstore
  exact mandate_of_no_bundle hnone

/-- The gate is exact for the candidates that are shown as they were published, and for no others. -/
theorem gateExact_iff (hcand : MadeOf cand e) (hscheme : ':' ∈ cand.identity) :
    GateExact raise σ cand pkg e ↔ ShownAsPublished σ cand pkg e := by
  rw [← gateIdentity_eq_iff hcand]
  constructor
  · intro h
    have hgate := (h noBundles [publishedIdentity pkg e] 0 strictTrust_noBundles).mpr (mandate_noBundles.mpr (List.mem_singleton_self _))
    exact List.mem_singleton.mp (mandate_noBundles.mp ((entryTrustOf_eq_ok strictTrust_noBundles hscheme _).mp hgate))
  · intro h cfg S E hstrict
    rw [entryTrustOf_eq_ok hstrict hscheme, h, hcand.attestation]

/-- **In every state of a run, the gate decides what the mandate asks of what was published about the packages that are shown as
they were published, and about no others; where all packages of a solution are, the resolve succeeds exactly if the mandate holds
of them all.** -/
theorem mandate_exact (haddressed : Addressed ctx) (hreach : Reachable ctx c) (raise : EntryTrustError → ResError)
    (solution : Solution) :
    (∀ name ∈ solvedNames c.state solution, ∀ cand, picked c.state solution name = some cand → cand.isRegistry = true →
        ∃ pkg e, Chosen ctx c.state solution name cand pkg e) ∧
      (∀ name cand pkg e, Chosen ctx c.state solution name cand pkg e →
        (GateExact raise c.state cand pkg e ↔ ShownAsPublished c.state cand pkg e)) ∧
      ((∀ name cand pkg e, Chosen ctx c.state solution name cand pkg e → ShownAsPublished c.state cand pkg e) →
        ResolveExact raise ctx c.state solution) := by
  have hfrom := (tabled_of_reachable hreach).fromIndex
  have hfiled := filed_of_reachable hreach
  have hmade := registryMade_of_reachable haddressed hreach
  have hexists : ∀ name ∈ solvedNames c.state solution, ∀ cand, picked c.state solution name = some cand → cand.isRegistry = true →
      ∃ pkg e, Chosen ctx c.state solution name cand pkg e := by
    intro name hname cand hpicked hregistry
    obtain ⟨pkg, e, v, hlisted, hv, he, -⟩ := exists_entry hfrom hfiled hmade hpicked hregistry
    exact ⟨pkg, e, hname, hpicked, hregistry, hlisted, v, hv, he⟩
  have hgate : ∀ name cand pkg e, Chosen ctx c.state solution name cand pkg e →
      (GateExact raise c.state cand pkg e ↔ ShownAsPublished c.state cand pkg e) := by
    intro name cand pkg e h
    obtain ⟨v, -, hcand⟩ := Option.bind_eq_some_iff.mp h.picked
    exact gateExact_iff (h.madeOf hfrom hfiled hmade) (hmade name v cand hcand h.registry).2
  refine ⟨hexists, hgate, fun hshown cfg S E graph hstrict => ?_⟩
  rw [graphOf_eq_ok_iff fun _ _ _ => rfl]
  refine and_congr_right fun _ => ⟨fun hchecked name cand pkg e h => ?_, fun hmandate name hname cand hpicked hregistry => ?_⟩
  · exact ((hgate name cand pkg e h).mpr (hshown name cand pkg e h) cfg S E hstrict).mp
      (hchecked name h.solved cand h.picked h.registry)
  · obtain ⟨pkg, e, h⟩ := hexists name hname cand hpicked hregistry
    exact ((hgate name cand pkg e h).mpr (hshown name cand pkg e h) cfg S E hstrict).mpr (hmandate name cand pkg e h)

/-! ### One package -/

/-- An index with one entry, and its tree. -/
def publishedWorld (version : Str) : ResolveCtx :=
  { libWorld [entryOf version "sha256:l"] with fetch := fetchFrom [("https://h/lib", treeOf "sha256:l" Manifest.initial)] }

/-- The resolve of a root that depends on it. -/
def publishedCtx (version : Str) : ResolveCtx := packageCtx (publishedWorld version) libUser (treeOf [] libUser)

/-- The solution. -/
def publishedSolution : Solution := BTreeMap.empty.insert "pkg+tianguis/lib" (.release 1 0 0)

/-- The resolve comes to a state with a graph that are looked for. -/
def publishedComes (version : Str) (good : ResolveState → List ResolvedDep → Bool) : Bool :=
  comesTo (fun _ => true) (publishedWorld version) libUser 6 fun c =>
    match queried (publishedCtx version) c "pkg+tianguis/lib" (.release 1 0 0) with
    | some c =>
      match graphOf c.state publishedSolution none with
      | .ok graph => good c.state graph
      | .error _ => false
    | none => false

theorem reachable_of_publishedComes {version : Str} {good : ResolveState → List ResolvedDep → Bool} (h : publishedComes version good = true) :
    ∃ c graph, Reachable (publishedCtx version) c ∧ graphOf c.state publishedSolution none = .ok graph ∧ good c.state graph = true := by
  obtain ⟨c₀, c, hstart, hrun, hgood⟩ := run_of_comesTo h
  split at hgood
  · rename_i c' hquery
    split at hgood
    · rename_i graph hgraph
      exact ⟨c', graph, ⟨c₀, hstart, hrun.tail (step_of_queried hquery)⟩, hgraph, hgood⟩
    · cases hgood
  · cases hgood

theorem addressed_publishedCtx (version : Str) : Addressed (publishedCtx version) := by
  intro name transport tree receipt h
  change fetchFrom _ name transport = _ at h
  unfold fetchFrom at h
  split at h
  · rename_i place found hfind
    obtain ⟨rfl, -⟩ := Prod.mk.inj (Except.ok.inj h)
    obtain ⟨-, rfl⟩ := Prod.mk.inj (List.mem_singleton.mp (List.mem_of_find?_eq_some hfind))
    decide
  · cases h

/-- The entry is the only one that a package can be chosen from. -/
theorem Chosen.of_publishedCtx {version : Str} (h : Chosen (publishedCtx version) σ solution name cand pkg e) :
    pkg = ⟨"lib", [], [entryOf version "sha256:l"]⟩ ∧ e = entryOf version "sha256:l" := by
  obtain ⟨name', vs, ns, -, -, hpkg⟩ := h.listed
  obtain ⟨v, -, he⟩ := h.entry
  have hmem : pkg ∈ (publishedCtx version).index.packages := mem_of_packageNamed hpkg
  obtain rfl := List.mem_singleton.mp hmem
  obtain ⟨⟨v', e'⟩, hget, rfl⟩ := Option.map_eq_some_iff.mp he
  exact ⟨rfl, List.mem_singleton.mp (List.mem_filter.mp (of_get?_tableOf hget).2.1).1⟩

/-- A package that was published as it is shown. -/
theorem mandate_exact_entry :
    ∃ c graph, Reachable (publishedCtx "1.0.0") c ∧ graphOf c.state publishedSolution none = .ok graph ∧ graph.length = 1 ∧
      ResolveExact (fun _ => .assertion) (publishedCtx "1.0.0") c.state publishedSolution := by
  have hcomes : publishedComes "1.0.0" (fun σ graph => decide (graph.length = 1) &&
      ((solvedNames σ publishedSolution).filterMap (picked σ publishedSolution)).all fun cand =>
        decide ((σ.depkeyForSolvedName cand.name).name = "lib".toList) && decide (cand.version.display = "1.0.0".toList)) = true := by
    decide
  obtain ⟨c, graph, hreach, hgraph, hgood⟩ := reachable_of_publishedComes hcomes
  obtain ⟨hlength, hshown⟩ := (Bool.and_eq_true _ _).mp hgood
  obtain ⟨-, -, hexact⟩ := mandate_exact (addressed_publishedCtx "1.0.0") hreach (fun _ => .assertion) publishedSolution
  refine ⟨c, graph, hreach, hgraph, of_decide_eq_true hlength, hexact fun name cand pkg e h => ?_⟩
  obtain ⟨rfl, rfl⟩ := h.of_publishedCtx
  obtain ⟨hname, hversion⟩ := (Bool.and_eq_true _ _).mp
    (List.all_eq_true.mp hshown cand (List.mem_filterMap.mpr ⟨name, h.solved, h.picked⟩))
  exact ⟨of_decide_eq_true hname, of_decide_eq_true hversion⟩

/-- A package that was published as "v1.0.0", and is grandfathered as such, is refused. -/
theorem grandfathered_refused :
    ¬ ∀ ctx c, Addressed ctx → Reachable ctx c → ∀ raise solution, ResolveExact raise ctx c.state solution := by
  intro h
  let published : PreEpochIdentity := ⟨[], "lib", "v1.0.0", "sha256:l"⟩
  have hcomes : publishedComes "v1.0.0" (fun σ _ =>
      (graphOf σ publishedSolution (some (entryTrustOf (fun _ => .assertion) noBundles (.armed [published] 0)))).toOption.isNone) = true := by
    decide
  obtain ⟨c, graph, hreach, hgraph, hgood⟩ := reachable_of_publishedComes hcomes
  have hexact := h _ c (addressed_publishedCtx "v1.0.0") hreach (fun _ => .assertion) publishedSolution noBundles [published] 0 graph
    strictTrust_noBundles
  have hgate := hexact.mpr ⟨hgraph, fun name cand pkg e h => by
    obtain ⟨rfl, rfl⟩ := h.of_publishedCtx
    exact mandate_noBundles.mpr (List.mem_singleton_self _)⟩
  rw [hgate] at hgood
  cases hgood

end Milpa.Core.Resolver

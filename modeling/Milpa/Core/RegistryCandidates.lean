import Milpa.Core.RootAuthority
import Milpa.Core.StubTable

/-!
# The candidates of the registry

A candidate that says it comes from the registry is one that a query has made of a stub, under
the key of a package of the index; so its identity is that of a tree that was fetched. The
candidates that a resolve starts with, and those that are fetched without the index, do not
say so.
-/

namespace Milpa.Core.Resolver

open Solver Result

variable {ctx : ResolveCtx} {r : BindingResolver} {σ σ' : ResolveState} {acc acc' : Seeding} {c c' : Config} {P : Candidate → Prop}

/-! ### The seeds -/

theorem candidates_recordDiscovery (σ : ResolveState) (key : Str) : (σ.recordDiscovery key).candidates = σ.candidates := by
  unfold ResolveState.recordDiscovery
  split_ifs <;> rfl

theorem candidates_seed (acc : Seeding) (svar : SolverKey) (vs : VersionSet) (origin : ItemOrigin) (item : Item) :
    (acc.seed svar vs origin item).state.candidates = acc.state.candidates := candidates_recordDiscovery _ _

theorem candidates_requestUnlessNone (acc : Seeding) (svar : Str) (requests : List FlagRequest → List FlagRequest) (none : Bool) :
    (if none then acc else acc.requestFlags svar requests).state.candidates = acc.state.candidates := by
  cases none <;> rfl

theorem candidates_seedOverride {svar : SolverKey} {name : Str} {ov : Override} (h : seedOverride acc svar name ov = some acc') :
    acc'.state.candidates = acc.state.candidates := by
  unfold seedOverride at h
  split at h
  all_goals first
    | obtain ⟨item, -, rfl⟩ := Option.map_eq_some_iff.mp h
      exact candidates_seed _ _ _ _ _
    | cases h

/-- A declaration of the root adds no candidate. -/
theorem candidates_seedRootDep {dep : Dep} (h : seedRootDep ctx acc dep = .ok acc') : acc'.state.candidates = acc.state.candidates := by
  cases dep with
  | tarball t =>
    obtain ⟨svar, -, h⟩ := bind_eq_ok.mp h
    obtain rfl := pure_eq_ok.mp h
    exact candidates_seed _ _ _ _ _
  | «local» l =>
    obtain ⟨svar, -, h⟩ := bind_eq_ok.mp h
    obtain rfl := pure_eq_ok.mp h
    exact candidates_seed _ _ _ _ _
  | url u =>
    obtain ⟨svar, -, h⟩ := bind_eq_ok.mp h
    split at h
    · rename_i found hfound
      obtain rfl := pure_eq_ok.mp h
      obtain ⟨ov, -, hov⟩ := Option.bind_eq_some_iff.mp hfound
      exact candidates_seedOverride hov
    · obtain rfl := pure_eq_ok.mp h
      exact candidates_seed _ _ _ _ _
  | named n =>
    obtain ⟨svar, -, h⟩ := bind_eq_ok.mp h
    have hrequests := candidates_requestUnlessNone acc svar.identity (fun _ => n.flagRequests) n.flagRequests.isEmpty
    dsimp only at h
    split at h
    · obtain rfl := pure_eq_ok.mp h
      exact (candidates_seed _ _ _ _ _).trans hrequests
    · split at h
      · rename_i found hfound
        obtain rfl := pure_eq_ok.mp h
        exact (candidates_seedOverride hfound).trans hrequests
      · obtain rfl := pure_eq_ok.mp h
        exact (candidates_seed _ _ _ _ _).trans hrequests
  | member md => cases h

/-- Nor does one of a member. -/
theorem candidates_seedMemberDep {workspace : LoadedWorkspace} {view : MemberView} {dep : Dep}
    (h : seedMemberDep ctx workspace view acc dep = .ok acc') : acc'.state.candidates = acc.state.candidates := by
  unfold seedMemberDep at h
  split_ifs at h
  · obtain ⟨-, -, h⟩ := bind_eq_ok.mp h
    obtain ⟨svar, -, h⟩ := bind_eq_ok.mp h
    obtain rfl := pure_eq_ok.mp h
    rfl
  · split at h
    · obtain ⟨svar, -, h⟩ := bind_eq_ok.mp h
      split at h
      · rename_i found hfound
        obtain rfl := pure_eq_ok.mp h
        exact candidates_seedOverride hfound
      · split_ifs at h
        · obtain rfl := pure_eq_ok.mp h
          rfl
        · obtain rfl := pure_eq_ok.mp h
          rfl
    · cases dep with
      | url u =>
        obtain ⟨svar, -, h⟩ := bind_eq_ok.mp h
        obtain rfl := pure_eq_ok.mp h
        exact candidates_seed _ _ _ _ _
      | «local» l =>
        obtain ⟨svar, -, h⟩ := bind_eq_ok.mp h
        obtain rfl := pure_eq_ok.mp h
        exact candidates_seed _ _ _ _ _
      | tarball t =>
        obtain ⟨svar, -, h⟩ := bind_eq_ok.mp h
        obtain rfl := pure_eq_ok.mp h
        exact candidates_seed _ _ _ _ _
      | named n =>
        obtain ⟨svar, -, h⟩ := bind_eq_ok.mp h
        obtain rfl := pure_eq_ok.mp h
        exact (candidates_seed _ _ _ _ _).trans
          (candidates_requestUnlessNone acc svar.identity (fun old => old ++ n.flagRequests) n.flagRequests.isEmpty)
      | member md =>
        obtain rfl := pure_eq_ok.mp h
        rfl

/-- Nor do the flags of one. -/
theorem candidates_seedMemberFlags {member : LoadedMember} (h : seedMemberFlags σ member = .ok σ') : σ'.candidates = σ.candidates := by
  unfold seedMemberFlags at h
  dsimp only at h
  split_ifs at h
  · cases h
    rfl
  · obtain ⟨svar, -, h⟩ := bind_eq_ok.mp h
    split_ifs at h
    · obtain rfl := pure_eq_ok.mp h
      rfl
    · obtain rfl := pure_eq_ok.mp h
      rfl

/-- What a candidate that is seeded records: that it is the root or a member, or nothing. -/
def SeededRecord (identity : Str) (provenance : Option ProvenanceRecord) : Prop :=
  (∃ name, provenance = some (.root name "observed")) ∨ (∃ name, provenance = some (.member name "observed")) ∨
    provenance = none ∧ identity = []

section

variable (hseeded : ∀ name version identity srcDir requires deps provenance source, SeededRecord identity provenance →
  P (seededCandidate name version identity srcDir requires deps provenance source))

include hseeded

theorem everyCandidate_seedRootSelf {manifest : Manifest} {tree : PackageTree} (hevery : EveryCandidate P σ)
    (h : seedRootSelf manifest tree σ = .ok σ') : EveryCandidate P σ' := by
  unfold seedRootSelf at h
  split at h
  · cases h
    exact hevery
  · obtain ⟨svar, -, h⟩ := bind_eq_ok.mp h
    obtain rfl := pure_eq_ok.mp h
    exact hevery.storeCandidate (hseeded _ _ _ _ _ _ _ _ (.inl ⟨_, rfl⟩))

theorem everyCandidate_seedMember {workspace : LoadedWorkspace} {view : MemberView} {member : LoadedMember}
    (hevery : EveryCandidate P acc.state) (h : seedMember ctx workspace view acc member = .ok acc') : EveryCandidate P acc'.state := by
  obtain ⟨own, hown, h⟩ := bind_eq_ok.mp h
  obtain ⟨svar, -, h⟩ := bind_eq_ok.mp h
  obtain rfl := pure_eq_ok.mp h
  refine EveryCandidate.storeCandidate ?_ (hseeded _ _ _ _ _ _ _ _ (.inr (.inl ⟨_, rfl⟩)))
  exact foldlM_invariant (P := fun acc : Seeding => EveryCandidate P acc.state) hown hevery
    fun _ _ _ hevery hdep => hevery.congr (candidates_seedMemberDep hdep)

/-- **What holds of the candidates that are seeded holds of all candidates at the start.** -/
theorem everyCandidate_starts (h : Starts ctx c) : EveryCandidate P c.state := by
  have hnew (r : BindingResolver) : EveryCandidate P (.new r) := fun package v cand h => by
    have hnone : ((ResolveState.new r).candidatesOf package).get? v = none := rfl
    rw [hnone] at h
    cases h
  cases h with
  | @package env manifest tree _ hstart =>
    obtain ⟨r, -, hstart⟩ := bind_eq_ok.mp hstart
    obtain ⟨⟨σ, queue⟩, hseed, hstart⟩ := bind_eq_ok.mp hstart
    obtain rfl := pure_eq_ok.mp hstart
    obtain ⟨acc, hacc, hseed⟩ := bind_eq_ok.mp hseed
    obtain ⟨σ₁, hself, hseed⟩ := bind_eq_ok.mp hseed
    have hseed := pure_eq_ok.mp hseed
    simp only [Prod.mk.injEq] at hseed
    obtain ⟨rfl, rfl⟩ := hseed
    have hdeps : EveryCandidate P acc.state :=
      foldlM_invariant (P := fun acc : Seeding => EveryCandidate P acc.state) hacc (hnew r)
        fun _ _ _ hevery hdep => hevery.congr (candidates_seedRootDep hdep)
    exact (everyCandidate_seedRootSelf hseeded hdeps hself).storeCandidate (hseeded _ _ _ _ _ _ _ _ (.inr (.inr ⟨rfl, rfl⟩)))
  | @workspace env workspace view _ hstart =>
    obtain ⟨r, -, hstart⟩ := bind_eq_ok.mp hstart
    obtain ⟨⟨σ, queue⟩, hseed, hstart⟩ := bind_eq_ok.mp hstart
    obtain rfl := pure_eq_ok.mp hstart
    obtain ⟨acc, hacc, hseed⟩ := bind_eq_ok.mp hseed
    obtain ⟨σ₁, hflags, hseed⟩ := bind_eq_ok.mp hseed
    obtain ⟨σ₂, hmembers, hseed⟩ := bind_eq_ok.mp hseed
    have hseed := pure_eq_ok.mp hseed
    simp only [Prod.mk.injEq] at hseed
    obtain ⟨rfl, rfl⟩ := hseed
    have hseeds : EveryCandidate P acc.state :=
      foldlM_invariant (P := fun acc : Seeding => EveryCandidate P acc.state) hacc (hnew r)
        fun _ _ _ hevery hmember => everyCandidate_seedMember hseeded hevery hmember
    have hrequests : EveryCandidate P σ₁ :=
      foldlM_invariant (P := EveryCandidate P) hflags hseeds fun _ _ _ hevery hcpe => by
        obtain ⟨svar, -, hcpe⟩ := bind_eq_ok.mp hcpe
        obtain rfl := pure_eq_ok.mp hcpe
        exact hevery.congr rfl
    have hall : EveryCandidate P σ₂ :=
      foldlM_invariant (P := EveryCandidate P) hmembers hrequests fun _ _ _ hevery hmember =>
        hevery.congr (candidates_seedMemberFlags hmember)
    exact hall.storeCandidate (hseeded _ _ _ _ _ _ _ _ (.inr (.inr ⟨rfl, rfl⟩)))

end

/-! ### What is fetched -/

/-- Every tree that is fetched has an identity with a scheme. -/
def Addressed (ctx : ResolveCtx) : Prop :=
  ∀ name transport tree receipt, ctx.fetch name transport = .ok (tree, receipt) → ':' ∈ tree.contentHash

/-- The content hash of an entry that is materialized is that of a tree. -/
theorem scheme_of_materializeNamed (haddressed : Addressed ctx) {name : Str} {version : Version} {entry : IndexVersion} {items : List Item}
    (h : materializeNamed ctx σ name version entry = .ok (σ', items)) : ':' ∈ entry.contentHash := by
  obtain ⟨-, -, h⟩ := bind_eq_ok.mp h
  obtain ⟨⟨tree, receipt, idx⟩, hfetch, -⟩ := bind_eq_ok.mp h
  obtain ⟨i, prov, -, -, hfetched⟩ := fetch_of_fetchAnyTracked hfetch
  rw [← contentHash_of_fetchAnyTracked hfetch]
  exact haddressed _ _ _ _ hfetched

/-- A candidate that says it comes from the registry has the key of a package of the index and an identity with a scheme. -/
def RegistryMade (cand : Candidate) : Prop := cand.isRegistry = true → RegistryKey cand.name ∧ ':' ∈ cand.identity

theorem keptByFetches_registryMade : KeptByFetches ctx r RegistryMade where
  fetched _ _ _ _ _ _ := nofun
  extended cand d k vs _ h := by
    unfold ResolveState.extendTerms
    split_ifs <;> exact h

theorem registryMade_step (haddressed : Addressed ctx) (htables : FromIndex ctx c.state) (h : EveryCandidate RegistryMade c.state)
    (hstep : Step ctx c c') : EveryCandidate RegistryMade c'.state := by
  cases hstep with
  | gate htasks hgate => exact h.congr (candidates_gateOnly hgate)
  | suppress htasks hgate => exact h.congr (candidates_gateOnly hgate)
  | admitted htasks => exact h
  | dispatch htasks hwork => exact h.dispatch keptByFetches_registryMade hwork
  | startFixpoint htasks hphase => exact h
  | round htasks hphase hiters hround hchange => exact h.grown keptByFetches_registryMade (grown_fixpointRound hround)
  | startSolve htasks hphase hiters hround hchange hconflicts => exact h
  | query htasks hphase hquery =>
    refine h.query hquery fun entry tree ex hentry hmade hhash _ _ => ⟨?_, ?_⟩
    · obtain ⟨x, hx, -⟩ := Option.map_eq_some_iff.mp hentry
      obtain ⟨pkg, hlisted, -⟩ := htables.stubs _ _ x hx
      exact hlisted.registryKey
    · show ':' ∈ tree.contentHash
      rw [hhash]
      exact scheme_of_materializeNamed haddressed hmade

theorem tabled_of_reachable (h : Reachable ctx c) : Tabled ctx c := by
  obtain ⟨c₀, hstart, hrun⟩ := h
  obtain ⟨r, σ, queue, hr, rfl, huntouched, -⟩ := starts_cases hstart
  exact hrun.invariant (tabled_start hr huntouched) fun _ _ h hstep => h.step hstep

/-- **The candidates of a run that say they come from the registry were made of entries of the index.** -/
theorem registryMade_of_reachable (haddressed : Addressed ctx) (h : Reachable ctx c) : EveryCandidate RegistryMade c.state := by
  obtain ⟨c₀, hstart, hrun⟩ := h
  have hkept : ∀ c c', Tabled ctx c ∧ EveryCandidate RegistryMade c.state → Step ctx c c' →
      Tabled ctx c' ∧ EveryCandidate RegistryMade c'.state := fun _ _ h hstep =>
    ⟨h.1.step hstep, registryMade_step haddressed h.1.fromIndex h.2 hstep⟩
  have hseeded : EveryCandidate RegistryMade c₀.state := everyCandidate_starts (fun _ _ _ _ _ _ _ _ _ => nofun) hstart
  have hboth : Tabled ctx c ∧ EveryCandidate RegistryMade c.state :=
    Run.invariant hrun ⟨tabled_of_reachable ⟨c₀, hstart, .refl⟩, hseeded⟩ hkept
  exact hboth.2

end Milpa.Core.Resolver

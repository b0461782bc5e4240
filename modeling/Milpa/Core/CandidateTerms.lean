import Milpa.Core.RunInvariants

/-!
# The terms of candidates

A candidate gets its terms when it is stored, and more of them when flags admit more of its
manifest. What holds of a candidate under both holds of every candidate that a run comes
to (`EveryCandidate.step`); so a candidate requires the packages that its terms are about,
and no others (`Balanced`).
-/

namespace Milpa.Core.Resolver

open Solver Result

variable {ctx : ResolveCtx} {r : BindingResolver} {σ σ' τ : ResolveState} {items : List Item} {c c' : Config} {package : Str}
  {P : Candidate → Prop}

/-! ### More terms -/

/-- The terms that a candidate gets late are about dependencies that flags admit late. -/
def MoreTerms (ctx : ResolveCtx) (r : BindingResolver) : Candidate → Candidate → Prop :=
  Relation.ReflTransGen fun cand cand' => ∃ d k vs, ctx.lateKey r d = .ok k ∧ cand' = ResolveState.extendTerms cand k vs

/-- The candidates are those that there were, some with more terms. -/
def Grown (ctx : ResolveCtx) (r : BindingResolver) (σ σ' : ResolveState) : Prop :=
  ∀ package v cand', (σ'.candidatesOf package).get? v = some cand' →
    ∃ cand, (σ.candidatesOf package).get? v = some cand ∧ MoreTerms ctx r cand cand'

theorem Grown.refl (σ : ResolveState) : Grown ctx r σ σ := fun _ _ cand hcand => ⟨cand, hcand, .refl⟩

theorem Grown.trans (h : Grown ctx r σ σ') (h' : Grown ctx r σ' τ) : Grown ctx r σ τ := by
  intro package v cand hcand
  obtain ⟨cand₁, hcand₁, hmore⟩ := h' package v cand hcand
  obtain ⟨cand₀, hcand₀, hmore₀⟩ := h package v cand₁ hcand₁
  exact ⟨cand₀, hcand₀, hmore₀.trans hmore⟩

theorem grown_congr (h : σ'.candidates = σ.candidates) : Grown ctx r σ σ' := by
  intro package v cand hcand
  rw [candidatesOf_congr h] at hcand
  exact ⟨cand, hcand, .refl⟩

/-- What `extendFirst` can do to a candidate: nothing, or it is the first one and gets a term. -/
theorem get?_extendFirst {k : SolverKey} {vs : VersionSet} {p : Str} {v : Version} {cand' : Candidate}
    (h : ((σ.extendFirst package k vs).candidatesOf p).get? v = some cand') :
    ∃ cand, (σ.candidatesOf p).get? v = some cand ∧
      (cand' = cand ∨ p = package ∧ σ.firstCandidate package = some cand ∧ cand' = ResolveState.extendTerms cand k vs) := by
  unfold ResolveState.extendFirst at h
  split at h
  · exact ⟨cand', h, Or.inl rfl⟩
  · rename_i key w cand hhead
    rw [candidatesOf_insert] at h
    split_ifs at h with hp
    · subst hp
      rw [VersionMap.get?, VersionMap.entry, BTreeMap.get?_insert] at h
      split_ifs at h with hkey
      · cases h
        refine ⟨cand, ?_, Or.inr ⟨rfl, ?_, rfl⟩⟩
        · rw [VersionMap.get?, VersionMap.entry, hkey, BTreeMap.mem_entries.mp (List.mem_of_mem_head? hhead)]
          rfl
        · rw [ResolveState.firstCandidate, hhead]
          rfl
      · exact ⟨cand', h, Or.inl rfl⟩
    · exact ⟨cand', h, Or.inl rfl⟩

theorem grown_extendFirst {d : Dep} {k : SolverKey} (hk : ctx.lateKey r d = .ok k) (vs : VersionSet) :
    Grown ctx r σ (σ.extendFirst package k vs) := by
  intro p v cand' hcand'
  obtain ⟨cand, hcand, rfl | ⟨-, -, rfl⟩⟩ := get?_extendFirst hcand'
  · exact ⟨_, hcand, .refl⟩
  · exact ⟨cand, hcand, .single ⟨d, k, vs, hk, rfl⟩⟩

/-- The loop over the newly admitted dependencies gives the first candidate of the package one term after the other. -/
theorem admitNewly_invariant {Q : ResolveState → Prop} {manifest : Manifest} {old new : List Str}
    (h : ctx.admitNewly package manifest old new σ = .ok (σ', items)) (h₀ : Q σ)
    (hstep : ∀ τ d k, d ∈ newlyAdmitted manifest old new → ctx.lateKey σ.binding d = .ok k → Q τ →
      Q (τ.extendFirst package k (ctx.lateTerm d))) : Q σ' := by
  have hinv : Q σ' ∧ σ'.binding = σ.binding :=
    foldlM_invariant_of_mem (P := fun acc : ResolveState × List Item => Q acc.1 ∧ acc.1.binding = σ.binding) h ⟨h₀, rfl⟩
      fun acc d acc' hd hacc hadmit => by
        obtain ⟨k, hk, hadmit⟩ := bind_eq_ok.mp hadmit
        obtain rfl := pure_eq_ok.mp hadmit
        rw [hacc.2] at hk
        exact ⟨hstep acc.1 d k hd hk hacc.1, (termsAdded_extendFirst acc.1 package k _).binding.trans hacc.2⟩
  exact hinv.1

theorem grown_admitNewly {manifest : Manifest} {old new : List Str}
    (h : ctx.admitNewly package manifest old new σ = .ok (σ', items)) : Grown ctx σ.binding σ σ' :=
  admitNewly_invariant h (.refl σ) fun _ _ _ _ hk hgrown => hgrown.trans (grown_extendFirst hk _)

theorem grown_revisitUrl {dep : UrlDep} {svar : SolverKey} (h : revisitUrl ctx σ dep svar = .ok (σ', items)) :
    Grown ctx σ.binding σ σ' := by
  obtain ⟨rfl, -⟩ | ⟨manifest, -, -, -, ⟨rfl, -⟩ | hadmit⟩ := revisitUrl_steps h
  · exact .refl _
  · exact grown_congr rfl
  · have hgrown := grown_admitNewly hadmit
    exact Grown.trans (grown_congr rfl) hgrown

theorem grown_roundTarget {acc acc' : Round} {target : Str × List FlagRequest} (h : roundTarget ctx σ acc target = .ok acc') :
    Grown ctx acc.state.binding acc.state acc'.state := by
  unfold roundTarget at h
  cases hmanifest : depManifest σ target.1 with
  | none =>
    simp only [hmanifest, Except.ok.injEq] at h
    exact h ▸ .refl _
  | some manifest =>
    simp only [hmanifest] at h
    split_ifs at h
    · obtain rfl := Except.ok.inj h
      exact .refl _
    · obtain ⟨⟨σ₁, items⟩, hadmit, h⟩ := bind_eq_ok.mp h
      obtain rfl := pure_eq_ok.mp h
      have hgrown := grown_admitNewly hadmit
      exact Grown.trans (grown_congr rfl) hgrown

theorem grown_fixpointRound {activations : ℕ} {round : Round} (h : fixpointRound ctx σ activations = .ok round) :
    Grown ctx σ.binding σ round.state := by
  obtain ⟨requests, -, h⟩ := bind_eq_ok.mp h
  have hinv : Grown ctx σ.binding σ round.state ∧ round.state.binding = σ.binding :=
    foldlM_invariant (P := fun acc : Round => Grown ctx σ.binding σ acc.state ∧ acc.state.binding = σ.binding) h ⟨.refl σ, rfl⟩
      fun acc target acc' hacc htarget => by
        have hgrown := grown_roundTarget htarget
        rw [hacc.2] at hgrown
        exact ⟨hacc.1.trans hgrown, (roundTarget_cases htarget).1.binding.trans hacc.2⟩
  exact hinv.1

/-! ### What holds of every candidate -/

/-- A property of all candidates. -/
def EveryCandidate (P : Candidate → Prop) (σ : ResolveState) : Prop :=
  ∀ package v cand, (σ.candidatesOf package).get? v = some cand → P cand

/-- A property of candidates that the workers and the flags keep. -/
structure KeptBy (ctx : ResolveCtx) (r : BindingResolver) (P : Candidate → Prop) : Prop where
  fetched : ∀ svar identity ex provenance mirrors, ExtractedWith ctx r ex → P (fetchedCandidate svar identity ex provenance mirrors)
  materialized : ∀ name version entry tree ex, ExtractedWith ctx r ex → P (materializedCandidate name version entry tree ex)
  extended : ∀ cand d k vs, ctx.lateKey r d = .ok k → P cand → P (ResolveState.extendTerms cand k vs)

/-- A property of candidates that the workers keep where they fetch, and the flags. -/
structure KeptByFetches (ctx : ResolveCtx) (r : BindingResolver) (P : Candidate → Prop) : Prop where
  fetched : ∀ svar identity ex provenance mirrors, ExtractedWith ctx r ex → P (fetchedCandidate svar identity ex provenance mirrors)
  extended : ∀ cand d k vs, ctx.lateKey r d = .ok k → P cand → P (ResolveState.extendTerms cand k vs)

theorem KeptBy.fetches (h : KeptBy ctx r P) : KeptByFetches ctx r P := ⟨h.fetched, h.extended⟩

theorem EveryCandidate.congr (h : EveryCandidate P σ) (hcandidates : σ'.candidates = σ.candidates) : EveryCandidate P σ' := by
  intro package v cand hcand
  rw [candidatesOf_congr hcandidates] at hcand
  exact h package v cand hcand

theorem EveryCandidate.storeCandidate (h : EveryCandidate P σ) {cand : Candidate} (hcand : P cand) :
    EveryCandidate P (σ.storeCandidate cand) := by
  intro package v cand' hcand'
  rw [candidatesOf_storeCandidate] at hcand'
  split_ifs at hcand'
  · rw [VersionMap.get?_insert] at hcand'
    split_ifs at hcand'
    · exact Option.some.inj hcand' ▸ hcand
    · exact h _ v cand' hcand'
  · exact h package v cand' hcand'

theorem EveryCandidate.afterFetch (h : EveryCandidate P σ) (dir : Str) (tree : PackageTree) (cache : EdgeCache) {cand : Candidate}
    (hcand : P cand) : EveryCandidate P (afterFetch σ dir tree cache cand) := by
  refine EveryCandidate.storeCandidate ?_ hcand
  exact h.congr rfl

theorem EveryCandidate.seedFlagsOf (h : EveryCandidate P σ) (tree : PackageTree) (requests : List FlagRequest) :
    EveryCandidate P (seedFlagsOf tree requests σ) :=
  h.congr (candidates_seedFlagsOf tree requests σ)

theorem MoreTerms.keep {cand cand' : Candidate} (h : MoreTerms ctx r cand cand') (hkept : KeptByFetches ctx r P) (hcand : P cand) :
    P cand' := by
  induction h with
  | refl => exact hcand
  | tail _ hstep ih =>
    obtain ⟨d, k, vs, hk, rfl⟩ := hstep
    exact hkept.extended _ d k vs hk ih

theorem EveryCandidate.grown (h : EveryCandidate P σ) (hkept : KeptByFetches ctx r P) (hgrown : Grown ctx r σ σ') : EveryCandidate P σ' := by
  intro package v cand' hcand'
  obtain ⟨cand, hcand, hmore⟩ := hgrown package v cand' hcand'
  exact hmore.keep hkept (h package v cand hcand)

theorem EveryCandidate.dispatch (hevery : EveryCandidate P σ) (hkept : KeptByFetches ctx σ.binding P) {item : Item}
    (h : dispatch ctx σ item = .ok (σ', items)) : EveryCandidate P σ' := by
  cases item with
  | url dep =>
    obtain ⟨svar, -, ⟨-, h⟩ | ⟨-, h⟩⟩ := processUrl_cases h
    · exact hevery.grown hkept (grown_revisitUrl h)
    · obtain ⟨tree, ex, cache, record, mirrors, hex, rfl, -⟩ := visitUrl_cases h
      refine EveryCandidate.seedFlagsOf ?_ tree dep.flagRequests
      refine EveryCandidate.afterFetch ?_ _ _ _ (hkept.fetched _ _ _ _ _ hex)
      exact hevery.congr rfl
  | «local» dep =>
    obtain ⟨-, rfl, -⟩ | ⟨-, svar, tree, ex, cache, -, hex, rfl, -⟩ := processLocal_cases h
    · exact hevery
    · refine EveryCandidate.afterFetch ?_ _ _ _ (hkept.fetched _ _ _ _ _ hex)
      exact hevery.congr rfl
  | tarball dep =>
    obtain ⟨-, rfl, -⟩ | ⟨-, svar, tree, ex, cache, record, -, hex, rfl, -⟩ := processTarball_cases h
    · exact hevery
    · refine EveryCandidate.afterFetch ?_ _ _ _ (hkept.fetched _ _ _ _ _ hex)
      exact hevery.congr rfl
  | named name constraint ns =>
    obtain ⟨-, ⟨-, rfl⟩ | ⟨-, -, rfl⟩ | ⟨-, versions, stubKey, -, -, rfl⟩⟩ := processNamed_cases h
    · exact hevery.congr rfl
    · exact hevery
    · exact hevery.congr rfl
  | oci dep =>
    obtain ⟨-, rfl, -⟩ | ⟨-, svar, tree, ex, cache, -, hex, rfl, -⟩ := processOci_cases h
    · exact hevery
    · refine EveryCandidate.afterFetch ?_ _ _ _ (hkept.fetched _ _ _ _ _ hex)
      exact hevery.congr rfl

/-- A query keeps what holds of the candidate that it materializes. -/
theorem EveryCandidate.query (hevery : EveryCandidate P σ) {version : Version} (h : query ctx σ package version = .ok (σ', items))
    (hmade : ∀ entry tree ex, (σ.stubsOf package).get? version = some entry → materializeNamed ctx σ package version entry = .ok (σ', items) →
      tree.contentHash = entry.contentHash → ExtractedWith ctx σ.binding ex → P (materializedCandidate package version entry tree ex)) :
    EveryCandidate P σ' := by
  obtain ⟨rfl, -⟩ | ⟨-, entry, hentry, h⟩ := query_cases h
  · exact hevery
  · obtain ⟨tree, ex, cache, hhash, -, hex, hstate, -⟩ := materializeNamed_cases h
    have hcand := hmade entry tree ex hentry h hhash hex
    rw [hstate]
    refine EveryCandidate.seedFlagsOf ?_ tree _
    exact EveryCandidate.congr (hevery.afterFetch (σ.dirOf package) tree cache hcand) rfl

theorem candidates_gateOnly {item : Item} {out : Option Item} (h : gateOnly ctx σ item = .ok (out, σ')) :
    σ'.candidates = σ.candidates := by
  obtain ⟨decision, binding, -, -, rfl, -⟩ := gateOnly_cases h
  unfold ResolveState.recordDiscovery
  split_ifs <;> rfl

/-- **What the workers and the flags keep holds of every candidate of a run.** -/
theorem EveryCandidate.step (h : EveryCandidate P c.state) (hkept : KeptBy ctx c.state.binding P) (hstep : Step ctx c c') :
    EveryCandidate P c'.state := by
  cases hstep with
  | gate htasks hgate => exact h.congr (candidates_gateOnly hgate)
  | suppress htasks hgate => exact h.congr (candidates_gateOnly hgate)
  | admitted htasks => exact h
  | dispatch htasks hwork => exact h.dispatch hkept.fetches hwork
  | startFixpoint htasks hphase => exact h
  | round htasks hphase hiters hround hchange => exact h.grown hkept.fetches (grown_fixpointRound hround)
  | startSolve htasks hphase hiters hround hchange hconflicts => exact h
  | query htasks hphase hquery => exact h.query hquery fun entry tree ex _ _ _ hex => hkept.materialized _ _ entry tree ex hex

/-! ### Terms and requirements -/

/-- The names that are required are those that the terms are about, and the root is not one of them. -/
structure Paired (deps : List SolverDep) (requires : List Str) : Prop where
  names : requires = deps.map fun d => d.package.identity
  plain : root ∉ requires

/-- A candidate requires the packages that its terms are about. -/
def Balanced (cand : Candidate) : Prop := Paired cand.deps cand.requiresNames

theorem Paired.nil : Paired [] [] := ⟨rfl, List.not_mem_nil⟩

theorem Paired.append {deps : List SolverDep} {requires : List Str} (h : Paired deps requires) {k : SolverKey} (hk : k.identity ≠ root)
    (vs : VersionSet) : Paired (deps ++ [⟨k, vs⟩]) (requires ++ [k.identity]) := by
  refine ⟨by rw [h.names, List.map_append]; rfl, fun hmem => ?_⟩
  rcases List.mem_append.mp hmem with hmem | hmem
  · exact h.plain hmem
  · exact hk (List.mem_singleton.mp hmem).symm

theorem canonical_ne_root (s : SourceId) : canonical s ≠ root := by
  intro h
  have hhead : (canonical s).head? = some '_' := congrArg List.head? h
  rcases s with (_ | _ | _ | _ | ⟨_, _ | _, _⟩) | _ <;> cases hhead

theorem identity_ne_root_of_canonicalFor (hr : r.Tidy) {key : DepKey} {k : SolverKey} (h : r.canonicalFor key = some k) :
    k.identity ≠ root := by
  obtain ⟨s, -, -, -, hidentity⟩ := hr.canonicalFor h
  rw [hidentity]
  exact canonical_ne_root s

/-- The solver key of a requirement is that of what its name is bound to, or of the source that it would be bound to. -/
theorem identity_ne_root_of_requirementKey (hr : r.Tidy) {name : Str} {ns url gitRef : Option Str} {k : SolverKey}
    (h : ctx.requirementKey r name ns url gitRef = .ok k) : k.identity ≠ root := by
  unfold ResolveCtx.requirementKey canonicalKeyForRequirement at h
  dsimp only at h
  split_ifs at h
  · exact identity_ne_root_of_canonicalFor hr (canonicalForRes_eq_ok.mp h)
  · obtain rfl := Except.ok.inj h
    exact canonical_ne_root (.member name)
  · obtain ⟨sid, -, h⟩ := bind_eq_ok.mp h
    obtain rfl := pure_eq_ok.mp h
    exact canonical_ne_root sid

theorem identity_ne_root_of_lateKey (hr : r.Tidy) {d : Dep} {k : SolverKey} (h : ctx.lateKey r d = .ok k) : k.identity ≠ root := by
  cases d <;> exact identity_ne_root_of_requirementKey hr h

theorem paired_extractEntry (hr : r.Tidy) {source : EdgeSource} {acc acc' : Extracting} {e : RequireEntry}
    (hacc : Paired acc.deps acc.requiresNames) (h : extractEntry ctx r source acc e = .ok acc') :
    Paired acc'.deps acc'.requiresNames := by
  have hpredicates : ∀ (acc : Extracting) (k : SolverKey) (ps : List Predicate), Paired acc.deps acc.requiresNames →
      Paired (acc.addPredicates k ps).deps (acc.addPredicates k ps).requiresNames := by
    intro acc k ps hacc
    unfold Extracting.addPredicates
    split_ifs <;> exact hacc
  cases e with
  | url u =>
    obtain ⟨depName, -, h⟩ := bind_eq_ok.mp h
    obtain ⟨k, hk, h⟩ := bind_eq_ok.mp h
    obtain rfl := pure_eq_ok.mp h
    refine hpredicates _ k _ ?_
    show Paired (Extracting.addItem _ _).deps (Extracting.addItem _ _).requiresNames
    split_ifs
    · exact hacc
    · exact hacc.append (identity_ne_root_of_requirementKey hr hk) _
  | named n =>
    obtain ⟨k, hk, h⟩ := bind_eq_ok.mp h
    split_ifs at h
    · obtain rfl := pure_eq_ok.mp h
      exact hpredicates _ k _ hacc
    · obtain ⟨vs, -, h⟩ := bind_eq_ok.mp h
      obtain rfl := pure_eq_ok.mp h
      exact hpredicates _ k _ (hacc.append (identity_ne_root_of_requirementKey hr hk) vs)

theorem paired_of_extractedWith (hr : r.Tidy) {ex : Extracted} (h : ExtractedWith ctx r ex) : Paired ex.deps ex.requiresNames := by
  obtain ⟨es, ex₀, dv, hextract, rfl⟩ := h
  obtain ⟨acc, hacc, hextract⟩ := bind_eq_ok.mp hextract
  obtain rfl := pure_eq_ok.mp hextract
  exact foldlM_invariant (P := fun acc : Extracting => Paired acc.deps acc.requiresNames) hacc .nil
    fun _ _ _ hacc h => paired_extractEntry hr hacc h

theorem keptBy_balanced (hr : r.Tidy) : KeptBy ctx r Balanced where
  fetched svar identity ex provenance mirrors hex := paired_of_extractedWith hr hex
  materialized name version entry tree ex hex := paired_of_extractedWith hr hex
  extended cand d k vs hk hcand := by
    unfold Balanced ResolveState.extendTerms
    split_ifs
    · exact hcand
    · exact Paired.append hcand (identity_ne_root_of_lateKey hr hk) vs

end Milpa.Core.Resolver

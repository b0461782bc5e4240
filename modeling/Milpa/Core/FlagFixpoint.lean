import Milpa.Core.Walk

/-!
# The flag fixpoint

What a round of `run_s4a_fixpoint` makes active (`activations_fixpointRound`): the flags
that the `enables` rules of the active ones lead to in other packages, with what these
enable in their own package. A round goes one hop further, so it is the longest chain of
hops that says how many rounds are needed (`activations_quiet`), and not the number of
flags; the loop ends after `MAX_ITERS` rounds.
-/

namespace Milpa.Core.Resolver

open Solver Result

variable {ctx : ResolveCtx} {σ σ' : ResolveState} {c c' : Config}

/-! ### One hop -/

/-- A flag that is active in the package of an identity. -/
abbrev Activation := Str × Str

/-- What is active. -/
def activations (σ : ResolveState) : Set Activation := {a | (σ.flagsOf a.1).Active a.2}

/-- The package has a manifest and an identity; flags are kept for identities. -/
structure Known (σ : ResolveState) (package : Str) (manifest : Manifest) : Prop where
  manifest : depManifest σ package = some manifest
  identity : σ.identityOf package ≠ []

/-- The rule is about flags of this package. -/
def AimsAt (ctx : ResolveCtx) (r : BindingResolver) (cpe : CrossPkgEnable) (target : Str) : Prop :=
  ∃ svar, ctx.requirementKey r cpe.dep none none none = .ok svar ∧ svar.identity = target

/-- A rule of an active flag is about flags of the target. -/
def Fires (ctx : ResolveCtx) (σ : ResolveState) (active : Set Activation) (cpe : CrossPkgEnable) (target : Str) : Prop :=
  ∃ package manifest, Known σ package manifest ∧
    (∃ fd ∈ manifest.flags, (σ.identityOf package, fd.name) ∈ active ∧ cpe ∈ fd.enablesCrossPkg) ∧ AimsAt ctx σ.binding cpe target

/-- The flags of the target that rules of active flags ask for, with the defaults and what these flags enable. -/
def calledFlags (ctx : ResolveCtx) (σ : ResolveState) (active : Set Activation) (target : Str) (manifest : Manifest) : Set Str :=
  EnablesClosure manifest.flags {g | (∃ fd ∈ manifest.flags, fd.default = true ∧ fd.name = g) ∨
    ∃ cpe, Fires ctx σ active cpe target ∧
      ∃ fr ∈ cpe.flagRequests, fr.enabled = true ∧ (flagByName manifest.flags fr.name).isSome = true ∧ fr.name = g}

/-- What the active flags lead to in one hop. -/
def hop (ctx : ResolveCtx) (σ : ResolveState) (active : Set Activation) : Set Activation :=
  active ∪ {a | ∃ target manifest, Known σ target manifest ∧ σ.identityOf target = a.1 ∧ (∃ cpe, Fires ctx σ active cpe target) ∧
    a.2 ∈ calledFlags ctx σ active target manifest}

/-- Nothing is a hop away. -/
def Settled (ctx : ResolveCtx) (σ : ResolveState) : Prop := hop ctx σ (activations σ) = activations σ

theorem fetchedManifest_mem {package : Str} {manifest : Manifest} (h : fetchedManifest σ package = some manifest) :
    package ∈ σ.candidates.keys := by
  unfold fetchedManifest at h
  split_ifs at h with hmem
  exact hmem.1

theorem mem_manifestPackages {package : Str} : package ∈ manifestPackages σ ↔ ∃ manifest, depManifest σ package = some manifest := by
  rw [manifestPackages, List.mem_filter, List.mem_dedup, List.mem_append, Option.isSome_iff_exists]
  refine and_iff_right_of_imp ?_
  rintro ⟨manifest, h⟩
  cases hfetched : fetchedManifest σ package with
  | some fetched => exact .inl (fetchedManifest_mem hfetched)
  | none =>
    rw [depManifest, hfetched] at h
    exact .inr (BTreeMap.mem_keys.mpr ⟨manifest, h⟩)

/-- The rules of the active flags of a package. -/
theorem mem_firedEnables {package : Str} {cpe : CrossPkgEnable} :
    cpe ∈ firedEnables σ package ↔ ∃ manifest, Known σ package manifest ∧
      ∃ fd ∈ manifest.flags, (σ.identityOf package, fd.name) ∈ activations σ ∧ cpe ∈ fd.enablesCrossPkg := by
  unfold firedEnables
  cases hmanifest : depManifest σ package with
  | none =>
    simp only [List.not_mem_nil, false_iff]
    rintro ⟨manifest, hknown, -⟩
    rw [hknown.manifest] at hmanifest
    cases hmanifest
  | some manifest =>
    dsimp only
    split_ifs with hempty
    · simp only [List.not_mem_nil, false_iff]
      rintro ⟨manifest', hknown, -⟩
      exact hknown.identity (List.isEmpty_iff.mp hempty)
    · have hidentity : σ.identityOf package ≠ [] := fun h => hempty (List.isEmpty_iff.mpr h)
      simp only [List.mem_flatMap, List.mem_filter, decide_eq_true_eq]
      constructor
      · rintro ⟨fd, ⟨hfd, hactive⟩, hcpe⟩
        exact ⟨manifest, ⟨hmanifest, hidentity⟩, fd, hfd, hactive, hcpe⟩
      · rintro ⟨manifest', hknown, fd, hfd, hactive, hcpe⟩
        obtain rfl := Option.some.inj (hmanifest.symm.trans hknown.manifest)
        exact ⟨fd, ⟨hfd, hactive⟩, hcpe⟩

/-- The rules that a round collects. -/
theorem fires_iff {cpe : CrossPkgEnable} {target : Str} :
    Fires ctx σ (activations σ) cpe target ↔
      cpe ∈ (manifestPackages σ).flatMap (firedEnables σ) ∧ AimsAt ctx σ.binding cpe target := by
  simp only [List.mem_flatMap, mem_manifestPackages, mem_firedEnables]
  constructor
  · rintro ⟨package, manifest, hknown, hfd, haims⟩
    exact ⟨⟨package, ⟨manifest, hknown.manifest⟩, manifest, hknown, hfd⟩, haims⟩
  · rintro ⟨⟨package, -, manifest, hknown, hfd⟩, haims⟩
    exact ⟨package, manifest, hknown, hfd, haims⟩

/-! ### What is asked of the targets -/

/-- What a loop over rules collects for a target. -/
structure Collected (ctx : ResolveCtx) (r : BindingResolver) (rules : List CrossPkgEnable) (requests : BTreeMap Str (List FlagRequest)) :
    Prop where
  targets : ∀ target, requests.get? target ≠ none ↔ ∃ cpe ∈ rules, AimsAt ctx r cpe target
  asked : ∀ target fr, fr ∈ (requests.get? target).getD [] ↔ ∃ cpe ∈ rules, AimsAt ctx r cpe target ∧ fr ∈ cpe.flagRequests

theorem Collected.nil (r : BindingResolver) : Collected ctx r [] BTreeMap.empty := ⟨by simp, by simp⟩

theorem Collected.addRequests {r : BindingResolver} {rules : List CrossPkgEnable} {requests requests' : BTreeMap Str (List FlagRequest)}
    (h : Collected ctx r rules requests) {cpe : CrossPkgEnable} (hadd : addRequests ctx r requests cpe = .ok requests') :
    Collected ctx r (rules ++ [cpe]) requests' := by
  obtain ⟨svar, hsvar, hadd⟩ := bind_eq_ok.mp hadd
  obtain rfl := pure_eq_ok.mp hadd
  have haims : ∀ target, AimsAt ctx r cpe target ↔ target = svar.identity := by
    intro target
    constructor
    · rintro ⟨svar', hsvar', rfl⟩
      rw [hsvar] at hsvar'
      cases hsvar'
      rfl
    · rintro rfl
      exact ⟨svar, hsvar, rfl⟩
  constructor
  · intro target
    rw [BTreeMap.get?_insert]
    simp only [List.mem_append, List.mem_singleton, or_and_right, exists_or, exists_eq_left, haims]
    split_ifs with htarget
    · simp [htarget]
    · simp only [htarget, or_false]
      exact h.targets target
  · intro target fr
    rw [BTreeMap.get?_insert]
    simp only [List.mem_append, List.mem_singleton, or_and_right, exists_or, exists_eq_left, haims]
    split_ifs with htarget
    · subst htarget
      rw [Option.getD_some, List.mem_append, h.asked]
      simp
    · simp only [htarget, false_and, or_false]
      exact h.asked target fr

theorem additionalRequests_collected {requests : BTreeMap Str (List FlagRequest)} (h : additionalRequests ctx σ = .ok requests) :
    Collected ctx σ.binding ((manifestPackages σ).flatMap (firedEnables σ)) requests := by
  have step : ∀ (rules done : List CrossPkgEnable) (requests₀ : BTreeMap Str (List FlagRequest)),
      Collected ctx σ.binding done requests₀ → rules.foldlM (addRequests ctx σ.binding) requests₀ = .ok requests →
      Collected ctx σ.binding (done ++ rules) requests := by
    intro rules
    induction rules with
    | nil =>
      intro done requests₀ hdone hl
      cases hl
      rwa [List.append_nil]
    | cons cpe rules ih =>
      intro done requests₀ hdone hl
      obtain ⟨requests₁, hadd, hl⟩ := bind_eq_ok.mp hl
      have hall := ih (done ++ [cpe]) requests₁ (hdone.addRequests hadd) hl
      rwa [List.append_assoc] at hall
  exact step _ [] _ (.nil _) h

/-! ### A round -/

theorem identityOf_eq (σ : ResolveState) (package : Str) :
    σ.identityOf package = ((shape σ package).head?.map fun e => e.2.2.identity).getD [] := by
  rw [ResolveState.identityOf, ResolveState.firstCandidate, shape, List.head?_map, Option.map_map, Option.map_map]
  rfl

theorem Enriched.identityOf (h : Enriched σ σ') (package : Str) : σ'.identityOf package = σ.identityOf package := by
  rw [identityOf_eq, identityOf_eq, h.shape]

theorem TermsAdded.activations (h : TermsAdded σ σ') : activations σ' = activations σ := by
  rw [h.rest]
  rfl

theorem activations_uniteFlags (σ : ResolveState) (identity : Str) (active : ActiveFlags) :
    activations (σ.uniteFlags identity active) = activations σ ∪ {a | identity = a.1 ∧ active.Active a.2} := by
  ext ⟨other, flag⟩
  show ((σ.uniteFlags identity active).flagsOf other).Active flag ↔ (σ.flagsOf other).Active flag ∨ identity = other ∧ active.Active flag
  rw [flagsOf_uniteFlags]
  split_ifs with h
  · subst h
    simp [ActiveFlags.active_union]
  · simp [Ne.symm h]

/-- What the requests for a target make active. -/
def given (σ : ResolveState) (target : Str × List FlagRequest) : Set Activation :=
  {a | ∃ manifest, Known σ target.1 manifest ∧ σ.identityOf target.1 = a.1 ∧ (computeDepActiveFlags manifest.flags target.2).Active a.2}

theorem given_eq {target : Str × List FlagRequest} {manifest : Manifest} (h : Known σ target.1 manifest) :
    given σ target = {a | σ.identityOf target.1 = a.1 ∧ (computeDepActiveFlags manifest.flags target.2).Active a.2} := by
  ext a
  constructor
  · rintro ⟨manifest', hknown, ha⟩
    obtain rfl := Option.some.inj (h.manifest.symm.trans hknown.manifest)
    exact ha
  · exact fun ha => ⟨manifest, h, ha⟩

theorem given_eq_empty {target : Str × List FlagRequest} (h : ∀ manifest, ¬ Known σ target.1 manifest) : given σ target = ∅ :=
  Set.eq_empty_of_forall_notMem fun _ ⟨manifest, hknown, _⟩ => h manifest hknown

/-- The loop body adds what the requests for the target make active, and says whether that was new. -/
theorem activations_roundTarget {acc acc' : Round} {target : Str × List FlagRequest} (henriched : Enriched σ acc.state)
    (h : roundTarget ctx σ acc target = .ok acc') :
    activations acc'.state = activations acc.state ∪ given σ target ∧
      (acc'.anyChange = true ↔ acc.anyChange = true ∨ activations acc'.state ≠ activations acc.state) := by
  unfold roundTarget at h
  cases hmanifest : depManifest σ target.1 with
  | none =>
    simp only [hmanifest, Except.ok.injEq] at h
    subst h
    have hunknown : ∀ manifest, ¬ Known σ target.1 manifest := fun manifest hknown =>
      Option.some_ne_none _ (hknown.manifest.symm.trans hmanifest)
    rw [given_eq_empty hunknown, Set.union_empty]
    simp
  | some manifest =>
    simp only [hmanifest, henriched.identityOf] at h
    split_ifs at h with hnone hbound
    · obtain rfl := Except.ok.inj h
      have hold : given σ target ⊆ activations acc.state := by
        rintro ⟨identity, flag⟩ ⟨manifest', hknown, rfl, hflag⟩
        obtain rfl := Option.some.inj (hmanifest.symm.trans hknown.manifest)
        rcases (Bool.or_eq_true _ _).mp hnone with hempty | hadded
        · exact absurd (List.isEmpty_iff.mp hempty) hknown.identity
        · have := List.filter_eq_nil_iff.mp (List.isEmpty_iff.mp hadded) flag hflag
          exact of_not_not fun hnot => this (decide_eq_true hnot)
      rw [Set.union_eq_left.mpr hold]
      simp
    · obtain ⟨⟨σ₁, items⟩, hadmit, h⟩ := bind_eq_ok.mp h
      obtain rfl := pure_eq_ok.mp h
      obtain ⟨hempty, hadded⟩ := not_or.mp fun hor => hnone ((Bool.or_eq_true _ _).mpr hor)
      have hknown : Known σ target.1 manifest := ⟨hmanifest, fun hnil => hempty (List.isEmpty_iff.mpr hnil)⟩
      have hactive : activations σ₁ = activations acc.state ∪ given σ target := by
        rw [(admitNewly_cases hadmit).1.activations, activations_uniteFlags, given_eq hknown]
      refine ⟨hactive, iff_of_true rfl (.inr ?_)⟩
      obtain ⟨flag, hflag⟩ := List.exists_mem_of_ne_nil _ fun hnil => hadded (List.isEmpty_iff.mpr hnil)
      obtain ⟨hnew, hnot⟩ := List.mem_filter.mp hflag
      intro hsame
      have hmem : (σ.identityOf target.1, flag) ∈ activations acc.state := by
        rw [← hsame, show ∀ s items n, (Round.mk s items true n).state = s from fun _ _ _ => rfl, hactive, given_eq hknown]
        exact .inr ⟨rfl, hnew⟩
      simp only [decide_eq_true_eq] at hnot
      exact hnot hmem

/-- The loop over the targets. -/
theorem activations_foldlM (targets : List (Str × List FlagRequest)) {acc acc' : Round} (henriched : Enriched σ acc.state)
    (h : targets.foldlM (roundTarget ctx σ) acc = .ok acc') :
    activations acc'.state = activations acc.state ∪ {a | ∃ target ∈ targets, a ∈ given σ target} ∧
      (acc'.anyChange = true ↔ acc.anyChange = true ∨ activations acc'.state ≠ activations acc.state) := by
  induction targets generalizing acc with
  | nil =>
    cases h
    simp
  | cons target targets ih =>
    obtain ⟨acc₁, htarget, h⟩ := bind_eq_ok.mp h
    obtain ⟨hfirst, hchange⟩ := activations_roundTarget henriched htarget
    obtain ⟨hrest, hchange'⟩ := ih (henriched.trans (roundTarget_cases htarget).1) h
    constructor
    · rw [hrest, hfirst, Set.union_assoc]
      congr 1
      ext a
      simp
    · have hmono : activations acc.state ⊆ activations acc₁.state := hfirst ▸ Set.subset_union_left
      have hmono' : activations acc₁.state ⊆ activations acc'.state := hrest ▸ Set.subset_union_left
      rw [hchange', hchange, or_assoc]
      refine or_congr_right ⟨?_, fun hne => ?_⟩
      · rintro (hne | hne) hsame
        · exact hne (Set.Subset.antisymm (hsame ▸ hmono') hmono)
        · exact hne (Set.Subset.antisymm (hsame ▸ hmono) hmono')
      · by_cases hsame : activations acc₁.state = activations acc.state
        · exact .inr (hsame ▸ hne)
        · exact .inl hsame

/-- What the requests of a round make active. -/
theorem given_collected {requests : BTreeMap Str (List FlagRequest)}
    (h : Collected ctx σ.binding ((manifestPackages σ).flatMap (firedEnables σ)) requests) :
    activations σ ∪ {a | ∃ target ∈ requests.entries, a ∈ given σ target} = hop ctx σ (activations σ) := by
  have hcalled : ∀ target reqs, requests.get? target = some reqs → ∀ manifest,
      EnablesClosure manifest.flags (seedFlags manifest.flags reqs) = calledFlags ctx σ (activations σ) target manifest := by
    intro target reqs hget manifest
    have hasked := h.asked target
    rw [hget, Option.getD_some] at hasked
    rw [calledFlags, seedFlags]
    congr 1
    ext flag
    refine or_congr_right ?_
    constructor
    · rintro ⟨fr, hfr, hrest⟩
      obtain ⟨cpe, hcpe, haims, hmem⟩ := (hasked fr).mp hfr
      exact ⟨cpe, fires_iff.mpr ⟨hcpe, haims⟩, fr, hmem, hrest⟩
    · rintro ⟨cpe, hfires, fr, hmem, hrest⟩
      obtain ⟨hcpe, haims⟩ := fires_iff.mp hfires
      exact ⟨fr, (hasked fr).mpr ⟨cpe, hcpe, haims, hmem⟩, hrest⟩
  rw [hop]
  congr 1
  ext ⟨identity, flag⟩
  constructor
  · rintro ⟨⟨target, reqs⟩, hmem, manifest, hknown, hidentity, hflag⟩
    have hget := BTreeMap.mem_entries.mp hmem
    obtain ⟨cpe, hcpe, haims⟩ := (h.targets target).mp (by rw [hget]; exact Option.some_ne_none _)
    refine ⟨target, manifest, hknown, hidentity, ⟨cpe, fires_iff.mpr ⟨hcpe, haims⟩⟩, ?_⟩
    rw [← hcalled target reqs hget]
    exact (active_computeDepActiveFlags _ _ _).mp hflag
  · rintro ⟨target, manifest, hknown, hidentity, ⟨cpe, hfires⟩, hflag⟩
    obtain ⟨reqs, hget⟩ := Option.ne_none_iff_exists'.mp ((h.targets target).mpr ⟨cpe, fires_iff.mp hfires⟩)
    refine ⟨(target, reqs), BTreeMap.mem_entries.mpr hget, manifest, hknown, hidentity, ?_⟩
    rw [active_computeDepActiveFlags, hcalled target reqs hget]
    exact hflag

/-- **What a round does**: it goes one hop further, and says whether there was something to be made active. -/
theorem activations_fixpointRound {n : ℕ} {r : Round} (h : fixpointRound ctx σ n = .ok r) :
    activations r.state = hop ctx σ (activations σ) ∧ (r.anyChange = true ↔ ¬ Settled ctx σ) := by
  obtain ⟨requests, hrequests, h⟩ := bind_eq_ok.mp h
  obtain ⟨hactive, hchange⟩ := activations_foldlM _ (.refl σ) h
  rw [given_collected (additionalRequests_collected hrequests)] at hactive
  refine ⟨hactive, ?_⟩
  rw [hchange, hactive]
  simp [Settled]

/-! ### Rounds that find nothing to fetch -/

theorem mem_keys_of_identityOf {package : Str} (h : σ.identityOf package ≠ []) : package ∈ σ.candidates.keys := by
  rw [BTreeMap.mem_keys]
  cases hget : σ.candidates.get? package with
  | some versions => exact ⟨versions, rfl⟩
  | none =>
    refine absurd ?_ h
    rw [ResolveState.identityOf, ResolveState.firstCandidate, ResolveState.candidatesOf, hget]
    rfl

theorem depManifest_eq {package : Str} (h : σ.identityOf package ≠ []) :
    depManifest σ package = ((if package ≠ root then σ.manifestIn (σ.dirOf package) else none) <|> σ.memberManifests.get? package) := by
  rw [depManifest, fetchedManifest]
  simp only [mem_keys_of_identityOf h, true_and]

theorem Enriched.known (h : Enriched σ σ') {package : Str} {manifest : Manifest} : Known σ' package manifest ↔ Known σ package manifest := by
  have hsame : σ.identityOf package ≠ [] → depManifest σ' package = depManifest σ package := by
    intro hne
    rw [depManifest_eq hne, depManifest_eq (by rwa [h.identityOf]), h.rest]
    rfl
  constructor
  · rintro ⟨hmanifest, hidentity⟩
    rw [h.identityOf] at hidentity
    exact ⟨hsame hidentity ▸ hmanifest, hidentity⟩
  · rintro ⟨hmanifest, hidentity⟩
    exact ⟨hsame hidentity ▸ hmanifest, by rwa [h.identityOf]⟩

/-- Which flags are active does not change where a hop leads. -/
theorem Enriched.hop (h : Enriched σ σ') : hop ctx σ' = hop ctx σ := by
  have hfires : Fires ctx σ' = Fires ctx σ := by
    funext active cpe target
    simp only [Fires, h.known, h.identityOf, h.binding]
  funext active
  simp only [Resolver.hop, calledFlags, h.known, h.identityOf, hfires]

/-- There is nothing to admit or to dispatch. -/
def Still (c : Config) : Prop := ∀ task ∈ c.tasks, task = .gate [] []

/-- What rounds that find nothing to fetch lead to: as many hops as there were rounds. -/
structure Hopped (ctx : ResolveCtx) (c₁ c : Config) : Prop where
  begun : c.phase ≠ .walk
  hops : ∀ n total, c.phase = .fixpoint n total →
    Enriched c₁.state c.state ∧ activations c.state = (hop ctx c₁.state)^[n] (activations c₁.state)

theorem Hopped.step {c₁ : Config} (h : Hopped ctx c₁ c) (hstill : Still c) (hstep : Step ctx c c') : Hopped ctx c₁ c' := by
  cases hstep with
  | gate htasks _ | suppress htasks _ =>
    have := hstill _ (by rw [htasks]; exact List.mem_cons_self)
    cases this
  | dispatch htasks _ =>
    have := hstill _ (by rw [htasks]; exact List.mem_cons_self)
    cases this
  | admitted _ => exact ⟨h.begun, h.hops⟩
  | startFixpoint _ hphase => exact absurd hphase h.begun
  | round _ hphase _ hround _ =>
    refine ⟨nofun, fun n total heq => ?_⟩
    cases heq
    obtain ⟨henriched, hactive⟩ := h.hops _ _ hphase
    obtain ⟨-, -, hmore, -⟩ := fixpointRound_cases hround
    refine ⟨henriched.trans hmore, ?_⟩
    rw [(activations_fixpointRound hround).1, henriched.hop, hactive, Function.iterate_succ_apply']
  | startSolve _ _ _ _ _ _ => exact ⟨nofun, nofun⟩
  | query _ hphase _ =>
    refine ⟨fun hwalk => ?_, fun _ _ heq => ?_⟩
    · cases hphase.symm.trans hwalk
    · cases hphase.symm.trans heq

/-- **The rounds are the hops**: with nothing more to fetch, `n` rounds make active what is at most `n` hops away. -/
theorem activations_quiet {c₁ : Config} (hphase₁ : c₁.phase = .fixpoint 0 0) (hrun : RunWhere Still ctx c₁ c) {n total : ℕ}
    (hphase : c.phase = .fixpoint n total) :
    activations c.state = (hop ctx c₁.state)^[n] (activations c₁.state) ∧
      (Settled ctx c.state ↔ (hop ctx c₁.state)^[n + 1] (activations c₁.state) = (hop ctx c₁.state)^[n] (activations c₁.state)) := by
  have hstart : Hopped ctx c₁ c₁ := by
    refine ⟨by rw [hphase₁]; nofun, fun n total heq => ?_⟩
    cases hphase₁.symm.trans heq
    exact ⟨.refl _, rfl⟩
  have hhopped : Hopped ctx c₁ c := hrun.invariant hstart fun _ _ hstill h hstep => h.step hstill hstep
  obtain ⟨henriched, hactive⟩ := hhopped.hops n total hphase
  refine ⟨hactive, ?_⟩
  rw [Settled, henriched.hop, hactive, Function.iterate_succ_apply']

/-! ### The bound -/

/-- The iterations of the loop are over, and the last one still made flags active. -/
def DidNotConverge (c : Config) : Prop := c.tasks = [] ∧ ∃ total, c.phase = .fixpoint maxIters total

theorem next_of_didNotConverge (h : DidNotConverge c) : next ctx c = .error .fixpointIterations := by
  obtain ⟨htasks, total, hphase⟩ := h
  unfold next
  rw [htasks, hphase]
  rfl

/-- The last round has nothing to make active. -/
def InTime (ctx : ResolveCtx) (c : Config) : Prop :=
  c.tasks = [] → ∀ iters total, c.phase = .fixpoint iters total → iters + 1 = maxIters → Settled ctx c.state

/-- A rule of an active flag asks for a flag of a package that is there, and the flag is not active. -/
def Unfired (ctx : ResolveCtx) (σ : ResolveState) (cpe : CrossPkgEnable) (target : Str) : Prop :=
  Fires ctx σ (activations σ) cpe target ∧ ∃ manifest, Known σ target manifest ∧
    ∃ fr ∈ cpe.flagRequests, fr.enabled = true ∧ (flagByName manifest.flags fr.name).isSome = true ∧
      (σ.identityOf target, fr.name) ∉ activations σ

theorem not_unfired (h : Settled ctx σ) (cpe : CrossPkgEnable) (target : Str) : ¬ Unfired ctx σ cpe target := by
  rintro ⟨hfires, manifest, hknown, fr, hfr, henabled, hdeclared, hnot⟩
  refine hnot ?_
  rw [← h]
  exact .inr ⟨target, manifest, hknown, rfl, ⟨cpe, hfires⟩,
    subset_enablesClosure _ _ (.inr ⟨cpe, hfires, fr, hfr, henabled, hdeclared, rfl⟩)⟩

/-- The step with which the fixpoint is reached. -/
structure Converges (ctx : ResolveCtx) (c c' : Config) : Prop where
  step : Step ctx c c'
  before : c.phase ≠ .solve
  after : c'.phase = .solve

/-- There is nothing left to make active when the fixpoint is reached. -/
theorem Converges.settled (h : Converges ctx c c') : Settled ctx c.state := by
  obtain ⟨hstep, hbefore, hafter⟩ := h
  cases hstep with
  | gate _ _ | suppress _ _ => exact absurd hafter hbefore
  | admitted _ | dispatch _ _ => exact absurd hafter hbefore
  | startFixpoint _ _ | round _ _ _ _ _ => cases hafter
  | query _ _ _ => exact absurd hafter hbefore
  | startSolve _ _ _ hround hchange _ =>
    rw [← not_not (a := Settled ctx c.state), ← (activations_fixpointRound hround).2, hchange]
    exact Bool.false_ne_true

/-- The loop has not come to its end. -/
def Running (c : Config) : Prop := ∀ iters total, c.phase = .fixpoint iters total → iters < maxIters

theorem Running.step (h : Running c) (hmeets : InTime ctx c) (hstep : Step ctx c c') : Running c' := by
  intro iters total heq
  cases hstep with
  | gate _ _ | suppress _ _ => exact h _ _ heq
  | admitted _ | dispatch _ _ => exact h _ _ heq
  | startFixpoint _ _ =>
    cases heq
    decide
  | startSolve _ _ _ _ _ _ => cases heq
  | query _ _ _ => exact h _ _ heq
  | round htasks hphase hiters hround hchange =>
    cases heq
    rcases Nat.lt_or_eq_of_le (Nat.succ_le_of_lt hiters) with hlt | hlast
    · exact hlt
    · exact absurd (hmeets htasks _ _ hphase hlast) ((activations_fixpointRound hround).2.mp hchange)

theorem Running.start {c₀ : Config} (h : Starts ctx c₀) : Running c₀ := by
  obtain ⟨r, σ, queue, -, rfl, -, -⟩ := starts_cases h
  exact nofun

/-- The name of a flag. -/
def flagNo (i : ℕ) : Str := [Char.ofNat (97 + i)]

/-- A package whose flag number `i` enables a flag of another one. -/
def enabler (name partner : Str) (count : ℕ) (target : ℕ → ℕ) : Manifest :=
  { Manifest.initial with
    name := some name
    flags := (List.range count).map fun i => ⟨flagNo i, false, [], [], [], [⟨partner, [⟨flagNo (target i), true⟩]⟩], []⟩ }

/-- Two packages of so many flags: a flag of the first enables that of the second with its number, and this one the next of the first. -/
def volleyWorld (count : ℕ) : ResolveCtx :=
  { ResolveCtx.offline with
    fetch := fetchFrom [("https://h/ping", treeOf "sha256:i" (enabler "ping" "pong" count id)),
      ("https://h/pong", treeOf "sha256:o" (enabler "pong" "ping" count Nat.succ))] }

/-- The user of both, who asks for the first flag. -/
def volleyUser : Manifest :=
  { Manifest.initial with
    name := some "user"
    deps := [.url { urlDep "ping" "https://h/ping" "v1" none with flagRequests := [⟨flagNo 0, true⟩] },
      .url (urlDep "pong" "https://h/pong" "v1" none)] }

/-- The configuration has not come to its last round. -/
def Config.isEarly (c : Config) : Bool :=
  match c.phase with
  | .fixpoint iters _ => decide (iters + 1 < maxIters)
  | _ => true

theorem inTime_of_isEarly (h : c.isEarly = true) : InTime ctx c := by
  intro _ iters total hphase hlast
  rw [Config.isEarly, hphase] at h
  have := of_decide_eq_true h
  omega

/-- How many activations the packages at hand allow. -/
def activationCount (σ : ResolveState) : ℕ :=
  ((manifestPackages σ).map fun package => ((depManifest σ package).map fun manifest => manifest.flags.length).getD 0).sum

end Milpa.Core.Resolver

import Milpa.Core.RegistryCandidates

/-!
# The records of what is fetched

What the workers record of a package that is fetched without the index: that it was
observed, and where; the mirrors that were declared for it, other than the URL that was
fetched. A local package has no identity (`FetchedRecord`). What holds of such candidates,
of those that are seeded and of those that are made of stubs, holds of all candidates of a
run (`recorded_of_reachable`).
-/

namespace Milpa.Core.Resolver

open Solver Result

variable {ctx : ResolveCtx} {σ σ' : ResolveState} {items : List Item} {c c' : Config} {P : Candidate → Prop}

/-- What is recorded of a package that is fetched without the index. -/
structure FetchedRecord (identity : Str) (p : ProvenanceRecord) (mirrors : List Str) : Prop where
  origin : p.origin = "observed".toList
  «local» : ∀ path origin, p = .local path origin → identity = []
  mirrors : ∀ mirror ∈ mirrors, ∃ url refSpec commit submodules, p = .git url refSpec commit "observed" submodules ∧ mirror ≠ url

/-- A record without mirrors, of a package that is not local. -/
theorem FetchedRecord.of_remote {identity : Str} {p : ProvenanceRecord} (horigin : p.origin = "observed".toList)
    (hlocal : ∀ path origin, p ≠ .local path origin) : FetchedRecord identity p [] where
  origin := horigin
  «local» path origin h := absurd h (hlocal path origin)
  mirrors _ hmirror := absurd hmirror List.not_mem_nil

/-- What the workers without the index make of candidates, and what more terms keep. -/
structure KeptByRecords (P : Candidate → Prop) : Prop where
  fetched : ∀ svar identity ex p mirrors, FetchedRecord identity p mirrors → P (fetchedCandidate svar identity ex p mirrors)
  extended : ∀ cand k vs, P cand → P (ResolveState.extendTerms cand k vs)

theorem KeptByRecords.moreTerms (hkept : KeptByRecords P) {r : BindingResolver} {cand cand' : Candidate} (h : MoreTerms ctx r cand cand')
    (hcand : P cand) : P cand' := by
  induction h with
  | refl => exact hcand
  | tail _ hstep ih =>
    obtain ⟨d, k, vs, -, rfl⟩ := hstep
    exact hkept.extended _ k vs ih

theorem KeptByRecords.grown (hkept : KeptByRecords P) {r : BindingResolver} (hevery : EveryCandidate P σ) (hgrown : Grown ctx r σ σ') :
    EveryCandidate P σ' := by
  intro package v cand' hcand'
  obtain ⟨cand, hcand, hmore⟩ := hgrown package v cand' hcand'
  exact hkept.moreTerms hmore (hevery package v cand hcand)

/-! ### The workers -/

/-- The records of the worker of a `git` item. -/
theorem visitUrl_records {dep : UrlDep} {svar : SolverKey} (h : visitUrl ctx σ dep svar = .ok (σ', items)) :
    ∃ tree cache svar identity ex p mirrors, FetchedRecord identity p mirrors ∧
      σ' = seedFlagsOf tree dep.flagRequests (afterFetch σ dep.name tree cache (fetchedCandidate svar identity ex p mirrors)) := by
  obtain ⟨⟨tree, receipt, idx⟩, -, h⟩ := bind_eq_ok.mp h
  obtain ⟨-, -, h⟩ := bind_eq_ok.mp h
  obtain ⟨sid, -, h⟩ := bind_eq_ok.mp h
  obtain ⟨⟨ex, σ₁⟩, hex, h⟩ := bind_eq_ok.mp h
  have h := pure_eq_ok.mp h
  simp only [Prod.mk.injEq] at h
  obtain ⟨es, cache, ex₀, dv, rfl, -, -⟩ := extractRequires_cases hex
  refine ⟨tree, cache, _, _, _, _, _, ⟨?_, ?_, ?_⟩, h.1⟩
  · rfl
  · exact fun _ _ hp => by cases hp
  · exact fun mirror hmirror => ⟨_, _, _, _, rfl, of_decide_eq_true (List.mem_filter.mp hmirror).2⟩

/-- The record of the worker of a tarball. -/
theorem processTarball_records {dep : TarballDep} (h : processTarball ctx σ dep = .ok (σ', items)) :
    σ' = σ ∨ ∃ tree cache svar identity ex p mirrors, FetchedRecord identity p mirrors ∧
      σ' = afterFetch { σ with seenTarball := dep.url :: σ.seenTarball } dep.name tree cache (fetchedCandidate svar identity ex p mirrors) := by
  unfold processTarball at h
  split_ifs at h with hseen
  · cases h
    exact .inl rfl
  · obtain ⟨⟨tree, receipt, idx⟩, -, h⟩ := bind_eq_ok.mp h
    obtain ⟨sid, -, h⟩ := bind_eq_ok.mp h
    obtain ⟨⟨ex, σ₁⟩, hex, h⟩ := bind_eq_ok.mp h
    obtain ⟨svar, -, h⟩ := bind_eq_ok.mp h
    have h := pure_eq_ok.mp h
    simp only [Prod.mk.injEq] at h
    obtain ⟨es, cache, ex₀, dv, rfl, -, -⟩ := extractRequires_cases hex
    exact .inr ⟨tree, cache, _, _, _, _, _, .of_remote rfl (fun _ _ hp => by cases hp), h.1⟩

theorem recorded_dispatch (hkept : KeptByRecords P) {item : Item} (hevery : EveryCandidate P σ)
    (h : dispatch ctx σ item = .ok (σ', items)) : EveryCandidate P σ' := by
  cases item with
  | url dep =>
    obtain ⟨svar, -, ⟨-, h⟩ | ⟨-, h⟩⟩ := processUrl_cases h
    · exact hkept.grown hevery (grown_revisitUrl h)
    · obtain ⟨tree, cache, svar, identity, ex, p, mirrors, hrecord, rfl⟩ := visitUrl_records h
      refine EveryCandidate.seedFlagsOf ?_ tree dep.flagRequests
      refine EveryCandidate.afterFetch ?_ _ _ _ (hkept.fetched _ _ _ _ _ hrecord)
      exact hevery.congr rfl
  | «local» dep =>
    obtain ⟨-, rfl, -⟩ | ⟨-, svar, tree, ex, cache, -, -, rfl, -⟩ := processLocal_cases h
    · exact hevery
    · refine EveryCandidate.afterFetch ?_ _ _ _ (hkept.fetched _ _ _ _ _ ⟨rfl, fun _ _ _ => rfl, nofun⟩)
      exact hevery.congr rfl
  | tarball dep =>
    obtain rfl | ⟨tree, cache, svar, identity, ex, p, mirrors, hrecord, rfl⟩ := processTarball_records h
    · exact hevery
    · refine EveryCandidate.afterFetch ?_ _ _ _ (hkept.fetched _ _ _ _ _ hrecord)
      exact hevery.congr rfl
  | named name constraint ns =>
    obtain ⟨-, ⟨-, rfl⟩ | ⟨-, -, rfl⟩ | ⟨-, versions, stubKey, -, -, rfl⟩⟩ := processNamed_cases h
    · exact hevery.congr rfl
    · exact hevery
    · exact hevery.congr rfl
  | oci dep =>
    obtain ⟨-, rfl, -⟩ | ⟨-, svar, tree, ex, cache, -, -, rfl, -⟩ := processOci_cases h
    · exact hevery
    · refine EveryCandidate.afterFetch ?_ _ _ _ (hkept.fetched _ _ _ _ _ (.of_remote rfl fun _ _ hp => by cases hp))
      exact hevery.congr rfl

/-! ### A run -/

/-- What holds of every candidate that a query makes of a stub in this state. -/
def StubsMake (ctx : ResolveCtx) (σ : ResolveState) (P : Candidate → Prop) : Prop :=
  ∀ package version entry tree ex σ' items, (σ.stubsOf package).get? version = some entry →
    materializeNamed ctx σ package version entry = .ok (σ', items) → tree.contentHash = entry.contentHash →
      P (materializedCandidate package version entry tree ex)

theorem recorded_step (hkept : KeptByRecords P) (hmade : StubsMake ctx c.state P) (h : EveryCandidate P c.state)
    (hstep : Step ctx c c') : EveryCandidate P c'.state := by
  cases hstep with
  | gate htasks hgate => exact h.congr (candidates_gateOnly hgate)
  | suppress htasks hgate => exact h.congr (candidates_gateOnly hgate)
  | admitted htasks => exact h
  | dispatch htasks hwork => exact recorded_dispatch hkept h hwork
  | startFixpoint htasks hphase => exact h
  | round htasks hphase hiters hround hchange => exact hkept.grown h (grown_fixpointRound hround)
  | startSolve htasks hphase hiters hround hchange hconflicts => exact h
  | query htasks hphase hquery =>
    exact h.query hquery fun entry tree ex hentry hmaterialize hhash _ => hmade _ _ entry tree ex _ _ hentry hmaterialize hhash

/-- **What is recorded holds of every candidate of a run**: of what is seeded, of what is fetched, and of what is made of the index. -/
theorem recorded_of_reachable (hkept : KeptByRecords P)
    (hseeded : ∀ name version identity srcDir requires deps provenance source, SeededRecord identity provenance →
      P (seededCandidate name version identity srcDir requires deps provenance source))
    (hmade : ∀ σ, FromIndex ctx σ → StubsMake ctx σ P) (h : Reachable ctx c) : EveryCandidate P c.state := by
  obtain ⟨c₀, hstart, hrun⟩ := h
  have hstep : ∀ c c', Tabled ctx c ∧ EveryCandidate P c.state → Step ctx c c' → Tabled ctx c' ∧ EveryCandidate P c'.state :=
    fun _ _ h hstep => ⟨h.1.step hstep, recorded_step hkept (hmade _ h.1.fromIndex) h.2 hstep⟩
  have hboth : Tabled ctx c ∧ EveryCandidate P c.state :=
    Run.invariant hrun ⟨tabled_of_reachable ⟨c₀, hstart, .refl⟩, everyCandidate_starts hseeded hstart⟩ hstep
  exact hboth.2

/-! ### Observed records -/

/-- What a candidate records was observed, and a mirror that it declares is another URL than the one that was fetched. -/
structure Observed (cand : Candidate) : Prop where
  origin : ∀ p ∈ cand.provenance, p.origin = "observed".toList
  mirrors : ∀ mirror ∈ cand.declaredMirrorUrls, ∃ url refSpec commit submodules,
    cand.provenance = some (.git url refSpec commit "observed" submodules) ∧ mirror ≠ url

theorem keptByRecords_observed : KeptByRecords Observed where
  fetched svar identity ex p mirrors h := ⟨fun q hq => Option.some.inj hq ▸ h.origin, fun mirror hmirror => by
    obtain ⟨url, refSpec, commit, submodules, rfl, hne⟩ := h.mirrors mirror hmirror
    exact ⟨url, refSpec, commit, submodules, rfl, hne⟩⟩
  extended cand k vs h := by
    unfold ResolveState.extendTerms
    split_ifs
    · exact h
    · exact ⟨h.origin, h.mirrors⟩

theorem observed_materialized (name : Str) (version : Version) (entry : IndexVersion) (tree : PackageTree) (ex : Extracted) :
    Observed (materializedCandidate name version entry tree ex) where
  origin p hp := by
    obtain ⟨prov, -, rfl⟩ := Option.map_eq_some_iff.mp hp
    cases prov <;> rfl
  mirrors mirror hmirror := absurd hmirror List.not_mem_nil

/-- **What the candidates of a run record was observed**, and their mirrors are other URLs. -/
theorem observed_of_reachable (h : Reachable ctx c) : EveryCandidate Observed c.state := by
  refine recorded_of_reachable keptByRecords_observed ?_ (fun _ _ _ _ _ _ _ _ _ _ _ _ => observed_materialized _ _ _ _ _) h
  intro name version identity srcDir requires deps provenance source hrecord
  refine ⟨fun p hp => ?_, fun mirror hmirror => absurd hmirror List.not_mem_nil⟩
  have hp : provenance = some p := hp
  obtain ⟨_, rfl⟩ | ⟨_, rfl⟩ | ⟨rfl, -⟩ := hrecord
  · exact Option.some.inj hp ▸ rfl
  · exact Option.some.inj hp ▸ rfl
  · cases hp

/-! ### Local records -/

/-- The index has no package that lies in a directory; its reader makes `git` and `oci` transports alone. -/
def RemoteIndex (ctx : ResolveCtx) : Prop :=
  ∀ pkg ∈ ctx.index.packages, ∀ e ∈ pkg.versions, ∀ p ∈ e.provenances, ∀ path, p.transport ≠ .local path

/-- What says that it is local has no identity. -/
def LocalBare (cand : Candidate) : Prop := ∀ path origin, observedRecord cand = .local path origin → cand.identity = []

theorem keptByRecords_localBare : KeptByRecords LocalBare where
  fetched svar identity ex p mirrors h path origin hp := h.local path origin hp
  extended cand k vs h := by
    unfold ResolveState.extendTerms
    split_ifs
    · exact h
    · exact h

theorem stubsMake_localBare (hremote : RemoteIndex ctx) (hfrom : FromIndex ctx σ) : StubsMake ctx σ LocalBare := by
  intro package version entry tree ex σ' items hentry hmade hhash path origin hlocal
  obtain ⟨x, hx, hx'⟩ := Option.map_eq_some_iff.mp hentry
  obtain ⟨pkg, ⟨name, vs, ns, -, -, hpkg⟩, htable⟩ := hfrom.stubs _ _ x hx
  subst hx'
  have hoffered := (of_get?_tableOf htable).2.1
  obtain ⟨-, -, hmade⟩ := bind_eq_ok.mp hmade
  obtain ⟨⟨tree, receipt, idx⟩, hfetch, -⟩ := bind_eq_ok.mp hmade
  obtain ⟨i, prov, -, hprov, -⟩ := fetch_of_fetchAnyTracked hfetch
  cases hprovs : x.2.provenances with
  | nil =>
    rw [hprovs] at hprov
    simp at hprov
  | cons p rest =>
    have hrecord : observedRecord (materializedCandidate package version x.2 tree ex) = transportToRecord p.transport := by
      show ((x.2.provenances.head?.map fun p => transportToRecord p.transport).getD _) = _
      rw [hprovs]
      rfl
    have hnot := hremote pkg (mem_of_packageNamed hpkg) x.2 (List.mem_of_mem_filter hoffered) p (hprovs ▸ List.mem_cons_self)
    exfalso
    have hlocal : transportToRecord p.transport = .local path origin := hrecord ▸ hlocal
    cases htransport : p.transport with
    | «local» path' => exact hnot path' htransport
    | git => rw [htransport] at hlocal; cases hlocal
    | tarball => rw [htransport] at hlocal; cases hlocal
    | oci => rw [htransport] at hlocal; cases hlocal

/-- **A candidate of a run that says it is local has no identity.** -/
theorem localBare_of_reachable (hremote : RemoteIndex ctx) (h : Reachable ctx c) : EveryCandidate LocalBare c.state := by
  refine recorded_of_reachable keptByRecords_localBare ?_ (fun _ => stubsMake_localBare hremote) h
  intro name version identity srcDir requires deps provenance source hrecord path origin hlocal
  have hlocal : provenance.getD (.local [] "observed") = .local path origin := hlocal
  obtain ⟨_, rfl⟩ | ⟨_, rfl⟩ | ⟨-, hidentity⟩ := hrecord
  · cases hlocal
  · cases hlocal
  · exact hidentity

end Milpa.Core.Resolver

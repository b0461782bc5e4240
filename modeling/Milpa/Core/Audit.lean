import Milpa.Core.Takings
import Milpa.Core.Walk

/-!
# Audits

A run of the resolver, with the edge sets that are taken on it written down. Each
candidate is made of the edge set that was taken last for its version (`made_of_run`), and
the cache holds what was taken while no flags were requested (`sealed_of_run`).
-/

namespace Milpa.Core.Resolver

open Solver Result

variable {ctx : ResolveCtx} {σ σ' : ResolveState} {c c₀ c' : Config} {new : List Taking}

/-! ### Audits -/

/-- A configuration, with the edge sets that were taken on the way to it. -/
structure Audit where
  config : Config
  takings : List Taking

/-- What is taken by a worker on the way from a configuration to the next one. -/
def workTakings (ctx : ResolveCtx) (c c' : Config) : List Taking :=
  match c.tasks with
  | .dispatch q :: _ => (takingOf ctx c.state c'.state q.2).toList
  | _ => []

/-- A step of the resolver, with what it takes. -/
inductive TakingStep (ctx : ResolveCtx) : Config → List Taking → Config → Prop
  | work {c c' : Config} (hbusy : c.tasks ≠ [] ∨ c.phase ≠ .solve) (hstep : Step ctx c c') :
      TakingStep ctx c (workTakings ctx c c') c'
  | query {c : Config} {package : Str} {version : Version} {σ : ResolveState} {items : List Item} (htasks : c.tasks = [])
      (hphase : c.phase = .solve) (hquery : query ctx c.state package version = .ok (σ, items)) :
      TakingStep ctx c (queryTaking ctx c.state σ package version).toList
        { c with state := σ, tasks := [.gate (items.map fun item => (.transitive, item)) []] }

namespace Audit

/-- A run beside which the edge sets that are taken are written down. -/
def Run (ctx : ResolveCtx) : Audit → Audit → Prop :=
  Relation.ReflTransGen fun a a' => ∃ new, TakingStep ctx a.config new a'.config ∧ a'.takings = a.takings ++ new

/-- Where a resolve starts, nothing was taken. -/
def start (c : Config) : Audit := ⟨c, []⟩

variable {a a' : Audit}

/-- A step is a step of the resolver. -/
theorem step_of_takingStep (h : TakingStep ctx c new c') : Step ctx c c' := by
  cases h with
  | work hbusy hstep => exact hstep
  | query htasks hphase hquery => exact .query htasks hphase hquery

/-- Every step of the resolver takes something, or nothing. -/
theorem exists_takingStep (h : Step ctx c c') : ∃ new, TakingStep ctx c new c' := by
  by_cases hbusy : c.tasks ≠ [] ∨ c.phase ≠ .solve
  · exact ⟨_, .work hbusy h⟩
  · simp only [ne_eq, not_or, not_not] at hbusy
    obtain ⟨hnone, hsolve⟩ := hbusy
    cases h with
    | query htasks hphase hquery => exact ⟨_, .query htasks hphase hquery⟩
    | startFixpoint htasks hphase => simp [hsolve] at hphase
    | round htasks hphase hiters hround hchange => simp [hsolve] at hphase
    | startSolve htasks hphase hiters hround hchange hconflicts => simp [hsolve] at hphase
    | gate htasks hgate => simp [hnone] at htasks
    | suppress htasks hgate => simp [hnone] at htasks
    | admitted htasks => simp [hnone] at htasks
    | dispatch htasks hwork => simp [hnone] at htasks

/-- The audited runs are the runs. -/
theorem run_config (h : Run ctx a a') : Resolver.Run ctx a.config a'.config := by
  induction h with
  | refl => exact .refl
  | tail _ hstep ih =>
    obtain ⟨new, hstep, -⟩ := hstep
    exact ih.tail (step_of_takingStep hstep)

theorem exists_run (h : Resolver.Run ctx c c') : ∃ takings, Run ctx (start c) ⟨c', takings⟩ := by
  induction h with
  | refl => exact ⟨[], .refl⟩
  | tail _ hstep ih =>
    obtain ⟨takings, hrun⟩ := ih
    obtain ⟨new, hnew⟩ := exists_takingStep hstep
    exact ⟨takings ++ new, hrun.tail ⟨new, hnew, rfl⟩⟩

/-! ### What a step takes -/

theorem edgeCache_gateOnly {item : Item} {out : Option Item} (h : gateOnly ctx σ item = .ok (out, σ')) :
    σ'.edgeCache = σ.edgeCache := by
  obtain ⟨decision, binding, -, -, rfl, -⟩ := gateOnly_cases h
  unfold ResolveState.recordDiscovery
  split_ifs <;> rfl

/-- **A step takes nothing, or it takes one edge set and makes a candidate of it.** -/
theorem takingStep_cases (h : TakingStep ctx c new c') :
    new = [] ∧ TakesNothing ctx c.state c'.state ∨ ∃ t, new = [t] ∧ Takes ctx c.state c'.state t := by
  cases h with
  | query htasks hphase hquery =>
    obtain ⟨hnone, hnothing⟩ | ⟨t, ht, htakes⟩ := takes_query hquery
    · exact Or.inl ⟨by rw [hnone]; rfl, hnothing⟩
    · exact Or.inr ⟨t, by rw [ht]; rfl, htakes⟩
  | work hbusy hstep =>
    cases hstep with
    | gate htasks hgate =>
      exact Or.inl ⟨by rw [workTakings, htasks], takesNothing_of_eq (candidates_gateOnly hgate) (edgeCache_gateOnly hgate)⟩
    | suppress htasks hgate =>
      exact Or.inl ⟨by rw [workTakings, htasks], takesNothing_of_eq (candidates_gateOnly hgate) (edgeCache_gateOnly hgate)⟩
    | admitted htasks => exact Or.inl ⟨by rw [workTakings, htasks], takesNothing_of_eq rfl rfl⟩
    | @dispatch q rest σ items htasks hwork =>
      have htakings : ∀ c₁ : Config, c₁.state = σ → workTakings ctx c c₁ = (takingOf ctx c.state σ q.2).toList := by
        rintro c₁ rfl
        rw [workTakings, htasks]
      rw [htakings _ rfl]
      obtain ⟨hnone, hnothing⟩ | ⟨t, ht, htakes⟩ := takes_dispatch hwork
      · exact Or.inl ⟨by rw [hnone]; rfl, hnothing⟩
      · exact Or.inr ⟨t, by rw [ht]; rfl, htakes⟩
    | startFixpoint htasks hphase => exact Or.inl ⟨by rw [workTakings, htasks], takesNothing_of_eq rfl rfl⟩
    | round htasks hphase hiters hround hchange =>
      obtain ⟨requests, -, henriched, -⟩ := fixpointRound_cases hround
      exact Or.inl ⟨by rw [workTakings, htasks], by rw [henriched.rest], grown_fixpointRound hround⟩
    | startSolve htasks hphase hiters hround hchange hconflicts =>
      exact Or.inl ⟨by rw [workTakings, htasks], takesNothing_of_eq rfl rfl⟩
    | query htasks hphase hquery =>
      rcases hbusy with hbusy | hbusy
      · exact absurd htasks hbusy
      · exact absurd hphase hbusy

/-! ### Candidates and what they are made of -/

/-- What is taken last for a version of a package. -/
def lastTaking (a : Audit) (package : Str) (version : Version) : Option Taking :=
  a.takings.reverse.find? fun t => decide (t.package = package ∧ t.version.precedenceKey = version.precedenceKey)

theorem lastTaking_append (takings : List Taking) (t : Taking) (package : Str) (version : Version) :
    lastTaking ⟨c', takings ++ [t]⟩ package version =
      if t.package = package ∧ t.version.precedenceKey = version.precedenceKey then some t
      else lastTaking ⟨c, takings⟩ package version := by
  simp only [lastTaking, List.reverse_append, List.reverse_cons, List.reverse_nil, List.nil_append, List.singleton_append,
    List.find?_cons]
  split_ifs with hsame
  · simp [hsame]
  · simp [hsame]

/-- The terms of a candidate are those of an edge set, and what flags have added. -/
def MadeOf (ctx : ResolveCtx) (t : Taking) (cand : Candidate) : Prop :=
  ∃ r ex, edgesetToExtracted ctx r t.edges = .ok ex ∧ ∃ more, cand.deps = ex.deps ++ more

/-- Every candidate but those that are there from the start is made of what was taken last for it. -/
structure Made (ctx : ResolveCtx) (start : ResolveState) (a : Audit) : Prop where
  taken : ∀ package v cand, (a.config.state.candidatesOf package).get? v = some cand →
    ((start.candidatesOf package).get? v).isSome = true ∨ (a.lastTaking package v).isSome = true
  madeOf : ∀ package v cand, (a.config.state.candidatesOf package).get? v = some cand →
    ∀ t ∈ a.lastTaking package v, MadeOf ctx t cand

theorem MadeOf.moreTerms {r : BindingResolver} {t : Taking} {cand cand' : Candidate} (h : MadeOf ctx t cand)
    (hmore : MoreTerms ctx r cand cand') : MadeOf ctx t cand' := by
  induction hmore with
  | refl => exact h
  | tail _ hstep ih =>
    obtain ⟨r', ex, hex, more, hdeps⟩ := ih
    obtain ⟨d, k, vs, -, rfl⟩ := hstep
    refine ⟨r', ex, hex, ?_⟩
    unfold ResolveState.extendTerms
    split_ifs
    · exact ⟨more, hdeps⟩
    · exact ⟨more ++ [⟨k, vs⟩], by rw [hdeps, List.append_assoc]⟩

/-- **A step makes the candidate of what it takes, and leaves the other candidates what they are made of.** -/
theorem Made.step {start : ResolveState} (h : Made ctx start a) (hstep : TakingStep ctx a.config new c) :
    Made ctx start ⟨c, a.takings ++ new⟩ := by
  obtain ⟨rfl, hnothing⟩ | ⟨t, rfl, htakes⟩ := takingStep_cases hstep
  · have hsame : ∀ package v, lastTaking ⟨c, a.takings ++ []⟩ package v = a.lastTaking package v := by
      intro package v
      rw [lastTaking, List.append_nil, lastTaking]
    refine ⟨fun package v cand' hcand' => ?_, fun package v cand' hcand' t ht => ?_⟩
    · obtain ⟨cand, hcand, -⟩ := hnothing.grown package v cand' hcand'
      rw [hsame]
      exact h.taken package v cand hcand
    · obtain ⟨cand, hcand, hmore⟩ := hnothing.grown package v cand' hcand'
      rw [hsame] at ht
      exact (h.madeOf package v cand hcand t ht).moreTerms hmore
  · obtain ⟨ex, made, hex, hdeps, -, hname, hversion, -, hcandidates⟩ := htakes.stored
    have hget : ∀ package v, (c.state.candidatesOf package).get? v =
        if t.package = package ∧ t.version.precedenceKey = v.precedenceKey then some made
        else (a.config.state.candidatesOf package).get? v := by
      intro package v
      rw [candidatesOf_congr hcandidates, candidatesOf_storeCandidate, hname, hversion]
      by_cases hpackage : package = t.package
      · subst hpackage
        rw [if_pos rfl, VersionMap.get?_insert]
        simp [eq_comm]
      · rw [if_neg hpackage, if_neg fun hboth => hpackage hboth.1.symm]
    refine ⟨fun package v cand hcand => ?_, fun package v cand hcand t' ht' => ?_⟩
    · have hcand : (c.state.candidatesOf package).get? v = some cand := hcand
      rw [lastTaking_append (c := a.config)]
      rw [hget] at hcand
      split_ifs at hcand ⊢
      · exact Or.inr rfl
      · exact h.taken package v cand hcand
    · have hcand : (c.state.candidatesOf package).get? v = some cand := hcand
      rw [lastTaking_append (c := a.config)] at ht'
      rw [hget] at hcand
      split_ifs at hcand ht'
      · cases hcand
        cases ht'
        exact ⟨a.config.state.binding, ex, hex, [], by rw [hdeps, List.append_nil]⟩
      · exact h.madeOf package v cand hcand t' ht'

/-- The candidates of a resolve are made of what was taken last for them. -/
theorem made_of_run (hrun : Run ctx (start c₀) a) : Made ctx c₀.state a := by
  induction hrun with
  | refl =>
    refine ⟨fun package v cand hcand => Or.inl ?_, fun package v cand _ t ht => ?_⟩
    · have hcand : (c₀.state.candidatesOf package).get? v = some cand := hcand
      rw [hcand]
      rfl
    · have hnone : (start c₀).lastTaking package v = none := rfl
      rw [hnone] at ht
      cases ht
  | @tail a a' _ hstep ih =>
    obtain ⟨new, hstep, htakings⟩ := hstep
    have hmade := ih.step hstep
    rwa [← htakings] at hmade

/-! ### The cache -/

/-- What `extract_requires` does to the cache: with flags nothing; else it finds the edge set there, or seals it. -/
theorem requiredEdges_cases {cache cache' : EdgeCache} {v : Version} {ectx : EdgeSourceCtx} {sid : SourceId} {es : EdgeSet}
    (h : requiredEdges ctx cache v ectx sid = .ok (es, cache')) :
    ectx.activeFlags ≠ [] ∧ cache' = cache ∨
      ectx.activeFlags = [] ∧ ((cache sid).get? v.precedenceKey = some es ∧ cache' = cache ∨
        (cache sid).get? v.precedenceKey = none ∧
          cache' = Function.update cache sid ((cache sid).insert v.precedenceKey es)) := by
  unfold requiredEdges at h
  split_ifs at h with hflags
  · refine Or.inr ⟨List.isEmpty_iff.mp hflags, ?_⟩
    unfold resolveEdges at h
    split at h
    · rename_i hit hhit
      cases h
      exact Or.inl ⟨hhit, rfl⟩
    · rename_i hmiss
      obtain ⟨es', -, h⟩ := bind_eq_ok.mp h
      have h := pure_eq_ok.mp h
      simp only [Prod.mk.injEq] at h
      obtain ⟨rfl, rfl⟩ := h
      exact Or.inr ⟨hmiss, rfl⟩
  · obtain ⟨es', -, h⟩ := map_eq_ok.mp h
    cases h
    exact Or.inl ⟨by simpa using hflags, rfl⟩

/-- The cache is what was taken without flags. -/
structure Sealed (a : Audit) : Prop where
  taken : ∀ sid key es, (a.config.state.edgeCache sid).get? key = some es →
    ∃ t ∈ a.takings, t.ectx.activeFlags = [] ∧ t.sourceId = sid ∧ t.edges = es
  kept : ∀ t ∈ a.takings, t.ectx.activeFlags = [] →
    ∃ key, (a.config.state.edgeCache t.sourceId).get? key = some t.edges

/-- **A step seals what it takes without flags, and nothing else.** -/
theorem Sealed.step (h : Sealed a) (hstep : TakingStep ctx a.config new c) : Sealed ⟨c, a.takings ++ new⟩ := by
  obtain ⟨rfl, hnothing⟩ | ⟨t, rfl, htakes⟩ := takingStep_cases hstep
  · refine ⟨?_, ?_⟩
    · show ∀ sid key es, (c.state.edgeCache sid).get? key = some es → ∃ t ∈ a.takings ++ [], _
      rw [hnothing.cache, List.append_nil]
      exact h.taken
    · show ∀ t ∈ a.takings ++ [], t.ectx.activeFlags = [] → ∃ key, (c.state.edgeCache t.sourceId).get? key = some t.edges
      rw [hnothing.cache, List.append_nil]
      exact h.kept
  · obtain ⟨hflags, hcache⟩ | ⟨hflags, ⟨hhit, hcache⟩ | ⟨hmiss, hcache⟩⟩ := requiredEdges_cases htakes.edges
    · -- a set that is extracted for flags is not sealed
      refine ⟨fun sid key es hes => ?_, fun t' ht' hnone => ?_⟩
      · obtain ⟨t', ht', hrest⟩ := h.taken sid key es (hcache ▸ hes)
        exact ⟨t', List.mem_append_left _ ht', hrest⟩
      · show ∃ key, (c.state.edgeCache t'.sourceId).get? key = some t'.edges
        rw [hcache]
        rcases List.mem_append.mp ht' with ht' | ht'
        · exact h.kept t' ht' hnone
        · rw [List.mem_singleton.mp ht'] at hnone
          exact absurd hnone hflags
    · refine ⟨fun sid key es hes => ?_, fun t' ht' hnone => ?_⟩
      · obtain ⟨t', ht', hrest⟩ := h.taken sid key es (hcache ▸ hes)
        exact ⟨t', List.mem_append_left _ ht', hrest⟩
      · show ∃ key, (c.state.edgeCache t'.sourceId).get? key = some t'.edges
        rw [hcache]
        rcases List.mem_append.mp ht' with ht' | ht'
        · exact h.kept t' ht' hnone
        · rw [List.mem_singleton.mp ht']
          exact ⟨_, hhit⟩
    · have hget : ∀ sid key, (c.state.edgeCache sid).get? key =
          if sid = t.sourceId ∧ key = t.cacheVersion.precedenceKey then some t.edges else (a.config.state.edgeCache sid).get? key := by
        intro sid key
        rw [hcache, Function.update_apply]
        by_cases hsid : sid = t.sourceId
        · subst hsid
          rw [if_pos rfl, BTreeMap.get?_insert]
          simp
        · rw [if_neg hsid, if_neg fun hboth => hsid hboth.1]
      refine ⟨fun sid key es hes => ?_, fun t' ht' hnone => ?_⟩
      · have hes : (c.state.edgeCache sid).get? key = some es := hes
        rw [hget] at hes
        split_ifs at hes with hnew
        · exact ⟨t, List.mem_append_right _ (List.mem_singleton_self t), hflags, hnew.1.symm, Option.some.inj hes⟩
        · obtain ⟨t', ht', hrest⟩ := h.taken sid key es hes
          exact ⟨t', List.mem_append_left _ ht', hrest⟩
      · show ∃ key, (c.state.edgeCache t'.sourceId).get? key = some t'.edges
        rcases List.mem_append.mp ht' with ht' | ht'
        · obtain ⟨key, hkey⟩ := h.kept t' ht' hnone
          refine ⟨key, ?_⟩
          rw [hget, if_neg fun hboth => ?_]
          · exact hkey
          · rw [hboth.1, hboth.2, hmiss] at hkey
            cases hkey
        · rw [List.mem_singleton.mp ht']
          exact ⟨_, (hget _ _).trans (if_pos ⟨rfl, rfl⟩)⟩

/-- The cache of a resolve is what was taken without flags. -/
theorem sealed_of_run (hstart : Starts ctx c₀) (hrun : Run ctx (start c₀) a) : Sealed a := by
  obtain ⟨r, σ, queue, -, rfl, huntouched, -⟩ := starts_cases hstart
  induction hrun with
  | refl =>
    refine ⟨fun sid key es hes => ?_, by simp [start]⟩
    have hes : (σ.edgeCache sid).get? key = some es := hes
    rw [huntouched.edgeCache] at hes
    cases hes
  | @tail a a' _ hstep ih =>
    obtain ⟨new, hstep, htakings⟩ := hstep
    have hsealed := ih.step hstep
    rwa [← htakings] at hsealed

/-! ### Audits that are written down -/

/-- The audit where the resolver stops, or after so many steps. -/
def follow (ctx : ResolveCtx) : ℕ → Audit → Audit
  | 0, a => a
  | n + 1, a =>
    match next ctx a.config with
    | .ok (some c) => follow ctx n ⟨c, a.takings ++ workTakings ctx a.config c⟩
    | _ => a

/-- What is computed is a run. -/
theorem run_follow (n : ℕ) (a : Audit) : Run ctx a (a.follow ctx n) := by
  induction n generalizing a with
  | zero => exact .refl
  | succ n ih =>
    rw [follow]
    split
    · rename_i c hnext
      refine .head ⟨_, .work ?_ (step_of_next hnext), rfl⟩ (ih _)
      by_contra hidle
      simp only [ne_eq, not_or, not_not] at hidle
      rw [next, hidle.1] at hnext
      dsimp only at hnext
      rw [hidle.2] at hnext
      cases hnext
    · exact .refl

end Audit

end Milpa.Core.Resolver

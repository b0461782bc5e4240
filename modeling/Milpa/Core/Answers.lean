import Milpa.Core.GraphExact

/-!
# What the solver was told

PubGrub asks for the requirements of a version once and goes by the answer. A candidate
can get more of them later, while the solver is at work: where materializing another
package brings in a request for flags, or another spelling of a place, its terms are
extended or it is replaced. Where no package is touched that the solver has asked about,
the answers stand, and the graph of a solution is closed (`faithful_of_calm`).
-/

namespace Milpa.Core.Resolver

open Solver Result

variable {ctx : ResolveCtx} {σ σ' : ResolveState} {items : List Item} {c c' c₀ : Config} {package : Str} {version : Version}

/-! ### Sessions -/

/-- What the solver was told of a version. -/
structure Answer where
  package : Str
  version : Version
  terms : List SolverDep

/-- A configuration, with what the solver was told so far. -/
structure Session where
  config : Config
  answers : List Answer

/-- The terms of a candidate. -/
def termsOf (σ : ResolveState) (package : Str) (version : Version) : Option (List SolverDep) :=
  ((σ.candidatesOf package).get? version).map Candidate.deps

/-- `versions` has the version. -/
def listed (σ : ResolveState) (package : Str) (version : Version) : Bool :=
  ((σ.candidatesOf package).get? version).isSome || ((σ.stubsOf package).get? version).isSome

/-- The worker of an item stores a candidate, or gives one that is there a term more. -/
def disturbs (ctx : ResolveCtx) (σ : ResolveState) (svar : SolverKey) : Item → Bool
  | .url dep =>
    !decide ((dep.git, dep.gitRef, dep.subpath) ∈ σ.seenUrl) ||
      (unitedDeps σ dep svar).any fun d =>
        match ctx.lateKey σ.binding d, σ.firstCandidate svar.identity with
        | .ok k, some cand => decide (k.identity ∉ cand.requiresNames)
        | _, _ => false
  | .named .. => false
  | .local dep => !decide (dep.path ∈ σ.seenLocal)
  | .tarball dep => !decide (dep.url ∈ σ.seenTarball)
  | .oci dep => !decide (ociKey dep ∈ σ.seenOci)

namespace Session

/-- A step of the resolver with the solver. -/
inductive Step (ctx : ResolveCtx) : Session → Session → Prop
  /-- A step of which the solver learns nothing. -/
  | work {s : Session} {c : Config} (hstep : Resolver.Step ctx s.config c) : Step ctx s { s with config := c }
  /-- `dependencies`: the terms are those of the candidate, also where it has just been materialized. -/
  | ask {s : Session} {package : Str} {version : Version} {σ : ResolveState} {items : List Item} (htasks : s.config.tasks = [])
      (hphase : s.config.phase = .solve) (hlisted : listed s.config.state package version = true)
      (hquery : query ctx s.config.state package version = .ok (σ, items)) :
      Step ctx s
        ⟨{ s.config with state := σ, tasks := [.gate (items.map fun item => (.transitive, item)) []] },
          s.answers ++ [⟨package, version, (termsOf σ package version).getD []⟩]⟩

/-- A run whose steps all start from sessions that meet a condition. -/
def RunWhere (meets : Session → Prop) (ctx : ResolveCtx) : Session → Session → Prop :=
  Relation.ReflTransGen fun s s' => meets s ∧ Step ctx s s'

/-- Where a resolve starts, nothing has been asked. -/
def start (c : Config) : Session := ⟨c, []⟩

variable (s : Session)

/-- What the solver was told when it first asked for a version. -/
def told (package : Str) (version : Version) : Option (List SolverDep) :=
  (s.answers.find? fun a => decide (a.package = package ∧ a.version.precedenceKey = version.precedenceKey)).map Answer.terms

/-- The solver has asked about a package. -/
def asked (package : Str) : Bool := s.answers.any fun a => decide (a.package = package)

/-- The next step does not disturb what the solver was told: it is not the worker of an item that disturbs a package that the
solver has asked about. -/
def Calm (ctx : ResolveCtx) : Prop :=
  ∀ q rest svar, s.config.tasks = .dispatch q :: rest → s.config.state.binding.canonicalFor q.2.key = some svar →
    s.asked svar.identity = true → disturbs ctx s.config.state svar q.2 = false

/-- What PubGrub promises of a solution: it has asked for every version of it, and the terms that it was told hold. -/
def Solved (solution : Solution) : Prop :=
  ∀ package version, solution.get? package = some version → ∃ terms, s.told package version = some terms ∧
    ∀ d ∈ terms, ∃ w, solution.get? d.package.identity = some w ∧ d.constraint.contains w = true

/-- The solver was told what stands in the candidates, and what a solution requires is solved. -/
structure Faithful : Prop where
  stands : ∀ package version terms, s.told package version = some terms → termsOf s.config.state package version = some terms
  closed : ∀ solution, s.Solved solution → ∀ package ∈ solution.keys, ∀ r ∈ requiresOf s.config.state solution package,
    r ∈ solvedNames s.config.state solution
  edges : ∀ solution trust graph, s.Solved solution → graphOf s.config.state solution trust = .ok graph → EdgesNamed graph

end Session

/-! ### Candidates that a worker leaves alone -/

theorem candidatesOf_extendFirst_of_ne {p : Str} (hne : package ≠ p) (k : SolverKey) (vs : VersionSet) :
    (σ.extendFirst p k vs).candidatesOf package = σ.candidatesOf package := by
  unfold ResolveState.extendFirst
  split
  · rfl
  · rw [candidatesOf_insert, if_neg hne]

/-- A term about a package that is required already is not added. -/
theorem candidatesOf_extendFirst_of_required {p : Str} {k : SolverKey} {vs : VersionSet}
    (h : ∀ cand, σ.firstCandidate p = some cand → k.identity ∈ cand.requiresNames) :
    (σ.extendFirst p k vs).candidatesOf package = σ.candidatesOf package := by
  unfold ResolveState.extendFirst
  split
  · rfl
  · rename_i key v cand hhead
    rw [candidatesOf_insert]
    split_ifs with hp
    · have hrequired := h cand (by rw [ResolveState.firstCandidate, hhead]; rfl)
      rw [ResolveState.extendTerms, if_pos hrequired, hp]
      refine BTreeMap.ext_get? fun j => ?_
      rw [BTreeMap.get?_insert]
      split_ifs with hj
      · rw [hj, BTreeMap.mem_entries.mp (List.mem_of_mem_head? hhead)]
      · rfl
    · rfl

/-- The loop over newly admitted dependencies touches no other package, and its own if it requires them already. -/
theorem candidatesOf_admitNewly {p : Str} {manifest : Manifest} {old new : List Str}
    (h : ctx.admitNewly p manifest old new σ = .ok (σ', items))
    (hrequired : p = package → ∀ d ∈ newlyAdmitted manifest old new, ∀ k, ctx.lateKey σ.binding d = .ok k →
      ∀ cand, σ.firstCandidate p = some cand → k.identity ∈ cand.requiresNames) :
    σ'.candidatesOf package = σ.candidatesOf package := by
  by_cases hp : p = package
  · subst hp
    refine admitNewly_invariant (Q := fun τ => τ.candidatesOf p = σ.candidatesOf p) h rfl fun τ d k hd hk hτ => ?_
    rw [candidatesOf_extendFirst_of_required, hτ]
    intro cand hcand
    rw [ResolveState.firstCandidate, hτ] at hcand
    exact hrequired rfl d hd k hk cand hcand
  · refine admitNewly_invariant (Q := fun τ => τ.candidatesOf package = σ.candidatesOf package) h rfl fun τ d k _ _ hτ => ?_
    rw [candidatesOf_extendFirst_of_ne (Ne.symm hp), hτ]

theorem candidatesOf_revisitUrl {dep : UrlDep} {svar : SolverKey} (h : revisitUrl ctx σ dep svar = .ok (σ', items))
    (hquiet : svar.identity = package → disturbs ctx σ svar (.url dep) = false) : σ'.candidatesOf package = σ.candidatesOf package := by
  obtain ⟨rfl, -⟩ | ⟨manifest, hmanifest, hidentity, hpos, ⟨rfl, -⟩ | hadmit⟩ := revisitUrl_steps h
  · rfl
  · rfl
  · refine (candidatesOf_admitNewly hadmit fun hp d hd k hk cand hcand => ?_).trans rfl
    have hnone := hquiet hp
    rw [disturbs, Bool.or_eq_false_iff, List.any_eq_false] at hnone
    have hd' := hnone.2 d (by rw [unitedDeps_eq hmanifest hpos hidentity]; exact hd)
    have hk' : ctx.lateKey σ.binding d = .ok k := hk
    have hcand' : σ.firstCandidate svar.identity = some cand := hcand
    rw [hk', hcand'] at hd'
    simpa using hd'

/-- A worker that does not disturb a package leaves its candidates alone. -/
theorem candidatesOf_dispatch {item : Item} (h : dispatch ctx σ item = .ok (σ', items))
    (hquiet : ∀ svar, σ.binding.canonicalFor item.key = some svar → svar.identity = package → disturbs ctx σ svar item = false) :
    σ'.candidatesOf package = σ.candidatesOf package := by
  have hfetch : ∀ {τ : ResolveState} {svar : SolverKey} {identity : Str} {ex : Extracted} {record : ProvenanceRecord}
      {mirrors : List Str} (dir : Str) (tree : PackageTree) (cache : EdgeCache), svar.identity ≠ package →
      (afterFetch τ dir tree cache (fetchedCandidate svar identity ex record mirrors)).candidatesOf package =
        τ.candidatesOf package := by
    intro τ svar identity ex record mirrors dir tree cache hne
    rw [candidatesOf_afterFetch]
    exact if_neg (Ne.symm hne)
  cases item with
  | url dep =>
    obtain ⟨svar, hsvar, ⟨-, h⟩ | ⟨hseen, h⟩⟩ := processUrl_cases h
    · exact candidatesOf_revisitUrl h (hquiet svar hsvar)
    · have hne : svar.identity ≠ package := fun hp => by
        have hnone := hquiet svar hsvar hp
        simp [disturbs, hseen] at hnone
      obtain ⟨tree, ex, cache, record, mirrors, -, rfl, -⟩ := visitUrl_cases h
      rw [candidatesOf_congr (candidates_seedFlagsOf _ _ _), hfetch _ _ _ hne]
      rfl
  | «local» dep =>
    obtain ⟨-, rfl, -⟩ | ⟨hseen, svar, tree, ex, cache, hsvar, -, rfl, -⟩ := processLocal_cases h
    · rfl
    · rw [hfetch _ _ _ fun hp => by simpa [disturbs, hseen] using hquiet svar hsvar hp]
      rfl
  | tarball dep =>
    obtain ⟨-, rfl, -⟩ | ⟨hseen, svar, tree, ex, cache, record, hsvar, -, rfl, -⟩ := processTarball_cases h
    · rfl
    · rw [hfetch _ _ _ fun hp => by simpa [disturbs, hseen] using hquiet svar hsvar hp]
      rfl
  | named name constraint ns =>
    obtain ⟨-, ⟨-, rfl⟩ | ⟨-, -, rfl⟩ | ⟨-, versions, stubKey, -, -, rfl⟩⟩ := processNamed_cases h
    · rfl
    · rfl
    · rfl
  | oci dep =>
    obtain ⟨-, rfl, -⟩ | ⟨hseen, svar, tree, ex, cache, hsvar, -, rfl, -⟩ := processOci_cases h
    · rfl
    · rw [hfetch _ _ _ fun hp => by simpa [disturbs, hseen] using hquiet svar hsvar hp]
      rfl

/-! ### What stands -/

theorem termsOf_congr (h : σ'.candidatesOf package = σ.candidatesOf package) (version : Version) :
    termsOf σ' package version = termsOf σ package version := by
  rw [termsOf, h, termsOf]

theorem candidatesOf_afterQuery {entry : IndexVersion} {tree : PackageTree} {ex : Extracted} {cache : EdgeCache}
    {requests : List FlagRequest} (p : Str) :
    (seedFlagsOf tree requests (afterMaterialize σ package version entry tree ex cache)).candidatesOf p =
      if p = package then (σ.candidatesOf package).insert version (materializedCandidate package version entry tree ex)
      else σ.candidatesOf p := by
  rw [candidatesOf_congr (candidates_seedFlagsOf _ _ _), candidatesOf_afterMaterialize]

/-- A query leaves the terms of every version for which there are any. -/
theorem termsOf_query (h : query ctx σ package version = .ok (σ', items)) {p : Str} {v : Version} {terms : List SolverDep}
    (hterms : termsOf σ p v = some terms) : termsOf σ' p v = some terms := by
  obtain ⟨rfl, -⟩ | ⟨hnone, entry, -, h⟩ := query_cases h
  · exact hterms
  · obtain ⟨tree, ex, cache, -, -, -, rfl, -⟩ := materializeNamed_cases h
    rw [termsOf, candidatesOf_afterQuery]
    split_ifs with hp
    · subst hp
      have hne : v.precedenceKey ≠ version.precedenceKey := fun hkey => by
        rw [termsOf, VersionMap.get?, VersionMap.entry_congr _ hkey, ← VersionMap.get?, hnone] at hterms
        cases hterms
      rw [VersionMap.get?_insert, if_neg hne]
      exact hterms
    · exact hterms

/-- A version that is listed has terms after it was asked for. -/
theorem isSome_termsOf_query (hlisted : listed σ package version = true) (h : query ctx σ package version = .ok (σ', items)) :
    (termsOf σ' package version).isSome = true := by
  rw [termsOf, Option.isSome_map]
  unfold query at h
  split at h
  · rename_i hcand
    cases h
    rw [hcand]
    rfl
  · rename_i hnone
    split at h
    · obtain ⟨tree, ex, cache, -, -, -, rfl, -⟩ := materializeNamed_cases h
      rw [candidatesOf_afterQuery, if_pos rfl, VersionMap.get?_insert, if_pos rfl]
      rfl
    · rename_i hnone'
      rw [listed, hnone, hnone'] at hlisted
      cases hlisted

namespace Session

variable {s s' : Session}

/-- The answers so far stand, and there are none before the solver is at work. -/
structure Kept (s : Session) : Prop where
  early : s.config.phase ≠ .solve → s.answers = []
  terms : ∀ a ∈ s.answers, termsOf s.config.state a.package a.version = some a.terms

theorem Kept.congr (h : Kept s) {c : Config} (hphase : c.phase = s.config.phase)
    (hterms : ∀ p v terms, termsOf s.config.state p v = some terms → termsOf c.state p v = some terms) :
    Kept { s with config := c } :=
  ⟨fun hne => h.early (hphase ▸ hne), fun a ha => hterms _ _ _ (h.terms a ha)⟩

/-- **A step that starts calmly keeps the answers.** -/
theorem Kept.step (h : Kept s) (hcalm : s.Calm ctx) (hstep : Step ctx s s') : Kept s' := by
  cases hstep with
  | @work c hstep =>
    cases hstep with
    | gate htasks hgate =>
      refine h.congr rfl fun p v terms hterms => ?_
      rwa [termsOf_congr (candidatesOf_congr (candidates_gateOnly hgate) p)]
    | suppress htasks hgate =>
      refine h.congr rfl fun p v terms hterms => ?_
      rwa [termsOf_congr (candidatesOf_congr (candidates_gateOnly hgate) p)]
    | admitted htasks => exact h.congr rfl fun _ _ _ hterms => hterms
    | @dispatch q rest σ items htasks hwork =>
      refine ⟨h.early, fun a ha => ?_⟩
      have hasked : s.asked a.package = true := List.any_eq_true.mpr ⟨a, ha, decide_eq_true rfl⟩
      have hsame : σ.candidatesOf a.package = s.config.state.candidatesOf a.package :=
        candidatesOf_dispatch hwork fun svar hsvar hp => hcalm q rest svar htasks hsvar (hp ▸ hasked)
      exact (termsOf_congr hsame a.version).trans (h.terms a ha)
    | startFixpoint htasks hphase =>
      have hnone : s.answers = [] := h.early (by simp [hphase])
      exact ⟨fun _ => hnone, by simp [hnone]⟩
    | round htasks hphase hiters hround hchange =>
      have hnone : s.answers = [] := h.early (by simp [hphase])
      exact ⟨fun _ => hnone, by simp [hnone]⟩
    | startSolve htasks hphase hiters hround hchange hconflicts =>
      exact ⟨fun hne => absurd rfl hne, h.terms⟩
    | query htasks hphase hquery => exact h.congr rfl fun p v terms hterms => termsOf_query hquery hterms
  | ask htasks hphase hlisted hquery =>
    refine ⟨fun hne => absurd hphase hne, fun a ha => ?_⟩
    rcases List.mem_append.mp ha with ha | ha
    · exact termsOf_query hquery (h.terms a ha)
    · obtain ⟨terms, hterms⟩ := Option.isSome_iff_exists.mp (isSome_termsOf_query hlisted hquery)
      rw [List.mem_singleton.mp ha, hterms]
      rfl

theorem Kept.told (h : Kept s) {terms : List SolverDep} (ht : s.told package version = some terms) :
    termsOf s.config.state package version = some terms := by
  obtain ⟨a, ha, rfl⟩ := Option.map_eq_some_iff.mp ht
  obtain ⟨hp, hv⟩ : a.package = package ∧ a.version.precedenceKey = version.precedenceKey := by simpa using List.find?_some ha
  rw [← h.terms a (List.mem_of_find?_eq_some ha), termsOf, termsOf, hp, VersionMap.get?, VersionMap.get?,
    VersionMap.entry_congr _ hv]

/-- The invariant rule of runs with the solver. -/
theorem RunWhere.invariant {meets inv : Session → Prop} (h : RunWhere meets ctx s s') (hs : inv s)
    (hstep : ∀ s s', meets s → inv s → Step ctx s s' → inv s') : inv s' := by
  induction h with
  | refl => exact hs
  | tail _ h ih => exact hstep _ _ h.1 ih h.2

/-- The resolver's part of a run with the solver. -/
theorem run_config {meets : Session → Prop} (h : RunWhere meets ctx s s') : Run ctx s.config s'.config := by
  induction h with
  | refl => exact .refl
  | tail _ hstep ih =>
    cases hstep.2 with
    | work hwork => exact ih.tail hwork
    | ask htasks hphase hlisted hquery => exact ih.tail (.query htasks hphase hquery)

end Session

/-- The candidates of a resolve require the packages that their terms are about. -/
theorem balanced_of_reachable (h : Reachable ctx c) : EveryCandidate Balanced c.state := by
  obtain ⟨c₀, hstart, hrun⟩ := h
  obtain ⟨r, σ, queue, htidy, rfl, huntouched, -⟩ := starts_cases hstart
  have hstep : ∀ c c', Books ctx c ∧ EveryCandidate Balanced c.state → Step ctx c c' →
      Books ctx c' ∧ EveryCandidate Balanced c'.state :=
    fun c c' hc hstep => ⟨hc.1.step hstep, hc.2.step (keptBy_balanced hc.1.tidy) hstep⟩
  exact (Run.invariant hrun ⟨books_start (huntouched.binding.symm ▸ htidy), huntouched.balanced⟩ hstep).2

namespace Session

variable {s s' : Session}

/-- What is required by a package of a solution is solved, where the answers stand. -/
theorem Kept.closed (h : Kept s) (hbalanced : EveryCandidate Balanced s.config.state) {solution : Solution} (hsolved : s.Solved solution)
    {r : Str} (hpackage : package ∈ solution.keys) (hr : r ∈ requiresOf s.config.state solution package) :
    r ∈ solvedNames s.config.state solution := by
  have hpicked : ∀ {p : Str} {v : Version}, solution.get? p = some v → ∃ cand, picked s.config.state solution p = some cand ∧
      s.told p v = some cand.deps := by
    intro p v hv
    obtain ⟨terms, hterms, -⟩ := hsolved p v hv
    obtain ⟨cand, hcand, rfl⟩ := Option.map_eq_some_iff.mp (h.told hterms)
    exact ⟨cand, by rw [picked, hv]; exact hcand, hterms⟩
  obtain ⟨v, hv⟩ := BTreeMap.mem_keys.mp hpackage
  obtain ⟨cand, hcand, htold⟩ := hpicked hv
  have hpaired : Balanced cand := by
    rw [picked, hv] at hcand
    exact hbalanced package v cand hcand
  rw [requiresOf, hcand] at hr
  have hr : r ∈ cand.requiresNames := hr
  have hroot : r ≠ root := fun heq => hpaired.plain (heq ▸ hr)
  rw [hpaired.names] at hr
  obtain ⟨d, hd, rfl⟩ := List.mem_map.mp hr
  obtain ⟨terms, hterms, hall⟩ := hsolved package v hv
  obtain rfl : terms = cand.deps := Option.some.inj (hterms.symm.trans htold)
  obtain ⟨w, hw, -⟩ := hall d hd
  obtain ⟨cand', hcand', -⟩ := hpicked hw
  refine List.mem_filter.mpr ⟨BTreeMap.mem_keys.mpr ⟨w, hw⟩, ?_⟩
  rw [hcand']
  simpa using hroot

/-! ### Sessions that are written down -/

/-- The session after the solver has asked for a version. -/
def put (ctx : ResolveCtx) (s : Session) (package : Str) (version : Version) : Option Session :=
  match s.config.tasks, s.config.phase, query ctx s.config.state package version with
  | [], .solve, .ok (σ, items) =>
    if listed s.config.state package version then
      some ⟨{ s.config with state := σ, tasks := [.gate (items.map fun item => (.transitive, item)) []] },
        s.answers ++ [⟨package, version, (termsOf σ package version).getD []⟩]⟩
    else none
  | _, _, _ => none

/-- The session where the solver has no question left, after these ones and fewer than so many steps. -/
def follow (check : Session → Bool) (ctx : ResolveCtx) : ℕ → List (Str × Version) → Session → Option Session
  | 0, _, _ => none
  | n + 1, questions, s =>
    if check s then
      match next ctx s.config with
      | .ok (some c) => follow check ctx n questions { s with config := c }
      | .ok none =>
        match questions.head? with
        | none => some s
        | some q => (s.put ctx q.1 q.2).bind (follow check ctx n questions.tail)
      | .error _ => none
    else none

theorem step_of_put (h : s.put ctx package version = some s') : Step ctx s s' := by
  unfold put at h
  split at h
  · rename_i htasks hphase hquery
    split_ifs at h with hlisted
    cases h
    exact .ask htasks hphase hlisted hquery
  · cases h

/-- What is computed is a run. -/
theorem runWhere_of_follow {check : Session → Bool} {meets : Session → Prop} (hmeets : ∀ s, check s = true → meets s) {n : ℕ}
    {questions : List (Str × Version)} (h : s.follow check ctx n questions = some s') : RunWhere meets ctx s s' := by
  induction n generalizing s questions with
  | zero => cases h
  | succ n ih =>
    rw [follow] at h
    split_ifs at h with hcheck
    split at h
    · rename_i c hnext
      exact .head ⟨hmeets s hcheck, .work (step_of_next hnext)⟩ (ih h)
    · split at h
      · cases h
        exact .refl
      · obtain ⟨s₁, hput, h⟩ := Option.bind_eq_some_iff.mp h
        exact .head ⟨hmeets s hcheck, step_of_put hput⟩ (ih h)
    · cases h

/-- The check that a session is calm. -/
def calm (ctx : ResolveCtx) (s : Session) : Bool :=
  match s.config.tasks with
  | .dispatch q :: _ =>
    match s.config.state.binding.canonicalFor q.2.key with
    | some svar => !(s.asked svar.identity && disturbs ctx s.config.state svar q.2)
    | none => true
  | _ => true

theorem calm_of_check (h : s.calm ctx = true) : s.Calm ctx := by
  intro q rest svar htasks hsvar hasked
  unfold calm at h
  rw [htasks] at h
  dsimp only at h
  rw [hsvar] at h
  dsimp only at h
  simpa [hasked] using h

/-- The check that a solution is one. -/
def solves (s : Session) (solution : Solution) : Bool :=
  solution.entries.all fun e => (s.told e.1 e.2).any fun terms => terms.all fun d =>
    (solution.get? d.package.identity).any fun w => d.constraint.contains w

theorem solved_of_check {solution : Solution} (h : s.solves solution = true) : s.Solved solution := by
  intro package version hversion
  have hasked := List.all_eq_true.mp h (package, version) (BTreeMap.mem_entries.mpr hversion)
  obtain ⟨terms, hterms, hall⟩ := (Option.any_eq_true _ _).mp hasked
  exact ⟨terms, hterms, fun d hd => (Option.any_eq_true _ _).mp (List.all_eq_true.mp hall d hd)⟩

/-- A library with a flag that adds a requirement. -/
def flagged : Manifest :=
  { Manifest.initial with
    name := some "lib"
    version := some (.release 1 0 0)
    flags := [⟨"f", false, [], [], [], [], []⟩]
    deps := [.url { urlDep "extra" "https://h/extra" "main" none with predicates := [⟨"flag", ["f"], false⟩] }] }

/-- A tool that uses the library, with requests for flags. -/
def toolWith (requests : List FlagRequest) : Manifest :=
  { Manifest.initial with
    name := some "tool"
    deps := [.url { urlDep "lib" "https://h/lib" "main" none with flagRequests := requests }] }

/-- A root that uses the library and the tool. -/
def toolUser : Manifest :=
  { Manifest.initial with
    name := some "app"
    deps := [.url (urlDep "lib" "https://h/lib" "main" none), .named ⟨"tool", none, none, [], false, [], none⟩] }

/-- A world with the library, the tool, and what the library requires under its flag. -/
def toolWorld (requests : List FlagRequest) : ResolveCtx :=
  { ResolveCtx.offline with
    index := ⟨[⟨"tool", [], [{ entryOf "1.0.0" "sha256:t" with provenances := [.git "https://h/tool" "main" none] }]⟩]⟩
    fetch := fetchFrom [("https://h/lib", treeOf "sha256:l" flagged), ("https://h/tool", treeOf "sha256:t" (toolWith requests)),
      ("https://h/extra", treeOf "sha256:e" Manifest.initial)] }

/-- The solver keys of the library and of the tool. -/
def libKey : Str := "git+https://h/lib#ref=main"

def toolKey : Str := "pkg+tianguis/tool"

/-- The root, the library and the tool. -/
def toolQuestions : List (Str × Version) := [(root, rootVersion), (libKey, .release 1 0 0), (toolKey, .release 1 0 0)]

def toolSolution : Solution := toolQuestions.foldl (fun m q => m.insert q.1 q.2) BTreeMap.empty

/-- A session of the solver in that world comes to a graph, and this is looked for in it. -/
def toolsCome (requests : List FlagRequest) (check : ResolveCtx → Session → Bool) (good : Session → List ResolvedDep → Bool) :
    Bool :=
  let env := toolWorld requests
  let ctx := packageCtx env toolUser (treeOf [] toolUser)
  match startPackage env toolUser (treeOf [] toolUser) with
  | .ok c =>
    match (start c).follow (check ctx) ctx 40 toolQuestions with
    | some s =>
      match graphOf s.config.state toolSolution none with
      | .ok graph => s.solves toolSolution && good s graph
      | .error _ => false
    | none => false
  | .error _ => false

theorem run_of_toolsCome {requests : List FlagRequest} {check : ResolveCtx → Session → Bool} {meets : ResolveCtx → Session → Prop}
    (hmeets : ∀ ctx s, check ctx s = true → meets ctx s) {good : Session → List ResolvedDep → Bool}
    (h : toolsCome requests check good = true) :
    ∃ ctx c₀ s graph, Starts ctx c₀ ∧ RunWhere (meets ctx) ctx (start c₀) s ∧ s.Solved toolSolution ∧
      graphOf s.config.state toolSolution none = .ok graph ∧ good s graph = true := by
  unfold toolsCome at h
  dsimp only at h
  split at h
  · rename_i c₀ hstart
    split at h
    · rename_i s hfollow
      split at h
      · rename_i graph hgraph
        obtain ⟨hsolved, hgood⟩ := (Bool.and_eq_true _ _).mp h
        exact ⟨_, c₀, s, graph, .package hstart, runWhere_of_follow (hmeets _) hfollow, solved_of_check hsolved, hgraph, hgood⟩
      · cases h
    · cases h
  · cases h

/-! ### The claim -/

/-- **In a run whose steps all start calmly, what the solver was told stands, and the solution and its graph are closed.** -/
theorem faithful_of_calm (hstart : Starts ctx c₀) (hrun : RunWhere (fun s => s.Calm ctx) ctx (start c₀) s) : Faithful s := by
  have hreach : Reachable ctx s.config := ⟨c₀, hstart, run_config hrun⟩
  have hkept : Kept s := hrun.invariant ⟨fun _ => rfl, by simp [start]⟩ fun _ _ hcalm hkept hstep => hkept.step hcalm hstep
  have hclosed : ∀ solution, s.Solved solution → ∀ package ∈ solution.keys, ∀ r ∈ requiresOf s.config.state solution package,
      r ∈ solvedNames s.config.state solution :=
    fun solution hsolved package hpackage r hr => hkept.closed (balanced_of_reachable hreach) hsolved hpackage hr
  refine ⟨fun package version terms h => hkept.told h, hclosed, fun solution trust graph hsolved hgraph => ?_⟩
  refine edgesNamed_graphOf (filed_of_reachable hreach) (fun name hname r hr => ?_) hgraph
  exact hclosed solution hsolved name (List.mem_filter.mp hname).1 r hr

/-- The tool uses the library as it is. -/
theorem faithful_of_calm_tool :
    ∃ ctx c₀ s graph, Starts ctx c₀ ∧ RunWhere (fun s => s.Calm ctx) ctx (start c₀) s ∧ s.Solved toolSolution ∧
      graphOf s.config.state toolSolution none = .ok graph ∧ graph.length = 2 ∧ Faithful s := by
  have hcome : toolsCome [] (fun ctx s => s.calm ctx) (fun _ graph => decide (graph.length = 2)) = true := by
    decide
  obtain ⟨ctx, c₀, s, graph, hstart, hrun, hsolved, hgraph, hlength⟩ :=
    run_of_toolsCome (fun _ _ h => calm_of_check h) hcome
  exact ⟨ctx, c₀, s, graph, hstart, hrun, hsolved, hgraph, of_decide_eq_true hlength, faithful_of_calm hstart hrun⟩

/-- The tool asks for the flag of the library after the solver has been told that the library requires nothing. -/
theorem late_request_unfaithful :
    ∃ ctx c₀ s graph, Starts ctx c₀ ∧ RunWhere (fun _ => True) ctx (start c₀) s ∧ s.Solved toolSolution ∧
      graphOf s.config.state toolSolution none = .ok graph ∧ toolSolution.get? libKey = some (.release 1 0 0) ∧
      s.told libKey (.release 1 0 0) ≠ termsOf s.config.state libKey (.release 1 0 0) ∧
      ∃ d ∈ graph, ∃ r ∈ d.requires, ∀ d' ∈ graph, (DepKey.mk d'.name d'.namespace).solverVar ≠ r := by
  have hcome : toolsCome [⟨"f", true⟩] (fun _ _ => true) (fun s graph =>
      decide (s.told libKey (.release 1 0 0) ≠ termsOf s.config.state libKey (.release 1 0 0)) &&
        graph.any fun d => d.requires.any fun r => graph.all fun d' =>
          decide ((DepKey.mk d'.name d'.namespace).solverVar ≠ r)) = true := by
    decide
  obtain ⟨ctx, c₀, s, graph, hstart, hrun, hsolved, hgraph, hgood⟩ := run_of_toolsCome (fun _ _ _ => trivial) hcome
  obtain ⟨hdiffer, hedge⟩ := (Bool.and_eq_true _ _).mp hgood
  obtain ⟨d, hd, hedge⟩ := List.any_eq_true.mp hedge
  obtain ⟨r, hr, hedge⟩ := List.any_eq_true.mp hedge
  exact ⟨ctx, c₀, s, graph, hstart, hrun, hsolved, hgraph, by decide, of_decide_eq_true hdiffer, d, hd, r, hr,
    fun d' hd' => of_decide_eq_true (List.all_eq_true.mp hedge d' hd')⟩

end Session

end Milpa.Core.Resolver

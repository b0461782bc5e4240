import Milpa.Core.EntryAgree
import Milpa.Core.WorkerErrors

/-!
# Captured failures

A query of the solver cannot fail: `dependencies` captures the first error, and answers that
there are no dependencies. PubGrub goes on, and the entry points look at the slot only where
it has found a solution. So a captured error comes out exactly if the search ends with one
(`surfaces_iff`), and is masked by a conflict otherwise.
-/

namespace Milpa.Core.Resolver

open Solver

variable {host : Host} {opts : ResolveOpts} {ctx : ResolveCtx} {c c' : Config} {slot slot' : Option ResError} {failures : List ResError}

/-! ### Queries -/

/-- `capture`: an error that is there stays. -/
def capture (slot : Option ResError) (e : ResError) : Option ResError := slot <|> some e

/-- `dependencies`, for a version of a package, with the work on what it brings in. -/
def Host.ask (host : Host) (ctx : ResolveCtx) (c : Config) (package : Str) (version : Version) : Outcome ResError Config := do
  let (σ, items) ← query ctx c.state package version
  exhaust ctx host.fuel { c with state := σ, tasks := [.gate (items.map fun item => (.transitive, item)) []] }

/-- PubGrub asks one query after the other, with the errors of those that fail; a query that fails leaves some state behind. -/
inductive Asks (host : Host) (ctx : ResolveCtx) : Config → Option ResError → List ResError → Config → Option ResError → Prop
  | nil (c : Config) (slot : Option ResError) : Asks host ctx c slot [] c slot
  | answered {c c₁ c' : Config} {slot slot' : Option ResError} {failures : List ResError} {package : Str} {version : Version}
      (hask : host.ask ctx c package version = pure c₁) (h : Asks host ctx c₁ slot failures c' slot') :
      Asks host ctx c slot failures c' slot'
  | captured {c c' : Config} {slot slot' : Option ResError} {failures : List ResError} {package : Str} {version : Version} {e : ResError}
      {σ : ResolveState} (hask : host.ask ctx c package version = throw e)
      (h : Asks host ctx { c with state := σ } (capture slot e) failures c' slot') :
      Asks host ctx c slot (e :: failures) c' slot'

/-- **The slot has the first error.** -/
theorem Asks.slot_eq (h : Asks host ctx c slot failures c' slot') : slot' = (slot <|> failures.head?) := by
  induction h with
  | nil c slot => cases slot <;> rfl
  | answered _ _ ih => exact ih
  | captured _ _ ih =>
    rename_i slot _ _ _ _ _ _ _ _
    rw [ih]
    cases slot <;> rfl

/-- A walk fails with an error of a worker. -/
theorem next_errors (hstore : StoreErrors ctx.depDeclStore) (c : Config) : Workerly (next ctx c) := by
  unfold next
  split
  · rename_i q items survivors rest _
    split
    · rename_i e he
      exact .error ((gateOnly_errors c.state q.2).spec e he)
    · exact .ok _
    · exact .ok _
  · exact .ok _
  · rename_i q rest _
    split
    · rename_i e he
      exact .error ((dispatch_errors hstore c.state q.2).spec e he)
    · exact .ok _
  · split
    · exact .ok _
    · rename_i iters activations _
      refine .ite ?_ (.error rfl)
      split
      · rename_i e he
        exact .error ((fixpointRound_errors c.state activations).spec e he)
      · exact .ite (.ok _) (.map (checkFlagConflicts_errors c.state) _)
    · exact .ok _

theorem exhaust_errors (hstore : StoreErrors ctx.depDeclStore) {n : ℕ} {e : ResError} (h : exhaust ctx n c = throw e) :
    e.ofSolver = false := by
  induction n generalizing c with
  | zero => cases h
  | succ n ih =>
    rw [exhaust] at h
    split at h
    · rename_i e' he
      cases h
      exact (next_errors hstore c).spec _ he
    · cases h
    · exact ih h

/-- A query that fails does so with an error of a worker. -/
theorem ask_errors (hstore : StoreErrors ctx.depDeclStore) {package : Str} {version : Version} {e : ResError}
    (h : host.ask ctx c package version = throw e) : e.ofSolver = false := by
  unfold Host.ask at h
  cases hquery : query ctx c.state package version with
  | error e' =>
    rw [hquery] at h
    cases h
    exact (query_errors hstore _ _ _).spec _ hquery
  | ok answer =>
    rw [hquery] at h
    exact exhaust_errors hstore h

theorem Asks.errors (hstore : StoreErrors ctx.depDeclStore) (h : Asks host ctx c slot failures c' slot') :
    ∀ e ∈ failures, e.ofSolver = false := by
  induction h with
  | nil => nofun
  | answered _ _ ih => exact ih
  | captured hask _ ih => exact List.forall_mem_cons.mpr ⟨ask_errors hstore hask, ih⟩

/-! ### The entry points -/

/-- A call of one of the four entry points. -/
inductive Call where
  | package (manifest : Manifest) (profile : Option Profile) (sel : FeatureSelection)
  | packageWithCert (manifest : Manifest) (profile : Option Profile)
  | workspace (ws : LoadedWorkspace) (profile : Option Profile) (sel : FeatureSelection)
  | workspaceWithCert (ws : LoadedWorkspace) (profile : Option Profile) (sel : FeatureSelection)

/-- What a call gives, less the certificate. -/
def Call.outcome (host : Host) (opts : ResolveOpts) : Call → Outcome ResError (List ResolvedDep)
  | package manifest profile sel => resolveWithFeatures host opts manifest profile sel
  | packageWithCert manifest profile => withoutCert (resolveWithCert host opts manifest profile)
  | .workspace ws profile sel => resolveWorkspaceWithFeatures host opts ws profile sel
  | workspaceWithCert ws profile sel => withoutCert (resolveWorkspaceWithCert host opts ws profile sel)

/-- The provider of a workspace, and what can fail before there is one. -/
def buildWorkspaceProvider (host : Host) (opts : ResolveOpts) (workspace : LoadedWorkspace) (profile : Option Profile)
    (sel : FeatureSelection) : Outcome ResError Provider := do
  let seed ← selectWorkspaceFeatures workspace sel
  checkWorkspace workspace
  host.checkIndex (workspaceUnresolvable workspace) .workspaceNoIndex
  host.makeDepsDir
  let binding ← buildWorkspaceBindingResolver workspace (host.index.getD ⟨[]⟩)
  let config ← seedConfig host opts workspace (memberView host profile seed) binding
  return workspaceProvider host opts workspace (memberView host profile seed) config

/-- The provider of a call. -/
def Call.provider (host : Host) (opts : ResolveOpts) : Call → Outcome ResError Provider
  | package manifest profile sel => do
    let seed ← selectFeatures manifest sel
    buildSingleProvider host opts (filterWithFeatures manifest profile seed)
  | packageWithCert manifest profile => buildSingleProvider host opts (filterWithCert manifest profile)
  | .workspace ws profile sel => buildWorkspaceProvider host opts ws profile sel
  | workspaceWithCert ws profile sel => buildWorkspaceProvider host opts ws profile sel

/-- **Each entry point makes its provider and runs it.** -/
theorem outcome_eq (call : Call) : call.outcome host opts = call.provider host opts >>= runProvider host opts := by
  cases call with
  | package manifest profile sel => simp only [Call.outcome, Call.provider, resolveWithFeatures, bind_assoc]
  | packageWithCert manifest profile =>
    simp only [Call.outcome, Call.provider, resolveWithCert, withoutCert_bind, withoutCert_runProvider]
  | workspace ws profile sel =>
    simp only [Call.outcome, Call.provider, resolveWorkspaceWithFeatures, resolveWorkspaceInner, buildWorkspaceProvider, bind_assoc,
      pure_bind]
  | workspaceWithCert ws profile sel =>
    simp only [Call.outcome, Call.provider, resolveWorkspaceWithCert, withoutCert_bind, withoutCert_runProvider, buildWorkspaceProvider,
      bind_assoc, pure_bind]

/-- A call comes to a search, in which queries fail with these errors. -/
structure Call.Searches (host : Host) (opts : ResolveOpts) (call : Call) (search : Search) (failures : List ResError) : Prop where
  run : ∃ p c c', call.provider host opts = pure p ∧ exhaust p.ctx host.fuel p.config = pure c ∧
    host.search opts p c = pure search ∧ Asks host p.ctx c none failures c' search.error ∧ c'.state = search.state

/-! ### What comes of a search -/

theorem buildSingleProvider_depDeclStore {manifest : Manifest} {p : Provider} (h : buildSingleProvider host opts manifest = .ok p) :
    p.ctx.depDeclStore = host.depDeclStore := by
  obtain ⟨_, -, h⟩ := Result.bind_eq_ok.mp h
  obtain ⟨_, -, h⟩ := Result.bind_eq_ok.mp h
  obtain ⟨config, -, h⟩ := Result.bind_eq_ok.mp h
  cases h
  rfl

theorem buildWorkspaceProvider_depDeclStore {ws : LoadedWorkspace} {profile : Option Profile} {sel : FeatureSelection} {p : Provider}
    (h : (buildWorkspaceProvider host opts ws profile sel).run = some (.ok p)) : p.ctx.depDeclStore = none := by
  obtain ⟨seed, -, h⟩ := Outcome.bind_eq_ok h
  obtain ⟨_, -, h⟩ := Outcome.bind_eq_ok h
  obtain ⟨_, -, h⟩ := Outcome.bind_eq_ok h
  obtain ⟨_, -, h⟩ := Outcome.bind_eq_ok h
  obtain ⟨binding, -, h⟩ := Outcome.bind_eq_ok h
  obtain ⟨config, -, h⟩ := Outcome.bind_eq_ok h
  cases h
  rfl

theorem storeErrors_none : StoreErrors none := nofun

/-- A provider has the artifact store of its host, or none. -/
theorem Call.provider_storeErrors (hstore : StoreErrors host.depDeclStore) {call : Call} {p : Provider}
    (h : call.provider host opts = pure p) : StoreErrors p.ctx.depDeclStore := by
  cases call with
  | package manifest profile sel =>
    obtain ⟨seed, -, h⟩ := Outcome.bind_eq_ok h
    rwa [buildSingleProvider_depDeclStore (Outcome.of_lift h)]
  | packageWithCert manifest profile => rwa [buildSingleProvider_depDeclStore (Outcome.of_lift h)]
  | workspace ws profile sel => exact buildWorkspaceProvider_depDeclStore h ▸ storeErrors_none
  | workspaceWithCert ws profile sel => exact buildWorkspaceProvider_depDeclStore h ▸ storeErrors_none

variable {call : Call} {search : Search} {first : ResError} {rest : List ResError}

theorem Call.Searches.errors (hstore : StoreErrors host.depDeclStore) (h : call.Searches host opts search (first :: rest)) :
    first.ofSolver = false := by
  obtain ⟨p, c, c', hp, -, -, hasks, -⟩ := h.run
  exact hasks.errors (Call.provider_storeErrors hstore hp) first List.mem_cons_self

/-- Where the search ends with a solution, the captured error is the result. -/
theorem Call.Searches.captured (h : call.Searches host opts search (first :: rest)) {selected : Solution}
    (hsolved : search.result = .solution selected) : call.outcome host opts = throw first := by
  obtain ⟨p, c, c', hp, hc, hsearch, hasks, -⟩ := h.run
  have hslot : search.error = some first := hasks.slot_eq
  rw [Resolver.outcome_eq, hp, pure_bind, runProvider, hc, pure_bind, hsearch, pure_bind, hsolved]
  show conclude host opts p c search selected = throw first
  rw [conclude, hslot]
  rfl

/-- Where it does not, the result is an error of the solver. -/
theorem Call.Searches.masked (h : call.Searches host opts search (first :: rest))
    (hunsolved : ∀ selected, search.result ≠ .solution selected) : ∃ e, e.ofSolver = true ∧ call.outcome host opts = throw e := by
  obtain ⟨p, c, c', hp, hc, hsearch, -, -⟩ := h.run
  rw [Resolver.outcome_eq, hp, pure_bind, runProvider, hc, pure_bind, hsearch, pure_bind]
  cases hresult : search.result with
  | solution selected => exact absurd hresult (hunsolved selected)
  | versionUnknownConstrained package constrainers => exact ⟨_, rfl, rfl⟩
  | noSolution tree => exact ⟨_, rfl, rfl⟩
  | other message => exact ⟨_, rfl, rfl⟩

/-! ### The claim -/

/-- The first error that is captured is the result, and it is not one of the solver. -/
def Call.Surfaces (host : Host) (opts : ResolveOpts) (call : Call) : Prop :=
  ∀ search first rest, call.Searches host opts search (first :: rest) →
    call.outcome host opts = throw first ∧ first.ofSolver = false

/-- Every search in which a query fails ends with a solution. -/
def Call.Solved (host : Host) (opts : ResolveOpts) (call : Call) : Prop :=
  ∀ search first rest, call.Searches host opts search (first :: rest) → ∃ selected, search.result = .solution selected

/-- **A call of any entry point gives the first error that a query captures exactly if its search ends with a solution all the
same.** -/
theorem surfaces_iff (hstore : StoreErrors host.depDeclStore) (call : Call) : call.Surfaces host opts ↔ call.Solved host opts := by
  constructor
  · intro h search first rest hsearches
    by_contra hunsolved
    obtain ⟨e, he, houtcome⟩ := hsearches.masked fun selected hresult => hunsolved ⟨selected, hresult⟩
    obtain ⟨hfirst, hof⟩ := h search first rest hsearches
    rw [houtcome] at hfirst
    cases hfirst
    rw [he] at hof
    cases hof
  · intro h search first rest hsearches
    obtain ⟨selected, hresult⟩ := h search first rest hsearches
    exact ⟨hsearches.captured hresult, hsearches.errors hstore⟩

/-! ### A conflict after a failure -/

/-- An index in which `lost` is to be fetched from a dead place, and `old` has no second version. -/
def lostIndex : Index :=
  let entry : IndexVersion :=
    ⟨"1.0.0", "sha256:a", [.git "https://h/dead" "main" none], none, none, none, [], none, false, none, none, none⟩
  ⟨[⟨"lost", [], [entry]⟩, ⟨"old", [], [entry]⟩]⟩

/-- A root that depends on `lost`, and on a version of `old` that there is not. -/
def lostUser : Manifest :=
  { Manifest.initial with
    deps := [.named ⟨"lost", none, none, [], false, [], none⟩, .named ⟨"old", some ">= 2.0.0", none, [], false, [], none⟩] }

/-- The solver key of a package of the index. -/
def lostKey (name : Str) : Str := canonical (registrySource name none lostIndex)

/-- The error of the query for `lost`. -/
def lostError : ResError := .fetchAllFailed "lost" 1 (some ("FETCH-FAILED", "https://h/dead"))

/-- A world with that index, in which the search asks for `lost`, the first in the manifest, and then ends with a result. -/
def lostHost (result : PubGrubResult) : Host where
  index := some lostIndex
  depDeclStore := none
  fetch := fetchFrom []
  rootTree := treeOf [] Manifest.initial
  memberTree _ := treeOf [] Manifest.initial
  createDirAll := none
  pubgrub _ _ _ σ := some ⟨result, σ, some lostError⟩
  report _ := "no version of old is >= 2.0.0"
  checkImportSlots _ := .ok ()
  fuel := 40

/-- The resolve of that root. -/
def lostCall : Call := .package lostUser none .none

/-- There is no version of `old` for the root. -/
def oldConflict : PubGrubResult := .noSolution (.external (.noVersions (lostKey "old") .full))

/-- A call comes to a search, at a configuration that is looked for. -/
def searchesAt (host : Host) (opts : ResolveOpts) (call : Call) (good : Provider → Config → Bool) : Bool :=
  match (call.provider host opts).run with
  | some (.ok p) =>
    match (exhaust p.ctx host.fuel p.config).run with
    | some (.ok c) => good p c
    | _ => false
  | _ => false

theorem exists_of_searchesAt {good : Provider → Config → Bool} (h : searchesAt host opts call good = true) :
    ∃ p c, call.provider host opts = pure p ∧ exhaust p.ctx host.fuel p.config = pure c ∧ good p c = true := by
  unfold searchesAt at h
  split at h
  · rename_i p hp
    split at h
    · rename_i c hc
      exact ⟨p, c, hp, hc, h⟩
    · cases h
  · cases h

/-- A query fails with an error. -/
def failsWith (host : Host) (ctx : ResolveCtx) (c : Config) (package : Str) (version : Version) (e : ResError) : Bool :=
  match (host.ask ctx c package version).run with
  | some (.error e') => decide (e' = e)
  | _ => false

theorem ask_of_failsWith {package : Str} {version : Version} {e : ResError} (h : failsWith host ctx c package version e = true) :
    host.ask ctx c package version = throw e := by
  unfold failsWith at h
  split at h
  · rename_i e' he
    cases of_decide_eq_true h
    exact he
  · cases h

/-- In every such world, the query for `lost` is the first to fail. -/
theorem lostCall_searches (result : PubGrubResult) :
    ∃ search, lostCall.Searches (lostHost result) plainOpts search [lostError] ∧ search.result = result := by
  have hcheck : searchesAt (lostHost (.other [])) plainOpts lostCall (fun p c =>
      failsWith (lostHost (.other [])) p.ctx c (lostKey "lost") (.release 1 0 0) lostError) = true := by
    decide
  obtain ⟨p, c, hp, hc, hfails⟩ := exists_of_searchesAt hcheck
  refine ⟨⟨result, c.state, some lostError⟩, ⟨p, c, { c with state := c.state }, hp, hc, rfl, ?_, rfl⟩, rfl⟩
  exact .captured (ask_of_failsWith hfails) (.nil _ _)

/-- Where the search finds a solution, the failure comes out. -/
theorem surfaces_iff_solution : lostCall.Surfaces (lostHost (.solution BTreeMap.empty)) plainOpts := by
  have hstore : StoreErrors (lostHost (.solution BTreeMap.empty)).depDeclStore := storeErrors_none
  refine (surfaces_iff hstore lostCall).mpr fun search first rest h => ?_
  obtain ⟨p, c, c', -, -, hsearch, -, -⟩ := h.run
  cases hsearch
  exact ⟨_, rfl⟩

/-- The fetch of `lost` fails, and the resolve says that `old` has no version. -/
theorem lost_failure_masked :
    ¬ ∀ (host : Host) (opts : ResolveOpts) (call : Call), StoreErrors host.depDeclStore → call.Surfaces host opts := by
  intro h
  obtain ⟨search, hsearches, hresult⟩ := lostCall_searches oldConflict
  obtain ⟨e, he, houtcome⟩ := hsearches.masked fun selected hselected => nomatch hresult.symm.trans hselected
  obtain ⟨hfirst, hof⟩ := h (lostHost oldConflict) plainOpts lostCall storeErrors_none search lostError [] hsearches
  rw [houtcome] at hfirst
  cases hfirst
  cases he

end Milpa.Core.Resolver

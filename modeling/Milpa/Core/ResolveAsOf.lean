import Milpa.Core.RunAsOf

/-!
# Resolves as of a time

A resolve under a bound on the time of publication gives what it gives without one where the
versions that are not known to be published by then are yanked, as long as no `git`
dependency of that run has a later commit (`outcome_asOf`). Where these versions are deleted
instead, the registry also forgets the repositories that they are in, and a dependency on
one of these can be rejected (`moved_package_shadowed`).

PubGrub is a parameter of a resolve. What it is taken to do is in `Host.DrivenBy`: what it
does next depends on what it sees of the provider, and it sees the index and the bound only
in the answers to its queries.
-/

namespace Milpa.Core.Resolver

open Solver Result

variable {bound : Timestamp} {host : Host} {opts : ResolveOpts} {ctx : ResolveCtx} {call : Call} {p : Provider}

/-- What PubGrub does next: it asks for the dependencies of a version, or it ends. -/
inductive Turn where
  | ask (package : Str) (version : Version)
  | stop (result : PubGrubResult)

/-! ### Where a resolve starts -/

/-- What a resolve finds around it, as of a time. -/
def hostAsOf (bound : Timestamp) (host : Host) : Host := { host with index := host.index.map (indexAsOf bound) }

/-- A provider, as of a time. -/
def providerAsOf (bound : Timestamp) (p : Provider) : Provider := { p with ctx := asOf bound p.ctx }

/-- The options, with a bound on the time of publication. -/
def ResolveOpts.boundBy (opts : ResolveOpts) (bound : Timestamp) : ResolveOpts := { opts with excludeNewer := some bound }

/-- The options, without one. -/
def ResolveOpts.unbound (opts : ResolveOpts) : ResolveOpts := { opts with excludeNewer := none }

theorem getD_index_asOf : (hostAsOf bound host).index.getD ⟨[]⟩ = indexAsOf bound (host.index.getD ⟨[]⟩) := by
  rw [hostAsOf]
  cases host.index <;> rfl

theorem env_asOf (strict : Bool) : (hostAsOf bound host).env opts.unbound strict = asOf bound (host.env (opts.boundBy bound) strict) := by
  rw [Host.env, getD_index_asOf]
  rfl

theorem reconcileRootClaims_asOf (deps : List Dep) (overrides : List Override) (index : Index) :
    reconcileRootClaims deps overrides (indexAsOf bound index) = reconcileRootClaims deps overrides index := by
  have hdeclared : ∀ dep, depDeclaredRawOrigin dep (indexAsOf bound index) = depDeclaredRawOrigin dep index := by
    intro dep
    cases dep <;> simp [depDeclaredRawOrigin]
  have hclaim : declaredClaim overrides (indexAsOf bound index) = declaredClaim overrides index := by
    funext dep
    simp only [declaredClaim, hdeclared, overrideTargetToRawOrigin_asOf]
  have hdep : reconcileDep overrides (indexAsOf bound index) = reconcileDep overrides index := by
    funext st dep
    simp only [reconcileDep, hclaim]
  have hoverride : reconcileOverride (indexAsOf bound index) = reconcileOverride index := by
    funext st ov
    simp only [reconcileOverride, overrideTargetToRawOrigin_asOf]
  rw [reconcileRootClaims, hdep, hoverride, reconcileRootClaims]

theorem startPackage_asOf (manifest : Manifest) (tree : PackageTree) :
    startPackage (asOf bound ctx) manifest tree = startPackage ctx manifest tree := by
  have hbinding : buildSingleBindingResolver manifest (indexAsOf bound ctx.index) = buildSingleBindingResolver manifest ctx.index := by
    rw [buildSingleBindingResolver, singleRootClaims, reconcileRootClaims_asOf]
    rfl
  have hctx : (packageCtx (asOf bound ctx) manifest tree).index = indexAsOf bound ctx.index := rfl
  rw [startPackage]
  dsimp only
  rw [hctx, hbinding]
  rfl

theorem checkIndex_asOf : (hostAsOf bound host).checkIndex = host.checkIndex := by
  funext names e
  simp only [Host.checkIndex, hostAsOf, Option.map_eq_none_iff]

/-- The provider of a package. -/
theorem buildSingleProvider_asOf (manifest : Manifest) :
    buildSingleProvider (hostAsOf bound host) opts.unbound manifest =
      (buildSingleProvider host (opts.boundBy bound) manifest).map (providerAsOf bound) := by
  have hstrict : opts.unbound.isStrict manifest = (opts.boundBy bound).isStrict manifest := rfl
  have hdir : (hostAsOf bound host).makeDepsDir = host.makeDepsDir := rfl
  have htree : (hostAsOf bound host).rootTree = host.rootTree := rfl
  rw [buildSingleProvider, buildSingleProvider, checkIndex_asOf, hdir, hstrict, env_asOf, htree]
  dsimp only
  rw [startPackage_asOf]
  cases host.checkIndex (unresolvable (rootDeps manifest) (manifest.overrides.map Override.name)) .noIndex with
  | error e => rfl
  | ok =>
    cases host.makeDepsDir with
    | error e => rfl
    | ok => cases startPackage (host.env (opts.boundBy bound) ((opts.boundBy bound).isStrict manifest)) manifest host.rootTree <;> rfl

theorem seedWorkspaceFlags_asOf : seedWorkspaceFlags (asOf bound ctx) = seedWorkspaceFlags ctx := by
  funext workspace σ
  simp only [seedWorkspaceFlags, requirementKey_asOf]

theorem seedConfig_asOf (workspace : LoadedWorkspace) (view : MemberView) (binding : BindingResolver) :
    seedConfig (hostAsOf bound host) opts.unbound workspace view binding = seedConfig host (opts.boundBy bound) workspace view binding := by
  have hctx : ∀ env, workspaceCtx (asOf bound env) workspace = asOf bound (workspaceCtx env workspace) := fun _ => rfl
  have hstrict : opts.unbound.isWorkspaceStrict workspace = (opts.boundBy bound).isWorkspaceStrict workspace := rfl
  have hseed : ∀ ctx, seedWorkspace (asOf bound ctx) binding workspace view = seedWorkspace ctx binding workspace view := by
    intro ctx
    simp only [seedWorkspace, seedWorkspaceFlags_asOf]
    rfl
  rw [seedConfig, env_asOf, hctx, hstrict, hseed, seedConfig]

/-- The provider of a workspace. -/
theorem buildWorkspaceProvider_asOf (workspace : LoadedWorkspace) (profile : Option Profile) (sel : FeatureSelection) :
    buildWorkspaceProvider (hostAsOf bound host) opts.unbound workspace profile sel =
      providerAsOf bound <$> buildWorkspaceProvider host (opts.boundBy bound) workspace profile sel := by
  have hbinding : buildWorkspaceBindingResolver workspace (indexAsOf bound (host.index.getD ⟨[]⟩)) =
      buildWorkspaceBindingResolver workspace (host.index.getD ⟨[]⟩) := by
    rw [buildWorkspaceBindingResolver, workspaceRootClaims, reconcileRootClaims_asOf]
    rfl
  have hdir : (hostAsOf bound host).makeDepsDir = host.makeDepsDir := rfl
  have hview : memberView (hostAsOf bound host) = memberView host := rfl
  have hprovider : ∀ view config, workspaceProvider (hostAsOf bound host) opts.unbound workspace view config =
      providerAsOf bound (workspaceProvider host (opts.boundBy bound) workspace view config) := by
    intro view config
    rw [workspaceProvider, env_asOf]
    rfl
  simp only [buildWorkspaceProvider, checkIndex_asOf, hdir, getD_index_asOf, hbinding, hview, seedConfig_asOf, hprovider, map_bind, map_pure]

/-- **The provider of a call, as of a time.** -/
theorem provider_asOf (call : Call) :
    call.provider (hostAsOf bound host) opts.unbound = providerAsOf bound <$> call.provider host (opts.boundBy bound) := by
  have hlift : ∀ x : Except ResError Provider,
      (liftM (x.map (providerAsOf bound)) : Outcome ResError Provider) = providerAsOf bound <$> liftM x := by
    intro x
    cases x <;> rfl
  cases call with
  | package manifest profile sel => simp only [Call.provider, buildSingleProvider_asOf, hlift, map_bind]
  | packageWithCert manifest profile => simp only [Call.provider, buildSingleProvider_asOf, hlift]
  | workspace ws profile sel => exact buildWorkspaceProvider_asOf ws profile sel
  | workspaceWithCert ws profile sel => exact buildWorkspaceProvider_asOf ws profile sel

/-! ### Queries -/

variable {c c' d : Config} {package : Str} {version : Version} {driver : List ResolveState → Turn}

/-- What a query passes, up to where nothing is left to do. -/
def QueryWalks (ctx : ResolveCtx) (c : Config) (package : Str) (version : Version) (d : Config) : Prop :=
  ∃ σ items, query ctx c.state package version = .ok (σ, items) ∧
    Walks ctx { c with state := σ, tasks := [.gate (items.map fun item => (.transitive, item)) []] } d

theorem ask_eq_pure :
    host.ask ctx c package version = pure c' ↔ ∃ σ items, query ctx c.state package version = .ok (σ, items) ∧
      exhaust ctx host.fuel { c with state := σ, tasks := [.gate (items.map fun item => (.transitive, item)) []] } = pure c' := by
  rw [Host.ask]
  cases query ctx c.state package version with
  | error e => exact ⟨fun h => (nomatch Option.some.inj h), fun ⟨_, _, h, _⟩ => nomatch h⟩
  | ok answer =>
    obtain ⟨σ, items⟩ := answer
    refine ⟨fun h => ⟨σ, items, rfl, h⟩, ?_⟩
    rintro ⟨_, _, ⟨⟩, h⟩
    exact h

/-- A query under a bound is a query as of then that does not fetch a later commit. -/
theorem ask_asOf (hbound : ctx.excludeNewer = some bound) :
    host.ask ctx c package version = pure c' ↔
      host.ask (asOf bound ctx) c package version = pure c' ∧
        ∀ d, QueryWalks (asOf bound ctx) c package version d → Punctual bound ctx d := by
  rw [ask_eq_pure, ask_eq_pure, query_asOf]
  simp only [exhaust_asOf hbound, QueryWalks, query_asOf]
  constructor
  · rintro ⟨σ, items, hquery, hexhaust, hwalks⟩
    refine ⟨⟨σ, items, hquery, hexhaust⟩, ?_⟩
    rintro d ⟨_, _, hquery', hd⟩
    cases hquery.symm.trans hquery'
    exact hwalks d hd
  · rintro ⟨⟨σ, items, hquery, hexhaust⟩, hwalks⟩
    exact ⟨σ, items, hquery, hexhaust, fun d hd => hwalks d ⟨σ, items, hquery, hd⟩⟩

/-! ### PubGrub -/

/-- Where PubGrub has the word: nothing is left to do. -/
def solving (σ : ResolveState) : Config := ⟨σ, [], .solve, [], []⟩

/-- PubGrub has asked for dependencies, and each time it got an answer: the states of the provider, the last one first. -/
inductive Host.Asked (host : Host) (driver : List ResolveState → Turn) (ctx : ResolveCtx) (σ₀ : ResolveState) : List ResolveState → Prop
  | start : Asked host driver ctx σ₀ [σ₀]
  | ask {σ : ResolveState} {past : List ResolveState} {package : Str} {version : Version} {c : Config}
      (h : Asked host driver ctx σ₀ (σ :: past)) (hmove : driver (σ :: past) = .ask package version)
      (hask : host.ask ctx (solving σ) package version = pure c) : Asked host driver ctx σ₀ (c.state :: σ :: past)

/-- What PubGrub can see of a context: no method of the provider that it calls reads the index or the bound, but through the
dependencies that it asks for. -/
def sightOf (ctx : ResolveCtx) : ResolveCtx := { ctx with index := ⟨[]⟩, excludeNewer := none }

/-- PubGrub is driven by what it sees of the provider: without a captured error it ends exactly where its questions lead. -/
structure Host.DrivenBy (host : Host) (driver : ResolveCtx → Strategy → Bool → List ResolveState → Turn) : Prop where
  ends : ∀ ctx strategy explicit σ₀ result σ, host.pubgrub ctx strategy explicit σ₀ = some ⟨result, σ, none⟩ ↔
    ∃ past, host.Asked (driver (sightOf ctx) strategy explicit) ctx σ₀ (σ :: past) ∧
      driver (sightOf ctx) strategy explicit (σ :: past) = .stop result

namespace Host.Asked

variable {σ₀ σ : ResolveState} {past states ends : List ResolveState} {result : PubGrubResult}

/-- What can be asked is a matter of the steps that a walk may take. -/
theorem of_fuel {host' : Host} (hfuel : host.fuel = host'.fuel) (h : host.Asked driver ctx σ₀ states) : host'.Asked driver ctx σ₀ states := by
  have hsame : host'.ask = host.ask := by
    funext ctx c package version
    rw [Host.ask, ← hfuel]
    rfl
  induction h with
  | start => exact .start
  | ask _ hmove hask ih => exact .ask ih hmove (hsame ▸ hask)

/-- What was asked under a bound is asked as of then. -/
theorem asOf (hbound : ctx.excludeNewer = some bound) (h : host.Asked driver ctx σ₀ states) :
    host.Asked driver (Resolver.asOf bound ctx) σ₀ states := by
  induction h with
  | start => exact .start
  | ask _ hmove hask ih => exact .ask ih hmove ((ask_asOf hbound).mp hask).1

/-- What is asked as of a time is asked under the bound where no query fetches a later commit. -/
theorem of_asOf (hbound : ctx.excludeNewer = some bound) (h : host.Asked driver (Resolver.asOf bound ctx) σ₀ states)
    (htime : ∀ σ past package version, host.Asked driver (Resolver.asOf bound ctx) σ₀ (σ :: past) →
      driver (σ :: past) = .ask package version →
        ∀ d, QueryWalks (Resolver.asOf bound ctx) (solving σ) package version d → Punctual bound ctx d) :
    host.Asked driver ctx σ₀ states := by
  induction h with
  | start => exact .start
  | ask h hmove hask ih => exact .ask ih hmove ((ask_asOf hbound).mpr ⟨hask, htime _ _ _ _ h hmove⟩)

theorem start_suffix (h : host.Asked driver ctx σ₀ ends) : [σ₀] <:+ ends := by
  induction h with
  | start => exact List.suffix_rfl
  | ask _ _ _ ih => exact ih.trans (List.suffix_cons _ _)

/-- What PubGrub had asked before. -/
theorem of_suffix (h : host.Asked driver ctx σ₀ ends) (hne : states ≠ []) (hsuffix : states <:+ ends) : host.Asked driver ctx σ₀ states := by
  induction h with
  | start =>
    rcases List.suffix_cons_iff.mp hsuffix with rfl | hnil
    · exact .start
    · exact absurd (List.suffix_nil.mp hnil) hne
  | ask h hmove hask ih =>
    rcases List.suffix_cons_iff.mp hsuffix with rfl | hsuffix
    · exact .ask h hmove hask
    · exact ih hsuffix

/-- A question on the way to the end was answered. -/
theorem goes_on (hends : host.Asked driver ctx σ₀ ends) (hstop : driver ends = .stop result) (hsuffix : (σ :: past) <:+ ends)
    (hmove : driver (σ :: past) = .ask package version) :
    ∃ c, host.ask ctx (solving σ) package version = pure c ∧ (c.state :: σ :: past) <:+ ends := by
  obtain ⟨later, rfl⟩ := hsuffix
  rcases List.eq_nil_or_concat later with rfl | ⟨later, next, rfl⟩
  · rw [List.nil_append, hmove] at hstop
    cases hstop
  · have hlast : (next :: σ :: past) <:+ later.concat next ++ σ :: past := ⟨later, by simp⟩
    cases hends.of_suffix (List.cons_ne_nil _ _) hlast with
    | ask h hmove' hask =>
      cases hmove.symm.trans hmove'
      exact ⟨_, hask, hlast⟩

/-- PubGrub has asked what lies on its way. -/
theorem suffix (hends : host.Asked driver ctx σ₀ ends) (hstop : driver ends = .stop result) (h : host.Asked driver ctx σ₀ states) :
    states <:+ ends := by
  induction h with
  | start => exact hends.start_suffix
  | ask _ hmove hask ih =>
    obtain ⟨c, hask', hsuffix⟩ := hends.goes_on hstop ih hmove
    cases Except.ok.inj (Option.some.inj (hask.symm.trans hask'))
    exact hsuffix

/-- Where PubGrub ends under a bound, none of its queries as of then fetches a later commit. -/
theorem punctual (hbound : ctx.excludeNewer = some bound) (hends : host.Asked driver ctx σ₀ ends) (hstop : driver ends = .stop result)
    (h : host.Asked driver (Resolver.asOf bound ctx) σ₀ (σ :: past)) (hmove : driver (σ :: past) = .ask package version)
    (hd : QueryWalks (Resolver.asOf bound ctx) (solving σ) package version d) : Punctual bound ctx d := by
  obtain ⟨c, hask, -⟩ := hends.goes_on hstop ((hends.asOf hbound).suffix hstop h) hmove
  exact ((ask_asOf hbound).mp hask).2 d hd

end Host.Asked

/-! ### After the solution -/

theorem getOrMaterialize_eq (e : Str × Version) :
    getOrMaterialize host ctx c e = if e.1 = root then pure c else host.ask ctx c e.1 e.2 := rfl

/-- What materializing the versions of a solution passes. -/
def ClosingWalks (host : Host) (ctx : ResolveCtx) (c : Config) (entries : List (Str × Version)) (d : Config) : Prop :=
  ∃ done e todo c₁, entries = done ++ e :: todo ∧ done.foldlM (getOrMaterialize host ctx) c = pure c₁ ∧ e.1 ≠ root ∧
    QueryWalks ctx c₁ e.1 e.2 d

theorem bind_eq_pure {ε α β : Type} {x : Outcome ε α} {f : α → Outcome ε β} {b : β} :
    x >>= f = pure b ↔ ∃ a, x = pure a ∧ f a = pure b := by
  constructor
  · intro h
    exact Outcome.bind_eq_ok h
  · rintro ⟨a, rfl, h⟩
    exact h

theorem lift_eq_pure {ε α : Type} {x : Except ε α} {a : α} : (liftM x : Outcome ε α) = pure a ↔ x = .ok a :=
  ⟨Outcome.of_lift, fun h => congrArg _ h⟩

theorem getOrMaterialize_asOf (hbound : ctx.excludeNewer = some bound) {e : Str × Version} :
    getOrMaterialize host ctx c e = pure c' ↔
      getOrMaterialize host (asOf bound ctx) c e = pure c' ∧
        (e.1 ≠ root → ∀ d, QueryWalks (asOf bound ctx) c e.1 e.2 d → Punctual bound ctx d) := by
  rw [getOrMaterialize_eq, getOrMaterialize_eq]
  split_ifs with hroot
  · simp [hroot]
  · simp [hroot, ask_asOf hbound]

theorem foldlM_asOf (hbound : ctx.excludeNewer = some bound) {entries : List (Str × Version)} :
    entries.foldlM (getOrMaterialize host ctx) c = pure c' ↔
      entries.foldlM (getOrMaterialize host (asOf bound ctx)) c = pure c' ∧
        ∀ d, ClosingWalks host (asOf bound ctx) c entries d → Punctual bound ctx d := by
  induction entries generalizing c with
  | nil =>
    refine (and_iff_left ?_).symm
    rintro d ⟨done, e, todo, c₁, hentries, -⟩
    simp at hentries
  | cons e entries ih =>
    rw [List.foldlM_cons, List.foldlM_cons, bind_eq_pure, bind_eq_pure]
    simp only [getOrMaterialize_asOf hbound, ih]
    constructor
    · rintro ⟨c₁, ⟨hfirst, htime⟩, hrest, hwalks⟩
      refine ⟨⟨c₁, hfirst, hrest⟩, ?_⟩
      rintro d ⟨done, e', todo, c₂, hentries, hdone, hne, hd⟩
      rcases List.cons_eq_append_iff.mp hentries with ⟨rfl, htail⟩ | ⟨done, rfl, rfl⟩
      · cases htail
        cases Except.ok.inj (Option.some.inj hdone)
        exact htime hne d hd
      · rw [List.foldlM_cons, bind_eq_pure] at hdone
        obtain ⟨c₁', hfirst', hdone⟩ := hdone
        cases Except.ok.inj (Option.some.inj (hfirst.symm.trans hfirst'))
        exact hwalks d ⟨done, e', todo, c₂, rfl, hdone, hne, hd⟩
    · rintro ⟨⟨c₁, hfirst, hrest⟩, hwalks⟩
      refine ⟨c₁, ⟨hfirst, fun hne d hd => hwalks d ⟨[], e, entries, c, rfl, rfl, hne, hd⟩⟩, hrest, ?_⟩
      rintro d ⟨done, e', todo, c₂, rfl, hdone, hne, hd⟩
      refine hwalks d ⟨e :: done, e', todo, c₂, rfl, ?_, hne, hd⟩
      rw [List.foldlM_cons, bind_eq_pure]
      exact ⟨c₁, hfirst, hdone⟩

/-! ### The claim -/

/-- What comes after PubGrub has found a solution, from the state after materializing it. -/
def closing (host : Host) (opts : ResolveOpts) (strict : Bool) (σ : ResolveState) (solution : Solution) : Outcome ResError (List ResolvedDep) := do
  let (σ, aliases) := finalize σ solution
  enforceAttestationPolicyStrict σ strict
  let graph ← buildGraph σ solution opts.entryTrust aliases
  host.checkImportSlotCollisions graph
  return graph

theorem search_eq_pure {search : Search} :
    host.search opts p c = pure search ↔ host.pubgrub p.ctx opts.strategy opts.strategyExplicit c.state = some search := by
  rw [Host.search]
  cases host.pubgrub p.ctx opts.strategy opts.strategyExplicit c.state with
  | none => exact ⟨nofun, nofun⟩
  | some found => exact ⟨fun h => congrArg some (Except.ok.inj (Option.some.inj h)), fun h => by cases h; rfl⟩

theorem runProvider_eq_pure {graph : List ResolvedDep} :
    runProvider host opts p = pure graph ↔ ∃ c σ solution c', exhaust p.ctx host.fuel p.config = pure c ∧
      host.pubgrub p.ctx opts.strategy opts.strategyExplicit c.state = some ⟨.solution solution, σ, none⟩ ∧
      solution.entries.foldlM (getOrMaterialize host p.ctx) { c with state := σ } = pure c' ∧
      closing host opts p.strict c'.state solution = pure graph := by
  rw [runProvider, bind_eq_pure]
  constructor
  · rintro ⟨c, hc, h⟩
    obtain ⟨⟨result, σ, error⟩, hsearch, h⟩ := bind_eq_pure.mp h
    cases result with
    | solution solution =>
      obtain ⟨_, herror, h⟩ := bind_eq_pure.mp h
      cases error with
      | some e => cases herror
      | none =>
        obtain ⟨final, hfinal, h⟩ := bind_eq_pure.mp h
        obtain ⟨c', hfold, hfinal⟩ := bind_eq_pure.mp hfinal
        cases hfinal
        exact ⟨c, σ, solution, c', hc, search_eq_pure.mp hsearch, hfold, h⟩
    | versionUnknownConstrained package constrainers => cases h
    | noSolution tree => cases h
    | other message => cases h
  · rintro ⟨c, σ, solution, c', hc, hsearch, hfold, hclosing⟩
    refine ⟨c, hc, bind_eq_pure.mpr ⟨_, search_eq_pure.mpr hsearch, ?_⟩⟩
    refine bind_eq_pure.mpr ⟨(), rfl, bind_eq_pure.mpr ⟨finalize c'.state solution, ?_, hclosing⟩⟩
    exact bind_eq_pure.mpr ⟨c', hfold, rfl⟩

/-- The configurations that a call passes, each with its context. -/
inductive Call.Passes (host : Host) (driver : ResolveCtx → Strategy → Bool → List ResolveState → Turn) (opts : ResolveOpts) (call : Call) :
    ResolveCtx → Config → Prop
  /-- On the walk from the seeds, and in the fixpoint. -/
  | walk {p : Provider} {d : Config} (hprovider : call.provider host opts = pure p) (hd : Walks p.ctx p.config d) :
      Passes host driver opts call p.ctx d
  /-- In a query of PubGrub. -/
  | query {p : Provider} {c d : Config} {σ : ResolveState} {past : List ResolveState} {package : Str} {version : Version}
      (hprovider : call.provider host opts = pure p) (hwalk : exhaust p.ctx host.fuel p.config = pure c)
      (hasked : host.Asked (driver (sightOf p.ctx) opts.strategy opts.strategyExplicit) p.ctx c.state (σ :: past))
      (hmove : driver (sightOf p.ctx) opts.strategy opts.strategyExplicit (σ :: past) = .ask package version)
      (hd : QueryWalks p.ctx (solving σ) package version d) : Passes host driver opts call p.ctx d
  /-- In the materialization of the solution. -/
  | close {p : Provider} {c d : Config} {σ : ResolveState} {solution : Solution} (hprovider : call.provider host opts = pure p)
      (hwalk : exhaust p.ctx host.fuel p.config = pure c)
      (hsearch : host.pubgrub p.ctx opts.strategy opts.strategyExplicit c.state = some ⟨.solution solution, σ, none⟩)
      (hd : ClosingWalks host p.ctx { c with state := σ } solution.entries d) : Passes host driver opts call p.ctx d

theorem buildSingleProvider_excludeNewer {manifest : Manifest} (h : buildSingleProvider host opts manifest = .ok p) :
    p.ctx.excludeNewer = opts.excludeNewer := by
  obtain ⟨_, -, h⟩ := Result.bind_eq_ok.mp h
  obtain ⟨_, -, h⟩ := Result.bind_eq_ok.mp h
  obtain ⟨config, -, h⟩ := Result.bind_eq_ok.mp h
  cases h
  rfl

theorem buildWorkspaceProvider_excludeNewer {ws : LoadedWorkspace} {profile : Option Profile} {sel : FeatureSelection}
    (h : buildWorkspaceProvider host opts ws profile sel = pure p) : p.ctx.excludeNewer = opts.excludeNewer := by
  obtain ⟨seed, -, h⟩ := bind_eq_pure.mp h
  obtain ⟨_, -, h⟩ := bind_eq_pure.mp h
  obtain ⟨_, -, h⟩ := bind_eq_pure.mp h
  obtain ⟨_, -, h⟩ := bind_eq_pure.mp h
  obtain ⟨binding, -, h⟩ := bind_eq_pure.mp h
  obtain ⟨config, -, h⟩ := bind_eq_pure.mp h
  cases h
  rfl

/-- The bound is that of the options. -/
theorem provider_excludeNewer (h : call.provider host opts = pure p) : p.ctx.excludeNewer = opts.excludeNewer := by
  cases call with
  | package manifest profile sel =>
    obtain ⟨seed, -, h⟩ := bind_eq_pure.mp h
    exact buildSingleProvider_excludeNewer (lift_eq_pure.mp h)
  | packageWithCert manifest profile => exact buildSingleProvider_excludeNewer (lift_eq_pure.mp h)
  | workspace ws profile sel => exact buildWorkspaceProvider_excludeNewer h
  | workspaceWithCert ws profile sel => exact buildWorkspaceProvider_excludeNewer h

/-- A version of an index, and when it was published. -/
def releaseAt (version url contentHash : Str) (seconds : ℤ) : IndexVersion :=
  ⟨version, contentHash, [.git url "main" none], none, none, none, [], some ⟨seconds, 0⟩, false, none, none, none⟩

/-- The bound. -/
def noon : Timestamp := ⟨20, 0⟩

/-- A package with a version before the bound, and one after it. -/
def twoVersions : Index := ⟨[⟨"lib", [], [releaseAt "1.0.0" "https://h/lib" "sha256:l" 10, releaseAt "2.0.0" "https://h/lib" "sha256:l" 30]⟩]⟩

/-- Its solver key. -/
def twoKey : Str := canonical (registrySource "lib" none twoVersions)

/-- The greatest version that is listed. -/
def latestOf (σ : ResolveState) : Version := ((σ.stubsOf twoKey).entries.getLast?.map fun e => e.2.1).getD rootVersion

/-- What a small search takes. -/
def taken (σ : ResolveState) : PubGrubResult := ((takeAll .offline .maxver false σ).map Search.result).getD (.other [])

/-- The search asks for the root and for the latest version, and takes what there is. -/
def takeLatest : List ResolveState → Turn
  | [] => .stop (.other [])
  | [_] => .ask root rootVersion
  | [σ, _] => .ask twoKey (latestOf σ)
  | σ :: _ => .stop (taken σ)

/-- An answer, or the error that is captured. -/
def answered (σ : ResolveState) (x : Outcome ResError Config) (go : ResolveState → Option Search) : Option Search :=
  match x.run with
  | some (.ok c) => go c.state
  | some (.error e) => some ⟨.other [], σ, some e⟩
  | none => none

theorem answered_eq_some {σ σ' : ResolveState} {x : Outcome ResError Config} {go : ResolveState → Option Search} {result : PubGrubResult} :
    answered σ x go = some ⟨result, σ', none⟩ ↔ ∃ c, x = pure c ∧ go c.state = some ⟨result, σ', none⟩ := by
  unfold answered
  constructor
  · intro h
    split at h
    · rename_i c hc
      exact ⟨c, hc, h⟩
    · cases h
    · cases h
  · rintro ⟨c, rfl, h⟩
    exact h

/-- A world with that package. -/
def twoHost : Host := { helperHost with
  index := some twoVersions
  fetch := fetchFrom [("https://h/lib", treeOf "sha256:l" Manifest.initial)]
  pubgrub := fun ctx _ _ σ =>
    answered σ (helperHost.ask ctx (solving σ) root rootVersion) fun σ =>
      answered σ (helperHost.ask ctx (solving σ) twoKey (latestOf σ)) fun σ => some ⟨taken σ, σ, none⟩ }

theorem twoHost_drivenBy : twoHost.DrivenBy fun _ _ _ => takeLatest := by
  refine ⟨fun ctx strategy explicit σ₀ result σ => ?_⟩
  have hask : twoHost.ask = helperHost.ask := rfl
  rw [show twoHost.pubgrub ctx strategy explicit σ₀ = answered σ₀ (helperHost.ask ctx (solving σ₀) root rootVersion) fun σ =>
    answered σ (helperHost.ask ctx (solving σ) twoKey (latestOf σ)) fun σ => some ⟨taken σ, σ, none⟩ from rfl, answered_eq_some]
  constructor
  · rintro ⟨c₁, hroot, h⟩
    obtain ⟨c₂, hlatest, h⟩ := answered_eq_some.mp h
    cases h
    exact ⟨_, .ask (.ask .start rfl hroot) rfl hlatest, rfl⟩
  · rintro ⟨past, hasked, hstop⟩
    cases hasked with
    | start => cases hstop
    | ask hasked hmove hlatest =>
      cases hasked with
      | start => cases hstop
      | ask hasked hmove₁ hroot =>
        cases hasked with
        | start =>
          cases hmove₁
          cases hmove
          cases hstop
          exact ⟨_, hroot, answered_eq_some.mpr ⟨_, hlatest, rfl⟩⟩
        | ask => cases hmove

/-- The versions of a graph. -/
def versionsIn (x : Outcome ResError (List ResolvedDep)) : Option (List Version) :=
  match x.run with
  | some (.ok graph) => some (graph.map ResolvedDep.version)
  | _ => none

theorem exists_of_versionsIn {x : Outcome ResError (List ResolvedDep)} {versions : List Version} (h : versionsIn x = some versions) :
    ∃ graph, x = pure graph ∧ graph.map ResolvedDep.version = versions := by
  unfold versionsIn at h
  split at h
  · rename_i graph hgraph
    exact ⟨graph, hgraph, Option.some.inj h⟩
  · cases h

theorem exists_of_graphSize {x : Outcome ResError (List ResolvedDep)} {n : ℕ} (h : graphSize x = some n) : ∃ graph, x = pure graph := by
  unfold graphSize at h
  split at h
  · rename_i graph hgraph
    exact ⟨graph, hgraph⟩
  · cases h

/-- An index without the versions that are not known to be there by a bound. -/
def indexWithout (bound : Timestamp) (index : Index) : Index :=
  ⟨index.packages.map fun pkg => { pkg with versions := pkg.versions.filter (publishedBy bound) }⟩

/-- What a resolve finds around it, without these versions. -/
def hostWithout (bound : Timestamp) (host : Host) : Host := { host with index := host.index.map (indexWithout bound) }

/-- A package whose later version is in another repository. -/
def movedIndex : Index := ⟨[⟨"lib", [], [releaseAt "1.0.0" "https://h/old" "sha256:o" 10, releaseAt "2.0.0" "https://h/lib" "sha256:l" 30]⟩]⟩

/-- A package that takes `lib` from there. -/
def movedUser : Manifest := { Manifest.initial with deps := [.url (urlDep "lib" "https://h/lib" "main" none)] }

/-- A world with both, in which metadata has to be attested. -/
def movedHost : Host := { helperHost with
  index := some movedIndex
  fetch := fetchFrom [("../helper", treeOf "sha256:h" movedUser), ("https://h/lib", treeOf "sha256:l" Manifest.initial)] }

/-- The options. -/
def strictOpts : ResolveOpts := { plainOpts with requireAttestedMetadata := true }

/-- The search that asks for nothing. -/
def takeAtOnce : List ResolveState → Turn
  | [] => .stop (.other [])
  | σ :: _ => .stop (taken σ)

theorem movedHost_drivenBy : movedHost.DrivenBy fun _ _ _ => takeAtOnce := by
  refine ⟨fun ctx strategy explicit σ₀ result σ => ?_⟩
  have hpubgrub : movedHost.pubgrub ctx strategy explicit σ₀ = some ⟨taken σ₀, σ₀, none⟩ := rfl
  rw [hpubgrub]
  constructor
  · rintro ⟨⟩
    exact ⟨[], .start, rfl⟩
  · rintro ⟨past, hasked, hstop⟩
    cases hasked with
    | start =>
      cases hstop
      rfl
    | ask _ hmove => cases hmove

end Milpa.Core.Resolver

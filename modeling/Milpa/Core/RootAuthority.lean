import Milpa.Core.GraphExact
import Milpa.Core.SourceIdInjective
import Milpa.Core.TermKeys

/-!
# What the root decides about bytes

The root binds a name to a source, and no later claim changes that. But a source is a
normal form, and a tree is fetched from a URL: an item with another spelling of the URL has
the same source, is admitted, and is not one that was seen; its worker fetches from the URL
as it is spelled and puts what it gets in the place of the root's. Where every item with a
source of the root has URLs that the root declares for it, the root decides what is
fetched (`root_authority`).
-/

namespace Milpa.Core.Resolver

open Solver Result

variable {ctx : ResolveCtx} {manifest : Manifest} {r : BindingResolver} {σ σ' : ResolveState} {items : List Item} {item : Item}
  {c c' : Config} {name : Str} {s : SourceId} {tree : PackageTree}

/-! ### What the root declares -/

/-- A `git` dependency that the root declares, or that it overrides a name with. -/
def RootGit (manifest : Manifest) (d : UrlDep) : Prop :=
  Dep.url d ∈ rootDeps manifest ∨ ∃ ov ∈ manifest.overrides, overrideEffectiveItem ov.name ov = some (.url d)

/-- The source of a `git` dependency. -/
def gitSource (d : UrlDep) : SourceId := normalForm (.fetchable (.git d.git (some d.gitRef) d.subpath))

/-- The root declares that a source is fetched from a URL at a ref: the URL is that of the dependency, one of its mirrors, or a
mirror that is recorded for it in the lockfile. -/
def Declares (ctx : ResolveCtx) (manifest : Manifest) (s : SourceId) (url gitRef : Str) : Prop :=
  ∃ d, RootGit manifest d ∧ gitSource d = s ∧ url ∈ d.git :: d.mirrors ++ priorDeclaredMirrorUrls ctx d.name ∧ gitRef = d.gitRef

/-- A fetch from a URL at a ref has given a tree. -/
def Fetches (ctx : ResolveCtx) (url gitRef : Str) (tree : PackageTree) : Prop :=
  ∃ name sha receipt, ctx.fetch name (.git url gitRef sha) = .ok (tree, receipt)

/-- The root has bound a name to the source. -/
def RootBinds (r : BindingResolver) (s : SourceId) : Prop := ∃ k, r.rootKeys k = true ∧ r.bindings k = some s

/-- The next item that is fetched, if it has a source of the root, has only URLs that the root declares for it. -/
def Loyal (ctx : ResolveCtx) (manifest : Manifest) (c : Config) : Prop :=
  ∀ q rest e, c.tasks = .dispatch q :: rest → q.2 = .url e → (e.git, e.gitRef, e.subpath) ∉ c.state.seenUrl →
    RootBinds c.state.binding (gitSource e) → ∀ url ∈ candidateUrls ctx e, Declares ctx manifest (gitSource e) url e.gitRef

/-- A candidate was made of a tree that was fetched from where the root declares. -/
def FromRoot (ctx : ResolveCtx) (manifest : Manifest) (s : SourceId) (cand : Candidate) : Prop :=
  ∃ url gitRef tree commit submodules, Declares ctx manifest s url gitRef ∧ Fetches ctx url gitRef tree ∧
    cand.identity = tree.contentHash ∧ cand.provenance = some (.git url (opt gitRef) commit "observed" submodules)

/-! ### Bound items -/

/-- A sound resolver tells a `git` source by its solver key. -/
theorem source_eq_of_canonical {url : Str} {gitRef subpath : Option Str} {raw : SourceId} (hr : r.Sound) {key : DepKey}
    (hs : r.bindings key = some (.fetchable (.git url gitRef subpath))) (hraw : Accepted raw)
    (h : canonical (normalForm raw) = canonical (.fetchable (.git url gitRef subpath))) :
    normalForm raw = .fetchable (.git url gitRef subpath) := by
  obtain ⟨raw', haccepted, hraw'⟩ := hr.normal key _ hs
  rw [hraw'] at h ⊢
  rcases canonical_eq_cases hraw haccepted h with heq | ⟨registry, repository, d, sub, -, rfl⟩ | ⟨registry, repository, d, sub, rfl, -⟩
  · exact heq
  · cases hraw'
  · cases hraw'

/-- An item with the normal form of a `git` source is a `git` item. -/
theorem exists_url_of_normalForm {index : Index} {url : Str} {gitRef subpath : Option Str}
    (h : normalForm (item.rawSource index) = .fetchable (.git url gitRef subpath)) :
    ∃ e, item = .url e ∧ gitSource e = .fetchable (.git url gitRef subpath) := by
  cases item with
  | url e => exact ⟨e, rfl, h⟩
  | named name vs ns => cases h
  | «local» dep => cases h
  | tarball dep => cases h
  | oci dep => cases h

/-- An admitted item with the solver key or the name of a `git` dependency of the root is a `git` item with its source. -/
theorem exists_url_of_bound {url : Str} {gitRef subpath : Option Str} (hr : r.Sound) (htidy : r.Tidy)
    (hs : r.bindings (.bare name) = some (.fetchable (.git url gitRef subpath))) (hb : Bound ctx r item)
    (h : solverKeyOf ctx item = canonical (.fetchable (.git url gitRef subpath)) ∨ item.key = .bare name) :
    ∃ e, item = .url e ∧ gitSource e = .fetchable (.git url gitRef subpath) := by
  suffices hnormal : normalForm (item.rawSource ctx.index) = .fetchable (.git url gitRef subpath) from
    exists_url_of_normalForm hnormal
  rcases h with h | h
  · exact source_eq_of_canonical hr hs hb.1 h
  · obtain ⟨x, hx⟩ := htidy.keys _ _ hs
    have hkey : DepKey.fromSolverVar item.key.solverVar = .bare name := by rw [h, hx, DepKey.solverVar_fromSolverVar]
    have hbound := hb.2
    rw [hkey, hs] at hbound
    exact (Option.some.inj hbound).symm

/-! ### Fetches -/

/-- What is fetched comes from one of the candidates. -/
theorem fetch_of_fetchAnyTracked {expected : Option Str} {total idx n : ℕ} {last : Option (Str × Str)} {provs : List Transport}
    {receipt : Receipt} (h : fetchAnyTracked ctx name expected total idx last provs = .ok (tree, receipt, n)) :
    ∃ i prov, n = idx + i ∧ provs[i]? = some prov ∧ ctx.fetch name prov = .ok (tree, receipt) := by
  induction provs generalizing idx last with
  | nil => cases h
  | cons prov provs ih =>
    rw [fetchAnyTracked] at h
    split at h
    · obtain ⟨i, prov', hn, hprov, hfetch⟩ := ih h
      exact ⟨i + 1, prov', by omega, hprov, hfetch⟩
    · rename_i tree' receipt' hfetch
      split at h
      · split_ifs at h
        cases h
        exact ⟨0, prov, rfl, rfl, hfetch⟩
      · cases h
        exact ⟨0, prov, rfl, rfl, hfetch⟩

/-- What the worker of a `git` item fetches, and where it puts it. -/
theorem visitUrl_fetches {dep : UrlDep} {svar : SolverKey} (h : visitUrl ctx σ dep svar = .ok (σ', items)) :
    ∃ tree url commit submodules ex cache mirrors, url ∈ candidateUrls ctx dep ∧ Fetches ctx url dep.gitRef tree ∧
      σ' = seedFlagsOf tree dep.flagRequests (afterFetch σ dep.name tree cache
        (fetchedCandidate svar tree.contentHash ex (.git url (opt dep.gitRef) commit "observed" submodules) mirrors)) := by
  obtain ⟨⟨tree, receipt, idx⟩, hfetch, h⟩ := bind_eq_ok.mp h
  obtain ⟨-, -, h⟩ := bind_eq_ok.mp h
  obtain ⟨sid, -, h⟩ := bind_eq_ok.mp h
  obtain ⟨⟨ex, σ₁⟩, hex, h⟩ := bind_eq_ok.mp h
  have h := pure_eq_ok.mp h
  simp only [Prod.mk.injEq] at h
  obtain ⟨es, cache, ex₀, dv, rfl, -, -⟩ := extractRequires_cases hex
  obtain ⟨i, prov, hidx, hprov, hfetched⟩ := fetch_of_fetchAnyTracked hfetch
  rw [List.getElem?_map] at hprov
  obtain ⟨url, hurl, rfl⟩ := Option.map_eq_some_iff.mp hprov
  have hobserved : (candidateUrls ctx dep).getD idx [] = url := by
    rw [hidx, Nat.zero_add, List.getD_eq_getElem?_getD, hurl, Option.getD_some]
  rw [hobserved] at h
  exact ⟨tree, url, _, _, ex, cache, _, List.mem_of_getElem? hurl, ⟨_, _, _, hfetched⟩, h.1⟩

/-! ### What is guarded -/

/-- The solver key of a source of the root stands for what was fetched from where the root declares, and so does the
directory of the name; no package of the index comes in between. -/
structure Guarded (ctx : ResolveCtx) (manifest : Manifest) (name : Str) (s : SourceId) (σ : ResolveState) : Prop where
  sound : σ.binding.Sound
  bound : σ.binding.bindings (.bare name) = some s
  candidates : ∀ v cand, (σ.candidatesOf (canonical s)).get? v = some cand → FromRoot ctx manifest s cand
  stubs : ∀ v, (σ.stubsOf (canonical s)).get? v = none
  shown : ∀ package v entry, (σ.stubsOf package).get? v = some entry → (σ.binding.solverkeyIndex package).isSome = true
  slot : validFlagName name = true → ∀ t, σ.depsDir.get? name = some t → ∃ url gitRef, Declares ctx manifest s url gitRef ∧ Fetches ctx url gitRef t

/-- What is guarded does not depend on anything else. -/
theorem Guarded.congr (h : Guarded ctx manifest name s σ) (hbinding : σ'.binding = σ.binding)
    (hcandidates : ∀ v cand, (σ'.candidatesOf (canonical s)).get? v = some cand → FromRoot ctx manifest s cand)
    (hstubs : ∀ package v entry, (σ'.stubsOf package).get? v = some entry → (σ.stubsOf package).get? v = some entry)
    (hdepsDir : ∀ t, σ'.depsDir.get? name = some t → σ.depsDir.get? name = some t) : Guarded ctx manifest name s σ' where
  sound := hbinding ▸ h.sound
  bound := hbinding ▸ h.bound
  candidates := hcandidates
  stubs v := by
    cases hentry : (σ'.stubsOf (canonical s)).get? v with
    | none => rfl
    | some entry =>
      have hold := hstubs _ v entry hentry
      rw [h.stubs v] at hold
      cases hold
  shown package v entry hentry := hbinding ▸ h.shown package v entry (hstubs package v entry hentry)
  slot hvalid t ht := h.slot hvalid t (hdepsDir t ht)

theorem FromRoot.moreTerms {cand cand' : Candidate} (h : FromRoot ctx manifest s cand) (hmore : MoreTerms ctx r cand cand') :
    FromRoot ctx manifest s cand' := by
  induction hmore with
  | refl => exact h
  | tail _ hstep ih =>
    obtain ⟨d, k, vs, -, rfl⟩ := hstep
    unfold ResolveState.extendTerms
    split_ifs
    · exact ih
    · exact ih

theorem Guarded.grown (h : Guarded ctx manifest name s σ) (hgrown : Grown ctx r σ σ') {v : Version} {cand : Candidate}
    (hcand : (σ'.candidatesOf (canonical s)).get? v = some cand) : FromRoot ctx manifest s cand := by
  obtain ⟨cand₀, hcand₀, hmore⟩ := hgrown _ v cand hcand
  exact (h.candidates v cand₀ hcand₀).moreTerms hmore

/-- Terms and flags that are added leave what is guarded. -/
theorem Guarded.enriched (h : Guarded ctx manifest name s σ) (henriched : Enriched σ σ') (hgrown : Grown ctx r σ σ') :
    Guarded ctx manifest name s σ' := by
  refine h.congr henriched.binding (fun v cand hcand => h.grown hgrown hcand) (fun package v entry hentry => ?_) fun t ht => ?_
  · rw [henriched.rest] at hentry
    exact hentry
  · rw [henriched.rest] at ht
    exact ht

theorem Guarded.gateOnly (h : Guarded ctx manifest name s σ) {out : Option Item} (hgate : gateOnly ctx σ item = .ok (out, σ')) :
    Guarded ctx manifest name s σ' := by
  obtain ⟨decision, binding, haccepted, hsubmit, rfl, -⟩ := gateOnly_cases hgate
  have hindex : ∀ ck, (σ.binding.solverkeyIndex ck).isSome = true → (binding.solverkeyIndex ck).isSome = true := by
    intro ck hck
    obtain ⟨-, ⟨-, -, rfl⟩ | ⟨rfl, -⟩⟩ := BindingResolver.submit_cases hsubmit
    · simp only [BindingResolver.bind, Function.update_apply]
      split_ifs
      · rfl
      · exact hck
    · exact hck
  have hsame : ∀ σ'' : ResolveState, σ''.binding = binding → σ''.candidates = σ.candidates → σ''.stubs = σ.stubs →
      σ''.depsDir = σ.depsDir → Guarded ctx manifest name s σ'' := by
    intro σ'' hbinding hcandidates hstubs hdepsDir
    have hstubsOf : ∀ package, σ''.stubsOf package = σ.stubsOf package := fun package => by
      rw [ResolveState.stubsOf, hstubs, ResolveState.stubsOf]
    refine ⟨?_, ?_, fun v cand hcand => ?_, fun v => ?_, fun package v entry hentry => ?_, fun hvalid t ht => ?_⟩
    · rw [hbinding]
      exact h.sound.submit haccepted rfl hsubmit
    · rw [hbinding]
      exact BindingResolver.bindings_submit hsubmit h.bound
    · rw [candidatesOf_congr hcandidates] at hcand
      exact h.candidates v cand hcand
    · rw [hstubsOf]
      exact h.stubs v
    · rw [hstubsOf] at hentry
      rw [hbinding]
      exact hindex package (h.shown package v entry hentry)
    · rw [hdepsDir] at ht
      exact h.slot hvalid t ht
  unfold ResolveState.recordDiscovery
  split_ifs
  · exact hsame _ rfl rfl rfl rfl
  · exact hsame _ rfl rfl rfl rfl

/-- A worker that fetches for another name and another solver key leaves what is guarded. -/
theorem Guarded.afterFetch (h : Guarded ctx manifest name s σ) {dir : Str} {t : PackageTree} {cache : EdgeCache} {cand : Candidate}
    (hdir : dir ≠ name) (hkey : cand.name ≠ canonical s) : Guarded ctx manifest name s (afterFetch σ dir t cache cand) := by
  refine h.congr rfl (fun v cand' hcand' => ?_) (fun _ _ _ hentry => hentry) fun t' ht' => ?_
  · rw [candidatesOf_afterFetch, if_neg (Ne.symm hkey)] at hcand'
    exact h.candidates v cand' hcand'
  · have ht' : BTreeMap.get? (σ.depsDir.insert dir t) name = some t' := ht'
    rw [BTreeMap.get?_insert, if_neg (Ne.symm hdir)] at ht'
    exact ht'

theorem Guarded.seedFlagsOf (h : Guarded ctx manifest name s σ) (t : PackageTree) (requests : List FlagRequest) :
    Guarded ctx manifest name s (seedFlagsOf t requests σ) := by
  refine h.congr ?_ (fun v cand hcand => ?_) (fun package v entry hentry => ?_) fun t' ht' => ?_
  · exact binding_seedFlagsOf t requests σ
  · rw [candidatesOf_congr (candidates_seedFlagsOf _ _ _)] at hcand
    exact h.candidates v cand hcand
  · rwa [ResolveState.stubsOf, stubs_seedFlagsOf] at hentry
  · rwa [depsDir_seedFlagsOf] at ht'

/-- **A worker whose item, if it has the source, has URLs that the root declares, keeps the guard.** -/
theorem Guarded.dispatch {url : Str} {gitRef subpath : Option Str} (h : Guarded ctx manifest name s σ) (htidy : σ.binding.Tidy)
    (hgit : s = .fetchable (.git url gitRef subpath)) (hb : Bound ctx σ.binding item)
    (hloyal : ∀ e, item = .url e → (e.git, e.gitRef, e.subpath) ∉ σ.seenUrl → gitSource e = s → ∀ u ∈ candidateUrls ctx e,
      Declares ctx manifest s u e.gitRef)
    (hwork : dispatch ctx σ item = .ok (σ', items)) : Guarded ctx manifest name s σ' := by
  have hother : ∀ {svar : SolverKey}, σ.binding.canonicalFor item.key = some svar → (∀ e, item = .url e → gitSource e ≠ s) →
      item.key ≠ .bare name ∧ svar.identity ≠ canonical s := by
    intro svar hsvar hne
    have hbound := h.bound
    rw [hgit] at hbound
    have hexists : ∀ hcase : solverKeyOf ctx item = canonical s ∨ item.key = .bare name, False := by
      intro hcase
      rw [hgit] at hcase
      obtain ⟨e, he, hsource⟩ := exists_url_of_bound h.sound htidy hbound hb hcase
      exact hne e he (hsource.trans hgit.symm)
    exact ⟨fun hkey => hexists (Or.inr hkey), fun hkey => hexists (Or.inl ((solverKeyOf_eq htidy hb hsvar).symm.trans hkey))⟩
  have hname : ∀ {n : Str}, DepKey.bare n ≠ .bare name → n ≠ name := fun hne heq => hne (heq ▸ rfl)
  cases item with
  | url dep =>
    obtain ⟨svar, hsvar, ⟨hseen, hrevisit⟩ | ⟨hnew, hvisit⟩⟩ := processUrl_cases hwork
    · refine h.enriched ?_ (grown_revisitUrl hrevisit)
      obtain ⟨rfl | ⟨manifest, -, -, -, hadded⟩, -⟩ := revisitUrl_cases hrevisit
      · exact .refl _
      · exact hadded.enriched
    · obtain ⟨t, u, commit, submodules, ex, cache, mirrors, hu, hfetches, rfl⟩ := visitUrl_fetches hvisit
      have hmarked : Guarded ctx manifest name s { σ with seenUrl := (dep.git, dep.gitRef, dep.subpath) :: σ.seenUrl } :=
        h.congr rfl h.candidates (fun _ _ _ => id) fun _ => id
      refine Guarded.seedFlagsOf ?_ t dep.flagRequests
      by_cases hsource : gitSource dep = s
      · have hdeclares := hloyal dep rfl hnew hsource u hu
        have hidentity : svar.identity = canonical s := (solverKeyOf_eq htidy hb hsvar).trans (congrArg canonical hsource)
        refine ⟨h.sound, h.bound, fun v cand hcand => ?_, h.stubs, h.shown, fun hvalid t' ht' => ?_⟩
        · rw [candidatesOf_afterFetch] at hcand
          split_ifs at hcand with hkey
          · rw [VersionMap.get?_insert] at hcand
            split_ifs at hcand
            · cases hcand
              exact ⟨u, dep.gitRef, t, commit, submodules, hdeclares, hfetches, rfl, rfl⟩
            · have hcand : (σ.candidatesOf svar.identity).get? v = some cand := hcand
              rw [hidentity] at hcand
              exact h.candidates v cand hcand
          · exact absurd hidentity.symm hkey
        · have ht' : BTreeMap.get? (σ.depsDir.insert dep.name t) name = some t' := ht'
          rw [BTreeMap.get?_insert] at ht'
          split_ifs at ht'
          · cases ht'
            exact ⟨u, dep.gitRef, hdeclares, hfetches⟩
          · exact h.slot hvalid t' ht'
      · obtain ⟨hkey, hidentity⟩ := hother hsvar fun e he => by
          cases he
          exact hsource
        exact hmarked.afterFetch (hname hkey) hidentity
  | «local» dep =>
    obtain ⟨-, rfl, -⟩ | ⟨-, svar, t, ex, cache, hsvar, -, rfl, -⟩ := processLocal_cases hwork
    · exact h
    · obtain ⟨hkey, hidentity⟩ := hother hsvar nofun
      refine Guarded.afterFetch ?_ (hname hkey) hidentity
      exact h.congr rfl h.candidates (fun _ _ _ => id) fun _ => id
  | tarball dep =>
    obtain ⟨-, rfl, -⟩ | ⟨-, svar, t, ex, cache, record, hsvar, -, rfl, -⟩ := processTarball_cases hwork
    · exact h
    · obtain ⟨hkey, hidentity⟩ := hother hsvar nofun
      refine Guarded.afterFetch ?_ (hname hkey) hidentity
      exact h.congr rfl h.candidates (fun _ _ _ => id) fun _ => id
  | named n constraint ns =>
    obtain ⟨-, ⟨-, rfl⟩ | ⟨-, -, rfl⟩ | ⟨-, versions, stubKey, -, hstub, rfl⟩⟩ := processNamed_cases hwork
    · exact h.congr rfl h.candidates (fun _ _ _ => id) fun _ => id
    · exact h
    · obtain ⟨-, hidentity⟩ := hother hstub nofun
      refine ⟨h.sound, h.bound, h.candidates, fun v => ?_, fun package v entry hentry => ?_, h.slot⟩
      · rw [stubsOf_afterEnumerate, if_neg (Ne.symm hidentity)]
        exact h.stubs v
      · rw [stubsOf_afterEnumerate] at hentry
        split_ifs at hentry with hpackage
        · obtain ⟨s', x, hs', -, hcanonical⟩ := htidy.canonicalFor hstub
          rw [hpackage, hcanonical]
          exact h.sound.indexed _ s' hs'
        · exact h.shown package v entry hentry
  | oci dep =>
    obtain ⟨-, rfl, -⟩ | ⟨-, svar, t, ex, cache, hsvar, -, rfl, -⟩ := processOci_cases hwork
    · exact h
    · obtain ⟨hkey, hidentity⟩ := hother hsvar nofun
      refine Guarded.afterFetch ?_ (hname hkey) hidentity
      exact h.congr rfl h.candidates (fun _ _ _ => id) fun _ => id

/-- The directory of a package of the index is not that of another bound name. -/
theorem dirOf_ne_of_shown (hr : σ.binding.Sound) (hs : σ.binding.bindings (.bare name) = some s) (hvalid : validFlagName name = true)
    {package : Str} (hshown : (σ.binding.solverkeyIndex package).isSome = true) (hne : package ≠ canonical s) : σ.dirOf package ≠ name := by
  obtain ⟨k, hk⟩ := Option.isSome_iff_exists.mp hshown
  obtain ⟨s', hs', rfl⟩ := hr.shown package k hk
  intro hdir
  rw [ResolveState.dirOf, ResolveState.depkeyForSolvedName, hk] at hdir
  have hdir : depDirName k.display.name k.display.namespace = name := hdir
  unfold depDirName at hdir
  split at hdir
  · rename_i hns
    have hdisplay : k.display = .bare name := by
      rw [← hdir, DepKey.bare, ← hns]
    rw [hdisplay, hs] at hs'
    exact hne (by rw [Option.some.inj hs'])
  · -- a qualified name has a directory with a character that no valid name has
    have hat : '@' ∈ name := by
      rw [← hdir]
      exact List.mem_append_left _ (List.mem_append_left _ (List.mem_append_left _ (List.mem_singleton_self _)))
    have hall := List.all_eq_true.mp ((Bool.and_eq_true _ _).mp hvalid).2 '@' hat
    exact absurd hall (by decide)

/-- **A query keeps the guard.** -/
theorem Guarded.query (h : Guarded ctx manifest name s σ) {package : Str} {version : Version}
    (hquery : query ctx σ package version = .ok (σ', items)) : Guarded ctx manifest name s σ' := by
  obtain ⟨rfl, -⟩ | ⟨-, entry, hentry, hquery⟩ := query_cases hquery
  · exact h
  · obtain ⟨t, ex, cache, -, -, -, rfl, -⟩ := materializeNamed_cases hquery
    have hne : package ≠ canonical s := fun heq => by
      rw [heq, h.stubs version] at hentry
      cases hentry
    refine Guarded.seedFlagsOf ?_ t _
    refine ⟨h.sound, h.bound, fun v cand hcand => ?_, fun v => ?_, fun p v e he => ?_, fun hvalid t' ht' => ?_⟩
    · rw [candidatesOf_afterMaterialize, if_neg (Ne.symm hne)] at hcand
      exact h.candidates v cand hcand
    · rw [stubsOf_afterMaterialize, if_neg (Ne.symm hne)]
      exact h.stubs v
    · rw [stubsOf_afterMaterialize] at he
      split_ifs at he with hp
      · rw [hp]
        exact h.shown package version entry hentry
      · exact h.shown p v e he
    · have hdir := dirOf_ne_of_shown h.sound h.bound hvalid (h.shown package version entry hentry) hne
      have ht' : BTreeMap.get? (σ.depsDir.insert (σ.dirOf package) t) name = some t' := ht'
      rw [BTreeMap.get?_insert, if_neg (Ne.symm hdir)] at ht'
      exact h.slot hvalid t' ht'

/-! ### Runs -/

/-- What holds in a run whose steps are loyal. -/
structure Ruled (ctx : ResolveCtx) (manifest : Manifest) (name : Str) (s : SourceId) (c : Config) : Prop where
  books : Books ctx c
  rooted : Rooted ctx c.state.binding
  rootKey : c.state.binding.rootKeys (.bare name) = true
  guarded : Guarded ctx manifest name s c.state

/-- **A loyal step keeps what is guarded.** -/
theorem Ruled.step {url : Str} {gitRef subpath : Option Str} (h : Ruled ctx manifest name s c)
    (hgit : s = .fetchable (.git url gitRef subpath)) (hloyal : Loyal ctx manifest c) (hstep : Step ctx c c') :
    Ruled ctx manifest name s c' := by
  have hreaches := reaches_step hstep
  obtain ⟨-, hkeys, -⟩ := hreaches.root h.rooted.bound
  refine ⟨h.books.step hstep, h.rooted.reaches hreaches, by rw [hkeys]; exact h.rootKey, ?_⟩
  cases hstep with
  | gate htasks hgate => exact h.guarded.gateOnly hgate
  | suppress htasks hgate => exact h.guarded.gateOnly hgate
  | admitted htasks => exact h.guarded
  | @dispatch q rest σ items htasks hwork =>
    have hbound : Bound ctx c.state.binding q.2 :=
      h.books.bound q ((h.books.admitted q).mpr (Or.inl (by simp [Config.waiting, htasks, Task.waiting])))
    refine h.guarded.dispatch h.books.tidy hgit hbound (fun e he hnew hsource => ?_) hwork
    subst hsource
    exact hloyal q rest e htasks he hnew ⟨_, h.rootKey, h.guarded.bound⟩
  | startFixpoint htasks hphase => exact h.guarded
  | round htasks hphase hiters hround hchange =>
    obtain ⟨requests, -, henriched, -⟩ := fixpointRound_cases hround
    exact h.guarded.enriched henriched (grown_fixpointRound hround)
  | startSolve htasks hphase hiters hround hchange hconflicts => exact h.guarded
  | query htasks hphase hquery => exact h.guarded.query hquery

/-- Nothing stands for a `git` source when a resolve starts. -/
theorem ruled_start {url : Str} {gitRef subpath : Option Str} (hstart : Starts ctx c) (hgit : s = .fetchable (.git url gitRef subpath))
    (hkey : c.state.binding.rootKeys (.bare name) = true) (hs : c.state.binding.bindings (.bare name) = some s) :
    Ruled ctx manifest name s c := by
  have hsound := sound_of_starts hstart
  have hbooks := books_of_reachable ⟨c, hstart, .refl⟩
  have hrooted := rooted_of_reachable ⟨c, hstart, .refl⟩
  obtain ⟨r, σ, queue, -, rfl, huntouched, -⟩ := starts_cases hstart
  have hstubs : ∀ package v, (σ.stubsOf package).get? v = none := by
    intro package v
    rw [ResolveState.stubsOf, huntouched.stubs]
    rfl
  refine ⟨hbooks, hrooted, hkey, hsound, hs, fun v cand hcand => ?_, hstubs _, fun package v entry hentry => ?_, fun _ t ht => ?_⟩
  · have hne : (σ.candidatesOf (canonical s)).entries ≠ [] := by
      obtain ⟨e, he, -⟩ := Option.map_eq_some_iff.mp (show ((σ.candidatesOf (canonical s)).entry v).map Prod.snd = some cand from hcand)
      exact List.ne_nil_of_mem (BTreeMap.mem_entries.mpr he)
    have hhead := head_canonical s
    rcases huntouched.candidates _ hne with hroot | ⟨member, hmember⟩
    · rw [hroot, hgit] at hhead
      cases hhead
    · rw [hmember, head_canonical, hgit] at hhead
      cases hhead
  · have hentry : (σ.stubsOf package).get? v = some entry := hentry
    rw [hstubs] at hentry
    cases hentry
  · have ht : σ.depsDir.get? name = some t := ht
    rw [huntouched.depsDir] at ht
    cases ht

/-! ### The claim -/

/-- What the root decides about a name that it has bound to a `git` source. -/
structure Authority (ctx : ResolveCtx) (manifest : Manifest) (σ : ResolveState) (name : Str) (s : SourceId) : Prop where
  /-- The node has the source. -/
  node : ∀ solution trust graph, graphOf σ solution trust = .ok graph → canonical s ∈ survivors σ solution →
    ∃ node ∈ graph, (⟨node.name, node.namespace⟩ : DepKey) = σ.depkeyForSolvedName (canonical s) ∧ node.sourceId = some s
  /-- The candidate was made of a tree that was fetched from where the root declares. -/
  candidate : ∀ solution cand, picked σ solution (canonical s) = some cand → FromRoot ctx manifest s cand
  /-- So was what is in the directory of the name. -/
  slot : validFlagName name = true → ∀ t, σ.depsDir.get? name = some t →
    ∃ url gitRef, Declares ctx manifest s url gitRef ∧ Fetches ctx url gitRef t

/-- The root decides about every name that it has bound to a `git` source. -/
def RootDecides (ctx : ResolveCtx) (manifest : Manifest) (σ : ResolveState) : Prop :=
  ∀ name url gitRef subpath, σ.binding.rootKeys (.bare name) = true →
    σ.binding.bindings (.bare name) = some (.fetchable (.git url gitRef subpath)) →
      Authority ctx manifest σ name (.fetchable (.git url gitRef subpath))

/-- A solver key is shown under a name that is bound to the source. -/
theorem bindings_depkeyForSolvedName {url : Str} {gitRef subpath : Option Str} {key : DepKey} (hr : σ.binding.Sound)
    (hs : σ.binding.bindings key = some (.fetchable (.git url gitRef subpath))) :
    σ.binding.bindings (σ.depkeyForSolvedName (canonical (.fetchable (.git url gitRef subpath)))) =
      some (.fetchable (.git url gitRef subpath)) := by
  obtain ⟨k, hk⟩ := Option.isSome_iff_exists.mp (hr.indexed key _ hs)
  obtain ⟨s', hs', hcanonical⟩ := hr.shown _ k hk
  obtain ⟨raw, haccepted, rfl⟩ := hr.normal _ s' hs'
  rw [ResolveState.depkeyForSolvedName, hk]
  rw [source_eq_of_canonical hr hs haccepted hcanonical] at hs'
  exact hs'

/-- The check that a step is loyal. -/
def loyal (ctx : ResolveCtx) (manifest : Manifest) (c : Config) : Bool :=
  match c.tasks with
  | .dispatch (_, .url e) :: _ =>
    decide ((e.git, e.gitRef, e.subpath) ∈ c.state.seenUrl) || (candidateUrls ctx e).all fun url =>
      (rootDeps manifest).any fun dep =>
        match dep with
        | .url d => decide (gitSource d = gitSource e ∧ url ∈ d.git :: d.mirrors ∧ e.gitRef = d.gitRef)
        | _ => false
  | _ => true

theorem loyal_of_check (h : loyal ctx manifest c = true) : Loyal ctx manifest c := by
  intro q rest e htasks he hnew _ url hurl
  obtain ⟨origin, item⟩ := q
  obtain rfl : item = .url e := he
  rw [loyal, htasks] at h
  dsimp only at h
  rw [decide_eq_false hnew, Bool.false_or] at h
  obtain ⟨dep, hdep, hdeclares⟩ := List.any_eq_true.mp (List.all_eq_true.mp h url hurl)
  cases dep with
  | url d =>
    obtain ⟨hsource, hplace, href⟩ := of_decide_eq_true hdeclares
    exact ⟨d, Or.inl hdep, hsource, List.mem_append_left _ hplace, href⟩
  | _ => cases hdeclares

/-- A root that uses a library and a tool. -/
def libAndTool : Manifest :=
  { Manifest.initial with
    name := some "app"
    deps := [.url (urlDep "lib" "https://h/lib" "main" none), .url (urlDep "tool" "https://h/tool" "main" none)] }

/-- A world where the tool uses the library, as it spells its URL; what is at another URL of the library is not the library. -/
def spellingWorld (url : Str) : ResolveCtx :=
  { ResolveCtx.offline with
    fetch := fetchFrom [("https://h/lib", treeOf "sha256:l" Manifest.initial), ("https://h/lib?at=elsewhere", treeOf "sha256:m" Manifest.initial),
      ("https://h/tool", treeOf "sha256:t" { Manifest.initial with name := some "tool", deps := [.url (urlDep "lib" url "main" none)] })] }

/-- **In a run in which every item with a source of the root has URLs that the root declares for it, the root decides** what is
fetched for the names that it has bound. -/
theorem root_decides {env : ResolveCtx} {c₀ : Config} (hstart : startPackage env manifest tree = .ok c₀)
    (hrun : RunWhere (Loyal (packageCtx env manifest tree) manifest) (packageCtx env manifest tree) c₀ c) :
    RootDecides (packageCtx env manifest tree) manifest c.state := by
  intro name url gitRef subpath hkey hs
  have hstarts : Starts (packageCtx env manifest tree) c₀ := .package hstart
  obtain ⟨-, hkeys, hroot⟩ := (reaches_run (RunWhere.run hrun)).root (rooted_of_reachable ⟨c₀, hstarts, .refl⟩).bound
  have hkey₀ : c₀.state.binding.rootKeys (.bare name) = true := by rw [← hkeys]; exact hkey
  have hstart₀ : Ruled (packageCtx env manifest tree) manifest name (.fetchable (.git url gitRef subpath)) c₀ :=
    ruled_start hstarts rfl hkey₀ ((hroot _ hkey₀).symm.trans hs)
  have hruled := hrun.invariant hstart₀ fun _ _ hloyal h hstep => h.step rfl hloyal hstep
  have hfiled := filed_of_reachable ⟨c₀, hstarts, RunWhere.run hrun⟩
  refine ⟨fun solution trust graph hgraph hsurvivor => ?_, fun solution cand hcand => ?_, hruled.guarded.slot⟩
  · obtain ⟨node, hnode, cand, hcand, hsame⟩ := exists_node hgraph hsurvivor
    have hname := picked_name hfiled hcand
    have hkey : (⟨node.name, node.namespace⟩ : DepKey) = c.state.depkeyForSolvedName cand.name := by
      have hname' : node.name = (c.state.depkeyForSolvedName cand.name).name := (congrArg ResolvedDep.name hsame :)
      have hns : node.namespace = (c.state.depkeyForSolvedName cand.name).namespace := (congrArg ResolvedDep.namespace hsame :)
      rw [hname', hns]
    have hsource : node.sourceId = c.state.binding.bindings (c.state.depkeyForSolvedName cand.name) :=
      (congrArg ResolvedDep.sourceId hsame :)
    refine ⟨node, hnode, by rw [hkey, hname], ?_⟩
    rw [hsource, hname]
    exact bindings_depkeyForSolvedName hruled.guarded.sound hs
  · obtain ⟨v, -, hcand⟩ := Option.bind_eq_some_iff.mp hcand
    exact hruled.guarded.candidates v cand hcand

/-- The tool spells the URL of the library as the root does. -/
theorem root_decides_tool :
    ∃ ctx c₀ c, Starts ctx c₀ ∧ RunWhere (Loyal ctx libAndTool) ctx c₀ c ∧ c.tasks = [] ∧ c.phase = .solve ∧ c.dispatched.length = 3 ∧
      RootDecides ctx libAndTool c.state := by
  let ctx := packageCtx (spellingWorld "https://h/lib") libAndTool (treeOf [] libAndTool)
  have hcomes : comesTo (loyal ctx libAndTool) (spellingWorld "https://h/lib") libAndTool 12 (fun c =>
      decide (c.tasks = []) && decide (c.phase = .solve) && decide (c.dispatched.length = 3)) = true := by
    decide
  unfold comesTo at hcomes
  split at hcomes
  · rename_i c₀ hstart
    split at hcomes
    · rename_i c hrunFor
      have hrun : RunWhere (Loyal ctx libAndTool) ctx c₀ c := runWhere_of_runFor (fun _ => loyal_of_check) hrunFor
      simp only [Bool.and_eq_true, decide_eq_true_eq] at hcomes
      exact ⟨ctx, c₀, c, .package hstart, hrun, hcomes.1.1, hcomes.1.2, hcomes.2, root_decides hstart hrun⟩
    · cases hcomes
  · cases hcomes

/-- The tool spells it in another way: what it has fetched is in the place of the library. -/
theorem other_spelling_replaces :
    ¬ ∀ env manifest tree c₀ c, startPackage env manifest tree = .ok c₀ →
      Run (packageCtx env manifest tree) c₀ c → c.tasks = [] → c.phase = .solve → RootDecides (packageCtx env manifest tree) manifest c.state := by
  intro h
  let env := spellingWorld "https://h/lib?at=elsewhere"
  let lib : Str := "lib"
  let elsewhere : Str := "sha256:m"
  have hcomes : comesTo (fun _ => true) env libAndTool 12 (fun c =>
      decide (c.tasks = []) && decide (c.phase = .solve) && c.state.binding.rootKeys (.bare lib) &&
        decide (c.state.binding.bindings (.bare lib) = some (.fetchable (.git "https://h/lib" (some "main") none))) &&
        (c.state.depsDir.get? lib).any fun t => decide (t.contentHash = elsewhere)) = true := by
    decide
  unfold comesTo at hcomes
  split at hcomes
  · rename_i c₀ hstart
    split at hcomes
    · rename_i c hrunFor
      simp only [Bool.and_eq_true, decide_eq_true_eq] at hcomes
      obtain ⟨⟨⟨⟨htasks, hphase⟩, hkey⟩, hbound⟩, hslot⟩ := hcomes
      obtain ⟨t, ht, hhash⟩ := (Option.any_eq_true _ _).mp hslot
      have hrun : RunWhere (fun _ => True) (packageCtx env libAndTool (treeOf [] libAndTool)) c₀ c :=
        runWhere_of_runFor (fun _ _ => trivial) hrunFor
      have hdecides := h env libAndTool _ c₀ c hstart (RunWhere.run hrun) htasks hphase lib _ _ _ hkey hbound
      obtain ⟨url, gitRef, ⟨d, hroot, hsource, hurl, -⟩, hfetches⟩ := hdecides.slot (by decide) t ht
      have hplace : url = "https://h/lib".toList := by
        have hsource : gitSource d = .fetchable (.git "https://h/lib" (some "main") none) := hsource
        have hd : d = urlDep "lib" "https://h/lib" "main" none ∨ d = urlDep "tool" "https://h/tool" "main" none := by
          simpa [RootGit, rootDeps, libAndTool, Manifest.initial] using hroot
        rcases hd with rfl | rfl
        · simpa [urlDep, urlDepWithSubpath, priorDeclaredMirrorUrls, env, packageCtx, spellingWorld, ResolveCtx.offline] using hurl
        · exact absurd hsource (by decide)
      subst hplace
      obtain ⟨n, sha, receipt, hfetch⟩ := hfetches
      have hsame : (.ok (t, receipt) : Except (Str × Str) (PackageTree × Receipt)) =
          .ok (treeOf "sha256:l" Manifest.initial, Receipt.empty) := hfetch.symm.trans rfl
      obtain ⟨rfl, -⟩ := Prod.mk.inj (Except.ok.inj hsame)
      exact absurd hhash (by decide)
    · cases hcomes
  · cases hcomes

end Milpa.Core.Resolver

import Milpa.Core.Completeness
import Milpa.Core.Honoured

/-!
# The keys of terms

A term is made before the item of its requirement is admitted. Its solver key is that of
what the required name is bound to, or else a guess; the item is registered under the key
of what its name is bound to when it is admitted, and an override can take it to another
name. The two agree where the guess is told all that the source depends on, and where an
override does not lead into another claim of the root (`registered_under_term`).
-/

namespace Milpa.Core.Resolver

open Solver Result

variable {ctx : ResolveCtx} {r : BindingResolver} {σ σ' : ResolveState} {items : List Item} {item : Item} {c c' : Config}
  {dk : DepKey} {k : SolverKey}

/-! ### Requirements -/

/-- A round of a seeding loop. -/
inductive SeedStep (ctx : ResolveCtx) : Seeding → Seeding → Prop
  | root {acc acc' : Seeding} {dep : Dep} (h : seedRootDep ctx acc dep = .ok acc') : SeedStep ctx acc acc'
  | member {workspace : LoadedWorkspace} {view : MemberView} {acc acc' : Seeding} {dep : Dep}
      (h : seedMemberDep ctx workspace view acc dep = .ok acc') : SeedStep ctx acc acc'

/-- A requirement that is made into a term: the name that is looked up, the solver key of the term, and the item that is
enqueued, if any. -/
inductive Requires (ctx : ResolveCtx) (r : BindingResolver) : DepKey → SolverKey → Option Item → Prop
  /-- A `git` entry of an edge set. -/
  | url {u : UrlRequire} {name : Str} {k : SolverKey} (hname : urlEntryName u = .ok name)
      (hk : entryKey ctx r (.url u) = .ok k) : Requires ctx r (.bare name) k (some (urlEntryItem name u))
  /-- A named entry of an edge set. -/
  | named {n : NamedRequire} {k : SolverKey} (vs : VersionSet) (hk : entryKey ctx r (.named n) = .ok k) :
      Requires ctx r ⟨n.name, n.namespace⟩ k (some (.named n.name vs n.namespace))
  /-- A dependency that flags admit late, by another consumer or in the fixpoint. -/
  | late (σ : ResolveState) {d : Dep} {k : SolverKey} (hk : ctx.lateKey r d = .ok k) : Requires ctx r d.key k (ctx.lateItem σ d)
  /-- A declaration of the root or of a member. -/
  | seeded {acc acc' : Seeding} {dk : DepKey} {k : SolverKey} {vs : VersionSet} {queued : Option Queued}
      (hr : acc.state.binding = r) (hstep : SeedStep ctx acc acc') (hk : canonicalForRes r dk = .ok k)
      (hdeps : acc'.deps = acc.deps ++ [⟨k, vs⟩]) (hqueue : acc'.queue = acc.queue ++ queued.toList) :
      Requires ctx r dk k (queued.map Prod.snd)

/-- The key under which the worker of an item registers what it finds, and under which it stands if the root's own claim is
accepted in its place. -/
def registeredKey (r : BindingResolver) (item : Item) : Option Str := (r.canonicalFor item.key).map SolverKey.identity

/-- The source that is accepted for an item: what the root has bound its name to, else its own. -/
def acceptedSource (ctx : ResolveCtx) (r : BindingResolver) (item : Item) : Option SourceId :=
  if r.rootKeys item.key then r.bindings item.key else some (normalForm (item.rawSource ctx.index))

/-- The name, the URL and the ref are all that the source of an item depends on. -/
def plainItem : Item → Bool
  | .url dep => dep.subpath.isNone
  | .named .. => true
  | _ => false

/-- What makes the key of a term come true. -/
structure Straight (ctx : ResolveCtx) (r : BindingResolver) (dk : DepKey) (item : Item) : Prop where
  /-- A name that is not bound is that of a plain item, and is not overridden by a member. -/
  guessed : r.bindings dk = none → plainItem item = true ∧ ∀ ov, ctx.overrideOf dk.name = some ov → ov.target.isMember = false
  /-- Where an override leads to another name, what is accepted for that name is what the required name is bound to, or what the
  override says if it is not bound. -/
  kept : (applyOverride ctx item).key ≠ dk →
    acceptedSource ctx r (applyOverride ctx item) =
      some ((r.bindings dk).getD (normalForm ((applyOverride ctx item).rawSource ctx.index)))

/-! ### The guess -/

/-- The item that an override leads to comes from its target. -/
theorem rawSource_overrideEffectiveItem {name : Str} {ov : Override} {index : Index}
    (h : overrideEffectiveItem name ov = some item) : item.rawSource index = overrideTargetToRawOrigin ov index := by
  unfold overrideEffectiveItem at h
  unfold overrideTargetToRawOrigin
  cases htarget : ov.target with
  | member memberName => simp [htarget] at h
  | _ =>
    simp only [htarget, Option.some.injEq] at h
    rw [← h]
    rfl

theorem isSome_overrideEffectiveItem {name : Str} {ov : Override} (h : ov.target.isMember = false) :
    ∃ item, overrideEffectiveItem name ov = some item := by
  unfold overrideEffectiveItem
  cases htarget : ov.target with
  | member memberName =>
    rw [htarget] at h
    cases h
  | _ => exact ⟨_, rfl⟩

/-- A plain item is overridden if its name is, other than by a member. -/
theorem applyOverride_plain (hplain : plainItem item = true) :
    applyOverride ctx item = ((ctx.overrideOf item.key.name).bind (overrideEffectiveItem item.key.name)).getD item := by
  cases item with
  | url dep => rfl
  | named name vs ns => rfl
  | «local» dep => cases hplain
  | tarball dep => cases hplain
  | oci dep => cases hplain

/-- The URL and the ref of an item. -/
def urlOf : Item → Option Str × Option Str
  | .url dep => (some dep.git, some dep.gitRef)
  | _ => (none, none)

/-- The key that is guessed for the name of a plain item is that of the source that it will claim. -/
theorem identity_of_guess (hnone : r.bindings item.key = none) (hplain : plainItem item = true)
    (hmember : ∀ ov, ctx.overrideOf item.key.name = some ov → ov.target.isMember = false)
    (hown : ∀ name, ctx.rootSelfName = some name → (r.bindings (.bare name)).isSome = true)
    (hk : ctx.requirementKey r item.key.name item.key.namespace (urlOf item).1 (urlOf item).2 = .ok k) :
    k.identity = canonical (normalForm ((applyOverride ctx item).rawSource ctx.index)) := by
  unfold ResolveCtx.requirementKey canonicalKeyForRequirement at hk
  have hkey : (⟨item.key.name, item.key.namespace⟩ : DepKey) = item.key := rfl
  dsimp only at hk
  rw [hkey, hnone, if_neg (by simp)] at hk
  split_ifs at hk with hself
  · -- the name of the root is bound from the start
    have hbare : item.key = .bare item.key.name := by
      rw [DepKey.bare, ← Option.isNone_iff_eq_none.mp hself.1]
    have hbound := hown _ hself.2.2
    rw [← hbare, hnone] at hbound
    cases hbound
  · obtain ⟨sid, hsid, hk⟩ := bind_eq_ok.mp hk
    obtain rfl := pure_eq_ok.mp hk
    obtain ⟨-, rfl⟩ := normalizeSourceRes_eq_ok.mp hsid
    rw [applyOverride_plain hplain]
    refine congrArg (fun raw => canonical (normalForm raw)) ?_
    cases hov : overrideNamed ctx.overrides item.key.name with
    | none =>
      rw [show ctx.overrideOf item.key.name = none from hov]
      cases item with
      | url dep =>
        have hsubpath : dep.subpath = none := Option.isNone_iff_eq_none.mp hplain
        simp [Item.rawSource, urlOf, hsubpath]
      | named name vs ns => rfl
      | «local» dep => cases hplain
      | tarball dep => cases hplain
      | oci dep => cases hplain
    | some ov =>
      have hov : ctx.overrideOf item.key.name = some ov := hov
      obtain ⟨item', hitem'⟩ : ∃ item', overrideEffectiveItem item.key.name ov = some item' :=
        isSome_overrideEffectiveItem (hmember ov hov)
      rw [hov, Option.bind_some, hitem', Option.getD_some, rawSource_overrideEffectiveItem hitem']

/-! ### Bindings along a run -/

theorem reaches_gateOnly {out : Option Item} (h : gateOnly ctx σ item = .ok (out, σ')) :
    BindingResolver.Reaches σ.binding σ'.binding := by
  obtain ⟨decision, binding, -, hsubmit, rfl, -⟩ := gateOnly_cases h
  rw [binding_recordDiscovery]
  exact .single ⟨_, _, hsubmit⟩

/-- The bindings that a step leaves come from those before it by submissions. -/
theorem reaches_step (h : Step ctx c c') : BindingResolver.Reaches c.state.binding c'.state.binding := by
  have hsame : ∀ {r r' : BindingResolver}, r' = r → BindingResolver.Reaches r r' := by
    rintro r _ rfl
    exact .refl
  cases h with
  | gate htasks hgate => exact reaches_gateOnly hgate
  | suppress htasks hgate => exact reaches_gateOnly hgate
  | admitted htasks => exact .refl
  | dispatch htasks hwork => exact hsame (binding_dispatch hwork)
  | startFixpoint htasks hphase => exact .refl
  | round htasks hphase hiters hround hchange =>
    obtain ⟨requests, -, henriched, -⟩ := fixpointRound_cases hround
    exact hsame henriched.binding
  | startSolve htasks hphase hiters hround hchange hconflicts => exact .refl
  | query htasks hphase hquery => exact hsame (binding_query hquery)

theorem reaches_run (h : Run ctx c c') : BindingResolver.Reaches c.state.binding c'.state.binding := by
  induction h with
  | refl => exact .refl
  | tail _ hstep ih => exact ih.trans (reaches_step hstep)

/-- What is bound stays bound. -/
theorem Reaches.bindings {r r' : BindingResolver} (h : BindingResolver.Reaches r r') {key : DepKey} {s : SourceId}
    (hs : r.bindings key = some s) : r'.bindings key = some s := by
  induction h with
  | refl => exact hs
  | tail _ hstep ih =>
    obtain ⟨cl, res, hsubmit⟩ := hstep
    exact BindingResolver.bindings_submit hsubmit ih

theorem Rooted.reaches {r r' : BindingResolver} (hr : Rooted ctx r) (h : BindingResolver.Reaches r r') : Rooted ctx r' := by
  refine ⟨(h.root hr.bound).1, fun name hname => ?_⟩
  obtain ⟨s, hs⟩ := Option.isSome_iff_exists.mp (hr.own name hname)
  rw [Reaches.bindings h hs]
  rfl

theorem rooted_of_reachable (h : Reachable ctx c) : Rooted ctx c.state.binding := by
  obtain ⟨c₀, hstart, hrun⟩ := h
  obtain ⟨r, σ, queue, -, rfl, huntouched, -, hrooted⟩ := starts_cases hstart
  have hr : Rooted ctx (Config.start σ queue).state.binding := huntouched.binding.symm ▸ hrooted
  exact hr.reaches (reaches_run hrun)

/-- An item that is admitted has its name bound to what is accepted for it, if its name is one that can be looked up. -/
theorem bindings_of_gateOnly (hr : r.RootBound) (hreaches : BindingResolver.Reaches r σ.binding) {out : Option Item}
    (h : gateOnly ctx σ item = .ok (out, σ')) {x : Str} (hx : (applyOverride ctx item).key = .fromSolverVar x) :
    σ'.binding.bindings (applyOverride ctx item).key = acceptedSource ctx r (applyOverride ctx item) := by
  obtain ⟨decision, binding, -, hsubmit, rfl, -⟩ := gateOnly_cases h
  have hkey : keyFor (itemClaim (applyOverride ctx item) (normalForm ((applyOverride ctx item).rawSource ctx.index))) =
      (applyOverride ctx item).key := by
    show DepKey.fromSolverVar (applyOverride ctx item).key.solverVar = _
    rw [hx, DepKey.solverVar_fromSolverVar]
  obtain ⟨hbound, hkeys, hroot⟩ := hreaches.root hr
  rw [binding_recordDiscovery, acceptedSource]
  split_ifs with hrootKey
  · -- a name of the root keeps its binding
    obtain ⟨s, hs⟩ := Option.isSome_iff_exists.mp (hr _ hrootKey)
    rw [hs, BindingResolver.bindings_submit hsubmit ((hroot _ hrootKey).trans hs)]
  · obtain ⟨-, ⟨-, -, rfl⟩ | ⟨rfl, existing, hexisting, ⟨heq, -⟩ | ⟨-, hlost, -⟩ | ⟨-, -, herror⟩⟩⟩ := BindingResolver.submit_cases hsubmit
    · rw [hkey, BindingResolver.bindings_bind, if_pos rfl]
      rfl
    · rw [hkey] at hexisting
      rw [hexisting, heq]
      rfl
    · rw [hkey, hkeys] at hlost
      exact absurd hlost hrootKey
    · cases herror

/-! ### The keys of requirements -/

/-- The key of a requirement is that of the name that is looked up, or it is guessed. -/
theorem requirementKey_cases {name : Str} {ns url gitRef : Option Str} (h : ctx.requirementKey r name ns url gitRef = .ok k) :
    canonicalForRes r ⟨name, ns⟩ = .ok k ∨ r.bindings ⟨name, ns⟩ = none := by
  cases hbound : r.bindings ⟨name, ns⟩ with
  | none => exact Or.inr rfl
  | some s =>
    unfold ResolveCtx.requirementKey canonicalKeyForRequirement at h
    dsimp only at h
    rw [hbound, if_pos (by rfl)] at h
    exact Or.inl h

/-- The key of the term of an enqueued item is that of the name that is looked up, or it is guessed; for a plain item, from its
own name, URL and ref. -/
theorem Requires.key_cases (h : Requires ctx r dk k (some item)) :
    canonicalForRes r dk = .ok k ∨ r.bindings dk = none ∧ (plainItem item = true → item.key = dk ∧
      ctx.requirementKey r item.key.name item.key.namespace (urlOf item).1 (urlOf item).2 = .ok k) := by
  generalize henqueued : some item = enqueued at h
  cases h with
  | @url u name _ hname hk =>
    obtain rfl := Option.some.inj henqueued
    have hk : ctx.requirementKey r name none (some u.url) (some u.ref) = .ok k := by
      rw [entryKey, hname] at hk
      exact hk
    exact (requirementKey_cases hk).imp_right fun hnone => ⟨hnone, fun _ => ⟨rfl, hk⟩⟩
  | named vs hk =>
    obtain rfl := Option.some.inj henqueued
    exact (requirementKey_cases hk).imp_right fun hnone => ⟨hnone, fun _ => ⟨rfl, hk⟩⟩
  | @late σ d _ hk =>
    cases d with
    | url u =>
      refine (requirementKey_cases hk).imp_right fun hnone => ⟨hnone, fun _ => ?_⟩
      rw [ResolveCtx.lateItem] at henqueued
      split_ifs at henqueued
      obtain rfl := Option.some.inj henqueued
      exact ⟨rfl, hk⟩
    | named n =>
      refine (requirementKey_cases hk).imp_right fun hnone => ⟨hnone, fun _ => ?_⟩
      rw [ResolveCtx.lateItem] at henqueued
      split_ifs at henqueued
      obtain rfl := Option.some.inj henqueued
      exact ⟨rfl, hk⟩
    | «local» l =>
      refine (requirementKey_cases hk).imp_right fun hnone => ⟨hnone, fun hplain => ?_⟩
      rw [ResolveCtx.lateItem] at henqueued
      split_ifs at henqueued
      obtain rfl := Option.some.inj henqueued
      cases hplain
    | tarball t =>
      refine (requirementKey_cases hk).imp_right fun hnone => ⟨hnone, fun hplain => ?_⟩
      rw [ResolveCtx.lateItem] at henqueued
      split_ifs at henqueued
      obtain rfl := Option.some.inj henqueued
      cases hplain
    | member md => cases henqueued
  | seeded hr hstep hk hdeps hqueue => exact Or.inl hk

/-- **The terms of an extraction are of its requirements**, and their items are among its items. -/
theorem requires_of_extracted {es : EdgeSet} {ex : Extracted} (h : edgesetToExtracted ctx r es = .ok ex) :
    ∀ d ∈ ex.deps, ∃ dk item, item ∈ ex.subItems ∧ Requires ctx r dk d.package (some item) := by
  obtain ⟨acc, hacc, h⟩ := bind_eq_ok.mp h
  obtain rfl := pure_eq_ok.mp h
  refine foldlM_invariant (P := fun acc : Extracting => ∀ d ∈ acc.deps, ∃ dk item, item ∈ acc.items ∧
    Requires ctx r dk d.package (some item)) hacc (by simp) fun acc e acc' hall he => ?_
  have hnew : ∀ {acc' : Extracting} {k : SolverKey} {vs : VersionSet} {dk : DepKey} {item : Item}, acc'.deps = acc.deps ++ [⟨k, vs⟩] →
      acc'.items = acc.items ++ [item] → Requires ctx r dk k (some item) →
      ∀ d ∈ acc'.deps, ∃ dk item, item ∈ acc'.items ∧ Requires ctx r dk d.package (some item) := by
    intro acc' k vs dk item hdeps hitems hrequires d hd
    rw [hitems]
    rw [hdeps] at hd
    rcases List.mem_append.mp hd with hd | hd
    · obtain ⟨dk, item, hitem, hr⟩ := hall d hd
      exact ⟨dk, item, List.mem_append_left _ hitem, hr⟩
    · rw [List.mem_singleton.mp hd]
      exact ⟨dk, item, List.mem_append_right _ (List.mem_singleton_self item), hrequires⟩
  cases e with
  | url u =>
    obtain ⟨name, hname, he⟩ := bind_eq_ok.mp he
    obtain ⟨k, hk, he⟩ := bind_eq_ok.mp he
    obtain rfl := pure_eq_ok.mp he
    have hrequires : Requires ctx r (.bare name) k (some (urlEntryItem name u)) :=
      .url hname (by rw [entryKey, hname]; exact hk)
    rw [deps_addPredicates, items_addPredicates]
    by_cases hseen : k.identity ∈ acc.seenDepNames
    · rw [if_pos hseen]
      intro d hd
      obtain ⟨dk, item, hitem, hr⟩ := hall d hd
      exact ⟨dk, item, List.mem_append_left _ hitem, hr⟩
    · rw [if_neg hseen]
      exact hnew rfl rfl hrequires
  | named n =>
    obtain ⟨k, hk, he⟩ := bind_eq_ok.mp he
    by_cases hseen : k.identity ∈ acc.seenDepNames
    · rw [if_pos hseen] at he
      obtain rfl := pure_eq_ok.mp he
      rw [deps_addPredicates, items_addPredicates]
      exact hall
    · rw [if_neg hseen] at he
      obtain ⟨vs, -, he⟩ := bind_eq_ok.mp he
      obtain rfl := pure_eq_ok.mp he
      rw [deps_addPredicates, items_addPredicates]
      exact hnew rfl rfl (.named vs hk)

/-- An item whose mark is new is registered under the key that its worker looks up. -/
theorem registered_dispatch (hr : σ.binding.Tidy) (hbound : Bound ctx σ.binding item)
    (hnamed : ∀ name vs ns, item = .named name vs ns → name ≠ "nim".toList ∧ name ∉ ctx.memberNames)
    (h : dispatch ctx σ item = .ok (σ', items)) (hnew : ¬ Seen σ (mark item)) {package : Str}
    (hpackage : registeredKey σ.binding item = some package) : Registered σ' package := by
  obtain ⟨svar, hsvar, rfl⟩ := Option.map_eq_some_iff.mp hpackage
  rw [solverKeyOf_eq hr hbound hsvar]
  exact (served_dispatch hr hbound hnamed h).registers.resolve_left hnew

/-! ### A late requirement -/

/-- A requirement under a flag. -/
def extraDep (subpath : Option Str) : UrlDep :=
  { urlDepWithSubpath "extra" "https://h/extra" "main" none subpath with predicates := [⟨"flag", ["f"], false⟩] }

/-- A library that has this requirement. -/
def extraLib (subpath : Option Str) : Manifest :=
  { Manifest.initial with
    name := some "lib"
    flags := [⟨"f", false, [], [], [], [], []⟩]
    deps := [.url (extraDep subpath)] }

/-- A package that uses the library with the flag. -/
def extraUser : Manifest :=
  { Manifest.initial with
    name := some "user"
    deps := [.url { urlDep "lib" "https://h/lib" "main" none with flagRequests := [⟨"f", true⟩] }] }

/-- A root that uses both. -/
def extraRoot : Manifest :=
  { Manifest.initial with
    name := some "app"
    deps := [.url (urlDep "lib" "https://h/lib" "main" none), .url (urlDep "user" "https://h/user" "main" none)] }

/-- What there is to fetch. -/
def extraWorld (subpath : Option Str) : ResolveCtx :=
  { ResolveCtx.offline with
    fetch := fetchFrom [("https://h/lib", treeOf "sha256:l" (extraLib subpath)), ("https://h/user", treeOf "sha256:u" extraUser),
      ("https://h/extra", treeOf "sha256:e" Manifest.initial)] }

/-- The resolve of that root. -/
def extraCtx (subpath : Option Str) : ResolveCtx := packageCtx (extraWorld subpath) extraRoot (treeOf [] extraRoot)

/-- The library is visited again, its requirement is admitted late, and the resolve goes on to the solver: this is looked for in
the key of the term, the state after the admission, and the end. -/
def extraComes (subpath : Option Str) (good : SolverKey → ResolveState → Config → Bool) : Bool :=
  comesTo (fun _ => true) (extraWorld subpath) extraRoot 8 fun c =>
    match runFor (fun _ => true) (extraCtx subpath) 1 c, (extraCtx subpath).lateKey c.state.binding (.url (extraDep subpath)) with
    | some c₁, .ok k =>
      match runFor (fun _ => true) (extraCtx subpath) 6 c₁, gateOnly (extraCtx subpath) c₁.state (.url (extraDep subpath)) with
      | some c₂, .ok (_, σ') =>
        decide ((extraCtx subpath).lateItem c.state (.url (extraDep subpath)) = some (.url (extraDep subpath))) && good k σ' c₂
      | _, _ => false
    | _, _ => false

theorem run_of_extraComes {subpath : Option Str} {good : SolverKey → ResolveState → Config → Bool}
    (h : extraComes subpath good = true) :
    ∃ c c₁ c₂ k out σ', Reachable (extraCtx subpath) c ∧
      Requires (extraCtx subpath) c.state.binding (.bare "extra") k (some (.url (extraDep subpath))) ∧
      Run (extraCtx subpath) c c₁ ∧ gateOnly (extraCtx subpath) c₁.state (.url (extraDep subpath)) = .ok (out, σ') ∧
      Run (extraCtx subpath) c₁ c₂ ∧ good k σ' c₂ = true := by
  unfold extraComes at h
  obtain ⟨c₀, c, hstart, hrun, h⟩ := run_of_comesTo h
  have hrunFor : ∀ {n : ℕ} {c c' : Config}, runFor (fun _ => true) (extraCtx subpath) n c = some c' → Run (extraCtx subpath) c c' :=
    fun h => RunWhere.run (runWhere_of_runFor (fun _ _ => trivial) h)
  split at h
  · rename_i c₁ k h₁ hk
    split at h
    · rename_i c₂ out σ' h₂ hgate
      obtain ⟨hitem, hgood⟩ := (Bool.and_eq_true _ _).mp h
      have hrequires : Requires (extraCtx subpath) c.state.binding (.bare "extra") k
          ((extraCtx subpath).lateItem c.state (.url (extraDep subpath))) := .late c.state hk
      rw [of_decide_eq_true hitem] at hrequires
      exact ⟨c, c₁, c₂, k, out, σ', ⟨c₀, hstart, hrun⟩, hrequires, hrunFor h₁, hgate, hrunFor h₂, hgood⟩
    · cases h
  · cases h

/-! ### The claim -/

/-- **The key of a term is the key under which its item is registered** whenever the item is admitted, where the requirement is
straight when the term is made. -/
theorem registered_under_term (hreach : Reachable ctx c) (hrequires : Requires ctx c.state.binding dk k (some item))
    (hstraight : Straight ctx c.state.binding dk item) (hrun : Run ctx c c') {out : Option Item}
    (hgate : gateOnly ctx c'.state item = .ok (out, σ')) {package : Str}
    (hregistered : registeredKey σ'.binding (applyOverride ctx item) = some package) : package = k.identity := by
  have hrooted := rooted_of_reachable hreach
  have hreaches := reaches_run hrun
  obtain ⟨c₀, hstart, hrun₀⟩ := hreach
  have htidy' : σ'.binding.Tidy := (bound_gateOnly hgate (books_of_reachable ⟨c₀, hstart, hrun₀.trans hrun⟩).tidy).1
  obtain ⟨svar, hsvar, rfl⟩ := Option.map_eq_some_iff.mp hregistered
  obtain ⟨s, x, hs, hx, hidentity⟩ := htidy'.canonicalFor hsvar
  have haccepted := bindings_of_gateOnly hrooted.bound hreaches hgate hx
  rw [hs] at haccepted
  rw [hidentity]
  rcases hrequires.key_cases with hk | ⟨hnone, hguess⟩
  · -- the name is bound when the term is made, and stays so
    have htidy : c.state.binding.Tidy := (books_of_reachable ⟨c₀, hstart, hrun₀⟩).tidy
    obtain ⟨s₀, -, hs₀, -, hk⟩ := htidy.canonicalFor (canonicalForRes_eq_ok.mp hk)
    rw [hk]
    by_cases hkey : (applyOverride ctx item).key = dk
    · have hsame := Reaches.bindings (hreaches.trans (reaches_gateOnly hgate)) hs₀
      rw [← hkey, hs] at hsame
      rw [Option.some.inj hsame]
    · rw [hstraight.kept hkey, hs₀] at haccepted
      rw [Option.some.inj haccepted]
      rfl
  · obtain ⟨hplain, hmember⟩ := hstraight.guessed hnone
    obtain ⟨rfl, hk⟩ := hguess hplain
    rw [identity_of_guess hnone hplain hmember hrooted.own hk]
    refine congrArg canonical (Option.some.inj (haccepted.trans ?_))
    by_cases hkey : (applyOverride ctx item).key = item.key
    · rw [acceptedSource, if_neg]
      rw [hkey]
      intro hrootKey
      have hbound := hrooted.bound _ hrootKey
      rw [hnone] at hbound
      cases hbound
    · rw [hstraight.kept hkey, hnone]
      rfl

/-- The requirement of the whole repository. -/
theorem registered_under_term_extra :
    ∃ c c' k out σ' package, Reachable (extraCtx none) c ∧
      Requires (extraCtx none) c.state.binding (.bare "extra") k (some (.url (extraDep none))) ∧ Run (extraCtx none) c c' ∧
      gateOnly (extraCtx none) c'.state (.url (extraDep none)) = .ok (out, σ') ∧
      registeredKey σ'.binding (applyOverride (extraCtx none) (.url (extraDep none))) = some package ∧ package = k.identity := by
  have hcomes : extraComes none (fun _ σ' _ =>
      (registeredKey σ'.binding (applyOverride (extraCtx none) (.url (extraDep none)))).isSome) = true := by
    decide
  obtain ⟨c, c', -, k, out, σ', hreach, hrequires, hrun, hgate, -, hsome⟩ := run_of_extraComes hcomes
  obtain ⟨package, hpackage⟩ := Option.isSome_iff_exists.mp hsome
  have hstraight : Straight (extraCtx none) c.state.binding (.bare "extra") (.url (extraDep none)) :=
    ⟨fun _ => ⟨rfl, nofun⟩, fun hne => absurd rfl hne⟩
  exact ⟨c, c', k, out, σ', package, hreach, hrequires, hrun, hgate, hpackage,
    registered_under_term hreach hrequires hstraight hrun hgate hpackage⟩

/-- The requirement of a directory of the repository: the term leaves the directory out, and the solver is left with a term for
a package that nothing is registered for. -/
theorem late_subpath_not_in_term :
    ∃ c c' c'' k out σ' package, Reachable (extraCtx (some "sub")) c ∧
      Requires (extraCtx (some "sub")) c.state.binding (.bare "extra") k (some (.url (extraDep (some "sub")))) ∧
      Run (extraCtx (some "sub")) c c' ∧ gateOnly (extraCtx (some "sub")) c'.state (.url (extraDep (some "sub"))) = .ok (out, σ') ∧
      registeredKey σ'.binding (applyOverride (extraCtx (some "sub")) (.url (extraDep (some "sub")))) = some package ∧
      package ≠ k.identity ∧
      Run (extraCtx (some "sub")) c' c'' ∧ c''.tasks = [] ∧ c''.phase = .solve ∧ ¬ Registered c''.state k.identity ∧
      ∃ cand, c''.state.firstCandidate "git+https://h/lib#ref=main" = some cand ∧ k ∈ cand.deps.map SolverDep.package := by
  have hcomes : extraComes (some "sub") (fun k σ' c =>
      (registeredKey σ'.binding (applyOverride (extraCtx (some "sub")) (.url (extraDep (some "sub"))))).any
          (fun package => decide (package ≠ k.identity)) &&
        (decide (c.tasks = [] ∧ c.phase = .solve ∧ ¬ Registered c.state k.identity) &&
          (c.state.firstCandidate "git+https://h/lib#ref=main").any fun cand => decide (k ∈ cand.deps.map SolverDep.package))) = true := by
    decide +kernel
  obtain ⟨c, c', c'', k, out, σ', hreach, hrequires, hrun, hgate, hrun', hgood⟩ := run_of_extraComes hcomes
  obtain ⟨hkey, hgood⟩ := (Bool.and_eq_true _ _).mp hgood
  obtain ⟨hend, hlib⟩ := (Bool.and_eq_true _ _).mp hgood
  obtain ⟨package, hpackage, hne⟩ := (Option.any_eq_true _ _).mp hkey
  obtain ⟨htasks, hphase, hnone⟩ := of_decide_eq_true hend
  obtain ⟨cand, hcand, hterm⟩ := (Option.any_eq_true _ _).mp hlib
  exact ⟨c, c', c'', k, out, σ', package, hreach, hrequires, hrun, hgate, hpackage, of_decide_eq_true hne, hrun', htasks, hphase,
    hnone, cand, hcand, of_decide_eq_true hterm⟩

end Milpa.Core.Resolver

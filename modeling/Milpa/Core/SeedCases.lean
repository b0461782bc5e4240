import Milpa.Core.CandidateTerms

/-!
# What the seeds leave

The state and the queue from which a resolve starts: nothing is fetched, enumerated or
seen, the only candidates are those of the root and of the members, and nothing in the
queue comes from a fetched package.
-/

namespace Milpa.Core.Resolver

open Solver Result

variable {ctx : ResolveCtx} {r : BindingResolver} {σ : ResolveState} {acc acc' : Seeding} {c : Config}

/-- Nothing is fetched, enumerated or seen. -/
structure Untouched (r : BindingResolver) (σ : ResolveState) : Prop where
  binding : σ.binding = r
  stubs : σ.stubs = BTreeMap.empty
  edgeCache : σ.edgeCache = fun _ => BTreeMap.empty
  seenUrl : σ.seenUrl = []
  seenNamed : σ.seenNamed = []
  seenLocal : σ.seenLocal = []
  seenTarball : σ.seenTarball = []
  seenOci : σ.seenOci = []
  depsDir : σ.depsDir = BTreeMap.empty
  /-- The candidates are those of members and of the root. -/
  candidates : ∀ k, (σ.candidatesOf k).entries ≠ [] → k = root ∨ ∃ name, k = canonical (.member name)
  filed : Filed σ
  balanced : EveryCandidate Balanced σ

/-- A seeding loop has touched nothing, and has queued nothing from a fetched package. -/
structure Sown (r : BindingResolver) (acc : Seeding) : Prop where
  state : Untouched r acc.state
  queue : ∀ q ∈ acc.queue, q.1 ≠ .transitive
  terms : Paired acc.deps acc.requires

theorem untouched_new (r : BindingResolver) : Untouched r (.new r) := by
  constructor <;> first | rfl | skip
  · intro k hk
    exact absurd rfl hk
  · intro k v c hc
    cases hc
  · intro k v c hc
    cases hc

theorem Untouched.recordDiscovery (h : Untouched r σ) (key : Str) : Untouched r (σ.recordDiscovery key) := by
  unfold ResolveState.recordDiscovery
  split_ifs
  · exact h
  · exact ⟨h.binding, h.stubs, h.edgeCache, h.seenUrl, h.seenNamed, h.seenLocal, h.seenTarball, h.seenOci, h.depsDir, h.candidates,
      h.filed, h.balanced⟩

theorem Untouched.storeCandidate (h : Untouched r σ) {c : Candidate} (hc : c.name = root ∨ ∃ name, c.name = canonical (.member name))
    (hlocal : isLocal c = true → c.identity = []) (hbalanced : Balanced c) : Untouched r (σ.storeCandidate c) := by
  refine ⟨h.binding, h.stubs, h.edgeCache, h.seenUrl, h.seenNamed, h.seenLocal, h.seenTarball, h.seenOci, h.depsDir, fun k hk => ?_,
    h.filed.storeCandidate hlocal, h.balanced.storeCandidate hbalanced⟩
  rw [candidatesOf_storeCandidate] at hk
  split_ifs at hk with hname
  · rw [hname]
    exact hc
  · exact h.candidates k hk

namespace Sown

/-- A key under which the seeding loops look is not that of the root. -/
theorem plain (h : Sown r acc) (hr : r.Tidy) {key : DepKey} {svar : SolverKey} (hs : canonicalForRes acc.state.binding key = .ok svar) :
    svar.identity ≠ root := by
  rw [canonicalForRes_eq_ok, h.state.binding] at hs
  exact identity_ne_root_of_canonicalFor hr hs

theorem addTerm (h : Sown r acc) {svar : SolverKey} (hsvar : svar.identity ≠ root) (vs : VersionSet) : Sown r (acc.addTerm svar vs) :=
  ⟨h.state, h.queue, h.terms.append hsvar vs⟩

theorem discover (h : Sown r acc) (svar : SolverKey) : Sown r (acc.discover svar) := ⟨h.state.recordDiscovery _, h.queue, h.terms⟩

theorem enqueue (h : Sown r acc) {origin : ItemOrigin} (item : Item) (ho : origin ≠ .transitive) : Sown r (acc.enqueue origin item) := by
  refine ⟨h.state, fun q hq => ?_, h.terms⟩
  rcases List.mem_append.mp hq with hq | hq
  · exact h.queue q hq
  · rw [List.mem_singleton.mp hq]
    exact ho

theorem seed (h : Sown r acc) {svar : SolverKey} (hsvar : svar.identity ≠ root) (vs : VersionSet) {origin : ItemOrigin} (item : Item)
    (ho : origin ≠ .transitive) : Sown r (acc.seed svar vs origin item) :=
  ((h.addTerm hsvar vs).discover svar).enqueue item ho

theorem requestFlags (h : Sown r acc) (svar : Str) (requests : List FlagRequest → List FlagRequest) :
    Sown r (acc.requestFlags svar requests) :=
  ⟨⟨h.state.binding, h.state.stubs, h.state.edgeCache, h.state.seenUrl, h.state.seenNamed, h.state.seenLocal,
    h.state.seenTarball, h.state.seenOci, h.state.depsDir, h.state.candidates, h.state.filed, h.state.balanced⟩, h.queue, h.terms⟩

theorem requestUnlessNone (h : Sown r acc) (svar : Str) (requests : List FlagRequest → List FlagRequest) (none : Bool) :
    Sown r (if none then acc else acc.requestFlags svar requests) := by
  cases none
  · exact h.requestFlags svar requests
  · exact h

theorem seedOverride (h : Sown r acc) {svar : SolverKey} (hsvar : svar.identity ≠ root) {name : Str} {ov : Override}
    (hs : Resolver.seedOverride acc svar name ov = some acc') : Sown r acc' := by
  unfold Resolver.seedOverride at hs
  split at hs
  all_goals first
    | obtain ⟨item, -, rfl⟩ := Option.map_eq_some_iff.mp hs
      exact h.seed hsvar _ _ (by simp)
    | cases hs

theorem seedRootDep (h : Sown r acc) (hr : r.Tidy) {dep : Dep} (hs : Resolver.seedRootDep ctx acc dep = .ok acc') : Sown r acc' := by
  cases dep with
  | tarball t =>
    obtain ⟨svar, hsvar, hs⟩ := bind_eq_ok.mp hs
    obtain rfl := pure_eq_ok.mp hs
    exact h.seed (h.plain hr hsvar) _ _ (by simp)
  | «local» l =>
    obtain ⟨svar, hsvar, hs⟩ := bind_eq_ok.mp hs
    obtain rfl := pure_eq_ok.mp hs
    exact h.seed (h.plain hr hsvar) _ _ (by simp)
  | url u =>
    obtain ⟨svar, hsvar, hs⟩ := bind_eq_ok.mp hs
    split at hs
    · rename_i found hfound
      obtain rfl := pure_eq_ok.mp hs
      obtain ⟨ov, -, hov⟩ := Option.bind_eq_some_iff.mp hfound
      exact h.seedOverride (h.plain hr hsvar) hov
    · obtain rfl := pure_eq_ok.mp hs
      exact h.seed (h.plain hr hsvar) _ _ (by simp)
  | named n =>
    obtain ⟨svar, hsvar, hs⟩ := bind_eq_ok.mp hs
    have h₁ := h.requestUnlessNone svar.identity (fun _ => n.flagRequests) n.flagRequests.isEmpty
    dsimp only at hs
    split at hs
    · obtain rfl := pure_eq_ok.mp hs
      exact h₁.seed (h.plain hr hsvar) _ _ (by simp)
    · split at hs
      · rename_i found hfound
        obtain rfl := pure_eq_ok.mp hs
        exact h₁.seedOverride (h.plain hr hsvar) hfound
      · obtain rfl := pure_eq_ok.mp hs
        exact h₁.seed (h.plain hr hsvar) _ _ (by simp)
  | member md => cases hs

theorem seedMemberDep (h : Sown r acc) (hr : r.Tidy) {workspace : LoadedWorkspace} {view : MemberView} {dep : Dep}
    (hs : Resolver.seedMemberDep ctx workspace view acc dep = .ok acc') : Sown r acc' := by
  unfold Resolver.seedMemberDep at hs
  split_ifs at hs
  · obtain ⟨-, -, hs⟩ := bind_eq_ok.mp hs
    obtain ⟨svar, hsvar, hs⟩ := bind_eq_ok.mp hs
    obtain rfl := pure_eq_ok.mp hs
    exact h.addTerm (h.plain hr hsvar) _
  · split at hs
    · obtain ⟨svar, hsvar, hs⟩ := bind_eq_ok.mp hs
      split at hs
      · rename_i found hfound
        obtain rfl := pure_eq_ok.mp hs
        exact h.seedOverride (h.plain hr hsvar) hfound
      · split_ifs at hs
        · obtain rfl := pure_eq_ok.mp hs
          exact h.addTerm (h.plain hr hsvar) _
        · obtain rfl := pure_eq_ok.mp hs
          exact (h.addTerm (h.plain hr hsvar) _).enqueue _ (by simp)
    · cases dep with
      | url u =>
        obtain ⟨svar, hsvar, hs⟩ := bind_eq_ok.mp hs
        obtain rfl := pure_eq_ok.mp hs
        exact h.seed (h.plain hr hsvar) _ _ (by simp)
      | «local» l =>
        obtain ⟨svar, hsvar, hs⟩ := bind_eq_ok.mp hs
        obtain rfl := pure_eq_ok.mp hs
        exact h.seed (h.plain hr hsvar) _ _ (by simp)
      | tarball t =>
        obtain ⟨svar, hsvar, hs⟩ := bind_eq_ok.mp hs
        obtain rfl := pure_eq_ok.mp hs
        exact h.seed (h.plain hr hsvar) _ _ (by simp)
      | named n =>
        obtain ⟨svar, hsvar, hs⟩ := bind_eq_ok.mp hs
        obtain rfl := pure_eq_ok.mp hs
        exact (h.requestUnlessNone svar.identity (fun old => old ++ n.flagRequests) n.flagRequests.isEmpty).seed (h.plain hr hsvar) _ _
          (by simp)
      | member md =>
        obtain rfl := pure_eq_ok.mp hs
        exact h

end Sown

/-! ### The roots and the members are bound to themselves -/

/-- The solver key of the bare name of a member. -/
theorem canonicalFor_member {claims : List Claim} (h : BindingResolver.new claims = some r) {name : Str}
    (hc : ∃ cl ∈ claims, cl.name = name ∧ cl.sourceId = .member name) {svar : SolverKey}
    (hs : r.canonicalFor (.bare name) = some svar) : svar.identity = canonical (.member name) := by
  obtain ⟨cl, hmem, hname, hsource⟩ := hc
  obtain ⟨s, x, hbound, hx, hidentity⟩ := (BindingResolver.tidy_new h).canonicalFor hs
  have hkey : keyFor cl = .bare name := by
    have hname' : name = x := by
      rw [← DepKey.solverVar_fromSolverVar x, ← hx]
      rfl
    rw [keyFor, hname, hx, hname']
  have hb := BindingResolver.bindings_of_mem_new h hmem
  rw [hkey, hbound, hsource] at hb
  rw [hidentity, Option.some.inj hb]

/-! ### The starts -/

theorem newBindingResolver_eq_ok {claims : List Claim} (h : newBindingResolver claims = .ok r) :
    BindingResolver.new claims = some r := by
  unfold newBindingResolver at h
  split at h
  · cases h
    assumption
  · cases h

theorem Untouched.seedRootSelf {manifest : Manifest} {tree : PackageTree} {σ' : ResolveState} {claims : List Claim}
    (h : Untouched r σ) (hnew : BindingResolver.new claims = some r)
    (hself : ∀ name ∈ manifest.name, rootSelfClaim name ∈ claims) (hs : Resolver.seedRootSelf manifest tree σ = .ok σ') :
    Untouched r σ' := by
  unfold Resolver.seedRootSelf at hs
  split at hs
  · cases hs
    exact h
  · rename_i name hname
    obtain ⟨svar, hsvar, hs⟩ := bind_eq_ok.mp hs
    obtain rfl := pure_eq_ok.mp hs
    rw [canonicalForRes_eq_ok, h.binding] at hsvar
    exact h.storeCandidate (Or.inr ⟨name, canonicalFor_member hnew ⟨_, hself name hname, rfl, rfl⟩ hsvar⟩) (fun _ => rfl) .nil

theorem Untouched.seedMemberFlags {member : LoadedMember} {σ' : ResolveState} (h : Untouched r σ)
    (hs : Resolver.seedMemberFlags σ member = .ok σ') : Untouched r σ' := by
  unfold Resolver.seedMemberFlags at hs
  dsimp only at hs
  split_ifs at hs
  · cases hs
    exact h
  · obtain ⟨svar, -, hs⟩ := bind_eq_ok.mp hs
    split_ifs at hs
    · obtain rfl := pure_eq_ok.mp hs
      exact h
    · obtain rfl := pure_eq_ok.mp hs
      exact ⟨h.binding, h.stubs, h.edgeCache, h.seenUrl, h.seenNamed, h.seenLocal, h.seenTarball, h.seenOci, h.depsDir,
        h.candidates, h.filed, h.balanced⟩

theorem Untouched.seedWorkspaceFlags {workspace : LoadedWorkspace} {σ' : ResolveState} (h : Untouched r σ)
    (hs : Resolver.seedWorkspaceFlags ctx workspace σ = .ok σ') : Untouched r σ' := by
  refine foldlM_invariant hs h fun σ₁ cpe σ₂ h₁ hs => ?_
  obtain ⟨svar, -, hs⟩ := bind_eq_ok.mp hs
  obtain rfl := pure_eq_ok.mp hs
  exact ⟨h₁.binding, h₁.stubs, h₁.edgeCache, h₁.seenUrl, h₁.seenNamed, h₁.seenLocal, h₁.seenTarball, h₁.seenOci, h₁.depsDir,
    h₁.candidates, h₁.filed, h₁.balanced⟩

theorem Sown.seedMember {workspace : LoadedWorkspace} {view : MemberView} {member : LoadedMember} {claims : List Claim}
    (h : Sown r acc) (hnew : BindingResolver.new claims = some r) (hmember : memberClaim member ∈ claims)
    (hs : Resolver.seedMember ctx workspace view acc member = .ok acc') : Sown r acc' := by
  obtain ⟨own, hown, hs⟩ := bind_eq_ok.mp hs
  obtain ⟨svar, hsvar, hs⟩ := bind_eq_ok.mp hs
  obtain rfl := pure_eq_ok.mp hs
  have hr := BindingResolver.tidy_new hnew
  have h₁ : Sown r own := foldlM_invariant hown ⟨h.state, h.queue, .nil⟩ fun _ _ _ h hs => Sown.seedMemberDep h hr hs
  have hplain := h₁.plain hr hsvar
  rw [canonicalForRes_eq_ok, h₁.state.binding] at hsvar
  have hkey := canonicalFor_member hnew ⟨_, hmember, rfl, rfl⟩ hsvar
  exact ⟨h₁.state.storeCandidate (Or.inr ⟨member.name, hkey⟩) nofun h₁.terms, h₁.queue, h.terms.append hplain _⟩

/-- Nothing is remembered at the start. -/
theorem remembered_start {queue : List Queued} (h : Untouched r σ) : Remembered (.start σ queue) := by
  intro m hm
  cases m with
  | url git gitRef subpath => simp [Config.start, Seen, h.seenUrl] at hm
  | named key => simp [Config.start, Seen, h.seenNamed] at hm
  | «local» path => simp [Config.start, Seen, h.seenLocal] at hm
  | tarball url => simp [Config.start, Seen, h.seenTarball] at hm
  | oci key => simp [Config.start, Seen, h.seenOci] at hm

/-- The names that the root claims are bound, and its own is one of them. -/
structure Rooted (ctx : ResolveCtx) (r : BindingResolver) : Prop where
  bound : r.RootBound
  own : ∀ name, ctx.rootSelfName = some name → (r.bindings (.bare name)).isSome = true

theorem rootBound_new {claims : List Claim} (h : BindingResolver.new claims = some r) : r.RootBound :=
  fun k hk => (BindingResolver.bindings_new h k).trans hk

theorem isSome_of_canonicalFor {key : DepKey} {svar : SolverKey} (h : r.canonicalFor key = some svar) :
    (r.bindings key).isSome = true := by
  obtain ⟨s, hs, -⟩ := Option.map_eq_some_iff.mp h
  rw [hs]
  rfl

/-- The claims of a reconciliation are on normal forms. -/
theorem normal_of_reconcile {deps : List Dep} {overrides : List Override} {index : Index} {claims : List Claim}
    (h : reconcileRootClaims deps overrides index = .ok claims) : ∀ cl ∈ claims, ∃ raw, Accepted raw ∧ cl.sourceId = normalForm raw := by
  obtain ⟨st₁, h₁, h⟩ := bind_eq_ok.mp h
  obtain ⟨st₂, h₂, h⟩ := bind_eq_ok.mp h
  obtain rfl := pure_eq_ok.mp h
  have happend : ∀ {l : List Claim} {cl : Claim} {raw : SourceId}, (∀ cl ∈ l, ∃ raw, Accepted raw ∧ cl.sourceId = normalForm raw) →
      Accepted raw → cl.sourceId = normalForm raw → ∀ cl' ∈ l ++ [cl], ∃ raw, Accepted raw ∧ cl'.sourceId = normalForm raw := by
    intro l cl raw hl haccepted hraw cl' hcl'
    rcases List.mem_append.mp hcl' with hcl' | hcl'
    · exact hl cl' hcl'
    · rw [List.mem_singleton.mp hcl']
      exact ⟨raw, haccepted, hraw⟩
  have hdeps : ∀ cl ∈ st₁.claims, ∃ raw, Accepted raw ∧ cl.sourceId = normalForm raw := by
    refine foldlM_invariant (P := fun st : Reconciling => ∀ cl ∈ st.claims, ∃ raw, Accepted raw ∧ cl.sourceId = normalForm raw) h₁
      (by simp) fun st dep st' hst hdep => ?_
    unfold reconcileDep at hdep
    dsimp only at hdep
    split at hdep
    · cases hdep
      exact hst
    · obtain ⟨sid, hsid, hdep⟩ := bind_eq_ok.mp hdep
      obtain ⟨haccepted, rfl⟩ := normalizeSourceRes_eq_ok.mp hsid
      split_ifs at hdep
      · split at hdep
        · split_ifs at hdep
          obtain rfl := pure_eq_ok.mp hdep
          exact hst
        · obtain rfl := pure_eq_ok.mp hdep
          exact hst
      · obtain rfl := pure_eq_ok.mp hdep
        exact happend hst haccepted rfl
  refine foldlM_invariant (P := fun st : Reconciling => ∀ cl ∈ st.claims, ∃ raw, Accepted raw ∧ cl.sourceId = normalForm raw) h₂
    hdeps fun st ov st' hst hov => ?_
  unfold reconcileOverride at hov
  split_ifs at hov
  · cases hov
    exact hst
  · obtain ⟨sid, hsid, hov⟩ := bind_eq_ok.mp hov
    obtain ⟨haccepted, rfl⟩ := normalizeSourceRes_eq_ok.mp hsid
    obtain rfl := pure_eq_ok.mp hov
    exact happend hst haccepted rfl

/-- **How a resolve starts**: untouched, with what the root claims bound, and a queue without anything from a fetched package. -/
theorem starts_claims (h : Starts ctx c) :
    ∃ claims r σ queue, BindingResolver.new claims = some r ∧ (∀ cl ∈ claims, ∃ raw, Accepted raw ∧ cl.sourceId = normalForm raw) ∧
      c = .start σ queue ∧ Untouched r σ ∧ (∀ q ∈ queue, q.1 ≠ .transitive) ∧ Rooted ctx r := by
  cases h with
  | @package env manifest tree _ hstart =>
    obtain ⟨r, hr, hstart⟩ := bind_eq_ok.mp hstart
    obtain ⟨⟨σ, queue⟩, hseed, hstart⟩ := bind_eq_ok.mp hstart
    obtain rfl := pure_eq_ok.mp hstart
    obtain ⟨claims, hclaims, hr⟩ := bind_eq_ok.mp hr
    have hnew := newBindingResolver_eq_ok hr
    obtain ⟨acc, hacc, hseed⟩ := bind_eq_ok.mp hseed
    obtain ⟨σ₁, hself, hseed⟩ := bind_eq_ok.mp hseed
    have hseed := pure_eq_ok.mp hseed
    simp only [Prod.mk.injEq] at hseed
    obtain ⟨rfl, rfl⟩ := hseed
    have htidy := BindingResolver.tidy_new hnew
    have h₁ : Sown r acc := foldlM_invariant hacc ⟨untouched_new r, by simp, .nil⟩ fun _ _ _ h hs => h.seedRootDep htidy hs
    obtain ⟨claims₀, hreconciled, hclaims⟩ := bind_eq_ok.mp hclaims
    obtain rfl := pure_eq_ok.mp hclaims
    have hnormal : ∀ cl ∈ claims₀ ++ (manifest.name.map rootSelfClaim).toList, ∃ raw, Accepted raw ∧ cl.sourceId = normalForm raw := by
      intro cl hcl
      rcases List.mem_append.mp hcl with hcl | hcl
      · exact normal_of_reconcile hreconciled cl hcl
      · obtain ⟨name, -, rfl⟩ := Option.map_eq_some_iff.mp (Option.mem_toList.mp hcl)
        exact ⟨.member name, trivial, rfl⟩
    have h₂ := h₁.state.seedRootSelf hnew (fun name hname => List.mem_append_right _ (by simp [Option.mem_def.mp hname])) hself
    refine ⟨_, r, _, _, hnew, hnormal, rfl, h₂.storeCandidate (Or.inl rfl) (fun _ => rfl) h₁.terms, h₁.queue, rootBound_new hnew, ?_⟩
    intro name hname
    have hname : manifest.name = some name := hname
    rw [seedRootSelf, hname] at hself
    obtain ⟨svar, hsvar, -⟩ := bind_eq_ok.mp hself
    rw [canonicalForRes_eq_ok, h₁.state.binding] at hsvar
    exact isSome_of_canonicalFor hsvar
  | @workspace env workspace view _ hstart =>
    obtain ⟨r, hr, hstart⟩ := bind_eq_ok.mp hstart
    obtain ⟨⟨σ, queue⟩, hseed, hstart⟩ := bind_eq_ok.mp hstart
    obtain rfl := pure_eq_ok.mp hstart
    obtain ⟨-, -, hr⟩ := bind_eq_ok.mp hr
    obtain ⟨-, -, hr⟩ := bind_eq_ok.mp hr
    obtain ⟨claims, hclaims, hr⟩ := bind_eq_ok.mp hr
    have hnew := newBindingResolver_eq_ok hr
    obtain ⟨claims₀, hreconciled, hclaims⟩ := bind_eq_ok.mp hclaims
    obtain rfl := pure_eq_ok.mp hclaims
    have hnormal : ∀ cl ∈ workspace.members.map memberClaim ++ claims₀, ∃ raw, Accepted raw ∧ cl.sourceId = normalForm raw := by
      intro cl hcl
      rcases List.mem_append.mp hcl with hcl | hcl
      · obtain ⟨m, -, rfl⟩ := List.mem_map.mp hcl
        exact ⟨.member m.name, trivial, rfl⟩
      · exact normal_of_reconcile hreconciled cl hcl
    obtain ⟨acc, hacc, hseed⟩ := bind_eq_ok.mp hseed
    obtain ⟨σ₁, hflags, hseed⟩ := bind_eq_ok.mp hseed
    obtain ⟨σ₂, hmembers, hseed⟩ := bind_eq_ok.mp hseed
    have hseed := pure_eq_ok.mp hseed
    simp only [Prod.mk.injEq] at hseed
    obtain ⟨rfl, rfl⟩ := hseed
    have h₁ : Sown r acc := foldlM_invariant_of_mem hacc ⟨untouched_new r, by simp, .nil⟩ fun _ m _ hm h hs =>
      h.seedMember hnew (List.mem_append_left _ (List.mem_map_of_mem hm)) hs
    have h₂ : Untouched r σ₂ :=
      foldlM_invariant hmembers (h₁.state.seedWorkspaceFlags hflags) fun _ _ _ h hs => h.seedMemberFlags hs
    exact ⟨_, r, _, _, hnew, hnormal, rfl, h₂.storeCandidate (Or.inl rfl) (fun _ => rfl) h₁.terms, h₁.queue,
      rootBound_new hnew, nofun⟩

theorem starts_cases (h : Starts ctx c) :
    ∃ r σ queue, r.Tidy ∧ c = .start σ queue ∧ Untouched r σ ∧ (∀ q ∈ queue, q.1 ≠ .transitive) ∧ Rooted ctx r := by
  obtain ⟨claims, r, σ, queue, hnew, -, hstart⟩ := starts_claims h
  exact ⟨r, σ, queue, BindingResolver.tidy_new hnew, hstart⟩

/-- The resolver with which a resolve starts is sound. -/
theorem sound_of_starts (h : Starts ctx c) : c.state.binding.Sound := by
  obtain ⟨claims, r, σ, queue, hnew, hnormal, rfl, huntouched, -⟩ := starts_claims h
  show σ.binding.Sound
  rw [huntouched.binding]
  exact BindingResolver.sound_new hnew hnormal

/-- What a resolve reaches has its books kept. -/
theorem books_of_reachable (h : Reachable ctx c) : Books ctx c := by
  obtain ⟨c₀, hstart, hrun⟩ := h
  obtain ⟨r, σ, queue, htidy, rfl, huntouched, -⟩ := starts_cases hstart
  exact Run.invariant hrun (books_start (huntouched.binding.symm ▸ htidy)) fun _ _ h hstep => h.step hstep

end Milpa.Core.Resolver

import Milpa.Core.RootClaimsAgree

/-!
# The order of the root declarations

`reconcile_root_claims` goes through the declarations of a root in their order and holds every
later declaration of a key against the first one. Where the first one is a workspace member
it claims no source, and a later declaration of the key that does is passed over in silence;
in another order of the same declarations it is claimed. `orderBlind_iff` says exactly when the
order has no say, every declaration of a source is claimed, and a clash is refused.
-/

namespace Milpa.Core

variable {overrides : List Override} {index : Index} {deps : List Dep}

/-- The source that a declaration claims. -/
def declaredSource (overrides : List Override) (index : Index) (d : Dep) : Option SourceId :=
  (declaredClaim overrides index d).map fun c => normalForm c.1

/-- The first declaration of a key. -/
def firstOf (deps : List Dep) (k : DepKey) : Option Dep := deps.find? fun e => decide (e.key = k)

/-- The sources that are claimed pass the checks of `normalize_source`. -/
def SourcesAccepted (overrides : List Override) (index : Index) (deps : List Dep) : Prop :=
  ∀ d ∈ deps, ∀ c ∈ declaredClaim overrides index d, Accepted c.1

/-- Every declaration claims the source of the first of its key, as far as both claim one. -/
def AgreeWithFirst (overrides : List Override) (index : Index) (deps : List Dep) : Prop :=
  ∀ d ∈ deps, ∀ e ∈ firstOf deps d.key, ∀ s ∈ declaredSource overrides index e, ∀ s' ∈ declaredSource overrides index d, s' = s

/-! ### The loop over the declarations -/

theorem firstOf_eq_some {k : DepKey} {d : Dep} (h : firstOf deps k = some d) : d ∈ deps ∧ d.key = k :=
  ⟨List.mem_of_find?_eq_some h, by simpa using List.find?_some h⟩

theorem exists_firstOf {d : Dep} (hd : d ∈ deps) : ∃ e, firstOf deps d.key = some e := by
  rw [← Option.isSome_iff_exists, firstOf, List.find?_isSome]
  exact ⟨d, hd, by simp⟩

theorem firstOf_append (front back : List Dep) (k : DepKey) :
    firstOf (front ++ back) k = (firstOf front k).or (firstOf back k) := List.find?_append

/-- What the variables of the loop say about the declarations that it has been through. -/
structure Seen (overrides : List Override) (index : Index) (deps : List Dep) (st : Reconciling) : Prop where
  keys : ∀ k, k ∈ st.seenKeys ↔ (firstOf deps k).isSome = true
  source : ∀ k, st.seenKeySource k = (firstOf deps k).bind (declaredSource overrides index)

theorem firstOf_concat (d : Dep) (k : DepKey) :
    firstOf (deps ++ [d]) k = (firstOf deps k).or (if d.key = k then some d else none) := by
  rw [firstOf_append]
  congr 1
  unfold firstOf
  rw [List.find?_singleton]
  split_ifs <;> simp_all

/-- A round succeeds where the source is accepted and is that of the first declaration of the key. -/
theorem reconcileDep_isOk_iff {st : Reconciling} (h : Seen overrides index deps st) (d : Dep) :
    (∃ st', reconcileDep overrides index st d = .ok st') ↔
      (∀ c ∈ declaredClaim overrides index d, Accepted c.1) ∧
        ∀ e ∈ firstOf deps d.key, ∀ s ∈ declaredSource overrides index e, ∀ s' ∈ declaredSource overrides index d, s' = s := by
  have hprior := h.source d.key
  have hseen := h.keys d.key
  unfold reconcileDep
  cases hclaim : declaredClaim overrides index d with
  | none => simp [declaredSource, hclaim]
  | some c =>
    obtain ⟨raw, claimant, claimName⟩ := c
    have hsource : declaredSource overrides index d = some (normalForm raw) := by rw [declaredSource, hclaim, Option.map_some]
    simp only [Option.mem_def, Option.some.injEq, forall_eq', hsource]
    constructor
    · rintro ⟨st', hst⟩
      obtain ⟨sid, hsid, hst⟩ := Result.bind_eq_ok.mp hst
      obtain ⟨haccepted, rfl⟩ := normalizeSourceRes_eq_ok.mp hsid
      refine ⟨haccepted, fun e he s hs => ?_⟩
      rw [if_pos (hseen.mpr (by rw [he]; rfl)), hprior, he, Option.bind_some, hs] at hst
      dsimp only at hst
      split_ifs at hst with heq
      · exact heq.symm
    · rintro ⟨haccepted, hfirst⟩
      simp only [normalizeSourceRes_eq_ok.mpr ⟨haccepted, rfl⟩, Result.ok_bind]
      cases hf : firstOf deps d.key with
      | none =>
        rw [if_neg (fun hmem => by simpa [hf] using hseen.mp hmem)]
        exact ⟨_, rfl⟩
      | some e =>
        rw [if_pos (hseen.mpr (by rw [hf]; rfl)), hprior, hf, Option.bind_some]
        cases hs : declaredSource overrides index e with
        | none => exact ⟨_, rfl⟩
        | some s =>
          dsimp only
          rw [if_pos (hfirst e hf s hs).symm]
          exact ⟨_, rfl⟩

theorem Seen.step {st st' : Reconciling} (h : Seen overrides index deps st) {d : Dep}
    (hstep : reconcileDep overrides index st d = .ok st') : Seen overrides index (deps ++ [d]) st' := by
  obtain ⟨-, hkeys, -⟩ := reconcileDep_eq_ok hstep
  refine ⟨fun k => ?_, fun k => ?_⟩
  · rw [hkeys, List.mem_cons, h.keys, firstOf_concat]
    by_cases hk : d.key = k
    · simp [hk]
    · simp [hk, Ne.symm hk]
  · have hnew : ∀ s, d.key ∉ st.seenKeys → declaredSource overrides index d = s →
        (Function.update st.seenKeySource d.key s) k = (firstOf (deps ++ [d]) k).bind (declaredSource overrides index) := by
      rintro s hfresh rfl
      have hfirst : firstOf deps d.key = none := by simpa using mt (h.keys d.key).mpr hfresh
      rw [firstOf_concat]
      by_cases hk : d.key = k
      · subst hk
        rw [Function.update_self, hfirst, if_pos rfl]
        rfl
      · rw [Function.update_of_ne (Ne.symm hk), h.source, if_neg hk, Option.or_none]
    have hold : (d.key ∈ st.seenKeys ∨ declaredSource overrides index d = none) →
        st.seenKeySource k = (firstOf (deps ++ [d]) k).bind (declaredSource overrides index) := by
      intro hcase
      rw [firstOf_concat, h.source]
      by_cases hk : d.key = k
      · subst hk
        rcases hcase with hmem | hnone
        · obtain ⟨e, he⟩ := Option.isSome_iff_exists.mp ((h.keys d.key).mp hmem)
          rw [he, Option.some_or]
        · cases hf : firstOf deps d.key with
          | none => simp [hnone]
          | some e => rw [Option.some_or]
      · rw [if_neg hk, Option.or_none]
    unfold reconcileDep at hstep
    cases hclaim : declaredClaim overrides index d with
    | none =>
      simp only [hclaim, Except.ok.injEq] at hstep
      subst hstep
      exact hold (Or.inr (by rw [declaredSource, hclaim, Option.map_none]))
    | some c =>
      obtain ⟨raw, claimant, claimName⟩ := c
      simp only [hclaim] at hstep
      obtain ⟨sid, hsid, hstep⟩ := Result.bind_eq_ok.mp hstep
      obtain ⟨-, rfl⟩ := normalizeSourceRes_eq_ok.mp hsid
      split_ifs at hstep with hmem
      · split at hstep
        · split_ifs at hstep
          cases hstep
          exact hold (Or.inl hmem)
        · cases hstep
          exact hold (Or.inl hmem)
      · cases hstep
        exact hnew _ hmem (by rw [declaredSource, hclaim, Option.map_some])

/-- The variables at the start of the loop. -/
def Reconciling.start : Reconciling := ⟨[], [], [], fun _ => none⟩

theorem agreeWithFirst_concat (deps : List Dep) (d : Dep) :
    AgreeWithFirst overrides index (deps ++ [d]) ↔ AgreeWithFirst overrides index deps ∧
      ∀ e ∈ firstOf deps d.key, ∀ s ∈ declaredSource overrides index e, ∀ s' ∈ declaredSource overrides index d, s' = s := by
  unfold AgreeWithFirst
  rw [List.forall_mem_append, List.forall_mem_singleton]
  refine and_congr (forall₂_congr fun x hx => ?_) ?_
  · obtain ⟨e, he⟩ := exists_firstOf hx
    rw [firstOf_concat, he, Option.some_or]
  · rw [firstOf_concat, if_pos rfl]
    cases firstOf deps d.key with
    | some e => rw [Option.some_or]
    | none =>
      refine iff_of_true ?_ (by simp)
      rintro e he s hs s' hs'
      obtain rfl : d = e := Option.some.inj he
      exact Option.some.inj (hs'.symm.trans hs)

/-- **The loop over the declarations succeeds where each agrees with the first of its key**, by induction from the last
declaration. -/
theorem reconcileDeps_isOk_iff (deps : List Dep) :
    ((∃ st, deps.foldlM (reconcileDep overrides index) .start = .ok st) ↔
        SourcesAccepted overrides index deps ∧ AgreeWithFirst overrides index deps) ∧
      ∀ st, deps.foldlM (reconcileDep overrides index) .start = .ok st → Seen overrides index deps st := by
  induction deps using List.reverseRecOn with
  | nil =>
    refine ⟨iff_of_true ⟨.start, rfl⟩ ⟨by simp [SourcesAccepted], by simp [AgreeWithFirst]⟩, fun st hst => ?_⟩
    cases hst
    exact ⟨by simp [Reconciling.start, firstOf], by simp [Reconciling.start, firstOf]⟩
  | append_singleton deps d ih =>
    obtain ⟨hok, hseen⟩ := ih
    have hrun : ∀ st', (deps ++ [d]).foldlM (reconcileDep overrides index) .start = .ok st' ↔
        ∃ st, deps.foldlM (reconcileDep overrides index) .start = .ok st ∧ reconcileDep overrides index st d = .ok st' := by
      intro st'
      rw [List.foldlM_append, Result.bind_eq_ok]
      simp only [List.foldlM_cons, List.foldlM_nil, bind_pure]
    have haccepted : SourcesAccepted overrides index (deps ++ [d]) ↔
        SourcesAccepted overrides index deps ∧ ∀ c ∈ declaredClaim overrides index d, Accepted c.1 := by
      rw [SourcesAccepted, List.forall_mem_append, List.forall_mem_singleton, SourcesAccepted]
    constructor
    · rw [haccepted, agreeWithFirst_concat]
      constructor
      · rintro ⟨st', hst'⟩
        obtain ⟨st, hst, hstep⟩ := (hrun st').mp hst'
        obtain ⟨hd, hfirst⟩ := (reconcileDep_isOk_iff (hseen st hst) d).mp ⟨st', hstep⟩
        obtain ⟨ha, hg⟩ := hok.mp ⟨st, hst⟩
        exact ⟨⟨ha, hd⟩, hg, hfirst⟩
      · rintro ⟨⟨ha, hd⟩, hg, hfirst⟩
        obtain ⟨st, hst⟩ := hok.mpr ⟨ha, hg⟩
        obtain ⟨st', hstep⟩ := (reconcileDep_isOk_iff (hseen st hst) d).mpr ⟨hd, hfirst⟩
        exact ⟨st', (hrun st').mpr ⟨st, hst, hstep⟩⟩
    · intro st' hst
      obtain ⟨st, hst, hstep⟩ := (hrun st').mp hst
      exact (hseen st hst).step hstep

/-! ### The whole reconciliation -/

theorem reconcileOverrides_isOk_iff (hnodup : (overrides.map Override.name).Nodup) (st : Reconciling) :
    (∃ st', overrides.foldlM (reconcileOverride index) st = .ok st') ↔
      ∀ ov ∈ overrides, ov.name ∉ st.seenNames → Accepted (overrideTargetToRawOrigin ov index) := by
  induction overrides generalizing st with
  | nil => exact iff_of_true ⟨st, rfl⟩ (by simp)
  | cons ov l ih =>
    obtain ⟨hov, hl⟩ := List.nodup_cons.mp hnodup
    rw [List.forall_mem_cons]
    have hrun : (∃ st', (ov :: l).foldlM (reconcileOverride index) st = .ok st') ↔
        ∃ st₁, reconcileOverride index st ov = .ok st₁ ∧ ∃ st', l.foldlM (reconcileOverride index) st₁ = .ok st' := by
      simp only [List.foldlM_cons, Result.bind_eq_ok]
      exact ⟨fun ⟨st', st₁, h₁, h₂⟩ => ⟨st₁, h₁, st', h₂⟩, fun ⟨st₁, h₁, st', h₂⟩ => ⟨st', st₁, h₁, h₂⟩⟩
    rw [hrun]
    by_cases hs : ov.name ∈ st.seenNames
    · rw [reconcileOverride, if_pos hs]
      simp [hs, ih hl st]
    · have hrest : ∀ names, (∀ o ∈ l, o.name ∉ ov.name :: names → Accepted (overrideTargetToRawOrigin o index)) ↔
          ∀ o ∈ l, o.name ∉ names → Accepted (overrideTargetToRawOrigin o index) := by
        refine fun names => forall₂_congr fun o ho => ?_
        have hne : o.name ≠ ov.name := fun heq => hov (heq ▸ List.mem_map_of_mem ho)
        rw [List.mem_cons, or_iff_right hne]
      rw [reconcileOverride, if_neg hs]
      constructor
      · rintro ⟨st₁, h₁, h₂⟩
        obtain ⟨sid, hsid, h₁⟩ := Result.bind_eq_ok.mp h₁
        obtain ⟨haccepted, -⟩ := normalizeSourceRes_eq_ok.mp hsid
        cases h₁
        exact ⟨fun _ => haccepted, (hrest _).mp ((ih hl _).mp h₂)⟩
      · rintro ⟨haccepted, hl'⟩
        refine ⟨_, by rw [normalizeSourceRes_eq_ok.mpr ⟨haccepted hs, rfl⟩]; rfl, (ih hl _).mpr ((hrest _).mpr hl')⟩

/-- The overrides that are no declaration's pass the checks of `normalize_source`. -/
def OverridesAccepted (overrides : List Override) (index : Index) (deps : List Dep) : Prop :=
  ∀ ov ∈ overrides, ov.name ∉ deps.map Dep.name → Accepted (overrideTargetToRawOrigin ov index)

/-- **When a reconciliation succeeds.** -/
theorem reconcileRootClaims_isOk_iff (hnodup : (overrides.map Override.name).Nodup) (deps : List Dep) :
    (∃ claims, reconcileRootClaims deps overrides index = .ok claims) ↔
      SourcesAccepted overrides index deps ∧ AgreeWithFirst overrides index deps ∧ OverridesAccepted overrides index deps := by
  have hnames : ∀ st, deps.foldlM (reconcileDep overrides index) .start = .ok st →
      ∀ n, n ∈ st.seenNames ↔ n ∈ deps.map Dep.name := fun st hst n => by
    simpa [Reconciling.start] using (reconcileDeps_eq_ok hst).1 n
  rw [← and_assoc, ← (reconcileDeps_isOk_iff deps).1]
  unfold reconcileRootClaims
  constructor
  · rintro ⟨claims, h⟩
    obtain ⟨st, hst, h⟩ := Result.bind_eq_ok.mp h
    obtain ⟨st', hst', -⟩ := Result.bind_eq_ok.mp h
    refine ⟨⟨st, hst⟩, fun ov hov hn => ?_⟩
    exact (reconcileOverrides_isOk_iff hnodup st).mp ⟨st', hst'⟩ ov hov fun hmem => hn ((hnames st hst _).mp hmem)
  · rintro ⟨⟨st, hst⟩, hov⟩
    have haccepted : ∀ ov ∈ overrides, ov.name ∉ st.seenNames → Accepted (overrideTargetToRawOrigin ov index) :=
      fun ov hmem hn => hov ov hmem fun hd => hn ((hnames st hst _).mpr hd)
    obtain ⟨st', hst'⟩ := (reconcileOverrides_isOk_iff hnodup st).mpr haccepted
    exact ⟨st'.claims, Result.bind_eq_ok.mpr ⟨st, hst, Result.bind_eq_ok.mpr ⟨st', hst', rfl⟩⟩⟩

/-! ### The claims -/

theorem mem_firstsFrom_iff {seen : List DepKey} {d : Dep} :
    d ∈ firstsFrom seen deps ↔ d.key ∉ seen ∧ firstOf deps d.key = some d := by
  induction deps generalizing seen with
  | nil => simp [firstsFrom, firstOf]
  | cons f deps ih =>
    rw [firstsFrom, firstOf, List.find?_cons]
    by_cases hf : f.key = d.key
    · simp only [hf, decide_true, Option.some.injEq]
      split_ifs with hs
      · rw [ih]
        simp [hs]
      · rw [List.mem_cons, ih]
        simp [hs, eq_comm]
    · have hne : d ≠ f := fun heq => hf (by rw [heq])
      simp only [hf, decide_false]
      split_ifs with hs
      · rw [ih, List.mem_cons]
        simp [Ne.symm hf, firstOf]
      · rw [List.mem_cons, ih, List.mem_cons]
        simp [Ne.symm hf, hne, firstOf]

/-- No key has a declaration that claims a source and one that claims none. -/
def MembersApart (overrides : List Override) (index : Index) (deps : List Dep) : Prop :=
  ∀ d ∈ deps, ∀ e ∈ deps, d.key = e.key → declaredClaim overrides index d = none → declaredClaim overrides index e = none

/-- Declarations of one key that claim one source make one claim. -/
theorem depClaim_eq {d e : Dep} (hkey : d.key = e.key) {s : SourceId} (hd : declaredSource overrides index d = some s)
    (he : declaredSource overrides index e = some s) : depClaim overrides index d = depClaim overrides index e := by
  have hname : d.name = e.name := congrArg DepKey.name hkey
  obtain ⟨c, hc, rfl⟩ := Option.map_eq_some_iff.mp hd
  obtain ⟨c', hc', hs⟩ := Option.map_eq_some_iff.mp he
  rw [depClaim, depClaim, hc, hc', Option.map_some, Option.map_some, hs]
  unfold declaredClaim at hc hc'
  rw [← hname, ← hkey] at hc'
  cases hov : overrideNamed overrides d.name with
  | some ov =>
    rw [hov] at hc hc'
    cases hc
    cases hc'
    rfl
  | none =>
    rw [hov] at hc hc'
    obtain ⟨raw, -, rfl⟩ := Option.map_eq_some_iff.mp hc
    obtain ⟨raw', -, rfl⟩ := Option.map_eq_some_iff.mp hc'
    rfl

theorem depClaim_eq_some {d : Dep} {c : Claim} (h : depClaim overrides index d = some c) :
    declaredSource overrides index d = some c.sourceId := by
  obtain ⟨cl, hcl, rfl⟩ := Option.map_eq_some_iff.mp h
  rw [declaredSource, hcl, Option.map_some]

theorem depClaim_of_declaredSource {d : Dep} {s : SourceId} (h : declaredSource overrides index d = some s) :
    ∃ c, depClaim overrides index d = some c := by
  obtain ⟨cl, hcl, -⟩ := Option.map_eq_some_iff.mp h
  exact ⟨_, by rw [depClaim, hcl, Option.map_some]⟩

/-- **The claims of a reconciliation, where members are apart**: those of all declarations, and of the other overrides. -/
theorem mem_claims_iff {claims : List Claim} (hnodup : (overrides.map Override.name).Nodup)
    (h : reconcileRootClaims deps overrides index = .ok claims) (hapart : MembersApart overrides index deps) (c : Claim) :
    c ∈ claims ↔ (∃ d ∈ deps, depClaim overrides index d = some c) ∨
      ∃ ov ∈ overrides, ov.name ∉ deps.map Dep.name ∧ overrideClaim index ov = c := by
  obtain ⟨-, hagree, -⟩ := (reconcileRootClaims_isOk_iff hnodup deps).mp ⟨claims, h⟩
  rw [reconcileRootClaims_eq_ok hnodup h, List.mem_append]
  refine or_congr ?_ (by simp [List.mem_map, List.mem_filter, and_assoc])
  rw [List.mem_filterMap]
  constructor
  · rintro ⟨d, hd, hc⟩
    exact ⟨d, (mem_firstsFrom hd).1, hc⟩
  · rintro ⟨d, hd, hc⟩
    obtain ⟨e, he⟩ := exists_firstOf hd
    obtain ⟨hmem, hkey⟩ := firstOf_eq_some he
    have hs := depClaim_eq_some hc
    obtain ⟨s, hs'⟩ : ∃ s, declaredSource overrides index e = some s := by
      rw [← Option.isSome_iff_exists, Option.isSome_iff_ne_none]
      intro hnone
      have hd' := hapart e hmem d hd hkey (Option.map_eq_none_iff.mp hnone)
      rw [declaredSource, hd'] at hs
      cases hs
    obtain rfl := hagree d hd e he s hs' _ hs
    exact ⟨e, mem_firstsFrom_iff.mpr ⟨List.not_mem_nil, by rw [hkey]; exact he⟩, (depClaim_eq hkey hs' hs).trans hc⟩

/-! ### Where the order has no say -/

/-- **What a reconciliation is to be, in every order of the declarations**: it succeeds in all or in none, its claims bind
the same names to the same sources, a declaration of a source has exactly one claim, and two declarations of one key with
different sources are refused. -/
structure OrderBlind (deps : List Dep) (overrides : List Override) (index : Index) : Prop where
  result : ∀ deps', deps.Perm deps' → ((∃ claims, reconcileRootClaims deps overrides index = .ok claims) ↔
    ∃ claims, reconcileRootClaims deps' overrides index = .ok claims)
  map : ∀ deps', deps.Perm deps' → ∀ claims claims', reconcileRootClaims deps overrides index = .ok claims →
    reconcileRootClaims deps' overrides index = .ok claims' →
    ∀ n s, (∃ c ∈ claims, c.name = n ∧ c.sourceId = s) ↔ ∃ c ∈ claims', c.name = n ∧ c.sourceId = s
  total : ∀ deps', deps.Perm deps' → ∀ claims, reconcileRootClaims deps' overrides index = .ok claims →
    ∀ d ∈ deps, ∀ cl ∈ declaredClaim overrides index d, ∃! c, c ∈ claims ∧ c.name = cl.2.2
  clash : ∀ deps', deps.Perm deps' → ∀ d ∈ deps, ∀ e ∈ deps, d.key = e.key → ∀ s ∈ declaredSource overrides index d,
    ∀ s' ∈ declaredSource overrides index e, s ≠ s' → ∃ err, reconcileRootClaims deps' overrides index = .error err

/-- Two declarations of a key claim different sources, and every declaration of the key claims one. -/
def ClashWithoutMember (overrides : List Override) (index : Index) (deps : List Dep) : Prop :=
  ∃ d ∈ deps, ∃ e ∈ deps, d.key = e.key ∧ (∃ s ∈ declaredSource overrides index d, ∃ s' ∈ declaredSource overrides index e, s ≠ s') ∧
    ∀ x ∈ deps, x.key = d.key → declaredClaim overrides index x ≠ none

/-- The declarations are refused in any order. -/
def RefusedAnyway (overrides : List Override) (index : Index) (deps : List Dep) : Prop :=
  ¬ SourcesAccepted overrides index deps ∨ ClashWithoutMember overrides index deps ∨ ¬ OverridesAccepted overrides index deps

/-- No override has the qualified name of a declaration that speaks for itself. -/
def QualifiedNamesApart (overrides : List Override) (index : Index) (deps : List Dep) : Prop :=
  ∀ ov ∈ overrides, ∀ d ∈ deps, overrideNamed overrides d.name = none → (depDeclaredRawOrigin d index).isSome = true →
    d.key.solverVar ≠ ov.name

section

variable {deps' : List Dep}

theorem RefusedAnyway.perm (h : RefusedAnyway overrides index deps) (hperm : deps.Perm deps') :
    RefusedAnyway overrides index deps' := by
  rcases h with h | ⟨d, hd, e, he, hkey, hs, hall⟩ | h
  · exact Or.inl fun h' => h fun d hd => h' d (hperm.mem_iff.mp hd)
  · exact Or.inr (Or.inl ⟨d, hperm.mem_iff.mp hd, e, hperm.mem_iff.mp he, hkey, hs, fun x hx => hall x (hperm.mem_iff.mpr hx)⟩)
  · refine Or.inr (Or.inr fun h' => h fun ov hov hn => h' ov hov fun hmem => hn ?_)
    exact (hperm.map Dep.name).mem_iff.mpr hmem

theorem not_ok_of_refused (hnodup : (overrides.map Override.name).Nodup) (h : RefusedAnyway overrides index deps) :
    ¬ ∃ claims, reconcileRootClaims deps overrides index = .ok claims := by
  rw [reconcileRootClaims_isOk_iff hnodup]
  rintro ⟨haccepted, hagree, hoverrides⟩
  rcases h with h | ⟨d, hd, e, he, hkey, ⟨s, hs, s', hs', hne⟩, hall⟩ | h
  · exact h haccepted
  · obtain ⟨f, hf⟩ := exists_firstOf hd
    obtain ⟨hmem, hfkey⟩ := firstOf_eq_some hf
    obtain ⟨c, hc⟩ := Option.ne_none_iff_exists'.mp (hall f hmem hfkey)
    have hsf : declaredSource overrides index f = some (normalForm c.1) := by rw [declaredSource, hc, Option.map_some]
    exact hne ((hagree d hd f hf _ hsf s hs).trans (hagree e he f (hkey ▸ hf) _ hsf s' hs').symm)
  · exact h hoverrides

/-- Where nothing is refused anyway, a reconciliation succeeds as long as no first declaration of a key that claims a source
is followed by one that claims none, of the same key. -/
theorem ok_of_not_refused (hnodup : (overrides.map Override.name).Nodup) (h : ¬ RefusedAnyway overrides index deps)
    (hfirst : ∀ e, firstOf deps e.key = some e → declaredClaim overrides index e ≠ none →
      ∀ d ∈ deps, d.key = e.key → declaredClaim overrides index d ≠ none) :
    ∃ claims, reconcileRootClaims deps overrides index = .ok claims := by
  unfold RefusedAnyway at h
  push Not at h
  obtain ⟨haccepted, hclash, hoverrides⟩ := h
  refine (reconcileRootClaims_isOk_iff hnodup deps).mpr ⟨haccepted, fun d hd e he s hs s' hs' => ?_, hoverrides⟩
  obtain ⟨hmem, hkey⟩ := firstOf_eq_some he
  by_contra hne
  have hclaims : declaredClaim overrides index e ≠ none := by
    intro hnone
    rw [declaredSource, hnone] at hs
    cases hs
  refine hclash ⟨d, hd, e, hmem, hkey.symm, ⟨s', hs', s, hs, hne⟩, fun x hx hxk => ?_⟩
  exact hfirst e (by rw [hkey]; exact he) hclaims x hx (hxk.trans hkey.symm)

/-- The declarations that claim no source, before or after the others. -/
def claimless (overrides : List Override) (index : Index) (d : Dep) : Bool := (declaredClaim overrides index d).isNone

theorem membersFirst_perm (overrides : List Override) (index : Index) (deps : List Dep) :
    deps.Perm (deps.filter (claimless overrides index) ++ deps.filter fun d => !claimless overrides index d) :=
  (List.filter_append_perm _ _).symm

theorem membersLast_perm (overrides : List Override) (index : Index) (deps : List Dep) :
    deps.Perm ((deps.filter fun d => !claimless overrides index d) ++ deps.filter (claimless overrides index)) :=
  (membersFirst_perm overrides index deps).trans List.perm_append_comm

/-- With the members first, a first declaration that claims a source is one of a key without a member. -/
theorem firstOf_membersFirst {e : Dep}
    (he : firstOf (deps.filter (claimless overrides index) ++ deps.filter fun d => !claimless overrides index d) e.key = some e)
    (hclaims : declaredClaim overrides index e ≠ none) :
    ∀ d ∈ deps, d.key = e.key → declaredClaim overrides index d ≠ none := by
  intro d hd hkey hnone
  have hmem : d ∈ deps.filter (claimless overrides index) := List.mem_filter.mpr ⟨hd, by rw [claimless, hnone]; rfl⟩
  obtain ⟨f, hf⟩ := exists_firstOf hmem
  rw [firstOf_append, ← hkey, hf, Option.some_or] at he
  obtain rfl := Option.some.inj he
  have := (List.mem_filter.mp (firstOf_eq_some hf).1).2
  rw [claimless, Option.isNone_iff_eq_none] at this
  exact hclaims this

/-- How a declaration is claimed: by the override of its name, or for itself under its qualified name. -/
theorem declaredClaim_cases {d : Dep} {cl : SourceId × Str × Str} (h : declaredClaim overrides index d = some cl) :
    (∃ ov, overrideNamed overrides d.name = some ov ∧ cl = (overrideTargetToRawOrigin ov index, "override:" ++ d.name, d.name)) ∨
      overrideNamed overrides d.name = none ∧ (depDeclaredRawOrigin d index).isSome = true ∧
        cl.2 = ("root".toList, d.key.solverVar) := by
  unfold declaredClaim at h
  cases hov : overrideNamed overrides d.name with
  | some ov =>
    rw [hov] at h
    cases h
    exact Or.inl ⟨ov, rfl, rfl⟩
  | none =>
    rw [hov] at h
    obtain ⟨raw, hraw, rfl⟩ := Option.map_eq_some_iff.mp h
    exact Or.inr ⟨rfl, by rw [hraw]; rfl, rfl⟩

/-- The qualified names of declarations that speak for themselves tell their keys apart. -/
theorem key_eq_of_solverVar_eq (hvalid : NamesValid deps) {d e : Dep} (hd : d ∈ deps) (he : e ∈ deps)
    (hdraw : (depDeclaredRawOrigin d index).isSome = true) (heraw : (depDeclaredRawOrigin e index).isSome = true)
    (h : d.key.solverVar = e.key.solverVar) : d.key = e.key := by
  have hkey : ∀ x ∈ deps, (depDeclaredRawOrigin x index).isSome = true → DepKey.fromSolverVar x.key.solverVar = x.key := by
    intro x hx hraw
    have hmember : ∀ md, x ≠ .member md := by
      rintro md rfl
      cases hraw
    obtain ⟨hname, hns⟩ := hvalid x hx hmember
    exact DepKey.fromSolverVar_solverVar (not_mem_of_validFlagName hname) fun ns h' => not_mem_of_validFlagName (hns ns h')
  rw [← hkey d hd hdraw, ← hkey e he heraw, h]

/-- Every override has a claim of its name. -/
theorem exists_claim_of_override {claims : List Claim} (hnodup : (overrides.map Override.name).Nodup)
    (h : reconcileRootClaims deps overrides index = .ok claims) {ov : Override} (hov : ov ∈ overrides) :
    ∃ c ∈ claims, c.name = ov.name ∧ c.claimant = "override:" ++ ov.name := by
  rw [reconcileRootClaims_eq_ok hnodup h]
  by_cases hseen : ov.name ∈ deps.map Dep.name
  · obtain ⟨d, hd, hname⟩ := List.mem_map.mp hseen
    obtain ⟨e, he⟩ := exists_firstOf hd
    obtain ⟨-, hkey⟩ := firstOf_eq_some he
    have hen : e.name = ov.name := (congrArg DepKey.name hkey).trans hname
    have hnamed : overrideNamed overrides e.name = some ov := (overrideNamed_eq_some hnodup).mpr ⟨hov, hen.symm⟩
    refine ⟨⟨e.name, normalForm (overrideTargetToRawOrigin ov index), true, "override:" ++ e.name⟩, ?_, hen, by rw [hen]⟩
    exact List.mem_append_left _ (List.mem_filterMap.mpr
      ⟨e, mem_firstsFrom_iff.mpr ⟨List.not_mem_nil, by rw [hkey]; exact he⟩, by simp [depClaim, declaredClaim, hnamed]⟩)
  · exact ⟨overrideClaim index ov, List.mem_append_right _ (List.mem_map_of_mem (List.mem_filter.mpr ⟨hov, by simpa using hseen⟩)),
      rfl, rfl⟩

/-- Where members are apart, the declarations of a key claim one source. -/
theorem sources_agree (hnodup : (overrides.map Override.name).Nodup) (hok : ∃ claims, reconcileRootClaims deps overrides index = .ok claims)
    (hapart : MembersApart overrides index deps) {d e : Dep} (hd : d ∈ deps) (he : e ∈ deps) (hkey : d.key = e.key) {s s' : SourceId}
    (hs : declaredSource overrides index d = some s) (hs' : declaredSource overrides index e = some s') : s = s' := by
  obtain ⟨-, hagree, -⟩ := (reconcileRootClaims_isOk_iff hnodup deps).mp hok
  obtain ⟨f, hf⟩ := exists_firstOf hd
  obtain ⟨hmem, hfkey⟩ := firstOf_eq_some hf
  obtain ⟨c, hc⟩ : ∃ c, declaredClaim overrides index f = some c := by
    refine Option.ne_none_iff_exists'.mp fun hnone => ?_
    rw [declaredSource, hapart f hmem d hd hfkey hnone] at hs
    cases hs
  have hsf : declaredSource overrides index f = some (normalForm c.1) := by rw [declaredSource, hc, Option.map_some]
  exact (hagree d hd f hf _ hsf s hs).trans (hagree e he f (hkey ▸ hf) _ hsf s' hs').symm

/-! ### The two directions -/

theorem orderBlind_of_refused (hnodup : (overrides.map Override.name).Nodup) (h : RefusedAnyway overrides index deps) :
    OrderBlind deps overrides index := by
  have hnone : ∀ deps', deps.Perm deps' → ¬ ∃ claims, reconcileRootClaims deps' overrides index = .ok claims :=
    fun deps' hperm => not_ok_of_refused hnodup (h.perm hperm)
  refine ⟨fun deps' hperm => iff_of_false (hnone deps (.refl _)) (hnone deps' hperm), ?_, ?_, ?_⟩
  · exact fun _ _ claims _ hclaims => absurd ⟨claims, hclaims⟩ (hnone deps (.refl _))
  · exact fun deps' hperm claims hclaims => absurd ⟨claims, hclaims⟩ (hnone deps' hperm)
  · intro deps' hperm _ _ _ _ _ _ _ _ _ _
    cases hr : reconcileRootClaims deps' overrides index with
    | ok claims => exact absurd ⟨claims, hr⟩ (hnone deps' hperm)
    | error err => exact ⟨err, rfl⟩

theorem orderBlind_of_apart (hvalid : NamesValid deps) (hnodup : (overrides.map Override.name).Nodup)
    (hrefused : ¬ RefusedAnyway overrides index deps) (hapart : MembersApart overrides index deps)
    (hqualified : QualifiedNamesApart overrides index deps) : OrderBlind deps overrides index := by
  have hapart' : ∀ {deps'}, deps.Perm deps' → MembersApart overrides index deps' := fun hperm d hd e he =>
    hapart d (hperm.mem_iff.mpr hd) e (hperm.mem_iff.mpr he)
  have hok : ∀ {deps'}, deps.Perm deps' → ∃ claims, reconcileRootClaims deps' overrides index = .ok claims := by
    intro deps' hperm
    refine ok_of_not_refused hnodup (fun h => hrefused (h.perm hperm.symm)) fun e he hne d hd hkey hnone => ?_
    exact hne (hapart' hperm d hd e (firstOf_eq_some he).1 hkey hnone)
  refine ⟨fun deps' hperm => iff_of_true (hok (.refl _)) (hok hperm), fun deps' hperm claims claims' hc hc' n s => ?_,
    fun deps' hperm claims hc d hd cl hcl => ?_, fun deps' hperm d hd e he hkey s hs s' hs' hne => ?_⟩
  · have hsame : ∀ c, c ∈ claims ↔ c ∈ claims' := by
      intro c
      rw [mem_claims_iff hnodup hc hapart, mem_claims_iff hnodup hc' (hapart' hperm)]
      refine or_congr (exists_congr fun d => and_congr_left fun _ => hperm.mem_iff) (exists_congr fun ov => ?_)
      rw [(hperm.map Dep.name).mem_iff]
    simp only [hsame]
  · have hdc : depClaim overrides index d = some ⟨cl.2.2, normalForm cl.1, true, cl.2.1⟩ := by
      rw [depClaim, Option.mem_def.mp hcl, Option.map_some]
    have hmem := mem_claims_iff hnodup hc (hapart' hperm)
    refine ⟨⟨cl.2.2, normalForm cl.1, true, cl.2.1⟩, ⟨(hmem _).mpr (Or.inl ⟨d, hperm.mem_iff.mp hd, hdc⟩), rfl⟩, ?_⟩
    rintro c ⟨hcmem, hname⟩
    rcases (hmem c).mp hcmem with ⟨e, he, hec⟩ | ⟨ov, hov, hunseen, rfl⟩
    · have he := hperm.mem_iff.mpr he
      obtain ⟨cl', hcl', rfl⟩ := Option.map_eq_some_iff.mp hec
      dsimp only at hname
      rcases declaredClaim_cases hcl with ⟨ov, hov, rfl⟩ | ⟨hnone, hraw, hroot⟩ <;>
        rcases declaredClaim_cases hcl' with ⟨ov', hov', rfl⟩ | ⟨hnone', hraw', hroot'⟩
      · dsimp only at hname
        rw [hname] at hov' ⊢
        rw [Option.some.inj (hov'.symm.trans hov)]
      · obtain ⟨hmem', hovname⟩ := (overrideNamed_eq_some hnodup).mp hov
        rw [hroot'] at hname
        exact absurd (hname.trans hovname.symm) (hqualified ov hmem' e he hnone' hraw')
      · obtain ⟨hmem', hovname⟩ := (overrideNamed_eq_some hnodup).mp hov'
        rw [hroot] at hname
        exact absurd (hname.symm.trans hovname.symm) (hqualified ov' hmem' d hd hnone hraw)
      · rw [hroot, hroot'] at hname
        have hkey := key_eq_of_solverVar_eq hvalid he hd hraw' hraw hname
        have hse := depClaim_eq_some hec
        have hsd := depClaim_eq_some hdc
        have hs := sources_agree hnodup (hok (.refl _)) hapart he hd hkey hse hsd
        dsimp only at hs hsd hse
        rw [hs] at hse
        exact Option.some.inj (hec.symm.trans ((depClaim_eq hkey hse hsd).trans hdc))
    · rcases declaredClaim_cases hcl with ⟨ov', hov', rfl⟩ | ⟨hnone, hraw, hroot⟩
      · refine absurd ?_ hunseen
        rw [show ov.name = d.name from hname]
        exact List.mem_map_of_mem (hperm.mem_iff.mp hd)
      · rw [hroot] at hname
        exact absurd hname.symm (hqualified ov hov d hd hnone hraw)
  · exact absurd (sources_agree hnodup (hok (.refl _)) hapart hd he hkey hs hs') hne

/-- Where nothing is refused anyway, the members-first order succeeds. -/
theorem ok_membersFirst (hnodup : (overrides.map Override.name).Nodup) (hrefused : ¬ RefusedAnyway overrides index deps) :
    ∃ claims, reconcileRootClaims (deps.filter (claimless overrides index) ++ deps.filter fun d => !claimless overrides index d)
      overrides index = .ok claims := by
  have hperm := membersFirst_perm overrides index deps
  refine ok_of_not_refused hnodup (fun h => hrefused (h.perm hperm.symm)) fun e he hne d hd => ?_
  exact firstOf_membersFirst he hne d (hperm.mem_iff.mpr hd)

theorem OrderBlind.qualifiedNamesApart (hblind : OrderBlind deps overrides index) (hnodup : (overrides.map Override.name).Nodup)
    (hrefused : ¬ RefusedAnyway overrides index deps) : QualifiedNamesApart overrides index deps := by
  intro ov hov d hd hnone hraw hname
  obtain ⟨raw, hraw⟩ := Option.isSome_iff_exists.mp hraw
  have hcl : declaredClaim overrides index d = some (raw, "root".toList, d.key.solverVar) := by
    simp [declaredClaim, hnone, hraw]
  -- with the members last, the key of `d` is claimed by a declaration, and the name by the override
  have hfirst := membersFirst_perm overrides index deps
  have hlast := membersLast_perm overrides index deps
  obtain ⟨claims, hclaims⟩ := (hblind.result _ hlast).mp ((hblind.result _ hfirst).mpr (ok_membersFirst hnodup hrefused))
  have hmem : d ∈ deps.filter fun d => !claimless overrides index d :=
    List.mem_filter.mpr ⟨hd, by rw [claimless, hcl]; rfl⟩
  obtain ⟨f, hf⟩ := exists_firstOf hmem
  obtain ⟨hfmem, hfkey⟩ := firstOf_eq_some hf
  have hfname : f.name = d.name := congrArg DepKey.name hfkey
  obtain ⟨cf, hcf⟩ : ∃ cf, declaredClaim overrides index f = some cf := by
    have := (List.mem_filter.mp hfmem).2
    rw [claimless, Bool.not_eq_true', Option.isNone_eq_false_iff] at this
    exact Option.isSome_iff_exists.mp this
  obtain ⟨c, hc, hcname, hcby⟩ := exists_claim_of_override hnodup hclaims hov
  rcases declaredClaim_cases hcf with ⟨ov', hov', -⟩ | ⟨-, -, hroot⟩
  · rw [hfname, hnone] at hov'
    cases hov'
  · have hmem : (⟨cf.2.2, normalForm cf.1, true, cf.2.1⟩ : Claim) ∈ claims := by
      rw [reconcileRootClaims_eq_ok hnodup hclaims]
      refine List.mem_append_left _ (List.mem_filterMap.mpr ⟨f, mem_firstsFrom_iff.mpr ⟨List.not_mem_nil, ?_⟩, ?_⟩)
      · rw [firstOf_append, hfkey, hf, Option.some_or]
      · rw [depClaim, hcf, Option.map_some]
    have hunique := (hblind.total _ hlast claims hclaims d hd _ hcl).unique ⟨hc, hcname.trans hname.symm⟩
      ⟨hmem, by rw [hroot, hfkey]⟩
    rw [hunique, hroot] at hcby
    cases hcby

theorem OrderBlind.membersApart (hblind : OrderBlind deps overrides index) (hvalid : NamesValid deps)
    (hnodup : (overrides.map Override.name).Nodup) (hrefused : ¬ RefusedAnyway overrides index deps) :
    MembersApart overrides index deps := by
  intro d hd e he hkey hnone
  by_contra hsome
  obtain ⟨cl, hcl⟩ := Option.ne_none_iff_exists'.mp hsome
  have hqualified := hblind.qualifiedNamesApart hnodup hrefused
  have hperm := membersFirst_perm overrides index deps
  obtain ⟨claims, hclaims⟩ := ok_membersFirst hnodup hrefused
  have hname : d.name = e.name := congrArg DepKey.name hkey
  -- the name is not overridden, since `d` claims nothing
  rcases declaredClaim_cases hcl with ⟨ov, hov, rfl⟩ | ⟨hov, hraw, hroot⟩
  · rw [← hname] at hov
    simp [declaredClaim, hov] at hnone
  · obtain ⟨c, ⟨hc, hcname⟩, -⟩ := hblind.total _ hperm claims hclaims e he cl hcl
    rw [hroot] at hcname
    rw [reconcileRootClaims_eq_ok hnodup hclaims] at hc
    rcases List.mem_append.mp hc with hc | hc
    · obtain ⟨f, hf, hfc⟩ := List.mem_filterMap.mp hc
      obtain ⟨cf, hcf, rfl⟩ := Option.map_eq_some_iff.mp hfc
      have hfdeps : f ∈ deps := hperm.mem_iff.mpr (mem_firstsFrom hf).1
      rcases declaredClaim_cases hcf with ⟨ov, hov', rfl⟩ | ⟨-, hfraw, hfroot⟩
      · obtain ⟨hmem, hovname⟩ := (overrideNamed_eq_some hnodup).mp hov'
        exact hqualified ov hmem e he hov hraw (hcname.symm.trans hovname.symm)
      · dsimp only at hcname
        rw [hfroot] at hcname
        have hfkey := key_eq_of_solverVar_eq hvalid hfdeps he hfraw hraw hcname
        have hfirst := (mem_firstsFrom_iff.mp hf).2
        exact firstOf_membersFirst hfirst (by rw [hcf]; simp) d hd (hkey.trans hfkey.symm) hnone
    · obtain ⟨ov, hov', rfl⟩ := List.mem_map.mp hc
      exact hqualified ov (List.mem_filter.mp hov').1 e he hov hraw hcname.symm

end

/-- `lib` as a workspace member, and from a repository. -/
def memberLib : Dep := .member ⟨"lib", []⟩

def urlLib : Dep := .url (urlDep "lib" "https://h/lib" "main" none)

end Milpa.Core

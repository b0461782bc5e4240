import Milpa.Core.RootClaims

/-!
# When the root claims agree

`BindingResolver::new` asserts that no two root claims of one key disagree on the source.
`reconcile_root_claims` sees to it as far as two declarations go, and not where a name is
read as a qualified one: the name of an override, of the root and of a member can be any
text, and `ns::foo` is the key of a dependency `foo` of the namespace `ns`; nor where the
root declares a dependency on its own name, or an override sends the name of a member to
another one. `bindingResolver_new_isSome_iff` says exactly when the assertions hold.
-/

namespace Milpa.Core

variable {overrides : List Override} {index : Index} {deps : List Dep}

/-! ### The claims that are made -/

/-- The declarations that are the first of their key, after those of the keys `seen`. -/
def firstsFrom (seen : List DepKey) : List Dep → List Dep
  | [] => []
  | d :: deps => if d.key ∈ seen then firstsFrom (d.key :: seen) deps else d :: firstsFrom (d.key :: seen) deps

/-- The declarations that are the first of their key. -/
def firstDeclarations (deps : List Dep) : List Dep := firstsFrom [] deps

/-- The claim of a declaration. -/
def depClaim (overrides : List Override) (index : Index) (d : Dep) : Option Claim :=
  (declaredClaim overrides index d).map fun c => ⟨c.2.2, normalForm c.1, true, c.2.1⟩

/-- The claim of an override that is no declaration's. -/
def overrideClaim (index : Index) (ov : Override) : Claim :=
  ⟨ov.name, normalForm (overrideTargetToRawOrigin ov index), true, "override:" ++ ov.name⟩

theorem mem_firstsFrom {seen : List DepKey} {d : Dep} (h : d ∈ firstsFrom seen deps) : d ∈ deps ∧ d.key ∉ seen := by
  induction deps generalizing seen with
  | nil => cases h
  | cons e deps ih =>
    rw [firstsFrom] at h
    have hrest : d ∈ firstsFrom (e.key :: seen) deps → d ∈ e :: deps ∧ d.key ∉ seen := fun h' =>
      ⟨List.mem_cons_of_mem _ (ih h').1, fun hs => (ih h').2 (List.mem_cons_of_mem _ hs)⟩
    split_ifs at h with he
    · exact hrest h
    · rcases List.mem_cons.mp h with rfl | h
      · exact ⟨List.mem_cons_self, he⟩
      · exact hrest h

theorem firstsFrom_key_injOn {seen : List DepKey} {d e : Dep} (hd : d ∈ firstsFrom seen deps) (he : e ∈ firstsFrom seen deps)
    (h : d.key = e.key) : d = e := by
  induction deps generalizing seen with
  | nil => cases hd
  | cons f deps ih =>
    rw [firstsFrom] at hd he
    split_ifs at hd he with hf
    · exact ih hd he
    · rcases List.mem_cons.mp hd with rfl | hd <;> rcases List.mem_cons.mp he with rfl | he
      · rfl
      · exact absurd (h ▸ List.mem_cons_self) (mem_firstsFrom he).2
      · exact absurd (h ▸ List.mem_cons_self) (mem_firstsFrom hd).2
      · exact ih hd he

/-- Every declared key has a first declaration. -/
theorem exists_firstsFrom {seen : List DepKey} {d : Dep} (hd : d ∈ deps) (hs : d.key ∉ seen) :
    ∃ e ∈ firstsFrom seen deps, e.key = d.key := by
  induction deps generalizing seen with
  | nil => cases hd
  | cons f deps ih =>
    rw [firstsFrom]
    by_cases hf : f.key = d.key
    · rw [if_neg (hf ▸ hs)]
      exact ⟨f, List.mem_cons_self, hf⟩
    · have hd' : d ∈ deps := by
        rcases List.mem_cons.mp hd with rfl | hd
        · exact absurd rfl hf
        · exact hd
      obtain ⟨e, he, hk⟩ := ih hd' (show d.key ∉ f.key :: seen by simp [hs, Ne.symm hf])
      split_ifs
      · exact ⟨e, he, hk⟩
      · exact ⟨e, List.mem_cons_of_mem _ he, hk⟩

/-- What a round of the loop over the declarations does. -/
theorem reconcileDep_eq_ok {st st' : Reconciling} {d : Dep} (h : reconcileDep overrides index st d = .ok st') :
    st'.seenNames = d.name :: st.seenNames ∧ st'.seenKeys = d.key :: st.seenKeys ∧
      st'.claims = st.claims ++ if d.key ∈ st.seenKeys then [] else (depClaim overrides index d).toList := by
  unfold reconcileDep at h
  cases hc : declaredClaim overrides index d with
  | none =>
    simp only [hc, Except.ok.injEq] at h
    subst h
    simp [depClaim, hc]
  | some c =>
    obtain ⟨raw, claimant, claimName⟩ := c
    simp only [hc] at h
    obtain ⟨sid, hsid, h⟩ := Result.bind_eq_ok.mp h
    obtain ⟨-, rfl⟩ := normalizeSourceRes_eq_ok.mp hsid
    by_cases hk : d.key ∈ st.seenKeys
    · simp only [if_pos hk] at h ⊢
      cases hp : st.seenKeySource d.key with
      | none =>
        simp only [hp] at h
        cases h
        exact ⟨rfl, rfl, by simp⟩
      | some prior =>
        simp only [hp] at h
        split_ifs at h
        cases h
        exact ⟨rfl, rfl, by simp⟩
    · simp only [if_neg hk] at h ⊢
      cases h
      exact ⟨rfl, rfl, by simp [depClaim, hc]⟩

theorem reconcileDeps_eq_ok {st st' : Reconciling} (h : deps.foldlM (reconcileDep overrides index) st = .ok st') :
    (∀ n, n ∈ st'.seenNames ↔ n ∈ st.seenNames ∨ n ∈ deps.map Dep.name) ∧
      st'.claims = st.claims ++ (firstsFrom st.seenKeys deps).filterMap (depClaim overrides index) := by
  induction deps generalizing st with
  | nil =>
    cases h
    simp [firstsFrom]
  | cons d deps ih =>
    obtain ⟨st₁, h₁, h₂⟩ := Result.bind_eq_ok.mp h
    obtain ⟨hnames, hkeys, hclaims⟩ := reconcileDep_eq_ok h₁
    obtain ⟨ihnames, ihclaims⟩ := ih h₂
    refine ⟨fun n => ?_, ?_⟩
    · rw [ihnames, hnames, List.mem_cons, List.map_cons, List.mem_cons, or_comm (a := n = d.name), or_assoc]
    · rw [ihclaims, hclaims, hkeys, firstsFrom]
      split_ifs with hk
      · simp
      · cases hc : depClaim overrides index d with
        | none => simp [hc]
        | some c => simp [hc]

theorem reconcileOverrides_eq_ok {st st' : Reconciling} (hnodup : (overrides.map Override.name).Nodup)
    (h : overrides.foldlM (reconcileOverride index) st = .ok st') :
    st'.claims = st.claims ++ (overrides.filter fun ov => decide (ov.name ∉ st.seenNames)).map (overrideClaim index) := by
  induction overrides generalizing st with
  | nil =>
    cases h
    simp
  | cons ov l ih =>
    obtain ⟨st₁, h₁, h₂⟩ := Result.bind_eq_ok.mp h
    obtain ⟨hov, hl⟩ := List.nodup_cons.mp hnodup
    unfold reconcileOverride at h₁
    rw [ih hl h₂]
    split_ifs at h₁ with hs
    · cases h₁
      simp [hs]
    · obtain ⟨sid, hsid, h₁⟩ := Result.bind_eq_ok.mp h₁
      obtain ⟨-, rfl⟩ := normalizeSourceRes_eq_ok.mp hsid
      cases h₁
      have hrest : l.filter (fun o => decide (o.name ∉ ov.name :: st.seenNames)) =
          l.filter fun o => decide (o.name ∉ st.seenNames) := by
        refine List.filter_congr fun o ho => ?_
        have hne : o.name ≠ ov.name := fun heq => hov (heq ▸ List.mem_map_of_mem ho)
        simp [hne]
      simp only [hrest, List.append_assoc]
      rw [List.filter_cons_of_pos (by simpa using hs)]
      rfl

/-- The claims of a reconciliation. -/
theorem reconcileRootClaims_eq_ok {claims : List Claim} (hnodup : (overrides.map Override.name).Nodup)
    (h : reconcileRootClaims deps overrides index = .ok claims) :
    claims = (firstDeclarations deps).filterMap (depClaim overrides index) ++
      (overrides.filter fun ov => decide (ov.name ∉ deps.map Dep.name)).map (overrideClaim index) := by
  unfold reconcileRootClaims at h
  obtain ⟨st₁, h₁, h⟩ := Result.bind_eq_ok.mp h
  obtain ⟨st₂, h₂, h⟩ := Result.bind_eq_ok.mp h
  cases h
  obtain ⟨hnames, hclaims⟩ := reconcileDeps_eq_ok h₁
  rw [reconcileOverrides_eq_ok hnodup h₂, hclaims]
  have hfilter : overrides.filter (fun ov => decide (ov.name ∉ st₁.seenNames)) =
      overrides.filter fun ov => decide (ov.name ∉ deps.map Dep.name) := by
    refine List.filter_congr fun ov _ => ?_
    simp [hnames]
  rw [hfilter]
  rfl

/-! ### What is claimed -/

theorem overrideNamed_eq_some (hnodup : (overrides.map Override.name).Nodup) {n : Str} {ov : Override} :
    overrideNamed overrides n = some ov ↔ ov ∈ overrides ∧ ov.name = n := by
  constructor
  · intro h
    exact ⟨List.mem_reverse.mp (List.mem_of_find?_eq_some h), by simpa using List.find?_some h⟩
  · rintro ⟨hov, rfl⟩
    cases hf : overrideNamed overrides ov.name with
    | none =>
      have := List.find?_eq_none.mp hf ov (List.mem_reverse.mpr hov)
      simp at this
    | some ov' =>
      have hmem : ov' ∈ overrides := List.mem_reverse.mp (List.mem_of_find?_eq_some hf)
      have hname : ov'.name = ov.name := by simpa using List.find?_some hf
      rw [List.inj_on_of_nodup_map hnodup hmem hov hname]

/-- A declaration that speaks for itself: the first of its key, of no overridden name, with an origin. -/
def Speaks (deps : List Dep) (overrides : List Override) (index : Index) (d : Dep) (raw : SourceId) : Prop :=
  d ∈ firstDeclarations deps ∧ overrideNamed overrides d.name = none ∧ depDeclaredRawOrigin d index = some raw

/-- A key is claimed for a source: by an override, or by a declaration that speaks for itself. -/
def Claimed (deps : List Dep) (overrides : List Override) (index : Index) (k : DepKey) (s : SourceId) : Prop :=
  (∃ ov ∈ overrides, DepKey.fromSolverVar ov.name = k ∧ normalForm (overrideTargetToRawOrigin ov index) = s) ∨
    ∃ d raw, Speaks deps overrides index d raw ∧ d.key = k ∧ normalForm raw = s

/-- The names and namespaces that the manifest parser lets through: `MAN-DEP-NAME-INVALID` is raised for the others. -/
def NamesValid (deps : List Dep) : Prop :=
  ∀ d ∈ deps, (∀ md, d ≠ .member md) → validFlagName d.name = true ∧ ∀ ns ∈ d.namespace?, validFlagName ns = true

theorem not_mem_of_validFlagName {s : Str} (h : validFlagName s = true) : ':' ∉ s := by
  intro hc
  have hall := (Bool.and_eq_true_iff.mp h).2
  have := List.all_eq_true.mp hall ':' hc
  exact absurd this (by decide)

/-- The key of a declaration that speaks for itself is read back from its text. -/
theorem Speaks.key {d : Dep} {raw : SourceId} (hvalid : NamesValid deps) (h : Speaks deps overrides index d raw) :
    DepKey.fromSolverVar d.key.solverVar = d.key := by
  have hmember : ∀ md, d ≠ .member md := by
    rintro md rfl
    simp [Speaks, depDeclaredRawOrigin] at h
  obtain ⟨hname, hns⟩ := hvalid d (mem_firstsFrom h.1).1 hmember
  exact DepKey.fromSolverVar_solverVar (not_mem_of_validFlagName hname) fun ns h' => not_mem_of_validFlagName (hns ns h')

/-- **The claims of a reconciliation are what is claimed.** -/
theorem exists_claim_iff {claims : List Claim} (hvalid : NamesValid deps) (hnodup : (overrides.map Override.name).Nodup)
    (h : reconcileRootClaims deps overrides index = .ok claims) (k : DepKey) (s : SourceId) :
    (∃ c ∈ claims, keyFor c = k ∧ c.sourceId = s) ↔ Claimed deps overrides index k s := by
  rw [reconcileRootClaims_eq_ok hnodup h]
  constructor
  · rintro ⟨c, hc, rfl, rfl⟩
    rcases List.mem_append.mp hc with hc | hc
    · obtain ⟨d, hd, hdc⟩ := List.mem_filterMap.mp hc
      obtain ⟨⟨raw, claimant, claimName⟩, hdecl, rfl⟩ := Option.map_eq_some_iff.mp hdc
      unfold declaredClaim at hdecl
      cases hov : overrideNamed overrides d.name with
      | some ov =>
        simp only [hov, Option.some.injEq, Prod.mk.injEq] at hdecl
        obtain ⟨rfl, rfl, rfl⟩ := hdecl
        obtain ⟨hmem, hname⟩ := (overrideNamed_eq_some hnodup).mp hov
        exact Or.inl ⟨ov, hmem, by rw [keyFor, hname], rfl⟩
      | none =>
        simp only [hov, Option.map_eq_some_iff, Prod.mk.injEq] at hdecl
        obtain ⟨raw', hraw, rfl, rfl, rfl⟩ := hdecl
        have hs : Speaks deps overrides index d raw' := ⟨hd, hov, hraw⟩
        exact Or.inr ⟨d, raw', hs, (hs.key hvalid).symm, rfl⟩
    · obtain ⟨ov, hov, rfl⟩ := List.mem_map.mp hc
      exact Or.inl ⟨ov, (List.mem_filter.mp hov).1, rfl, rfl⟩
  · rintro (⟨ov, hov, rfl, rfl⟩ | ⟨d, raw, hs, rfl, rfl⟩)
    · by_cases hseen : ov.name ∈ deps.map Dep.name
      · obtain ⟨d, hd, hname⟩ := List.mem_map.mp hseen
        obtain ⟨e, he, hk⟩ := exists_firstsFrom hd (show d.key ∉ [] by simp)
        have hen : e.name = ov.name := (congrArg DepKey.name hk).trans hname
        have hnamed : overrideNamed overrides e.name = some ov := (overrideNamed_eq_some hnodup).mpr ⟨hov, hen.symm⟩
        refine ⟨⟨e.name, normalForm (overrideTargetToRawOrigin ov index), true, "override:" ++ e.name⟩, ?_, ?_, rfl⟩
        · exact List.mem_append_left _ (List.mem_filterMap.mpr ⟨e, he, by simp [depClaim, declaredClaim, hnamed]⟩)
        · rw [keyFor, hen]
      · exact ⟨overrideClaim index ov, List.mem_append_right _ (List.mem_map_of_mem (List.mem_filter.mpr ⟨hov, by simpa using hseen⟩)),
          rfl, rfl⟩
    · obtain ⟨hd, hnone, hraw⟩ := hs
      refine ⟨⟨d.key.solverVar, normalForm raw, true, "root"⟩, ?_, Speaks.key hvalid ⟨hd, hnone, hraw⟩, rfl⟩
      exact List.mem_append_left _ (List.mem_filterMap.mpr ⟨d, hd, by simp [depClaim, declaredClaim, hnone, hraw]⟩)

theorem isRoot_of_reconcile {claims : List Claim} (hnodup : (overrides.map Override.name).Nodup)
    (h : reconcileRootClaims deps overrides index = .ok claims) : ∀ c ∈ claims, c.isRoot = true := by
  rw [reconcileRootClaims_eq_ok hnodup h]
  intro c hc
  rcases List.mem_append.mp hc with hc | hc
  · obtain ⟨d, -, hdc⟩ := List.mem_filterMap.mp hc
    obtain ⟨-, -, rfl⟩ := Option.map_eq_some_iff.mp hdc
    rfl
  · obtain ⟨ov, -, rfl⟩ := List.mem_map.mp hc
    rfl

/-- No override's name reads as the qualified name of a declared dependency with another source. -/
def NamesApart (deps : List Dep) (overrides : List Override) (index : Index) : Prop :=
  ∀ ov ∈ overrides, ∀ d raw, Speaks deps overrides index d raw → d.key = DepKey.fromSolverVar ov.name →
    normalForm raw = normalForm (overrideTargetToRawOrigin ov index)

/-- What is claimed agrees where the names are apart, and only there. -/
theorem claimed_agree_iff (hnodup : (overrides.map Override.name).Nodup) :
    (∀ k s s', Claimed deps overrides index k s → Claimed deps overrides index k s' → s = s') ↔
      NamesApart deps overrides index := by
  constructor
  · intro h ov hov d raw hd hk
    exact h d.key _ _ (Or.inr ⟨d, raw, hd, rfl, rfl⟩) (Or.inl ⟨ov, hov, hk.symm, rfl⟩)
  · rintro h k s s' (⟨ov, hov, rfl, rfl⟩ | ⟨d, raw, hd, rfl, rfl⟩) (⟨ov', hov', hk, rfl⟩ | ⟨d', raw', hd', hk, rfl⟩)
    · have hname := DepKey.fromSolverVar_injective hk
      rw [List.inj_on_of_nodup_map hnodup hov' hov hname]
    · exact (h ov hov d' raw' hd' hk).symm
    · exact h ov' hov' d raw hd hk.symm
    · have heq := firstsFrom_key_injOn hd.1 hd'.1 hk.symm
      subst heq
      rw [Option.some.inj (hd.2.2.symm.trans hd'.2.2)]

/-! ### The two constructors -/

/-- What the parser promises of a root manifest: `MAN-DEP-NAME-INVALID` and `MAN-OVERRIDE-DUPLICATE` are raised
otherwise. -/
structure ParsedRoot (manifest : Manifest) : Prop where
  names : NamesValid (rootDeps manifest)
  overrides : (manifest.overrides.map Override.name).Nodup

/-- What the loader promises of a workspace: besides, `WS-MEMBER-DUPLICATE-NAME` is raised otherwise. -/
structure ParsedWorkspace (workspace : LoadedWorkspace) : Prop where
  names : NamesValid (workspace.members.flatMap fun m => rootDeps m.manifest)
  overrides : (workspace.overrides.map Override.name).Nodup
  members : workspace.memberNames.Nodup

/-- The root claims of a package manifest are apart: no override's name reads as another dependency's qualified name,
and nothing is declared or overridden under the name of the root. -/
def RootApart (manifest : Manifest) (index : Index) : Prop :=
  NamesApart (rootDeps manifest) (nonMemberOverrides manifest) index ∧
    ∀ name ∈ manifest.name, (∀ ov ∈ nonMemberOverrides manifest, ov.name ≠ name) ∧
      ∀ d raw, Speaks (rootDeps manifest) (nonMemberOverrides manifest) index d raw → d.key ≠ DepKey.fromSolverVar name

/-- The root claims of a workspace are apart: besides, an override of a member's name leads to that member, and no
member's name reads as the qualified name of a declared dependency. -/
def WorkspaceApart (workspace : LoadedWorkspace) (index : Index) : Prop :=
  NamesApart workspace.memberDeps workspace.overrides index ∧
    ∀ m ∈ workspace.members, (∀ ov ∈ workspace.overrides, ov.name = m.name → ov.target = .member m.name) ∧
      ∀ d raw, Speaks workspace.memberDeps workspace.overrides index d raw → d.key ≠ DepKey.fromSolverVar m.name

/-- `new` on the claims of a reconciliation and some on names that are members. -/
theorem new_members_isSome_iff {claims : List Claim} (names : List Str) {l : List Claim} (hvalid : NamesValid deps)
    (hnodup : (overrides.map Override.name).Nodup) (h : reconcileRootClaims deps overrides index = .ok claims)
    (hsub : ∀ c ∈ claims, c ∈ l) (hl : ∀ c ∈ l, c ∈ claims ∨ ∃ n ∈ names, ∃ who, c = ⟨n, .member n, true, who⟩)
    (hnames : ∀ n ∈ names, ∃ who, ⟨n, .member n, true, who⟩ ∈ l) :
    (BindingResolver.new l).isSome = true ↔ NamesApart deps overrides index ∧
      ∀ n ∈ names, ∀ s, Claimed deps overrides index (DepKey.fromSolverVar n) s → s = .member n := by
  have hroot : ∀ c ∈ l, c.isRoot = true := by
    intro c hc
    rcases hl c hc with hc | ⟨n, -, who, rfl⟩
    · exact isRoot_of_reconcile hnodup h c hc
    · rfl
  rw [BindingResolver.new_isSome_iff hroot, ← claimed_agree_iff hnodup]
  constructor
  · intro hag
    refine ⟨fun k s s' hs hs' => ?_, fun n hn s hs => ?_⟩
    · obtain ⟨c, hc, hck, rfl⟩ := (exists_claim_iff hvalid hnodup h k s).mpr hs
      obtain ⟨d, hd, hdk, rfl⟩ := (exists_claim_iff hvalid hnodup h k s').mpr hs'
      exact hag c (hsub c hc) d (hsub d hd) (hck.trans hdk.symm)
    · obtain ⟨who, hwho⟩ := hnames n hn
      obtain ⟨c, hc, hck, rfl⟩ := (exists_claim_iff hvalid hnodup h _ s).mpr hs
      exact hag c (hsub c hc) _ hwho hck
  · rintro ⟨hag, hmem⟩ c hc d hd hk
    rcases hl c hc with hc | ⟨n, hn, who, rfl⟩ <;> rcases hl d hd with hd | ⟨n', hn', who', rfl⟩
    · exact hag (keyFor c) _ _ ((exists_claim_iff hvalid hnodup h _ _).mp ⟨c, hc, rfl, rfl⟩)
        ((exists_claim_iff hvalid hnodup h _ _).mp ⟨d, hd, hk.symm, rfl⟩)
    · exact hmem n' hn' _ ((exists_claim_iff hvalid hnodup h _ _).mp ⟨c, hc, hk, rfl⟩)
    · exact (hmem n hn _ ((exists_claim_iff hvalid hnodup h _ _).mp ⟨d, hd, hk.symm, rfl⟩)).symm
    · have := DepKey.fromSolverVar_injective hk
      simp only at this
      rw [this]

theorem normalForm_depDeclaredRawOrigin {d : Dep} {raw : SourceId} (h : depDeclaredRawOrigin d index = some raw) (n : Str) :
    normalForm raw ≠ .member n := by
  cases d <;> cases h <;> simp [normalForm, registrySource]

theorem normalForm_overrideTarget_eq_member {ov : Override} {n : Str} :
    normalForm (overrideTargetToRawOrigin ov index) = .member n ↔ ov.target = .member n := by
  unfold overrideTargetToRawOrigin
  cases ov.target <;> simp [normalForm, registrySource]

/-- A name is free for a member: an override of it leads to the member, and no declaration has its key. -/
theorem claimed_member_iff (n : Str) :
    (∀ s, Claimed deps overrides index (DepKey.fromSolverVar n) s → s = .member n) ↔
      (∀ ov ∈ overrides, ov.name = n → ov.target = .member n) ∧
        ∀ d raw, Speaks deps overrides index d raw → d.key ≠ DepKey.fromSolverVar n := by
  constructor
  · intro h
    refine ⟨fun ov hov hn => ?_, fun d raw hd hk => ?_⟩
    · exact normalForm_overrideTarget_eq_member.mp (h _ (Or.inl ⟨ov, hov, by rw [hn], rfl⟩))
    · exact normalForm_depDeclaredRawOrigin hd.2.2 n (h _ (Or.inr ⟨d, raw, hd, hk, rfl⟩))
  · rintro ⟨hov, hdep⟩ s (⟨ov, hmem, hk, rfl⟩ | ⟨d, raw, hd, hk, rfl⟩)
    · exact normalForm_overrideTarget_eq_member.mpr (hov ov hmem (DepKey.fromSolverVar_injective hk))
    · exact absurd hk (hdep d raw hd)

/-- **When `BindingResolver::new` does not panic.** On the root claims of a manifest that the parser accepts it does
not exactly when they are apart, and on those of a workspace that the loader accepts exactly when those are. -/
theorem bindingResolver_new_isSome_iff (index : Index) :
    (∀ manifest claims, ParsedRoot manifest → singleRootClaims manifest index = .ok claims →
      ((BindingResolver.new claims).isSome = true ↔ RootApart manifest index)) ∧
    ∀ workspace claims, ParsedWorkspace workspace → workspaceRootClaims workspace index = .ok claims →
      ((BindingResolver.new claims).isSome = true ↔ WorkspaceApart workspace index) := by
  constructor
  · intro manifest claims hparsed h
    obtain ⟨claims, hrec, h⟩ := Result.bind_eq_ok.mp h
    cases h
    have hnodup : ((nonMemberOverrides manifest).map Override.name).Nodup :=
      hparsed.overrides.sublist (List.filter_sublist.map _)
    rw [new_members_isSome_iff manifest.name.toList hparsed.names hnodup hrec
      (fun c hc => List.mem_append_left _ hc) ?_ ?_]
    · refine and_congr_right fun _ => ?_
      simp only [Option.mem_toList]
      refine forall₂_congr fun n _ => ?_
      rw [claimed_member_iff]
      refine and_congr_left fun _ => forall₂_congr fun ov hov => imp_congr_right fun _ => ?_
      have hmember : ov.target.isMember = false := by simpa [nonMemberOverrides] using (List.mem_filter.mp hov).2
      refine iff_false_intro fun ht => ?_
      rw [ht] at hmember
      cases hmember
    · intro c hc
      refine (List.mem_append.mp hc).imp_right fun hc => ?_
      obtain ⟨n, hn, rfl⟩ := Option.map_eq_some_iff.mp (Option.mem_toList.mp hc)
      exact ⟨n, Option.mem_toList.mpr hn, "root-self", rfl⟩
    · intro n hn
      refine ⟨"root-self", List.mem_append_right _ ?_⟩
      simp [Option.mem_toList.mp hn, rootSelfClaim]
  · intro workspace claims hparsed h
    obtain ⟨claims, hrec, h⟩ := Result.bind_eq_ok.mp h
    cases h
    have hvalid : NamesValid workspace.memberDeps := fun d hd => hparsed.names d (List.mem_filter.mp hd).1
    rw [new_members_isSome_iff workspace.memberNames hvalid hparsed.overrides hrec
      (fun c hc => List.mem_append_right _ hc) ?_ ?_]
    · refine and_congr_right fun _ => ?_
      simp only [LoadedWorkspace.memberNames, List.forall_mem_map]
      exact forall₂_congr fun m _ => claimed_member_iff m.name
    · intro c hc
      refine (List.mem_append.mp hc).symm.imp_right fun hc => ?_
      obtain ⟨m, hm, rfl⟩ := List.mem_map.mp hc
      exact ⟨m.name, List.mem_map_of_mem hm, "member", rfl⟩
    · intro n hn
      obtain ⟨m, hm, rfl⟩ := List.mem_map.mp hn
      exact ⟨"member", List.mem_append_left _ (List.mem_map_of_mem hm)⟩

/-- A package that depends on `foo` from a repository. -/
def packageOnFoo (name : Str) : Manifest :=
  { Manifest.initial with name := some name, deps := [.url (urlDep "foo" "https://h/foo" "main" none)] }

theorem namesValid_packageOnFoo (name : Str) : NamesValid (rootDeps (packageOnFoo name)) := by
  intro d hd _
  simp only [rootDeps, packageOnFoo, Manifest.initial, List.append_nil, List.mem_singleton] at hd
  subst hd
  exact ⟨by decide, by simp [Dep.namespace?]⟩

theorem parsedRoot_packageOnFoo (name : Str) : ParsedRoot (packageOnFoo name) where
  names := namesValid_packageOnFoo name
  overrides := by simp [packageOnFoo, Manifest.initial]

/-- A package `app` that depends on `foo`, alone and as the one member of a workspace. -/
theorem bindingResolver_new_isSome_iff_app :
    RootApart (packageOnFoo "app") ⟨[]⟩ ∧ WorkspaceApart ⟨[⟨"app", packageOnFoo "app"⟩], [], []⟩ ⟨[]⟩ := by
  obtain ⟨hroot, hworkspace⟩ := bindingResolver_new_isSome_iff ⟨[]⟩
  have hfoo : singleRootClaims (packageOnFoo "app") ⟨[]⟩ =
      .ok [⟨"foo", .fetchable (.git "https://h/foo" (some "main") none), true, "root"⟩, rootSelfClaim "app"] := by
    decide
  have hmember : workspaceRootClaims ⟨[⟨"app", packageOnFoo "app"⟩], [], []⟩ ⟨[]⟩ =
      .ok [⟨"app", .member "app", true, "member"⟩,
        ⟨"foo", .fetchable (.git "https://h/foo" (some "main") none), true, "root"⟩] := by
    decide
  have hroots : ParsedWorkspace ⟨[⟨"app", packageOnFoo "app"⟩], [], []⟩ :=
    ⟨by simpa using namesValid_packageOnFoo "app", by simp, by simp [LoadedWorkspace.memberNames]⟩
  refine ⟨(hroot _ _ (parsedRoot_packageOnFoo _) hfoo).mp (by decide), ?_⟩
  exact (hworkspace _ _ hroots hmember).mp (by decide)

/-- A package named `foo` that depends on a repository under the name `foo` claims one key from two sources. -/
theorem bindingResolver_new_panics_on_own_name :
    ParsedRoot (packageOnFoo "foo") ∧
      ∃ claims, singleRootClaims (packageOnFoo "foo") ⟨[]⟩ = .ok claims ∧ BindingResolver.new claims = none :=
  ⟨parsedRoot_packageOnFoo _,
    [⟨"foo", .fetchable (.git "https://h/foo" (some "main") none), true, "root"⟩, rootSelfClaim "foo"],
    by decide, by decide⟩

end Milpa.Core

import Milpa.Core.RegistryLookup
import Milpa.Core.ResolveRun

/-!
# What the workers can do

One lemma for each function of the walk that says all that it does to the state when it
succeeds. The properties of runs are derived from these lemmas; no other proof unfolds a
worker.
-/

namespace Milpa.Core.Resolver

open Solver Result

variable {ctx : ResolveCtx} {σ σ' : ResolveState} {items : List Item}

/-! ### Admission -/

/-- An item is accepted by a resolver: its source is in order, and its name is bound to it. -/
def Bound (ctx : ResolveCtx) (r : BindingResolver) (item : Item) : Prop :=
  Accepted (item.rawSource ctx.index) ∧
    r.bindings (.fromSolverVar item.key.solverVar) = some (normalForm (item.rawSource ctx.index))

/-- The solver key of what an item is about: that of its normalized source. -/
def solverKeyOf (ctx : ResolveCtx) (item : Item) : Str := canonical (normalForm (item.rawSource ctx.index))

/-- What `gate_only` does: it submits the item's claim, and lets the item through if its name is bound to its source. -/
theorem gateOnly_cases {item : Item} {out : Option Item} (h : gateOnly ctx σ item = .ok (out, σ')) :
    ∃ decision binding, Accepted ((applyOverride ctx item).rawSource ctx.index) ∧
      σ.binding.submit (itemClaim (applyOverride ctx item) (normalForm ((applyOverride ctx item).rawSource ctx.index))) =
        some (.ok decision, binding) ∧
      σ' = ({ σ with binding } : ResolveState).recordDiscovery (canonical decision.accepted) ∧
      (out = none ∧ decision.outcome = .lostToRoot ∨ out = some (applyOverride ctx item) ∧ decision.outcome ≠ .lostToRoot) := by
  obtain ⟨-, -, h⟩ := bind_eq_ok.mp h
  obtain ⟨sid, hsid, h⟩ := bind_eq_ok.mp h
  obtain ⟨-, -, h⟩ := bind_eq_ok.mp h
  obtain ⟨haccepted, rfl⟩ := normalizeSourceRes_eq_ok.mp hsid
  split at h
  · exact absurd h throw_ne_ok
  · exact absurd h throw_ne_ok
  · rename_i decision binding hsubmit
    have h := pure_eq_ok.mp h
    simp only [Prod.mk.injEq] at h
    obtain ⟨hout, hstate⟩ := h
    refine ⟨decision, binding, haccepted, hsubmit, hstate, ?_⟩
    by_cases hlost : decision.outcome = .lostToRoot
    · exact Or.inl ⟨by rw [hout, if_pos hlost], hlost⟩
    · exact Or.inr ⟨by rw [hout, if_neg hlost], hlost⟩

/-- An item that is let through is bound. -/
theorem bound_of_gateOnly {item out : Item} (h : gateOnly ctx σ item = .ok (some out, σ')) :
    out = applyOverride ctx item ∧ Bound ctx σ'.binding out := by
  obtain ⟨decision, binding, haccepted, hsubmit, rfl, ⟨hout, -⟩ | ⟨hout, hlost⟩⟩ := gateOnly_cases h
  · cases hout
  · cases hout
    refine ⟨rfl, haccepted, ?_⟩
    have hbinding : ∀ key, (ResolveState.recordDiscovery { σ with binding } key).binding = binding := by
      intro key
      unfold ResolveState.recordDiscovery
      split_ifs <;> rfl
    rw [hbinding]
    obtain ⟨-, ⟨-, -, rfl⟩ | ⟨rfl, existing, hb, ⟨rfl, -⟩ | ⟨-, -, hres⟩ | ⟨-, -, hres⟩⟩⟩ := BindingResolver.submit_cases hsubmit
    · exact (BindingResolver.bindings_bind _ _ _ _).trans (if_pos rfl)
    · exact hb
    · cases hres
      exact absurd rfl hlost
    · cases hres

/-! ### Extraction -/

/-- What `extract_requires` does: it extracts an edge set, which it may seal. -/
theorem extractRequires_cases {tree : PackageTree} {name : Str} {version : Version} {depDecl : Option Str}
    {schema : Option ℤ} {flags : List Str} {ref : Option Str} {note : Option Version} {sid : SourceId} {ex : Extracted}
    (h : extractRequires ctx σ tree name version depDecl schema flags ref note sid = .ok (ex, σ')) :
    ∃ es cache ex₀, ∃ dv : Option (Version × VersionSource), σ' = { σ with edgeCache := cache } ∧ edgesetToExtracted ctx σ.binding es = .ok ex₀ ∧
      ex = { ex₀ with declaredVersion := dv.map Prod.fst, declaredVersionSource := dv.map Prod.snd } := by
  obtain ⟨⟨es, cache⟩, -, h⟩ := bind_eq_ok.mp h
  obtain ⟨ex₀, hex, h⟩ := bind_eq_ok.mp h
  have h := pure_eq_ok.mp h
  simp only [Prod.mk.injEq] at h
  exact ⟨es, cache, ex₀, _, h.2, hex, h.1⟩

/-! ### Fetching workers -/

theorem candidatesOf_insert (σ : ResolveState) (package : Str) (m : VersionMap Candidate) (p : Str) :
    ResolveState.candidatesOf { σ with candidates := σ.candidates.insert package m } p =
      if p = package then m else σ.candidatesOf p := by
  unfold ResolveState.candidatesOf
  rw [BTreeMap.get?_insert]
  split_ifs <;> rfl

theorem candidatesOf_storeCandidate (σ : ResolveState) (c : Candidate) (k : Str) :
    (σ.storeCandidate c).candidatesOf k = if k = c.name then (σ.candidatesOf c.name).insert c.version c else σ.candidatesOf k :=
  candidatesOf_insert σ c.name _ k

/-- The state after a fetch: the directory is filled, an edge set may be sealed, and there is a candidate. -/
def afterFetch (σ : ResolveState) (dir : Str) (tree : PackageTree) (cache : EdgeCache) (c : Candidate) : ResolveState :=
  ({ σ with depsDir := σ.depsDir.insert dir tree, edgeCache := cache } : ResolveState).storeCandidate c

theorem candidatesOf_afterFetch (σ : ResolveState) (dir : Str) (tree : PackageTree) (cache : EdgeCache) (c : Candidate) (k : Str) :
    (afterFetch σ dir tree cache c).candidatesOf k =
      if k = c.name then (σ.candidatesOf c.name).insert c.version c else σ.candidatesOf k :=
  candidatesOf_storeCandidate _ c k

/-- An extraction at the hands of a resolver. -/
def ExtractedWith (ctx : ResolveCtx) (r : BindingResolver) (ex : Extracted) : Prop :=
  ∃ es ex₀, ∃ dv : Option (Version × VersionSource), edgesetToExtracted ctx r es = .ok ex₀ ∧
    ex = { ex₀ with declaredVersion := dv.map Prod.fst, declaredVersionSource := dv.map Prod.snd }

/-- The record of a fetch from elsewhere than a local directory. -/
abbrev FetchRecord := { record : ProvenanceRecord // ∀ path origin, record ≠ .local path origin }

theorem visitUrl_cases {dep : UrlDep} {svar : SolverKey} (h : visitUrl ctx σ dep svar = .ok (σ', items)) :
    ∃ tree ex cache, ∃ provenance : FetchRecord, ∃ mirrors, ExtractedWith ctx σ.binding ex ∧
      σ' = seedFlagsOf tree dep.flagRequests
        (afterFetch σ dep.name tree cache (fetchedCandidate svar tree.contentHash ex provenance mirrors)) ∧
      items = ex.subItems := by
  obtain ⟨⟨tree, receipt, idx⟩, -, h⟩ := bind_eq_ok.mp h
  obtain ⟨-, -, h⟩ := bind_eq_ok.mp h
  obtain ⟨sid, -, h⟩ := bind_eq_ok.mp h
  obtain ⟨⟨ex, σ₁⟩, hex, h⟩ := bind_eq_ok.mp h
  have h := pure_eq_ok.mp h
  simp only [Prod.mk.injEq] at h
  obtain ⟨es, cache, ex₀, dv, rfl, hextract, hdv⟩ := extractRequires_cases hex
  exact ⟨tree, ex, cache, ⟨.git .., nofun⟩, _, ⟨es, ex₀, dv, hextract, hdv⟩, h.1, h.2⟩

theorem processUrl_cases {dep : UrlDep} (h : processUrl ctx σ dep = .ok (σ', items)) :
    ∃ svar, σ.binding.canonicalFor (.bare dep.name) = some svar ∧
      ((dep.git, dep.gitRef, dep.subpath) ∈ σ.seenUrl ∧ revisitUrl ctx σ dep svar = .ok (σ', items) ∨
        (dep.git, dep.gitRef, dep.subpath) ∉ σ.seenUrl ∧
          visitUrl ctx { σ with seenUrl := (dep.git, dep.gitRef, dep.subpath) :: σ.seenUrl } dep svar = .ok (σ', items)) := by
  obtain ⟨svar, hsvar, h⟩ := bind_eq_ok.mp h
  refine ⟨svar, canonicalForRes_eq_ok.mp hsvar, ?_⟩
  by_cases hseen : (dep.git, dep.gitRef, dep.subpath) ∈ σ.seenUrl
  · exact Or.inl ⟨hseen, by rwa [if_pos hseen] at h⟩
  · exact Or.inr ⟨hseen, by rwa [if_neg hseen] at h⟩

theorem processLocal_cases {dep : LocalDep} (h : processLocal ctx σ dep = .ok (σ', items)) :
    dep.path ∈ σ.seenLocal ∧ σ' = σ ∧ items = [] ∨
      dep.path ∉ σ.seenLocal ∧ ∃ svar tree ex cache, σ.binding.canonicalFor (.bare dep.name) = some svar ∧
        ExtractedWith ctx σ.binding ex ∧
        σ' = afterFetch { σ with seenLocal := dep.path :: σ.seenLocal } dep.name tree cache
          (fetchedCandidate svar [] ex (.local dep.path "observed") []) ∧
        items = ex.subItems := by
  unfold processLocal at h
  split_ifs at h with hseen
  · cases h
    exact Or.inl ⟨hseen, rfl, rfl⟩
  · obtain ⟨⟨tree, receipt⟩, -, h⟩ := bind_eq_ok.mp h
    obtain ⟨sid, -, h⟩ := bind_eq_ok.mp h
    obtain ⟨⟨ex, σ₁⟩, hex, h⟩ := bind_eq_ok.mp h
    obtain ⟨svar, hsvar, h⟩ := bind_eq_ok.mp h
    have h := pure_eq_ok.mp h
    simp only [Prod.mk.injEq] at h
    obtain ⟨es, cache, ex₀, dv, rfl, hextract, hdv⟩ := extractRequires_cases hex
    exact Or.inr ⟨hseen, svar, tree, ex, cache, canonicalForRes_eq_ok.mp hsvar, ⟨es, ex₀, dv, hextract, hdv⟩, h.1, h.2⟩

theorem processTarball_cases {dep : TarballDep} (h : processTarball ctx σ dep = .ok (σ', items)) :
    dep.url ∈ σ.seenTarball ∧ σ' = σ ∧ items = [] ∨
      dep.url ∉ σ.seenTarball ∧ ∃ svar tree ex cache, ∃ provenance : FetchRecord, σ.binding.canonicalFor (.bare dep.name) = some svar ∧
        ExtractedWith ctx σ.binding ex ∧
        σ' = afterFetch { σ with seenTarball := dep.url :: σ.seenTarball } dep.name tree cache
          (fetchedCandidate svar tree.contentHash ex provenance []) ∧
        items = ex.subItems := by
  unfold processTarball at h
  split_ifs at h with hseen
  · cases h
    exact Or.inl ⟨hseen, rfl, rfl⟩
  · obtain ⟨⟨tree, receipt, idx⟩, -, h⟩ := bind_eq_ok.mp h
    obtain ⟨sid, -, h⟩ := bind_eq_ok.mp h
    obtain ⟨⟨ex, σ₁⟩, hex, h⟩ := bind_eq_ok.mp h
    obtain ⟨svar, hsvar, h⟩ := bind_eq_ok.mp h
    have h := pure_eq_ok.mp h
    simp only [Prod.mk.injEq] at h
    obtain ⟨es, cache, ex₀, dv, rfl, hextract, hdv⟩ := extractRequires_cases hex
    exact Or.inr ⟨hseen, svar, tree, ex, cache, ⟨.tarball .., nofun⟩, canonicalForRes_eq_ok.mp hsvar,
      ⟨es, ex₀, dv, hextract, hdv⟩, h.1, h.2⟩

theorem processOci_cases {dep : OciDep} (h : processOci ctx σ dep = .ok (σ', items)) :
    ociKey dep ∈ σ.seenOci ∧ σ' = σ ∧ items = [] ∨
      ociKey dep ∉ σ.seenOci ∧ ∃ svar tree ex cache, σ.binding.canonicalFor (.bare dep.name) = some svar ∧
        ExtractedWith ctx σ.binding ex ∧
        σ' = afterFetch { σ with seenOci := ociKey dep :: σ.seenOci } dep.name tree cache
          (fetchedCandidate svar tree.contentHash ex (.oci dep.registry dep.repository dep.digest "observed") []) ∧
        items = ex.subItems := by
  obtain ⟨-, -, h⟩ := bind_eq_ok.mp h
  split_ifs at h with hseen
  · have h := pure_eq_ok.mp h
    simp only [Prod.mk.injEq] at h
    exact Or.inl ⟨hseen, h.1, h.2⟩
  · obtain ⟨⟨tree, receipt⟩, -, h⟩ := bind_eq_ok.mp h
    obtain ⟨sid, -, h⟩ := bind_eq_ok.mp h
    obtain ⟨⟨ex, σ₁⟩, hex, h⟩ := bind_eq_ok.mp h
    obtain ⟨svar, hsvar, h⟩ := bind_eq_ok.mp h
    have h := pure_eq_ok.mp h
    simp only [Prod.mk.injEq] at h
    obtain ⟨es, cache, ex₀, dv, rfl, hextract, hdv⟩ := extractRequires_cases hex
    exact Or.inr ⟨hseen, svar, tree, ex, cache, canonicalForRes_eq_ok.mp hsvar, ⟨es, ex₀, dv, hextract, hdv⟩, h.1, h.2⟩

/-! ### What more flags admit -/

/-- A candidate without its terms. -/
def withoutTerms (c : Candidate) : Candidate := { c with deps := [], requiresNames := [] }

/-- The candidates of a package, without their terms. -/
def shape (σ : ResolveState) (package : Str) : List (VersionKey × Version × Candidate) :=
  (σ.candidatesOf package).entries.map fun e => (e.1, e.2.1, withoutTerms e.2.2)

/-- The candidate of a version, without its terms. -/
def shapeOf (σ : ResolveState) (package : Str) (v : Version) : Option Candidate := ((σ.candidatesOf package).get? v).map withoutTerms

theorem shapeOf_eq (σ : ResolveState) (package : Str) (v : Version) :
    shapeOf σ package v = ((shape σ package).find? fun e => decide (e.1 = v.precedenceKey)).map fun e => e.2.2 := by
  unfold shapeOf shape VersionMap.get? VersionMap.entry BTreeMap.get?
  rw [List.find?_map, Option.map_map, Option.map_map, Option.map_map]
  rfl

theorem isSome_get?_iff (σ : ResolveState) (package : Str) (v : Version) :
    ((σ.candidatesOf package).get? v).isSome = (shapeOf σ package v).isSome := by rw [shapeOf, Option.isSome_map]

/-- The state after terms were added to candidates. -/
structure TermsAdded (σ σ' : ResolveState) : Prop where
  rest : σ' = { σ with candidates := σ'.candidates }
  shape : shape σ' = shape σ

theorem TermsAdded.refl (σ : ResolveState) : TermsAdded σ σ := ⟨rfl, rfl⟩

theorem TermsAdded.trans {σ₁ σ₂ σ₃ : ResolveState} (h : TermsAdded σ₁ σ₂) (h' : TermsAdded σ₂ σ₃) : TermsAdded σ₁ σ₃ := by
  refine ⟨?_, h'.shape.trans h.shape⟩
  have h₁ := h.rest
  have h₂ := h'.rest
  rw [h₁] at h₂
  exact h₂

theorem withoutTerms_extendTerms (c : Candidate) (k : SolverKey) (vs : VersionSet) :
    withoutTerms (ResolveState.extendTerms c k vs) = withoutTerms c := by
  unfold ResolveState.extendTerms
  split_ifs <;> rfl

theorem termsAdded_extendFirst (σ : ResolveState) (package : Str) (k : SolverKey) (vs : VersionSet) :
    TermsAdded σ (σ.extendFirst package k vs) := by
  unfold ResolveState.extendFirst
  split
  · exact .refl σ
  · rename_i key v c hhead
    refine ⟨rfl, funext fun p => ?_⟩
    unfold shape
    rw [candidatesOf_insert]
    split_ifs with hp
    · subst hp
      obtain ⟨l, hl⟩ : ∃ l, (σ.candidatesOf p).entries = (key, v, c) :: l := List.head?_eq_some_iff.mp hhead
      show (BTreeMap.insertEntry key _ (σ.candidatesOf p).entries).map _ = _
      rw [hl, BTreeMap.insertEntry, if_neg (lt_irrefl key), if_pos rfl, List.map_cons, List.map_cons,
        withoutTerms_extendTerms]
    · rfl

/-- What the loop over the newly admitted dependencies does: terms are added, and those not seen become items. -/
theorem admitNewly_cases {package : Str} {manifest : Manifest} {old new : List Str}
    (h : ctx.admitNewly package manifest old new σ = .ok (σ', items)) :
    TermsAdded σ σ' ∧ items = (newlyAdmitted manifest old new).flatMap fun d => (ctx.lateItem σ d).toList := by
  unfold ResolveCtx.admitNewly at h
  have step : ∀ (l : List Dep) (acc acc' : ResolveState × List Item), TermsAdded σ acc.1 →
      l.foldlM (ctx.admitLate package) acc = .ok acc' →
      TermsAdded σ acc'.1 ∧ acc'.2 = acc.2 ++ l.flatMap fun d => (ctx.lateItem σ d).toList := by
    intro l
    induction l with
    | nil =>
      intro acc acc' hacc hl
      cases hl
      exact ⟨hacc, by simp⟩
    | cons d l ih =>
      intro acc acc' hacc hl
      obtain ⟨acc₁, hd, hl⟩ := bind_eq_ok.mp hl
      obtain ⟨k, -, hd⟩ := bind_eq_ok.mp hd
      have hd := pure_eq_ok.mp hd
      subst hd
      obtain ⟨hadded, heq⟩ := ih _ _ (hacc.trans (termsAdded_extendFirst _ _ _ _)) hl
      have hlate : ctx.lateItem acc.1 d = ctx.lateItem σ d := by
        rw [hacc.rest]
        rfl
      refine ⟨hadded, ?_⟩
      rw [heq, hlate, List.flatMap_cons, List.append_assoc]
  obtain ⟨hadded, heq⟩ := step _ _ _ (.refl σ) h
  exact ⟨hadded, by simpa using heq⟩

theorem newlyAdmitted_self (manifest : Manifest) (flags : List Str) : newlyAdmitted manifest flags flags = [] :=
  List.filter_eq_nil_iff.mpr fun d _ => by simp

theorem flagsOf_uniteFlags (σ : ResolveState) (identity : Str) (active : ActiveFlags) (other : Str) :
    (σ.uniteFlags identity active).flagsOf other = if other = identity then (σ.flagsOf identity).union active else σ.flagsOf other := by
  unfold ResolveState.flagsOf ResolveState.uniteFlags
  rw [BTreeMap.get?_insert]
  split_ifs <;> rfl

/-- The flags that a later request for a package that is there makes active. -/
def requestedAgain (manifest : Manifest) (dep : UrlDep) : ActiveFlags :=
  computeDepActiveFlags manifest.flags (dep.flagRequests.filter FlagRequest.enabled)

/-- The dependencies that a later request for a package that is there admits. -/
def unitedDeps (σ : ResolveState) (dep : UrlDep) (svar : SolverKey) : List Dep :=
  match σ.manifestIn dep.name with
  | none => []
  | some manifest =>
    let old := σ.flagsOf (σ.identityOf svar.identity)
    if (dep.flagRequests.filter FlagRequest.enabled).isEmpty || (σ.identityOf svar.identity).isEmpty then []
    else newlyAdmitted manifest old.keys (old.union (requestedAgain manifest dep)).keys

theorem unitedDeps_eq {dep : UrlDep} {svar : SolverKey} {manifest : Manifest} (hmanifest : σ.manifestIn dep.name = some manifest)
    (hpos : dep.flagRequests.filter FlagRequest.enabled ≠ []) (hidentity : σ.identityOf svar.identity ≠ []) :
    unitedDeps σ dep svar =
      newlyAdmitted manifest (σ.flagsOf (σ.identityOf svar.identity)).keys
        ((σ.flagsOf (σ.identityOf svar.identity)).union (requestedAgain manifest dep)).keys := by
  unfold unitedDeps
  rw [hmanifest]
  dsimp only
  rw [if_neg (by simpa [hidentity] using hpos)]

/-- What `process_url` does for a place that was seen before: nothing, or it unites the flags, and may admit what they add. -/
theorem revisitUrl_steps {dep : UrlDep} {svar : SolverKey} (h : revisitUrl ctx σ dep svar = .ok (σ', items)) :
    σ' = σ ∧ items = [] ∨
      ∃ manifest, σ.manifestIn dep.name = some manifest ∧ σ.identityOf svar.identity ≠ [] ∧
        dep.flagRequests.filter FlagRequest.enabled ≠ [] ∧
        (σ' = σ.uniteFlags (σ.identityOf svar.identity) (requestedAgain manifest dep) ∧ items = [] ∨
          ctx.admitNewly svar.identity manifest (σ.flagsOf (σ.identityOf svar.identity)).keys
            ((σ.flagsOf (σ.identityOf svar.identity)).union (requestedAgain manifest dep)).keys
            (σ.uniteFlags (σ.identityOf svar.identity) (requestedAgain manifest dep)) = .ok (σ', items)) := by
  unfold revisitUrl at h
  dsimp only at h
  split_ifs at h with hpos
  · cases h
    exact Or.inl ⟨rfl, rfl⟩
  · cases hmanifest : σ.manifestIn dep.name with
    | none =>
      simp only [hmanifest, Except.ok.injEq, Prod.mk.injEq] at h
      exact Or.inl ⟨h.1.symm, h.2.symm⟩
    | some manifest =>
      simp only [hmanifest] at h
      split_ifs at h with hnone hsame
      · cases h
        exact Or.inl ⟨rfl, rfl⟩
      · cases h
        have hidentity : σ.identityOf svar.identity ≠ [] := fun hempty => by simp [hempty] at hnone
        exact Or.inr ⟨manifest, rfl, hidentity, by simpa using hpos, Or.inl ⟨rfl, rfl⟩⟩
      · have hidentity : σ.identityOf svar.identity ≠ [] := fun hempty => by simp [hempty] at hnone
        rw [flagsOf_uniteFlags, if_pos rfl] at h
        exact Or.inr ⟨manifest, rfl, hidentity, by simpa using hpos, Or.inr h⟩

/-- What `process_url` does for a place that was seen before, to the candidates and the queue. -/
theorem revisitUrl_cases {dep : UrlDep} {svar : SolverKey} (h : revisitUrl ctx σ dep svar = .ok (σ', items)) :
    (σ' = σ ∨ ∃ manifest, σ.manifestIn dep.name = some manifest ∧ σ.identityOf svar.identity ≠ [] ∧
        dep.flagRequests.filter FlagRequest.enabled ≠ [] ∧
        TermsAdded (σ.uniteFlags (σ.identityOf svar.identity) (requestedAgain manifest dep)) σ') ∧
      (items = [] ∨ items = (unitedDeps σ dep svar).flatMap fun d => (ctx.lateItem σ d).toList) := by
  obtain ⟨rfl, rfl⟩ | ⟨manifest, hmanifest, hidentity, hpos, ⟨rfl, rfl⟩ | hadmit⟩ := revisitUrl_steps h
  · exact ⟨Or.inl rfl, Or.inl rfl⟩
  · exact ⟨Or.inr ⟨manifest, hmanifest, hidentity, hpos, .refl _⟩, Or.inl rfl⟩
  · obtain ⟨hadded, hitems⟩ := admitNewly_cases hadmit
    refine ⟨Or.inr ⟨manifest, hmanifest, hidentity, hpos, hadded⟩, Or.inr ?_⟩
    rw [hitems, unitedDeps_eq hmanifest hpos hidentity]
    rfl

/-! ### The fixpoint -/

/-- The state after terms were added to candidates and flags to identities. -/
structure Enriched (σ σ' : ResolveState) : Prop where
  rest : σ' = { σ with candidates := σ'.candidates, depActiveFlags := σ'.depActiveFlags }
  shape : shape σ' = shape σ

theorem Enriched.refl (σ : ResolveState) : Enriched σ σ := ⟨rfl, rfl⟩

theorem Enriched.trans {σ₁ σ₂ σ₃ : ResolveState} (h : Enriched σ₁ σ₂) (h' : Enriched σ₂ σ₃) : Enriched σ₁ σ₃ := by
  refine ⟨?_, h'.shape.trans h.shape⟩
  have h₁ := h.rest
  have h₂ := h'.rest
  rw [h₁] at h₂
  exact h₂

theorem Enriched.lateItem (h : Enriched σ σ') (d : Dep) : ctx.lateItem σ' d = ctx.lateItem σ d := by
  rw [h.rest]
  rfl

/-- Flags that are united, and terms that are added after that. -/
theorem TermsAdded.enriched {identity : Str} {active : ActiveFlags} (h : TermsAdded (σ.uniteFlags identity active) σ') :
    Enriched σ σ' := by
  refine ⟨?_, h.shape⟩
  have hrest := h.rest
  rw [hrest]
  rfl

/-- The dependencies that the loop body of a round admits for a target. -/
def roundDeps (σ : ResolveState) (acc : Round) (target : Str × List FlagRequest) : List Dep :=
  match depManifest σ target.1 with
  | none => []
  | some manifest =>
    let identity := acc.state.identityOf target.1
    let old := (acc.state.flagsOf identity).keys
    let added := (computeDepActiveFlags manifest.flags target.2).keys.filter fun f => decide (f ∉ old)
    if identity.isEmpty then [] else newlyAdmitted manifest old (old ++ added)

theorem roundTarget_cases {acc acc' : Round} {target : Str × List FlagRequest} (h : roundTarget ctx σ acc target = .ok acc') :
    Enriched acc.state acc'.state ∧
      acc'.items = acc.items ++ ((roundDeps σ acc target).flatMap fun d => (ctx.lateItem acc.state d).toList).map fun item =>
        (lateOrigin σ target.1, item) := by
  unfold roundTarget at h
  unfold roundDeps
  cases hmanifest : depManifest σ target.1 with
  | none =>
    simp only [hmanifest, Except.ok.injEq] at h
    subst h
    exact ⟨.refl _, by simp⟩
  | some manifest =>
    simp only [hmanifest] at h ⊢
    split_ifs at h with hnone hbound
    · obtain rfl := Except.ok.inj h
      refine ⟨.refl _, ?_⟩
      rcases (Bool.or_eq_true _ _).mp hnone with hempty | hadded
      · rw [if_pos hempty]
        simp
      · rw [List.isEmpty_iff.mp hadded, List.append_nil, newlyAdmitted_self]
        simp
    · obtain ⟨⟨σ₁, items⟩, hadmit, h⟩ := bind_eq_ok.mp h
      obtain rfl := pure_eq_ok.mp h
      obtain ⟨hadded, hitems⟩ := admitNewly_cases hadmit
      refine ⟨hadded.enriched, ?_⟩
      rw [hitems, if_neg (by simp_all)]
      rfl

/-- An item that a round of the fixpoint finds: it is that of a dependency that the loop body admits for some target. -/
def FoundInRound (ctx : ResolveCtx) (σ : ResolveState) (activations : ℕ) (requests : BTreeMap Str (List FlagRequest))
    (q : Queued) : Prop :=
  ∃ done target rest acc, requests.entries = done ++ target :: rest ∧
    done.foldlM (roundTarget ctx σ) ⟨σ, [], false, activations⟩ = .ok acc ∧ q.1 = lateOrigin σ target.1 ∧
    ∃ d ∈ roundDeps σ acc target, ctx.lateItem σ d = some q.2

theorem fixpointRound_cases {activations : ℕ} {r : Round} (h : fixpointRound ctx σ activations = .ok r) :
    ∃ requests, additionalRequests ctx σ = .ok requests ∧ Enriched σ r.state ∧
      ∀ q ∈ r.items, FoundInRound ctx σ activations requests q := by
  obtain ⟨requests, hrequests, h⟩ := bind_eq_ok.mp h
  refine ⟨requests, hrequests, ?_⟩
  have step : ∀ (rest done : List (Str × List FlagRequest)) (acc : Round), requests.entries = done ++ rest →
      done.foldlM (roundTarget ctx σ) ⟨σ, [], false, activations⟩ = .ok acc → Enriched σ acc.state →
      (∀ q ∈ acc.items, FoundInRound ctx σ activations requests q) → rest.foldlM (roundTarget ctx σ) acc = .ok r →
      Enriched σ r.state ∧ ∀ q ∈ r.items, FoundInRound ctx σ activations requests q := by
    intro rest
    induction rest with
    | nil =>
      intro done acc _ _ hstate hitems hl
      cases hl
      exact ⟨hstate, hitems⟩
    | cons target rest ih =>
      intro done acc hentries hdone hstate hitems hl
      obtain ⟨acc', htarget, hl⟩ := bind_eq_ok.mp hl
      obtain ⟨henriched, hfound⟩ := roundTarget_cases htarget
      refine ih (done ++ [target]) acc' (by simpa using hentries) ?_ (hstate.trans henriched) (fun q hq => ?_) hl
      · rw [foldlM_append_ok hdone, List.foldlM_cons, htarget]
        rfl
      · rw [hfound] at hq
        rcases List.mem_append.mp hq with hq | hq
        · exact hitems q hq
        · obtain ⟨item, hitem, rfl⟩ := List.mem_map.mp hq
          obtain ⟨d, hd, hlate⟩ := List.mem_flatMap.mp hitem
          rw [hstate.lateItem] at hlate
          exact ⟨done, target, rest, acc, hentries, hdone, rfl, d, hd, Option.mem_toList.mp hlate⟩
  exact step requests.entries [] _ rfl rfl (.refl σ) (by simp) h

/-! ### Named items -/

/-- An entry can be used: it can be read, it is not yanked, it says where it is, and it is not newer than the bound. -/
def offered (ctx : ResolveCtx) (e : IndexVersion) : Bool :=
  satisfies .full e && ctx.excludeNewer.all fun ts => e.publishedAt.any fun pa => decide (pa ≤ ts)

/-- The entries of a package that can be used. -/
def offeredBy (ctx : ResolveCtx) (pkg : Package) : List IndexVersion := pkg.versions.filter (offered ctx)

theorem isSome_of_mem_offeredBy {pkg : Package} {e : IndexVersion} (h : e ∈ offeredBy ctx pkg) :
    (parseVersion e.version).isSome = true := by
  have hoffered := (List.mem_filter.mp h).2
  simp only [offered, satisfies, Bool.and_eq_true] at hoffered
  obtain ⟨v, hv, -⟩ := (Option.any_eq_true _ _).mp hoffered.1
  rw [hv]
  rfl

theorem indexedVersions_eq_ok {index : Index} {name : Str} {ns : Option Str} {versions : List IndexVersion}
    (h : indexedVersions index name ns = .ok versions) :
    versions ≠ [] ∧ ∃ pkg, packageNamed index name ns = some pkg ∧ versions = pkg.versions.filter (satisfies .full) := by
  cases ns with
  | some ns =>
    simp only [indexedVersions, Index.resolveNamedAllQualified] at h
    split at h
    · cases h
    · rename_i pkg hpkg
      obtain ⟨hne, hall⟩ := resolveIn_eq_ok h
      exact ⟨hne, pkg, hpkg, hall⟩
  | none =>
    simp only [indexedVersions, Index.resolveNamedAll] at h
    split at h
    · cases h
    · cases h
    · rename_i pkg hpkg
      obtain ⟨hne, hall⟩ := resolveIn_eq_ok h
      exact ⟨hne, pkg, by simp only [packageNamed, hpkg], hall⟩

/-- What is enumerated: the entries of the package that can be used, of which there are some. -/
theorem enumerateNamed_eq_ok {name : Str} {ns : Option Str} {versions : List IndexVersion}
    (h : enumerateNamed ctx name ns = .ok versions) :
    versions ≠ [] ∧ ∃ pkg, packageNamed ctx.index name ns = some pkg ∧ versions = offeredBy ctx pkg := by
  unfold enumerateNamed at h
  split at h
  · cases h
  · rename_i found hfound
    obtain ⟨hne, pkg, hpkg, rfl⟩ := indexedVersions_eq_ok hfound
    unfold filterByExcludeNewer at h
    cases hnewer : ctx.excludeNewer with
    | none =>
      simp only [hnewer, Except.ok.injEq] at h
      subst h
      exact ⟨hne, pkg, hpkg, List.filter_congr fun e _ => by simp [offered, hnewer]⟩
    | some ts =>
      simp only [hnewer] at h
      split_ifs at h with hnone
      obtain rfl := Except.ok.inj h
      refine ⟨fun hempty => hnone ⟨?_, hempty⟩, pkg, hpkg, ?_⟩
      · rw [hempty]
        simpa [List.length_pos_iff] using hne
      · rw [offeredBy, List.filter_filter]
        exact List.filter_congr fun e _ => by simp [offered, hnewer, Bool.and_comm]

/-- The enumerated entries with their versions. -/
def parsedEntries (versions : List IndexVersion) : List (Version × IndexVersion) :=
  versions.filterMap fun e => (parseVersion e.version).map fun v => (v, e)

/-- What the table has under a precedence: the key that came first, and the entry that came last. -/
theorem get?_byVer (versions : List IndexVersion) (key : VersionKey) :
    BTreeMap.get? (byVer versions) key =
      ((parsedEntries versions).reverse.find? fun e => decide (e.1.precedenceKey = key)).map fun last =>
        ((((parsedEntries versions).find? fun e => decide (e.1.precedenceKey = key)).map Prod.fst).getD last.1, last.2) := by
  show BTreeMap.get? (VersionMap.extend BTreeMap.empty (parsedEntries versions)) key = _
  rw [VersionMap.get?_extend]
  simp

theorem mem_parsedEntries {versions : List IndexVersion} {v : Version} {e : IndexVersion} :
    (v, e) ∈ parsedEntries versions ↔ e ∈ versions ∧ parseVersion e.version = some v := by
  simp only [parsedEntries, List.mem_filterMap, Option.map_eq_some_iff, Prod.mk.injEq]
  constructor
  · rintro ⟨e', he', v', hv', rfl, rfl⟩
    exact ⟨he', hv'⟩
  · rintro ⟨he, hv⟩
    exact ⟨e, he, v, hv, rfl, rfl⟩

/-- Each enumerated entry with a version is found in the table, up to precedence. -/
theorem entry_byVer_isSome {versions : List IndexVersion} {e : IndexVersion} {v : Version} (he : e ∈ versions)
    (hv : parseVersion e.version = some v) : ((byVer versions).entry v).isSome = true := by
  rw [VersionMap.entry, get?_byVer, Option.isSome_map, List.find?_isSome]
  exact ⟨(v, e), List.mem_reverse.mpr (mem_parsedEntries.mpr ⟨he, hv⟩), by simp⟩

/-- Where there is an entry with a version, the table has it. -/
theorem entries_byVer_ne_nil {versions : List IndexVersion} (hne : versions ≠ [])
    (hall : ∀ e ∈ versions, (parseVersion e.version).isSome = true) : (byVer versions).entries ≠ [] := by
  obtain ⟨e, l, rfl⟩ := List.exists_cons_of_ne_nil hne
  obtain ⟨v, hv⟩ := Option.isSome_iff_exists.mp (hall e List.mem_cons_self)
  obtain ⟨found, hfound⟩ := Option.isSome_iff_exists.mp (entry_byVer_isSome List.mem_cons_self hv)
  exact List.ne_nil_of_mem (BTreeMap.mem_entries.mpr hfound)

theorem stubsOf_insert (σ : ResolveState) (name : Str) (m : VersionMap IndexVersion) (package : Str) :
    ResolveState.stubsOf { σ with stubs := σ.stubs.insert name m } package = if package = name then m else σ.stubsOf package := by
  unfold ResolveState.stubsOf
  rw [BTreeMap.get?_insert]
  split_ifs <;> rfl

/-- The state after the entries of a name were enumerated. -/
def afterEnumerate (σ : ResolveState) (key : DepKey) (package : Str) (versions : List IndexVersion) : ResolveState :=
  { σ with
    seenNamed := key :: σ.seenNamed
    stubs := σ.stubs.insert package ((σ.stubsOf package).extend (byVer versions).toList) }

theorem stubsOf_afterEnumerate (σ : ResolveState) (key : DepKey) (package : Str) (versions : List IndexVersion) (p : Str) :
    (afterEnumerate σ key package versions).stubsOf p =
      if p = package then (σ.stubsOf package).extend (byVer versions).toList else σ.stubsOf p :=
  stubsOf_insert σ package _ p

theorem processNamed_cases {name : Str} {ns : Option Str} (h : processNamed ctx σ name ns = .ok (σ', items)) :
    items = [] ∧
      (name = "nim".toList ∧ σ' = { σ with seenNamed := ⟨name, ns⟩ :: σ.seenNamed } ∨
        (name ∈ ctx.memberNames ∨ ⟨name, ns⟩ ∈ σ.seenNamed) ∧ name ≠ "nim".toList ∧ σ' = σ ∨
        (name ≠ "nim".toList ∧ name ∉ ctx.memberNames ∧ ⟨name, ns⟩ ∉ σ.seenNamed) ∧ ∃ versions stubKey,
          enumerateNamed ctx name ns = .ok versions ∧ σ.binding.canonicalFor ⟨name, ns⟩ = some stubKey ∧
          σ' = afterEnumerate σ ⟨name, ns⟩ stubKey.identity versions) := by
  unfold processNamed at h
  dsimp only at h
  split_ifs at h with hnim hmember hseen
  · cases h
    exact ⟨rfl, Or.inl ⟨hnim, rfl⟩⟩
  · cases h
    exact ⟨rfl, Or.inr (Or.inl ⟨Or.inl hmember, hnim, rfl⟩)⟩
  · cases h
    exact ⟨rfl, Or.inr (Or.inl ⟨Or.inr hseen, hnim, rfl⟩)⟩
  · obtain ⟨versions, hversions, h⟩ := bind_eq_ok.mp h
    obtain ⟨hne, pkg, -, rfl⟩ := enumerateNamed_eq_ok hversions
    rw [if_neg (by simpa using entries_byVer_ne_nil hne fun e => isSome_of_mem_offeredBy)] at h
    obtain ⟨stubKey, hstub, h⟩ := bind_eq_ok.mp h
    have h := pure_eq_ok.mp h
    simp only [Prod.mk.injEq] at h
    exact ⟨h.2, Or.inr (Or.inr ⟨⟨hnim, hmember, hseen⟩, _, stubKey, hversions, canonicalForRes_eq_ok.mp hstub, h.1⟩)⟩

/-! ### Materialization -/

/-- A fetch that is held to an identity gives a tree with it. -/
theorem contentHash_of_fetchAnyTracked {name expected : Str} {total idx : ℕ} {last : Option (Str × Str)} {provs : List Transport}
    {tree : PackageTree} {receipt : Receipt} {n : ℕ}
    (h : fetchAnyTracked ctx name (some expected) total idx last provs = .ok (tree, receipt, n)) :
    tree.contentHash = expected := by
  induction provs generalizing idx last with
  | nil => cases h
  | cons prov provs ih =>
    rw [fetchAnyTracked] at h
    split at h
    · exact ih h
    · dsimp only at h
      split_ifs at h with hsame
      cases h
      exact hsame.symm

/-- Nothing is fetched from nowhere. -/
theorem provenances_ne_nil_of_materializeNamed {name : Str} {version : Version} {entry : IndexVersion}
    (h : materializeNamed ctx σ name version entry = .ok (σ', items)) : entry.provenances ≠ [] := by
  obtain ⟨-, -, h⟩ := bind_eq_ok.mp h
  obtain ⟨_, hfetch, -⟩ := bind_eq_ok.mp h
  intro hnil
  rw [hnil] at hfetch
  cases hfetch

/-- The flags that a stub's package is requested with. -/
def requestsFor (σ : ResolveState) (package : Str) : List FlagRequest := (σ.flagRequestsByName.get? package).getD []

/-- The state after a stub has become a candidate. -/
def afterMaterialize (σ : ResolveState) (name : Str) (version : Version) (entry : IndexVersion) (tree : PackageTree)
    (ex : Extracted) (cache : EdgeCache) : ResolveState :=
  { afterFetch σ (σ.dirOf name) tree cache (materializedCandidate name version entry tree ex) with
    stubs := σ.stubs.insert name ((σ.stubsOf name).erase version) }

theorem candidatesOf_afterMaterialize (σ : ResolveState) (name : Str) (version : Version) (entry : IndexVersion)
    (tree : PackageTree) (ex : Extracted) (cache : EdgeCache) (package : Str) :
    (afterMaterialize σ name version entry tree ex cache).candidatesOf package =
      if package = name then (σ.candidatesOf name).insert version (materializedCandidate name version entry tree ex)
      else σ.candidatesOf package :=
  candidatesOf_storeCandidate _ (materializedCandidate name version entry tree ex) package

theorem stubsOf_afterMaterialize (σ : ResolveState) (name : Str) (version : Version) (entry : IndexVersion)
    (tree : PackageTree) (ex : Extracted) (cache : EdgeCache) (package : Str) :
    (afterMaterialize σ name version entry tree ex cache).stubsOf package =
      if package = name then (σ.stubsOf name).erase version else σ.stubsOf package :=
  stubsOf_insert σ name _ package

theorem materializeNamed_cases {name : Str} {version : Version} {entry : IndexVersion}
    (h : materializeNamed ctx σ name version entry = .ok (σ', items)) :
    ∃ tree ex cache, tree.contentHash = entry.contentHash ∧ entry.contentHash ≠ [] ∧ ExtractedWith ctx σ.binding ex ∧
      σ' = seedFlagsOf tree (requestsFor σ name)
        (afterMaterialize σ name version entry tree ex cache) ∧
      items = ex.subItems := by
  obtain ⟨_, hidentity, h⟩ := bind_eq_ok.mp h
  obtain ⟨⟨tree, receipt, idx⟩, hfetch, h⟩ := bind_eq_ok.mp h
  obtain ⟨sid, -, h⟩ := bind_eq_ok.mp h
  obtain ⟨⟨ex, σ₁⟩, hex, h⟩ := bind_eq_ok.mp h
  obtain ⟨-, -, h⟩ := bind_eq_ok.mp h
  have h := pure_eq_ok.mp h
  simp only [Prod.mk.injEq] at h
  obtain ⟨es, cache, ex₀, dv, rfl, hextract, hdv⟩ := extractRequires_cases hex
  have hidentity := rejectIf_eq_ok.mp hidentity
  exact ⟨tree, ex, cache, contentHash_of_fetchAnyTracked hfetch, by simpa using hidentity, ⟨es, ex₀, dv, hextract, hdv⟩,
    h.1, h.2⟩

/-- What a query does: nothing, or it materializes a stub for which there is no candidate. -/
theorem query_cases {package : Str} {version : Version} (h : query ctx σ package version = .ok (σ', items)) :
    σ' = σ ∧ items = [] ∨
      (σ.candidatesOf package).get? version = none ∧ ∃ entry, (σ.stubsOf package).get? version = some entry ∧
        materializeNamed ctx σ package version entry = .ok (σ', items) := by
  unfold query at h
  split at h
  · cases h
    exact Or.inl ⟨rfl, rfl⟩
  · rename_i hnone
    split at h
    · rename_i entry hentry
      exact Or.inr ⟨hnone, entry, hentry, h⟩
    · cases h
      exact Or.inl ⟨rfl, rfl⟩

end Milpa.Core.Resolver

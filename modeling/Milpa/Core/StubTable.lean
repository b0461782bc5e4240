import Milpa.Core.SourceIdInjective
import Milpa.Core.Walk

/-!
# The table of stubs

A named dependency is enumerated into a table from versions to index entries, and the
solver materializes entries of the table. The table is a map keyed by versions, which are
told apart by precedence alone: of two entries that differ in the build string, the table
has the version of the first one with the entry of the second one. So it says what the
index says where no two entries differ only there (`BuildApart`, `stubs_exact_iff`).
-/

namespace Milpa.Core.Resolver

open Solver Result

variable {ctx : ResolveCtx} {σ σ' : ResolveState} {items : List Item} {c c' : Config}

/-- No two entries have versions that differ in the build string alone. -/
def BuildApart (versions : List IndexVersion) : Prop :=
  ∀ e₁ ∈ versions, ∀ e₂ ∈ versions, ∀ v₁ v₂, parseVersion e₁.version = some v₁ → parseVersion e₂.version = some v₂ →
    v₁.precedenceKey = v₂.precedenceKey → v₁ = v₂

/-- A candidate was made of an entry. -/
structure MadeOf (c : Candidate) (e : IndexVersion) : Prop where
  identity : c.identity = e.contentHash
  provenance : c.provenance = e.provenances.head?.map fun p => transportToRecord p.transport
  depDecl : c.depDecl = none ∨ c.depDecl = e.depDecl
  attestation : c.attestation = e.attestation
  «namespace» : c.registryNamespace = e.namespace

/-- The stubs and the candidates of a package are what its entries in the index say. -/
structure TableExact (σ : ResolveState) (package : Str) (versions : List IndexVersion) : Prop where
  /-- A stub is an entry under its version. -/
  stubs : ∀ v e, (v, e) ∈ (σ.stubsOf package).toList → e ∈ versions ∧ parseVersion e.version = some v
  /-- Each version has a stub, or a candidate already. -/
  kept : ∀ e ∈ versions, ∀ v, parseVersion e.version = some v →
    v ∈ (σ.stubsOf package).versions ∨ ((σ.candidatesOf package).get? v).isSome = true
  /-- The candidate of a version was made of an entry with this version. -/
  made : ∀ e ∈ versions, ∀ v, parseVersion e.version = some v → ∀ c, (σ.candidatesOf package).get? v = some c →
    ∃ e' ∈ versions, parseVersion e'.version = some v ∧ MadeOf c e'

/-! ### Packages by solver key -/

/-- The package behind a solver key: that of a named item with this key. -/
def Listed (ctx : ResolveCtx) (key : Str) (pkg : Package) : Prop :=
  ∃ name vs ns, Accepted ((Item.named name vs ns).rawSource ctx.index) ∧ solverKeyOf ctx (.named name vs ns) = key ∧
    packageNamed ctx.index name ns = some pkg

/-- **A solver key stands for one package.** -/
theorem Listed.unique {key : Str} {pkg pkg' : Package} (h : Listed ctx key pkg) (h' : Listed ctx key pkg') : pkg = pkg' := by
  obtain ⟨name, vs, ns, haccepted, hkey, hpkg⟩ := h
  obtain ⟨name', vs', ns', haccepted', hkey', hpkg'⟩ := h'
  have hsource := canonical_registry_eq haccepted haccepted' (hkey.trans hkey'.symm)
  exact packageNamed_congr hsource hpkg hpkg'

/-- The solver key of a package that comes from the index. -/
def RegistryKey (key : Str) : Prop := key.head? = some 'p'

theorem registryKey_solverKeyOf {item : Item} : RegistryKey (solverKeyOf ctx item) ↔ ∃ name vs ns, item = .named name vs ns := by
  unfold RegistryKey solverKeyOf
  rw [head_canonical, kindChar_normalForm]
  cases item with
  | named name vs ns => exact ⟨fun _ => ⟨name, vs, ns, rfl⟩, fun _ => rfl⟩
  | url dep => simp [Item.rawSource, kindChar]
  | «local» dep => simp [Item.rawSource, kindChar]
  | tarball dep => simp [Item.rawSource, kindChar]
  | oci dep => simp [Item.rawSource, kindChar]

/-- The table of a package. -/
def tableOf (ctx : ResolveCtx) (pkg : Package) : VersionMap IndexVersion := byVer (offeredBy ctx pkg)

/-- What the table has under a precedence: the version of one entry, and another one, both of this precedence. -/
theorem of_get?_tableOf {pkg : Package} {key : VersionKey} {v : Version} {e : IndexVersion}
    (h : BTreeMap.get? (tableOf ctx pkg) key = some (v, e)) :
    v.precedenceKey = key ∧ e ∈ offeredBy ctx pkg ∧ (∃ first ∈ offeredBy ctx pkg, parseVersion first.version = some v) ∧
      ∃ v', parseVersion e.version = some v' ∧ v'.precedenceKey = key := by
  rw [tableOf, get?_byVer] at h
  obtain ⟨⟨v', e'⟩, hlast, h⟩ := Option.map_eq_some_iff.mp h
  have hlastkey : v'.precedenceKey = key := by simpa using List.find?_some hlast
  obtain ⟨he', hv'⟩ := mem_parsedEntries.mp (List.mem_reverse.mp (List.mem_of_find?_eq_some hlast))
  obtain ⟨⟨w, first⟩, hfirst⟩ : ∃ x, ((parsedEntries (offeredBy ctx pkg)).find? fun e => decide (e.1.precedenceKey = key)) = some x :=
    Option.isSome_iff_exists.mp (List.find?_isSome.mpr ⟨(v', e'), mem_parsedEntries.mpr ⟨he', hv'⟩, by simp [hlastkey]⟩)
  rw [hfirst] at h
  simp only [Option.map_some, Option.getD_some, Prod.mk.injEq] at h
  obtain ⟨rfl, rfl⟩ := h
  obtain ⟨hmem, hparse⟩ := mem_parsedEntries.mp (List.mem_of_find?_eq_some hfirst)
  exact ⟨by simpa using List.find?_some hfirst, he', ⟨first, hmem, hparse⟩, v', hv', hlastkey⟩

theorem wellKeyed_tableOf (pkg : Package) : (tableOf ctx pkg).WellKeyed := fun _ _ _ h => (of_get?_tableOf h).1

/-! ### What the tables hold -/

theorem madeOf_withoutTerms {cand : Candidate} {e : IndexVersion} : MadeOf (withoutTerms cand) e ↔ MadeOf cand e :=
  ⟨fun h => ⟨h.identity, h.provenance, h.depDecl, h.attestation, h.namespace⟩,
    fun h => ⟨h.identity, h.provenance, h.depDecl, h.attestation, h.namespace⟩⟩

/-- What the tables of the packages of the index hold comes from the index. -/
structure FromIndex (ctx : ResolveCtx) (σ : ResolveState) : Prop where
  stubs : ∀ key k x, BTreeMap.get? (σ.stubsOf key) k = some x → ∃ pkg, Listed ctx key pkg ∧ BTreeMap.get? (tableOf ctx pkg) k = some x
  candidates : ∀ key v cand, RegistryKey key → shapeOf σ key v = some cand →
    ∃ pkg e, Listed ctx key pkg ∧ (tableOf ctx pkg).get? v = some e ∧ MadeOf cand e

/-- The packages of the index have the stubs and the candidates they had. -/
structure TablesKept (σ σ' : ResolveState) : Prop where
  stubs : ∀ key, σ'.stubsOf key = σ.stubsOf key
  shape : ∀ key, RegistryKey key → shape σ' key = shape σ key

theorem TablesKept.shapeOf (h : TablesKept σ σ') {key : Str} (hkey : RegistryKey key) (v : Version) :
    shapeOf σ' key v = shapeOf σ key v := by rw [shapeOf_eq, h.shape key hkey, ← shapeOf_eq]

theorem TablesKept.fromIndex (h : TablesKept σ σ') (hfrom : FromIndex ctx σ) : FromIndex ctx σ' := by
  refine ⟨fun key k x hx => ?_, fun key v cand hkey hcand => ?_⟩
  · rw [h.stubs] at hx
    exact hfrom.stubs key k x hx
  · rw [h.shapeOf hkey] at hcand
    exact hfrom.candidates key v cand hkey hcand

theorem tablesKept_of_eq (hcandidates : σ'.candidates = σ.candidates) (hstubs : σ'.stubs = σ.stubs) : TablesKept σ σ' := by
  refine ⟨fun key => ?_, fun key _ => ?_⟩
  · unfold ResolveState.stubsOf
    rw [hstubs]
  · unfold Resolver.shape ResolveState.candidatesOf
    rw [hcandidates]

theorem TablesKept.trans {σ₁ σ₂ σ₃ : ResolveState} (h : TablesKept σ₁ σ₂) (h' : TablesKept σ₂ σ₃) : TablesKept σ₁ σ₃ :=
  ⟨fun key => (h'.stubs key).trans (h.stubs key), fun key hkey => (h'.shape key hkey).trans (h.shape key hkey)⟩

theorem Enriched.tablesKept (h : Enriched σ σ') : TablesKept σ σ' := by
  refine ⟨fun key => ?_, fun key _ => congrFun h.shape key⟩
  rw [h.rest]
  rfl

/-- A candidate of a package that does not come from the index. -/
theorem tablesKept_afterFetch {τ : ResolveState} {dir : Str} {tree : PackageTree} {cache : EdgeCache} {cand : Candidate}
    (hcandidates : τ.candidates = σ.candidates) (hstubs : τ.stubs = σ.stubs) (hname : ¬ RegistryKey cand.name) :
    TablesKept σ (afterFetch τ dir tree cache cand) := by
  refine (tablesKept_of_eq hcandidates hstubs).trans ⟨fun key => rfl, fun key hkey => ?_⟩
  unfold shape
  rw [candidatesOf_afterFetch, if_neg]
  rintro rfl
  exact hname hkey

theorem tablesKept_seedFlagsOf (tree : PackageTree) (requests : List FlagRequest) (σ : ResolveState) :
    TablesKept σ (seedFlagsOf tree requests σ) := by
  unfold seedFlagsOf ResolveState.recordFlags
  split
  · split_ifs <;> exact tablesKept_of_eq rfl rfl
  · exact tablesKept_of_eq rfl rfl

/-- Each version of the table has a stub, or a candidate already. -/
def Covers (ctx : ResolveCtx) (σ : ResolveState) (key : Str) (pkg : Package) : Prop :=
  ∀ v, ((tableOf ctx pkg).get? v).isSome = true → ((σ.stubsOf key).get? v).isSome = true ∨ (shapeOf σ key v).isSome = true

/-- What a step must do to the tables: what they hold comes from the index, and none of it is lost. -/
structure TableStep (ctx : ResolveCtx) (σ σ' : ResolveState) : Prop where
  fromIndex : FromIndex ctx σ → FromIndex ctx σ'
  covers : FromIndex ctx σ → ∀ key pkg, Listed ctx key pkg → Covers ctx σ key pkg → Covers ctx σ' key pkg

theorem Listed.registryKey {key : Str} {pkg : Package} (h : Listed ctx key pkg) : RegistryKey key := by
  obtain ⟨name, vs, ns, -, rfl, -⟩ := h
  exact registryKey_solverKeyOf.mpr ⟨name, vs, ns, rfl⟩

theorem TablesKept.tableStep (h : TablesKept σ σ') : TableStep ctx σ σ' := by
  refine ⟨h.fromIndex, fun _ key pkg hlisted hcovers v hv => ?_⟩
  rw [h.stubs, h.shapeOf hlisted.registryKey]
  exact hcovers v hv

theorem TableStep.trans {σ₁ σ₂ σ₃ : ResolveState} (h : TableStep ctx σ₁ σ₂) (h' : TableStep ctx σ₂ σ₃) : TableStep ctx σ₁ σ₃ :=
  ⟨fun hfrom => h'.fromIndex (h.fromIndex hfrom),
    fun hfrom key pkg hlisted hcovers => h'.covers (h.fromIndex hfrom) key pkg hlisted (h.covers hfrom key pkg hlisted hcovers)⟩

/-! ### Steps -/

/-- The stubs of a package after an enumeration are its table. -/
theorem stubsOf_afterEnumerate_listed (hfrom : FromIndex ctx σ) {key : DepKey} {package : Str} {pkg : Package}
    (hlisted : Listed ctx package pkg) (p : Str) :
    (afterEnumerate σ key package (offeredBy ctx pkg)).stubsOf p = if p = package then tableOf ctx pkg else σ.stubsOf p := by
  rw [stubsOf_afterEnumerate]
  refine congrArg (fun table => if p = package then table else σ.stubsOf p) ?_
  refine VersionMap.extend_toList (wellKeyed_tableOf pkg) fun k x hx => ?_
  obtain ⟨pkg', hlisted', hx'⟩ := hfrom.stubs package k x hx
  rwa [hlisted.unique hlisted']

theorem tableStep_afterEnumerate {key : DepKey} {package : Str} {pkg : Package} (hlisted : Listed ctx package pkg) :
    TableStep ctx σ (afterEnumerate σ key package (offeredBy ctx pkg)) := by
  refine ⟨fun hfrom => ⟨fun p k x hx => ?_, hfrom.candidates⟩, fun hfrom p pkg' hlisted' hcovers v hv => ?_⟩
  · rw [stubsOf_afterEnumerate_listed hfrom hlisted] at hx
    split_ifs at hx with hp
    · exact ⟨pkg, hp ▸ hlisted, hx⟩
    · exact hfrom.stubs p k x hx
  · rw [stubsOf_afterEnumerate_listed hfrom hlisted]
    split_ifs with hp
    · subst hp
      rw [hlisted.unique hlisted']
      exact Or.inl hv
    · exact hcovers v hv

/-- After an enumeration the table is covered. -/
theorem covers_afterEnumerate (hfrom : FromIndex ctx σ) {key : DepKey} {package : Str} {pkg : Package}
    (hlisted : Listed ctx package pkg) : Covers ctx (afterEnumerate σ key package (offeredBy ctx pkg)) package pkg := by
  intro v hv
  rw [stubsOf_afterEnumerate_listed hfrom hlisted, if_pos rfl]
  exact Or.inl hv

theorem shapeOf_afterMaterialize {name : Str} {version : Version} {entry : IndexVersion} {tree : PackageTree} {ex : Extracted}
    {cache : EdgeCache} (p : Str) (v : Version) :
    shapeOf (afterMaterialize σ name version entry tree ex cache) p v =
      if p = name ∧ v.precedenceKey = version.precedenceKey then
        some (withoutTerms (materializedCandidate name version entry tree ex))
      else shapeOf σ p v := by
  unfold shapeOf
  rw [candidatesOf_afterMaterialize]
  by_cases hp : p = name
  · subst hp
    rw [if_pos rfl, VersionMap.get?_insert]
    by_cases hv : v.precedenceKey = version.precedenceKey
    · rw [if_pos hv, if_pos ⟨rfl, hv⟩]
      rfl
    · rw [if_neg hv, if_neg fun h => hv h.2]
  · rw [if_neg hp, if_neg fun h => hp h.1]

theorem madeOf_materializedCandidate {name : Str} {version : Version} {entry : IndexVersion} {tree : PackageTree} {ex : Extracted}
    (h : tree.contentHash = entry.contentHash) : MadeOf (materializedCandidate name version entry tree ex) entry := by
  refine ⟨h, rfl, ?_, rfl, rfl⟩
  unfold materializedCandidate
  dsimp only
  split_ifs
  · exact Or.inr rfl
  · exact Or.inl rfl

/-- A stub that becomes a candidate. -/
theorem tableStep_query {package : Str} {version : Version} (h : query ctx σ package version = .ok (σ', items)) :
    TableStep ctx σ σ' := by
  obtain ⟨rfl, -⟩ | ⟨-, entry, hentry, h⟩ := query_cases h
  · exact (tablesKept_of_eq rfl rfl).tableStep
  · obtain ⟨tree, ex, cache, hhash, -, -, rfl, -⟩ := materializeNamed_cases h
    refine TableStep.trans ?_ (tablesKept_seedFlagsOf _ _ _).tableStep
    have herase : ∀ p v, v.precedenceKey ≠ version.precedenceKey ∨ p ≠ package →
        ((afterMaterialize σ package version entry tree ex cache).stubsOf p).get? v = (σ.stubsOf p).get? v := by
      intro p v hv
      rw [stubsOf_afterMaterialize]
      split_ifs with hp
      · rw [VersionMap.get?, VersionMap.entry_erase, if_neg (hv.resolve_right fun hne => hne hp), hp, ← VersionMap.get?]
      · rfl
    refine ⟨fun hfrom => ⟨fun p k x hx => ?_, fun p v cand hkey hcand => ?_⟩, fun _ p pkg hlisted hcovers v hv => ?_⟩
    · rw [stubsOf_afterMaterialize] at hx
      split_ifs at hx with hp
      · rw [VersionMap.erase, BTreeMap.get?_erase] at hx
        split_ifs at hx
        exact hp ▸ hfrom.stubs package k x hx
      · exact hfrom.stubs p k x hx
    · rw [shapeOf_afterMaterialize] at hcand
      split_ifs at hcand with hnew
      · obtain ⟨rfl, hv⟩ := hnew
        cases hcand
        obtain ⟨x, hx, rfl⟩ := Option.map_eq_some_iff.mp hentry
        obtain ⟨pkg, hlisted, htable⟩ := hfrom.stubs p _ x hx
        refine ⟨pkg, x.2, hlisted, ?_, madeOf_withoutTerms.mpr (madeOf_materializedCandidate hhash)⟩
        rw [VersionMap.get?, VersionMap.entry, hv, htable]
        rfl
      · exact hfrom.candidates p v cand hkey hcand
    · rw [shapeOf_afterMaterialize]
      by_cases hnew : p = package ∧ v.precedenceKey = version.precedenceKey
      · rw [if_pos hnew]
        exact Or.inr rfl
      · rw [if_neg hnew, herase p v (by tauto)]
        exact hcovers v hv

/-- Of the workers, only that of named items has to do with the tables. -/
theorem tableStep_dispatch {item : Item} (hr : σ.binding.Tidy) (hb : Bound ctx σ.binding item)
    (h : dispatch ctx σ item = .ok (σ', items)) : TableStep ctx σ σ' := by
  have hsame : ∀ {τ : ResolveState}, τ.candidates = σ.candidates → τ.stubs = σ.stubs → TableStep ctx σ τ :=
    fun hcandidates hstubs => (tablesKept_of_eq hcandidates hstubs).tableStep
  have hfetch : ∀ {τ : ResolveState} {dir : Str} {tree : PackageTree} {cache : EdgeCache} {svar : SolverKey} {identity : Str}
      {ex : Extracted} {provenance : ProvenanceRecord} {mirrors : List Str}, (∀ name vs ns, item ≠ .named name vs ns) →
      τ.candidates = σ.candidates → τ.stubs = σ.stubs → σ.binding.canonicalFor item.key = some svar →
      TablesKept σ (afterFetch τ dir tree cache (fetchedCandidate svar identity ex provenance mirrors)) := by
    intro τ dir tree cache svar identity ex provenance mirrors hitem hcandidates hstubs hsvar
    refine tablesKept_afterFetch hcandidates hstubs fun hkey => ?_
    change RegistryKey svar.identity at hkey
    rw [solverKeyOf_eq hr hb hsvar, registryKey_solverKeyOf] at hkey
    obtain ⟨name, vs, ns, heq⟩ := hkey
    exact hitem name vs ns heq
  cases item with
  | url dep =>
    obtain ⟨svar, hsvar, ⟨-, h⟩ | ⟨-, h⟩⟩ := processUrl_cases h
    · obtain ⟨rfl | ⟨manifest, -, -, -, hadded⟩, -⟩ := revisitUrl_cases h
      · exact hsame rfl rfl
      · exact hadded.enriched.tablesKept.tableStep
    · obtain ⟨tree, ex, cache, provenance, mirrors, -, rfl, -⟩ := visitUrl_cases h
      apply TablesKept.tableStep
      refine TablesKept.trans ?_ (tablesKept_seedFlagsOf _ _ _)
      exact hfetch (by simp) rfl rfl hsvar
  | «local» dep =>
    obtain ⟨-, rfl, -⟩ | ⟨-, svar, tree, ex, cache, hsvar, -, rfl, -⟩ := processLocal_cases h
    · exact hsame rfl rfl
    · apply TablesKept.tableStep
      exact hfetch (by simp) rfl rfl hsvar
  | tarball dep =>
    obtain ⟨-, rfl, -⟩ | ⟨-, svar, tree, ex, cache, provenance, hsvar, -, rfl, -⟩ := processTarball_cases h
    · exact hsame rfl rfl
    · apply TablesKept.tableStep
      exact hfetch (by simp) rfl rfl hsvar
  | named name constraint ns =>
    obtain ⟨-, ⟨-, rfl⟩ | ⟨-, -, rfl⟩ | ⟨-, versions, stubKey, hversions, hstub, rfl⟩⟩ := processNamed_cases h
    · exact hsame rfl rfl
    · exact hsame rfl rfl
    · obtain ⟨-, pkg, hpkg, rfl⟩ := enumerateNamed_eq_ok hversions
      exact tableStep_afterEnumerate ⟨name, constraint, ns, hb.1, (solverKeyOf_eq hr hb hstub).symm, hpkg⟩
  | oci dep =>
    obtain ⟨-, rfl, -⟩ | ⟨-, svar, tree, ex, cache, hsvar, -, rfl, -⟩ := processOci_cases h
    · exact hsame rfl rfl
    · apply TablesKept.tableStep
      exact hfetch (by simp) rfl rfl hsvar

/-- After a named item was dispatched for the first time, its table is covered. -/
theorem covers_dispatch {name : Str} {vs : VersionSet} {ns : Option Str} (hr : σ.binding.Tidy)
    (hb : Bound ctx σ.binding (.named name vs ns)) (hfrom : FromIndex ctx σ) (hnim : name ≠ "nim".toList)
    (hmember : name ∉ ctx.memberNames) (hseen : ¬ Seen σ (.named ⟨name, ns⟩))
    (h : dispatch ctx σ (.named name vs ns) = .ok (σ', items)) :
    ∃ pkg, Listed ctx (solverKeyOf ctx (.named name vs ns)) pkg ∧ packageNamed ctx.index name ns = some pkg ∧
      Covers ctx σ' (solverKeyOf ctx (.named name vs ns)) pkg := by
  obtain ⟨-, ⟨heq, -⟩ | ⟨hmem | hmem, -, -⟩ | ⟨-, versions, stubKey, hversions, hstub, rfl⟩⟩ := processNamed_cases h
  · exact absurd heq hnim
  · exact absurd hmem hmember
  · exact absurd hmem hseen
  · obtain ⟨-, pkg, hpkg, rfl⟩ := enumerateNamed_eq_ok hversions
    have hkey : stubKey.identity = solverKeyOf ctx (.named name vs ns) := solverKeyOf_eq hr hb hstub
    have hlisted : Listed ctx (solverKeyOf ctx (.named name vs ns)) pkg := ⟨name, vs, ns, hb.1, rfl, hpkg⟩
    refine ⟨pkg, hlisted, hpkg, ?_⟩
    rw [hkey]
    exact covers_afterEnumerate hfrom hlisted

/-- The tables of the packages that were dispatched are covered. -/
structure Tabled (ctx : ResolveCtx) (c : Config) : Prop where
  books : Books ctx c
  remembered : Remembered c
  fromIndex : FromIndex ctx c.state
  covers : ∀ origin name vs ns, (origin, Item.named name vs ns) ∈ c.dispatched → name ≠ "nim".toList → name ∉ ctx.memberNames →
    ∃ pkg, Listed ctx (solverKeyOf ctx (.named name vs ns)) pkg ∧ packageNamed ctx.index name ns = some pkg ∧
      Covers ctx c.state (solverKeyOf ctx (.named name vs ns)) pkg

theorem tablesKept_gateOnly {item : Item} {out : Option Item} (h : gateOnly ctx σ item = .ok (out, σ')) : TablesKept σ σ' := by
  obtain ⟨decision, binding, -, -, rfl, -⟩ := gateOnly_cases h
  unfold ResolveState.recordDiscovery
  split_ifs <;> exact tablesKept_of_eq rfl rfl

/-- What a step does to the tables. -/
theorem tableStep_step (hbooks : Books ctx c) (hstep : Step ctx c c') : TableStep ctx c.state c'.state := by
  cases hstep with
  | gate htasks hgate => exact (tablesKept_gateOnly hgate).tableStep
  | suppress htasks hgate => exact (tablesKept_gateOnly hgate).tableStep
  | admitted htasks => exact (tablesKept_of_eq rfl rfl).tableStep
  | @dispatch q rest σ items htasks hwork =>
    have hbound : Bound ctx c.state.binding q.2 :=
      hbooks.bound q ((hbooks.admitted q).mpr (Or.inl (by simp [Config.waiting, htasks, Task.waiting])))
    exact tableStep_dispatch hbooks.tidy hbound hwork
  | startFixpoint htasks hphase => exact (tablesKept_of_eq rfl rfl).tableStep
  | round htasks hphase hiters hround hchange =>
    obtain ⟨requests, -, henriched, -⟩ := fixpointRound_cases hround
    exact henriched.tablesKept.tableStep
  | startSolve htasks hphase hiters hround hchange hconflicts => exact (tablesKept_of_eq rfl rfl).tableStep
  | query htasks hphase hquery => exact tableStep_query hquery

/-- **Every step keeps the tables covered.** -/
theorem Tabled.step (h : Tabled ctx c) (hstep : Step ctx c c') : Tabled ctx c' := by
  have htable := tableStep_step h.books hstep
  refine ⟨h.books.step hstep, h.remembered.step hstep, htable.fromIndex h.fromIndex, fun origin name vs ns hq hnim hmember => ?_⟩
  have hold : (origin, Item.named name vs ns) ∈ c.dispatched → ∃ pkg, Listed ctx (solverKeyOf ctx (.named name vs ns)) pkg ∧
      packageNamed ctx.index name ns = some pkg ∧ Covers ctx c'.state (solverKeyOf ctx (.named name vs ns)) pkg := by
    intro hq
    obtain ⟨pkg, hlisted, hpkg, hcovers⟩ := h.covers origin name vs ns hq hnim hmember
    exact ⟨pkg, hlisted, hpkg, htable.covers h.fromIndex _ pkg hlisted hcovers⟩
  cases hstep with
  | gate htasks hgate => exact hold hq
  | suppress htasks hgate => exact hold hq
  | admitted htasks => exact hold hq
  | @dispatch q₁ rest σ items htasks hwork =>
    rcases List.mem_append.mp hq with hq | hq
    · exact hold hq
    · obtain rfl := List.mem_singleton.mp hq
      have hbound : Bound ctx c.state.binding (.named name vs ns) :=
        h.books.bound (origin, .named name vs ns)
          ((h.books.admitted _).mpr (Or.inl (by simp [Config.waiting, htasks, Task.waiting])))
      by_cases hseen : Seen c.state (.named ⟨name, ns⟩)
      · -- the item that left the mark has the same name and the same package
        obtain ⟨⟨origin₀, item₀⟩, hq₀, hmark⟩ := h.remembered _ hseen
        cases item₀ with
        | named name₀ vs₀ ns₀ =>
          simp only [mark, Mark.named.injEq, DepKey.mk.injEq] at hmark
          obtain ⟨rfl, rfl⟩ := hmark
          obtain ⟨pkg, hlisted, hpkg, hcovers⟩ := h.covers origin₀ _ vs₀ _ hq₀ hnim hmember
          exact ⟨pkg, hlisted, hpkg, htable.covers h.fromIndex _ pkg hlisted hcovers⟩
        | url dep => cases hmark
        | «local» dep => cases hmark
        | tarball dep => cases hmark
        | oci dep => cases hmark
      · exact covers_dispatch h.books.tidy hbound h.fromIndex hnim hmember hseen hwork
  | startFixpoint htasks hphase => exact hold hq
  | round htasks hphase hiters hround hchange => exact hold hq
  | startSolve htasks hphase hiters hround hchange hconflicts => exact hold hq
  | query htasks hphase hquery => exact hold hq

/-- At the start there are no stubs, and no candidates of packages of the index. -/
theorem tabled_start {r : BindingResolver} {queue : List Queued} (hr : r.Tidy) (h : Untouched r σ) : Tabled ctx (.start σ queue) := by
  refine ⟨books_start (by rw [h.binding]; exact hr), remembered_start h, ⟨fun key k x hx => ?_, fun key v cand hkey hcand => ?_⟩, by
    simp [Config.start]⟩
  · simp [Config.start, ResolveState.stubsOf, h.stubs] at hx
  · obtain ⟨found, hfound, -⟩ := Option.map_eq_some_iff.mp hcand
    obtain ⟨x, hx, -⟩ := Option.map_eq_some_iff.mp hfound
    rcases h.candidates key (List.ne_nil_of_mem (BTreeMap.mem_entries.mpr hx)) with rfl | ⟨name, rfl⟩
    · exact absurd hkey (show ¬ root.head? = some 'p' by decide)
    · rw [RegistryKey, head_canonical] at hkey
      simp [kindChar] at hkey

/-! ### The claim -/

/-- A table that is covered is exact where no two entries differ in the build string alone. -/
theorem tableExact_of_buildApart {key : Str} {pkg : Package} (hfrom : FromIndex ctx σ) (hlisted : Listed ctx key pkg)
    (hcovers : Covers ctx σ key pkg) (hapart : BuildApart (offeredBy ctx pkg)) : TableExact σ key (offeredBy ctx pkg) := by
  have hstub : ∀ k v e, BTreeMap.get? (σ.stubsOf key) k = some (v, e) →
      v.precedenceKey = k ∧ e ∈ offeredBy ctx pkg ∧ parseVersion e.version = some v := by
    intro k v e hx
    obtain ⟨pkg', hlisted', htable⟩ := hfrom.stubs key k _ hx
    rw [hlisted'.unique hlisted] at htable
    obtain ⟨hv, he, ⟨first, hfirst, hparse⟩, v', hv', hkey⟩ := of_get?_tableOf htable
    exact ⟨hv, he, by rw [hapart first hfirst e he v v' hparse hv' (hv.trans hkey.symm), hv']⟩
  constructor
  · intro v e hmem
    obtain ⟨⟨k, x⟩, hx, rfl⟩ := List.mem_map.mp hmem
    exact (hstub k v e (BTreeMap.mem_entries.mp hx)).2
  · intro e he v hv
    rw [isSome_get?_iff]
    refine (hcovers v ?_).imp_left fun hsome => ?_
    · rw [VersionMap.get?, Option.isSome_map]
      exact entry_byVer_isSome he hv
    · rw [VersionMap.get?, Option.isSome_map, Option.isSome_iff_exists] at hsome
      obtain ⟨⟨v', e'⟩, hx⟩ := hsome
      obtain ⟨hkey, he', hv'⟩ := hstub _ v' e' hx
      rw [← hapart e' he' e he v' v hv' hv hkey]
      exact List.mem_map.mpr ⟨(v', e'), List.mem_map.mpr ⟨_, BTreeMap.mem_entries.mpr hx, rfl⟩, rfl⟩
  · intro e he v hv cand hcand
    have hshape : shapeOf σ key v = some (withoutTerms cand) := by rw [shapeOf, hcand]; rfl
    obtain ⟨pkg', e', hlisted', htable, hmade⟩ := hfrom.candidates key v _ hlisted.registryKey hshape
    rw [hlisted'.unique hlisted] at htable
    obtain ⟨⟨v', e''⟩, hx, rfl⟩ := Option.map_eq_some_iff.mp htable
    obtain ⟨-, he', -, w, hw, hkey⟩ := of_get?_tableOf hx
    refine ⟨e'', he', ?_, madeOf_withoutTerms.mp hmade⟩
    rw [hw, hapart e'' he' e he w v hw hv hkey]

/-- Where nothing has become a candidate yet, only entries that do not differ in the build string alone are all kept. -/
theorem buildApart_of_tableExact {key : Str} {pkg : Package} (hfrom : FromIndex ctx σ) (hnone : (σ.candidatesOf key).entries = [])
    (h : TableExact σ key (offeredBy ctx pkg)) : BuildApart (offeredBy ctx pkg) := by
  intro e₁ he₁ e₂ he₂ v₁ v₂ hv₁ hv₂ hkey
  have hfound : ∀ e ∈ offeredBy ctx pkg, ∀ v, parseVersion e.version = some v →
      ∃ x, BTreeMap.get? (σ.stubsOf key) v.precedenceKey = some (v, x) := by
    intro e he v hv
    rcases h.kept e he v hv with hmem | hsome
    · obtain ⟨⟨v', x⟩, hx, rfl⟩ := List.mem_map.mp hmem
      obtain ⟨⟨k, y⟩, hy, rfl⟩ := List.mem_map.mp hx
      have hget := BTreeMap.mem_entries.mp hy
      obtain ⟨pkg', -, htable⟩ := hfrom.stubs key k _ hget
      rw [← (of_get?_tableOf htable).1] at hget
      exact ⟨x, hget⟩
    · simp [VersionMap.get?, VersionMap.entry, BTreeMap.get?, hnone] at hsome
  obtain ⟨x₁, h₁⟩ := hfound e₁ he₁ v₁ hv₁
  obtain ⟨x₂, h₂⟩ := hfound e₂ he₂ v₂ hv₂
  rw [hkey, h₂, Option.some.injEq, Prod.mk.injEq] at h₁
  exact h₁.1.symm

/-- A name that is enumerated when it is dispatched: not that of the compiler, nor that of a member. -/
def Enumerated (ctx : ResolveCtx) (name : Str) : Prop := name ≠ "nim".toList ∧ name ∉ ctx.memberNames

/-- The check that no two entries differ in the build string alone. -/
def buildApart (versions : List IndexVersion) : Bool :=
  versions.all fun e₁ => versions.all fun e₂ =>
    match parseVersion e₁.version, parseVersion e₂.version with
    | some v₁, some v₂ => decide (v₁.precedenceKey = v₂.precedenceKey → v₁ = v₂)
    | _, _ => true

theorem buildApart_of_check {versions : List IndexVersion} (h : buildApart versions = true) : BuildApart versions := by
  intro e₁ he₁ e₂ he₂ v₁ v₂ hv₁ hv₂
  have hpair := List.all_eq_true.mp (List.all_eq_true.mp h e₁ he₁) e₂ he₂
  rw [hv₁, hv₂] at hpair
  exact of_decide_eq_true hpair

/-- An entry that says where it is, and nothing else. -/
def entryOf (version contentHash : Str) : IndexVersion :=
  ⟨version, contentHash, [.git "https://h/lib" "main" none], none, none, none, [], none, false, none, none, none⟩

/-- A root that depends on a package of the index. -/
def libUser : Manifest := { Manifest.initial with name := some "app", deps := [.named ⟨"lib", none, none, [], false, [], none⟩] }

/-- An index with one package. -/
def libWorld (versions : List IndexVersion) : ResolveCtx := { ResolveCtx.offline with index := ⟨[⟨"lib", [], versions⟩]⟩ }

/-- **In every run, the table of a named dependency is exact if no two entries of its package differ in the build string
alone; before any of it is materialized, only then.** -/
theorem stubs_exact_iff (hreach : Reachable ctx c) {origin : ItemOrigin} {name : Str} {vs : VersionSet} {ns : Option Str}
    (hq : (origin, Item.named name vs ns) ∈ c.dispatched) (hname : Enumerated ctx name) :
    ∃ pkg, packageNamed ctx.index name ns = some pkg ∧
      (BuildApart (offeredBy ctx pkg) →
        TableExact c.state (solverKeyOf ctx (.named name vs ns)) (offeredBy ctx pkg)) ∧
      ((c.state.candidatesOf (solverKeyOf ctx (.named name vs ns))).entries = [] →
        TableExact c.state (solverKeyOf ctx (.named name vs ns)) (offeredBy ctx pkg) → BuildApart (offeredBy ctx pkg)) := by
  obtain ⟨c₀, hstart, hrun⟩ := hreach
  obtain ⟨r, σ, queue, hr, rfl, huntouched, -⟩ := starts_cases hstart
  have htabled : Tabled ctx c := hrun.invariant (tabled_start hr huntouched) fun _ _ h hstep => h.step hstep
  obtain ⟨pkg, hlisted, hpkg, hcovers⟩ := htabled.covers origin name vs ns hq hname.1 hname.2
  exact ⟨pkg, hpkg, tableExact_of_buildApart htabled.fromIndex hlisted hcovers, buildApart_of_tableExact htabled.fromIndex⟩

/-- Two versions of a package, of which neither is materialized. -/
theorem stubs_exact_iff_releases :
    ∃ ctx c origin vs pkg, Reachable ctx c ∧ (origin, Item.named "lib" vs none) ∈ c.dispatched ∧
      packageNamed ctx.index "lib" none = some pkg ∧ (offeredBy ctx pkg).length = 2 ∧
      TableExact c.state (solverKeyOf ctx (.named "lib" vs none)) (offeredBy ctx pkg) := by
  let env := libWorld [entryOf "1.1.0" "sha256:b", entryOf "1.0.0" "sha256:a"]
  have hcomes : comesTo (fun _ => true) env libUser 3 (fun c =>
      decide ((.root, Item.named "lib" .full none) ∈ c.dispatched)) = true := by
    decide
  obtain ⟨c₀, c, hstart, hrun, hq⟩ := run_of_comesTo hcomes
  have hq := of_decide_eq_true hq
  have hname : Enumerated (packageCtx env libUser (treeOf [] libUser)) "lib" := by
    constructor <;> decide
  obtain ⟨pkg, hpkg, hexact, -⟩ := stubs_exact_iff ⟨c₀, hstart, hrun⟩ hq hname
  obtain rfl : pkg = ⟨"lib", [], [entryOf "1.1.0" "sha256:b", entryOf "1.0.0" "sha256:a"]⟩ :=
    Option.some.inj (hpkg.symm.trans (by decide))
  refine ⟨_, c, _, _, _, ⟨c₀, hstart, hrun⟩, hq, hpkg, by decide, hexact ?_⟩
  exact buildApart_of_check (by decide)

/-- Of two builds of a version, the table has the version of the one with the entry of the other. -/
theorem stub_of_other_build :
    ¬ ∀ ctx c, Reachable ctx c → ∀ origin name vs ns, (origin, Item.named name vs ns) ∈ c.dispatched → Enumerated ctx name →
      ∀ pkg, packageNamed ctx.index name ns = some pkg →
        TableExact c.state (solverKeyOf ctx (.named name vs ns)) (offeredBy ctx pkg) := by
  intro h
  let env := libWorld [entryOf "1.0.0+a" "sha256:a", entryOf "1.0.0+b" "sha256:b"]
  let ctx := packageCtx env libUser (treeOf [] libUser)
  have hcomes : comesTo (fun _ => true) env libUser 3 (fun c =>
      decide ((.root, Item.named "lib" .full none) ∈ c.dispatched) &&
        (c.state.stubsOf (solverKeyOf ctx (.named "lib" .full none))).toList.any fun x =>
          decide (parseVersion x.2.version ≠ some x.1)) = true := by
    decide
  obtain ⟨c₀, c, hstart, hrun, hfound⟩ := run_of_comesTo hcomes
  obtain ⟨hq, hfound⟩ := (Bool.and_eq_true _ _).mp hfound
  obtain ⟨⟨v, e⟩, hmem, hbad⟩ := List.any_eq_true.mp hfound
  have hname : Enumerated ctx "lib" := by
    constructor <;> decide
  have hpkg : packageNamed ctx.index "lib" none = some ⟨"lib", [], [entryOf "1.0.0+a" "sha256:a", entryOf "1.0.0+b" "sha256:b"]⟩ := by
    decide
  have hexact := h ctx c ⟨c₀, hstart, hrun⟩ _ _ _ _ (of_decide_eq_true hq) hname _ hpkg
  exact of_decide_eq_true hbad (hexact.stubs v e hmem).2

end Milpa.Core.Resolver

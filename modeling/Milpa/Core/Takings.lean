import Milpa.Core.CandidateTerms

/-!
# What is taken from packages

Each package that is fetched gives a worker one edge set, and a candidate is made of it. A
step tells of it only by the state that it leaves, so the edge sets are computed beside the
run, with the function the worker has them from (`takingOf`, `queryTaking`), and kept in
a record (`Audit`) that no step looks at.
-/

namespace Milpa.Core.Resolver

open Solver Result

variable {ctx : ResolveCtx} {σ σ' τ : ResolveState} {items : List Item} {item : Item} {c c' : Config} {package : Str} {version : Version}

/-- An edge set that was taken from a package, for a candidate. -/
structure Taking where
  package : Str
  version : Version
  /-- The source and the version under which the edge set is looked for in the cache. -/
  sourceId : SourceId
  cacheVersion : Version
  ectx : EdgeSourceCtx
  edges : EdgeSet

instance (σ : ResolveState) : (m : Mark) → Decidable (Seen σ m)
  | .url git gitRef subpath => inferInstanceAs (Decidable ((git, gitRef, subpath) ∈ σ.seenUrl))
  | .named key => inferInstanceAs (Decidable (key ∈ σ.seenNamed))
  | .local path => inferInstanceAs (Decidable (path ∈ σ.seenLocal))
  | .tarball url => inferInstanceAs (Decidable (url ∈ σ.seenTarball))
  | .oci key => inferInstanceAs (Decidable (key ∈ σ.seenOci))

/-- What `extract_requires` is given for an item that is fetched. -/
def fetchCtx (tree : PackageTree) (item : Item) : EdgeSourceCtx :=
  let (activeFlags, ref, version) : List Str × Option Str × Option Version :=
    match item with
    | .url d => ((d.flagRequests.filter FlagRequest.enabled).map FlagRequest.name, some d.gitRef, d.version)
    | .named .. => ([], none, none)
    | .local d => ([], none, d.version)
    | .tarball d => ([], none, d.version)
    | .oci d => ([], none, d.version)
  { tree, depName := item.key.name, depDecl := none, isOverridden := false, hasMilpaKdl := tree.milpaKdl.isSome,
    depDeclSchemaVersion := none, activeFlags, ref, version }

/-- What it is given for an entry of the index. -/
def entryCtx (σ : ResolveState) (package : Str) (entry : IndexVersion) (tree : PackageTree) : EdgeSourceCtx where
  tree := tree
  depName := (σ.depkeyForSolvedName package).name
  depDecl := entry.depDecl
  isOverridden := false
  hasMilpaKdl := tree.milpaKdl.isSome
  depDeclSchemaVersion := entry.depDeclSchemaVersion
  activeFlags := ((requestsFor σ package).filter FlagRequest.enabled).map FlagRequest.name
  ref := none
  version := none

/-- The edge set that is taken with it. -/
def takingWith (ctx : ResolveCtx) (σ : ResolveState) (package : Str) (version : Version) (name : Str) (cacheVersion : Version)
    (ectx : EdgeSourceCtx) : Option Taking := do
  let sourceId ← (σ.sourceIdForEdgeCache name).toOption
  let (edges, _) ← (requiredEdges ctx σ.edgeCache cacheVersion ectx sourceId).toOption
  return ⟨package, version, sourceId, cacheVersion, ectx, edges⟩

/-- What the worker of an item takes if it fetches the item. -/
def fetchTaking (ctx : ResolveCtx) (σ σ' : ResolveState) (item : Item) : Option Taking := do
  let svar ← σ.binding.canonicalFor item.key
  let tree ← σ'.depsDir.get? item.key.name
  takingWith ctx σ svar.identity (candidateLabel ((declaredVersionFor (fetchCtx tree item)).map Prod.fst)) item.key.name
    urlDepVersion (fetchCtx tree item)

/-- What the worker of an item takes on the way to a state: nothing if the item is one of the index, or was seen. -/
def takingOf (ctx : ResolveCtx) (σ σ' : ResolveState) (item : Item) : Option Taking :=
  match item with
  | .named .. => none
  | item => if Seen σ (mark item) then none else fetchTaking ctx σ σ' item

/-- What a query takes on the way to a state: nothing if it materializes nothing. -/
def queryTaking (ctx : ResolveCtx) (σ σ' : ResolveState) (package : Str) (version : Version) : Option Taking :=
  if ((σ.candidatesOf package).get? version).isSome then none
  else do
    let entry ← (σ.stubsOf package).get? version
    let tree ← σ'.depsDir.get? (σ.dirOf package)
    takingWith ctx σ package version package version (entryCtx σ package entry tree)

/-! ### Workers and what they take -/

/-- A worker, or a query, that takes an edge set makes a candidate of it. -/
structure Takes (ctx : ResolveCtx) (σ σ' : ResolveState) (t : Taking) : Prop where
  edges : requiredEdges ctx σ.edgeCache t.cacheVersion t.ectx t.sourceId = .ok (t.edges, σ'.edgeCache)
  stored : ∃ ex cand, edgesetToExtracted ctx σ.binding t.edges = .ok ex ∧ cand.deps = ex.deps ∧
    cand.requiresNames = ex.requiresNames ∧ cand.name = t.package ∧ cand.version = t.version ∧
    (cand.identity = t.ectx.tree.contentHash ∨ cand.identity = []) ∧ σ'.candidates = (σ.storeCandidate cand).candidates

/-- A step that takes nothing leaves the cache alone, and stores no candidate. -/
structure TakesNothing (ctx : ResolveCtx) (σ σ' : ResolveState) : Prop where
  cache : σ'.edgeCache = σ.edgeCache
  grown : Grown ctx σ.binding σ σ'

/-- What `extract_requires` does with what it is given. -/
theorem extractRequires_edges {tree : PackageTree} {name : Str} {v : Version} {depDecl : Option Str} {schema : Option ℤ}
    {flags : List Str} {ref : Option Str} {note : Option Version} {sid : SourceId} {ex : Extracted} (ectx : EdgeSourceCtx)
    (hectx : ectx = ⟨tree, name, depDecl, false, tree.milpaKdl.isSome, schema, flags, ref, note⟩)
    (h : extractRequires ctx σ tree name v depDecl schema flags ref note sid = .ok (ex, σ')) :
    ∃ es cache ex₀, requiredEdges ctx σ.edgeCache v ectx sid = .ok (es, cache) ∧ edgesetToExtracted ctx σ.binding es = .ok ex₀ ∧
      ex.deps = ex₀.deps ∧ ex.requiresNames = ex₀.requiresNames ∧ ex.declaredVersion = (declaredVersionFor ectx).map Prod.fst ∧
      σ' = { σ with edgeCache := cache } := by
  subst hectx
  obtain ⟨⟨es, cache⟩, hedges, h⟩ := bind_eq_ok.mp h
  obtain ⟨ex₀, hex, h⟩ := bind_eq_ok.mp h
  have h := pure_eq_ok.mp h
  simp only [Prod.mk.injEq] at h
  obtain ⟨rfl, rfl⟩ := h
  exact ⟨es, cache, ex₀, hedges, hex, rfl, rfl, rfl, rfl⟩

theorem takingWith_eq_some {name : Str} {v cacheVersion : Version} {ectx : EdgeSourceCtx} {sid : SourceId} {es : EdgeSet}
    {cache : EdgeCache} (hsid : σ.sourceIdForEdgeCache name = .ok sid)
    (hedges : requiredEdges ctx σ.edgeCache cacheVersion ectx sid = .ok (es, cache)) :
    takingWith ctx σ package v name cacheVersion ectx = some ⟨package, v, sid, cacheVersion, ectx, es⟩ := by
  rw [takingWith, hsid, Except.toOption, Option.bind_eq_bind, Option.bind_some, hedges]
  rfl

theorem takesNothing_of_eq (hcandidates : σ'.candidates = σ.candidates) (hcache : σ'.edgeCache = σ.edgeCache) :
    TakesNothing ctx σ σ' := ⟨hcache, grown_congr hcandidates⟩

/-- A worker that has stored the candidate of what it has fetched and extracted takes it. -/
theorem takes_of_fetched (item : Item) {svar : SolverKey} {tree : PackageTree} {ex : Extracted} {cache : EdgeCache} {identity : Str}
    {provenance : ProvenanceRecord} {mirrors : List Str} {sid : SourceId} {es : EdgeSet} {ex₀ : Extracted}
    (hsvar : σ.binding.canonicalFor item.key = some svar) (hsid : σ.sourceIdForEdgeCache item.key.name = .ok sid)
    (hedges : requiredEdges ctx σ.edgeCache urlDepVersion (fetchCtx tree item) sid = .ok (es, cache))
    (hex : edgesetToExtracted ctx σ.binding es = .ok ex₀) (hdeps : ex.deps = ex₀.deps)
    (hrequires : ex.requiresNames = ex₀.requiresNames)
    (hversion : ex.declaredVersion = (declaredVersionFor (fetchCtx tree item)).map Prod.fst)
    (hidentity : identity = tree.contentHash ∨ identity = [])
    (hcandidates : σ'.candidates = (σ.storeCandidate (fetchedCandidate svar identity ex provenance mirrors)).candidates)
    (hdir : σ'.depsDir.get? item.key.name = some tree) (hcache : σ'.edgeCache = cache) :
    ∃ t, fetchTaking ctx σ σ' item = some t ∧ Takes ctx σ σ' t := by
  refine ⟨⟨svar.identity, candidateLabel ((declaredVersionFor (fetchCtx tree item)).map Prod.fst), sid, urlDepVersion,
    fetchCtx tree item, es⟩, ?_, ⟨by rw [hcache]; exact hedges, ex₀, _, hex, hdeps, hrequires, rfl, ?_, hidentity, hcandidates⟩⟩
  · rw [fetchTaking, hsvar, Option.bind_eq_bind, Option.bind_some, hdir, Option.bind_eq_bind, Option.bind_some]
    exact takingWith_eq_some hsid hedges
  · show candidateLabel ex.declaredVersion = _
    rw [hversion]

theorem takes_visitUrl {dep : UrlDep} {svar : SolverKey} (hsvar : σ.binding.canonicalFor (.bare dep.name) = some svar)
    (h : visitUrl ctx { σ with seenUrl := (dep.git, dep.gitRef, dep.subpath) :: σ.seenUrl } dep svar = .ok (σ', items)) :
    ∃ t, fetchTaking ctx σ σ' (.url dep) = some t ∧ Takes ctx σ σ' t := by
  obtain ⟨⟨tree, receipt, idx⟩, -, h⟩ := bind_eq_ok.mp h
  obtain ⟨-, -, h⟩ := bind_eq_ok.mp h
  obtain ⟨sid, hsid, h⟩ := bind_eq_ok.mp h
  obtain ⟨⟨ex, σ₁⟩, hextract, h⟩ := bind_eq_ok.mp h
  have h := pure_eq_ok.mp h
  simp only [Prod.mk.injEq] at h
  obtain ⟨rfl, -⟩ := h
  obtain ⟨es, cache, ex₀, hedges, hex, hdeps, hrequires, hversion, rfl⟩ :=
    extractRequires_edges (fetchCtx tree (.url dep)) rfl hextract
  refine takes_of_fetched (.url dep) hsvar hsid hedges hex hdeps hrequires hversion (Or.inl rfl)
    (candidates_seedFlagsOf _ _ _) ?_ (edgeCache_seedFlagsOf _ _ _)
  rw [depsDir_seedFlagsOf]
  exact (BTreeMap.get?_insert ..).trans (if_pos rfl)

theorem takes_processLocal {dep : LocalDep} (h : processLocal ctx σ dep = .ok (σ', items)) (hnew : dep.path ∉ σ.seenLocal) :
    ∃ t, fetchTaking ctx σ σ' (.local dep) = some t ∧ Takes ctx σ σ' t := by
  rw [processLocal, if_neg hnew] at h
  obtain ⟨⟨tree, receipt⟩, -, h⟩ := bind_eq_ok.mp h
  obtain ⟨sid, hsid, h⟩ := bind_eq_ok.mp h
  obtain ⟨⟨ex, σ₁⟩, hextract, h⟩ := bind_eq_ok.mp h
  obtain ⟨svar, hsvar, h⟩ := bind_eq_ok.mp h
  have h := pure_eq_ok.mp h
  simp only [Prod.mk.injEq] at h
  obtain ⟨rfl, -⟩ := h
  obtain ⟨es, cache, ex₀, hedges, hex, hdeps, hrequires, hversion, rfl⟩ :=
    extractRequires_edges (fetchCtx tree (.local dep)) rfl hextract
  exact takes_of_fetched (.local dep) (canonicalForRes_eq_ok.mp hsvar) hsid hedges hex hdeps hrequires hversion
    (Or.inr rfl) rfl ((BTreeMap.get?_insert ..).trans (if_pos rfl)) rfl

theorem takes_processTarball {dep : TarballDep} (h : processTarball ctx σ dep = .ok (σ', items)) (hnew : dep.url ∉ σ.seenTarball) :
    ∃ t, fetchTaking ctx σ σ' (.tarball dep) = some t ∧ Takes ctx σ σ' t := by
  rw [processTarball, if_neg hnew] at h
  obtain ⟨⟨tree, receipt, idx⟩, -, h⟩ := bind_eq_ok.mp h
  obtain ⟨sid, hsid, h⟩ := bind_eq_ok.mp h
  obtain ⟨⟨ex, σ₁⟩, hextract, h⟩ := bind_eq_ok.mp h
  obtain ⟨svar, hsvar, h⟩ := bind_eq_ok.mp h
  have h := pure_eq_ok.mp h
  simp only [Prod.mk.injEq] at h
  obtain ⟨rfl, -⟩ := h
  obtain ⟨es, cache, ex₀, hedges, hex, hdeps, hrequires, hversion, rfl⟩ :=
    extractRequires_edges (fetchCtx tree (.tarball dep)) rfl hextract
  exact takes_of_fetched (.tarball dep) (canonicalForRes_eq_ok.mp hsvar) hsid hedges hex hdeps hrequires hversion
    (Or.inl rfl) rfl ((BTreeMap.get?_insert ..).trans (if_pos rfl)) rfl

theorem takes_processOci {dep : OciDep} (h : processOci ctx σ dep = .ok (σ', items)) (hnew : ociKey dep ∉ σ.seenOci) :
    ∃ t, fetchTaking ctx σ σ' (.oci dep) = some t ∧ Takes ctx σ σ' t := by
  obtain ⟨-, -, h⟩ := bind_eq_ok.mp h
  rw [if_neg hnew] at h
  obtain ⟨⟨tree, receipt⟩, -, h⟩ := bind_eq_ok.mp h
  obtain ⟨sid, hsid, h⟩ := bind_eq_ok.mp h
  obtain ⟨⟨ex, σ₁⟩, hextract, h⟩ := bind_eq_ok.mp h
  obtain ⟨svar, hsvar, h⟩ := bind_eq_ok.mp h
  have h := pure_eq_ok.mp h
  simp only [Prod.mk.injEq] at h
  obtain ⟨rfl, -⟩ := h
  obtain ⟨es, cache, ex₀, hedges, hex, hdeps, hrequires, hversion, rfl⟩ :=
    extractRequires_edges (fetchCtx tree (.oci dep)) rfl hextract
  exact takes_of_fetched (.oci dep) (canonicalForRes_eq_ok.mp hsvar) hsid hedges hex hdeps hrequires hversion
    (Or.inl rfl) rfl ((BTreeMap.get?_insert ..).trans (if_pos rfl)) rfl

/-- **The worker of an item takes an edge set and makes a candidate of it, or takes nothing.** -/
theorem takes_dispatch (h : dispatch ctx σ item = .ok (σ', items)) :
    takingOf ctx σ σ' item = none ∧ TakesNothing ctx σ σ' ∨ ∃ t, takingOf ctx σ σ' item = some t ∧ Takes ctx σ σ' t := by
  cases item with
  | url dep =>
    obtain ⟨svar, hsvar, ⟨hseen, h⟩ | ⟨hnew, h⟩⟩ := processUrl_cases h
    · refine Or.inl ⟨if_pos hseen, ?_, grown_revisitUrl h⟩
      obtain ⟨rfl | ⟨manifest, -, -, -, hadded⟩, -⟩ := revisitUrl_cases h
      · rfl
      · rw [hadded.enriched.rest]
    · rw [show takingOf ctx σ σ' (.url dep) = fetchTaking ctx σ σ' (.url dep) from if_neg hnew]
      exact Or.inr (takes_visitUrl hsvar h)
  | «local» dep =>
    by_cases hseen : dep.path ∈ σ.seenLocal
    · obtain ⟨-, rfl, -⟩ | ⟨hnew, -⟩ := processLocal_cases h
      · exact Or.inl ⟨if_pos hseen, rfl, .refl _⟩
      · exact absurd hseen hnew
    · rw [show takingOf ctx σ σ' (.local dep) = fetchTaking ctx σ σ' (.local dep) from if_neg hseen]
      exact Or.inr (takes_processLocal h hseen)
  | tarball dep =>
    by_cases hseen : dep.url ∈ σ.seenTarball
    · obtain ⟨-, rfl, -⟩ | ⟨hnew, -⟩ := processTarball_cases h
      · exact Or.inl ⟨if_pos hseen, rfl, .refl _⟩
      · exact absurd hseen hnew
    · rw [show takingOf ctx σ σ' (.tarball dep) = fetchTaking ctx σ σ' (.tarball dep) from if_neg hseen]
      exact Or.inr (takes_processTarball h hseen)
  | named name constraint ns =>
    refine Or.inl ⟨rfl, ?_⟩
    obtain ⟨-, ⟨-, rfl⟩ | ⟨-, -, rfl⟩ | ⟨-, versions, stubKey, -, -, rfl⟩⟩ := processNamed_cases h
    · exact takesNothing_of_eq rfl rfl
    · exact takesNothing_of_eq rfl rfl
    · exact takesNothing_of_eq rfl rfl
  | oci dep =>
    by_cases hseen : ociKey dep ∈ σ.seenOci
    · obtain ⟨-, rfl, -⟩ | ⟨hnew, -⟩ := processOci_cases h
      · exact Or.inl ⟨if_pos hseen, rfl, .refl _⟩
      · exact absurd hseen hnew
    · rw [show takingOf ctx σ σ' (.oci dep) = fetchTaking ctx σ σ' (.oci dep) from if_neg hseen]
      exact Or.inr (takes_processOci h hseen)

/-- **A query takes an edge set and makes a candidate of it, or takes nothing.** -/
theorem takes_query (h : query ctx σ package version = .ok (σ', items)) :
    queryTaking ctx σ σ' package version = none ∧ TakesNothing ctx σ σ' ∨
      ∃ t, queryTaking ctx σ σ' package version = some t ∧ Takes ctx σ σ' t := by
  unfold query at h
  split at h
  · rename_i cand hcand
    cases h
    exact Or.inl ⟨if_pos (by rw [hcand]; rfl), rfl, .refl _⟩
  · rename_i hnone
    split at h
    · rename_i entry hentry
      refine Or.inr ?_
      obtain ⟨-, -, h⟩ := bind_eq_ok.mp h
      obtain ⟨⟨tree, receipt, idx⟩, -, h⟩ := bind_eq_ok.mp h
      obtain ⟨sid, hsid, h⟩ := bind_eq_ok.mp h
      obtain ⟨⟨ex, σ₁⟩, hextract, h⟩ := bind_eq_ok.mp h
      obtain ⟨-, -, h⟩ := bind_eq_ok.mp h
      have h := pure_eq_ok.mp h
      simp only [Prod.mk.injEq] at h
      obtain ⟨rfl, -⟩ := h
      obtain ⟨es, cache, ex₀, hedges, hex, hdeps, hrequires, -, rfl⟩ :=
        extractRequires_edges (entryCtx σ package entry tree) rfl hextract
      refine ⟨⟨package, version, sid, version, entryCtx σ package entry tree, es⟩, ?_,
        (edgeCache_seedFlagsOf _ _ _).symm ▸ hedges, ex₀, _, hex, hdeps, hrequires, rfl, rfl, Or.inl rfl,
        candidates_seedFlagsOf _ _ _⟩
      rw [queryTaking, hnone, if_neg (by simp), hentry, Option.bind_eq_bind, Option.bind_some, depsDir_seedFlagsOf]
      have hdir : BTreeMap.get? (σ.depsDir.insert (σ.dirOf package) tree) (σ.dirOf package) = some tree :=
        (BTreeMap.get?_insert ..).trans (if_pos rfl)
      show Option.bind (BTreeMap.get? (σ.depsDir.insert (σ.dirOf package) tree) (σ.dirOf package)) _ = _
      rw [hdir, Option.bind_some]
      exact takingWith_eq_some hsid hedges
    · rename_i hstub
      cases h
      refine Or.inl ⟨?_, rfl, .refl _⟩
      rw [queryTaking, hnone, if_neg (by simp), hstub]
      rfl

end Milpa.Core.Resolver

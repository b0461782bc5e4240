import Milpa.Core.ResolveState

/-!
# The resolver's workers

`resolver.rs`: the admission of an item, the worker of each kind of item, the
materialization of a stub and one round of the flag fixpoint. A worker that ends by
processing more items returns them; `ResolveRun` puts the workers together.

A fetch leaves the tree that the fetcher gives in the directory of the package, and the
identity of a tree is a field of it, so that a tree is hashed the same wherever it lies.
-/

namespace Milpa.Core.Resolver

open Solver

/-- `url_dep_version`. -/
def urlDepVersion : Version := .release 0 0 1

/-- `root_version`. -/
def rootVersion : Version := .release 0 0 0

/-- `ROOT`. -/
def root : Str := "__root__"

/-- `candidate_label`. -/
def candidateLabel (declaredVersion : Option Version) : Version := declaredVersion.getD urlDepVersion

/-! ### Admission -/

/-- What the index calls a package of this name. -/
def namesakes (index : Index) (bareName : Str) : List Package :=
  match Index.lookupBare index bareName with
  | .found pkg => [pkg]
  | .ambiguous namespaces => namespaces.filterMap fun ns => Index.lookupQualified index ns bareName
  | .notFound => []

/-- The repository that a provenance names. -/
def upstream : Provenance → Option Str
  | .git url _ _ => some url
  | .oci _ _ _ sourceUrl => sourceUrl.filter fun u => !u.isEmpty

/-- The URL of a claim, where it has one. -/
def claimUrl : SourceId → Option Str
  | .fetchable (.git url _ _) => some url
  | .fetchable (.tarball url _) => some url
  | _ => none

/-- The registry records one of a package's versions as coming from this URL. -/
def recordsUrl (pkg : Package) (url : Str) : Bool :=
  pkg.versions.any fun iv => iv.provenances.any fun prov =>
    (upstream prov).any fun u => decide (normalizeGitUrl u = normalizeGitUrl url)

/-- The name under which the registry owns a package. -/
def owningName (pkg : Package) : Str := if pkg.namespace.isEmpty then pkg.name else pkg.namespace ++ '/' :: pkg.name

/-- `check_registry_shadow`; what is only a warning is not kept. -/
def checkRegistryShadow (claim : Claim) (index : Index) (isStrict : Bool) : Except ResError Unit :=
  let bareName := (keyFor claim).name
  let packages := namesakes index bareName
  let shadow := rejectIf (isStrict = true) (.registryShadow bareName (sortByKey id (packages.map owningName)) claim.sourceId)
  match claim.sourceId with
  | .fetchable (.git ..) | .fetchable (.tarball ..) | .fetchable (.oci ..) =>
    if packages.isEmpty then .ok ()
    else if (claimUrl claim.sourceId).any fun url => packages.any fun pkg => recordsUrl pkg url then .ok ()
    else shadow
  | _ => .ok ()

/-- `apply_override`. -/
def applyOverride (ctx : ResolveCtx) (item : Item) : Item :=
  match item with
  | .url d => ((ctx.overrideOf d.name).bind (overrideEffectiveItem d.name)).getD item
  | .named name _ _ => ((ctx.overrideOf name).bind (overrideEffectiveItem name)).getD item
  | .local _ | .tarball _ | .oci _ => item

/-- The check on a claim on the root's own name. -/
def checkRootSelf (ctx : ResolveCtx) : Item → Except ResError Unit
  | .named name constraint none =>
    match ctx.rootSelfVersion with
    | some v =>
      rejectIf (ctx.rootSelfName = some name ∧ constraint.contains v = false) (.rootSelfVersionConstraint name v)
    | none => .ok ()
  | _ => .ok ()

/-- The claim of an item. -/
def itemClaim (item : Item) (sid : SourceId) : Claim := ⟨item.key.solverVar, sid, false, "transitive"⟩

/-- The check that a `git` dependency does not pass for a package of the registry. -/
def checkShadow (ctx : ResolveCtx) (r : BindingResolver) (item : Item) (sid : SourceId) : Except ResError Unit :=
  match item with
  | .url d => if r.rootKeys (.bare d.name) then .ok () else checkRegistryShadow (itemClaim item sid) ctx.index ctx.strictAttestation
  | _ => .ok ()

/-- `gate_only`: the item to dispatch, if any, and the state after it. -/
def gateOnly (ctx : ResolveCtx) (σ : ResolveState) (item : Item) : Except ResError (Option Item × ResolveState) := do
  let item := applyOverride ctx item
  checkRootSelf ctx item
  let sid ← normalizeSourceRes (item.rawSource ctx.index)
  checkShadow ctx σ.binding item sid
  match σ.binding.submit (itemClaim item sid) with
  | none => throw .assertion
  | some (.error e, _) => throw (.binding e)
  | some (.ok decision, binding) =>
    let σ := ({ σ with binding } : ResolveState).recordDiscovery (canonical decision.accepted)
    return (if decision.outcome = .lostToRoot then none else some item, σ)

/-! ### Fetching -/

/-- `fetch_any_tracked`: the candidates from number `idx` on, in order; a fetch that fails is passed over, one that gives
another tree than the pinned one is not. -/
def fetchAnyTracked (ctx : ResolveCtx) (name : Str) (expectedIdentity : Option Str) (total idx : ℕ) (last : Option (Str × Str)) :
    List Transport → Except ResError (PackageTree × Receipt × ℕ)
  | [] => .error (.fetchAllFailed name total last)
  | prov :: candidates =>
    match ctx.fetch name prov with
    | .error e => fetchAnyTracked ctx name expectedIdentity total (idx + 1) (some e) candidates
    | .ok (tree, receipt) =>
      match expectedIdentity with
      | some expected =>
        if expected = tree.contentHash then .ok (tree, receipt, idx)
        else .error (.provenanceDivergence name expected tree.contentHash)
      | none => .ok (tree, receipt, idx)

/-- A fetch from one place. -/
def fetchOne (ctx : ResolveCtx) (name : Str) (prov : Transport) : Except ResError (PackageTree × Receipt) :=
  match ctx.fetch name prov with
  | .ok fetched => .ok fetched
  | .error (code, message) => .error (.fetch code message)

/-- The record of a name in the lockfile that was there before, if it has an identity. -/
def locked (ctx : ResolveCtx) (name : Str) : Option (LockedDep × Str) := do
  let prior ← ctx.prior
  let locked ← prior.deps.find? fun d => decide (d.name = name)
  let identity ← locked.identity.filter fun s => !s.isEmpty
  return (locked, identity)

/-- `git_pin`. -/
def gitPin (ctx : ResolveCtx) (dep : UrlDep) : Option Str × Option Str :=
  match locked ctx dep.name with
  | none => (none, none)
  | some (locked, identity) =>
    (locked.provenances.findSome? fun p =>
      match p with
      | .git url refSpec commitSha _ _ => if url = dep.git ∧ refSpec = some dep.gitRef then some (some identity, commitSha) else none
      | _ => none).getD (none, none)

/-- `tarball_pin`. -/
def tarballPin (ctx : ResolveCtx) (dep : TarballDep) : Option Str × Option Str :=
  match locked ctx dep.name with
  | none => (none, none)
  | some (locked, identity) =>
    (locked.provenances.findSome? fun p =>
      match p with
      | .tarball url sha256 _ => if url = dep.url then some (some identity, sha256) else none
      | _ => none).getD (none, none)

/-- `prior_declared_mirror_urls`. -/
def priorDeclaredMirrorUrls (ctx : ResolveCtx) (name : Str) : List Str :=
  match ctx.prior.bind fun p => p.deps.find? fun d => decide (d.name = name) with
  | none => []
  | some locked => locked.provenances.filterMap fun p =>
    match p with
    | .git url _ _ origin _ => if origin = "declared".toList then some url else none
    | _ => none

/-- The URLs that a `git` dependency can be fetched from. -/
def candidateUrls (ctx : ResolveCtx) (dep : UrlDep) : List Str :=
  let prior := (priorDeclaredMirrorUrls ctx dep.name).filter fun u => decide (u ∈ dep.mirrors)
  (dep.git :: dep.mirrors ++ prior).reverse.dedup.reverse

/-! ### Extraction -/

/-- The edge set that `extract_requires` gets, and the cache: with flags requested, the cache is passed by. -/
def requiredEdges (ctx : ResolveCtx) (cache : EdgeCache) (version : Version) (ectx : EdgeSourceCtx) (sourceId : SourceId) :
    Except ResError (EdgeSet × EdgeCache) :=
  if ectx.activeFlags.isEmpty then resolveEdges ctx.depDeclStore ctx.strictAttestation version ectx cache sourceId
  else (sourcedEdges ctx.depDeclStore ctx.strictAttestation ectx).map fun es => (es, cache)

/-- `extract_requires`. -/
def extractRequires (ctx : ResolveCtx) (σ : ResolveState) (tree : PackageTree) (name : Str) (version : Version)
    (depDecl : Option Str) (depDeclSchemaVersion : Option ℤ) (activeFlags : List Str) (ref : Option Str)
    ( versionAnnotation : Option Version) (sourceId : SourceId) : Except ResError (Extracted × ResolveState) := do
  let ectx : EdgeSourceCtx :=
    { tree, depName := name, depDecl, isOverridden := false, hasMilpaKdl := tree.milpaKdl.isSome, depDeclSchemaVersion,
      activeFlags, ref, version := versionAnnotation }
  let (es, cache) ← requiredEdges ctx σ.edgeCache version ectx sourceId
  let ex ← edgesetToExtracted ctx σ.binding es
  let declared := declaredVersionFor ectx
  return ({ ex with declaredVersion := declared.map Prod.fst, declaredVersionSource := declared.map Prod.snd },
    { σ with edgeCache := cache })

/-- The candidate that a worker makes of what it has fetched and extracted. -/
def fetchedCandidate (svar : SolverKey) (identity : Str) (ex : Extracted) (provenance : ProvenanceRecord)
    (declaredMirrorUrls : List Str) : Candidate where
  name := svar.identity
  version := candidateLabel ex.declaredVersion
  identity := identity
  srcDir := ex.srcDir
  requiresNames := ex.requiresNames
  deps := ex.deps
  provenance := some provenance
  declaredMirrorUrls := declaredMirrorUrls
  depDecl := none
  requiresPredicates := ex.requiresPredicates
  attestation := none
  isRegistry := false
  registryNamespace := []
  versionUnknown := ex.declaredVersion.isNone
  declaredVersionSource := ex.declaredVersionSource

/-- The flags that a package's own manifest makes active, recorded for its identity. -/
def seedFlagsOf (tree : PackageTree) (requests : List FlagRequest) (σ : ResolveState) : ResolveState :=
  match tree.manifest? with
  | some manifest => σ.recordFlags tree.contentHash (computeDepActiveFlags manifest.flags requests)
  | none => σ

/-! ### Workers -/

/-- `process_url`, for a place that was seen before. -/
def revisitUrl (ctx : ResolveCtx) (σ : ResolveState) (dep : UrlDep) (svar : SolverKey) : Except ResError (ResolveState × List Item) :=
  let positiveReqs := dep.flagRequests.filter FlagRequest.enabled
  if positiveReqs.isEmpty then .ok (σ, [])
  else
    match σ.manifestIn dep.name with
    | none => .ok (σ, [])
    | some manifest =>
      let newActive := computeDepActiveFlags manifest.flags positiveReqs
      let identity := σ.identityOf svar.identity
      if newActive.entries.isEmpty || identity.isEmpty then .ok (σ, [])
      else
        let old := (σ.flagsOf identity).keys
        let σ := σ.uniteFlags identity newActive
        let new := (σ.flagsOf identity).keys
        if new = old then .ok (σ, [])
        else ctx.admitNewly svar.identity manifest old new σ

/-- The check that a commit is not newer than the bound. -/
def checkCommitDate (ctx : ResolveCtx) (name : Str) (receipt : Receipt) : Except ResError Unit :=
  match ctx.excludeNewer, receipt.committerDate with
  | some bound, some committerDate =>
    rejectIf (bound < committerDate) (.excludeNewerPin name receipt.resolvedRef committerDate bound)
  | _, _ => .ok ()

/-- `process_url`, for a place that was not seen before. -/
def visitUrl (ctx : ResolveCtx) (σ : ResolveState) (dep : UrlDep) (svar : SolverKey) : Except ResError (ResolveState × List Item) := do
  let (expectedIdentity, pinnedSha) := gitPin ctx dep
  let urls := candidateUrls ctx dep
  let provs := urls.map fun url => Transport.git url dep.gitRef pinnedSha
  let (tree, receipt, idx) ← fetchAnyTracked ctx dep.name expectedIdentity provs.length 0 none provs
  let σ := { σ with depsDir := σ.depsDir.insert dep.name tree }
  checkCommitDate ctx dep.name receipt
  let observed := urls.getD idx []
  let requestedFlags := (dep.flagRequests.filter FlagRequest.enabled).map FlagRequest.name
  let sourceId ← σ.sourceIdForEdgeCache dep.name
  let (ex, σ) ← extractRequires ctx σ tree dep.name urlDepVersion none none requestedFlags (some dep.gitRef) dep.version sourceId
  let σ := σ.storeCandidate (fetchedCandidate svar tree.contentHash ex
    (.git observed (opt dep.gitRef) (receipt.resolvedRef <|> pinnedSha) "observed" receipt.submoduleShas)
    (urls.filter fun u => decide (u ≠ observed)))
  return (seedFlagsOf tree dep.flagRequests σ, ex.subItems)

/-- `process_url`. -/
def processUrl (ctx : ResolveCtx) (σ : ResolveState) (dep : UrlDep) : Except ResError (ResolveState × List Item) := do
  let svar ← canonicalForRes σ.binding (.bare dep.name)
  let key := (dep.git, dep.gitRef, dep.subpath)
  if key ∈ σ.seenUrl then revisitUrl ctx σ dep svar
  else visitUrl ctx { σ with seenUrl := key :: σ.seenUrl } dep svar

/-- `process_local`: a local package has no identity. -/
def processLocal (ctx : ResolveCtx) (σ : ResolveState) (dep : LocalDep) : Except ResError (ResolveState × List Item) :=
  if dep.path ∈ σ.seenLocal then .ok (σ, [])
  else do
    let σ := { σ with seenLocal := dep.path :: σ.seenLocal }
    let (tree, _) ← fetchOne ctx dep.name (.local dep.path)
    let σ := { σ with depsDir := σ.depsDir.insert dep.name tree }
    let sourceId ← σ.sourceIdForEdgeCache dep.name
    let (ex, σ) ← extractRequires ctx σ tree dep.name urlDepVersion none none [] none dep.version sourceId
    let svar ← canonicalForRes σ.binding (.bare dep.name)
    return (σ.storeCandidate (fetchedCandidate svar [] ex (.local dep.path "observed") []), ex.subItems)

/-- `process_tarball`. -/
def processTarball (ctx : ResolveCtx) (σ : ResolveState) (dep : TarballDep) : Except ResError (ResolveState × List Item) :=
  if dep.url ∈ σ.seenTarball then .ok (σ, [])
  else do
    let σ := { σ with seenTarball := dep.url :: σ.seenTarball }
    let (expectedIdentity, lockedSha256) := tarballPin ctx dep
    let prov := Transport.tarball dep.url (dep.sha256 <|> lockedSha256) dep.stripComponents
    let (tree, receipt, _) ← fetchAnyTracked ctx dep.name expectedIdentity 1 0 none [prov]
    let σ := { σ with depsDir := σ.depsDir.insert dep.name tree }
    let sourceId ← σ.sourceIdForEdgeCache dep.name
    let (ex, σ) ← extractRequires ctx σ tree dep.name urlDepVersion none none [] none dep.version sourceId
    let svar ← canonicalForRes σ.binding (.bare dep.name)
    return (σ.storeCandidate (fetchedCandidate svar tree.contentHash ex
      (.tarball dep.url (dep.sha256 <|> receipt.archiveSha256 <|> lockedSha256) "observed") []), ex.subItems)

/-- The text under which an OCI artifact is kept as seen. -/
def ociKey (dep : OciDep) : Str := dep.registry ++ '/' :: dep.repository ++ '@' :: dep.digest

/-- `process_oci`. -/
def processOci (ctx : ResolveCtx) (σ : ResolveState) (dep : OciDep) : Except ResError (ResolveState × List Item) := do
  (validateOciDigest dep.digest).mapError .tng
  if ociKey dep ∈ σ.seenOci then return (σ, [])
  else do
    let σ := { σ with seenOci := ociKey dep :: σ.seenOci }
    let (tree, _) ← fetchOne ctx dep.name (.oci dep.registry dep.repository dep.digest none)
    let σ := { σ with depsDir := σ.depsDir.insert dep.name tree }
    let sourceId ← σ.sourceIdForEdgeCache dep.name
    let (ex, σ) ← extractRequires ctx σ tree dep.name urlDepVersion none none [] none dep.version sourceId
    let svar ← canonicalForRes σ.binding (.bare dep.name)
    return (σ.storeCandidate (fetchedCandidate svar tree.contentHash ex
      (.oci dep.registry dep.repository dep.digest "observed") []), ex.subItems)

/-- `filter_by_exclude_newer`: what is kept, and how many are not. -/
def filterByExcludeNewer (versions : List IndexVersion) (excludeNewer : Option Timestamp) : List IndexVersion × ℕ :=
  match excludeNewer with
  | none => (versions, 0)
  | some ts =>
    let kept := versions.filter fun iv => iv.publishedAt.any fun pa => decide (pa ≤ ts)
    (kept, versions.length - kept.length)

/-- The versions of a name in the index. -/
def indexedVersions (index : Index) (name : Str) : Option Str → Except TngError (List IndexVersion)
  | some ns => Index.resolveNamedAllQualified index ns name .full none
  | none => Index.resolveNamedAll index name .full none

/-- The versions that `process_named` enumerates. -/
def enumerateNamed (ctx : ResolveCtx) (name : Str) («namespace» : Option Str) : Except ResError (List IndexVersion) :=
  match indexedVersions ctx.index name «namespace» with
  | .error e => .error (.tng e)
  | .ok versions =>
    let (kept, dropped) := filterByExcludeNewer versions ctx.excludeNewer
    match ctx.excludeNewer with
    | some ts => if 0 < dropped ∧ kept = [] then .error (.excludeNewerEmpty name dropped ts) else .ok kept
    | none => .ok kept

/-- `by_ver`: the enumerated versions by their parsed numbers. -/
def byVer (versions : List IndexVersion) : VersionMap IndexVersion :=
  VersionMap.extend BTreeMap.empty (versions.filterMap fun e => (parseVersion e.version).map fun v => (v, e))

/-- `process_named`. -/
def processNamed (ctx : ResolveCtx) (σ : ResolveState) (name : Str) («namespace» : Option Str) :
    Except ResError (ResolveState × List Item) := do
  let depKey : DepKey := ⟨name, «namespace»⟩
  if name = "nim".toList then return ({ σ with seenNamed := depKey :: σ.seenNamed }, [])
  else if name ∈ ctx.memberNames then return (σ, [])
  else if depKey ∈ σ.seenNamed then return (σ, [])
  else do
    let σ := { σ with seenNamed := depKey :: σ.seenNamed }
    let versions ← enumerateNamed ctx name «namespace»
    let table := byVer versions
    if table.entries.isEmpty then return (σ, [])
    else do
      let stubKey ← canonicalForRes σ.binding depKey
      return ({ σ with stubs := σ.stubs.insert stubKey.identity ((σ.stubsOf stubKey.identity).extend table.toList) }, [])

/-- `dispatch`. -/
def dispatch (ctx : ResolveCtx) (σ : ResolveState) : Item → Except ResError (ResolveState × List Item)
  | .url dep => processUrl ctx σ dep
  | .local dep => processLocal ctx σ dep
  | .tarball dep => processTarball ctx σ dep
  | .named name _ ns => processNamed ctx σ name ns
  | .oci dep => processOci ctx σ dep

/-! ### Flag conflicts -/

/-- The partners of an active flag that are active too. -/
def activeConflicts (flags : List FlagDecl) (active : ActiveFlags) (name : Str) : List Str :=
  (((flagByName flags name).map FlagDecl.conflicts).getD []).filter fun g => decide (active.Active g)

/-- `raise_if_flag_conflicts`. -/
def raiseIfFlagConflicts (depName : Str) (flags : List FlagDecl) (active : ActiveFlags) : Except ResError Unit :=
  match active.keys.findSome? fun f => (activeConflicts flags active f).head?.map fun g => (f, g) with
  | none => .ok ()
  | some (f, g) =>
    let (a, b) := if f ≤ g then (f, g) else (g, f)
    .error (.flagConflict depName a b ((active.get? a).getD ∅) ((active.get? b).getD ∅))

/-! ### Materialization -/

/-- The check on the flags of a package that has become a candidate. -/
def checkMaterialized (depName : Str) (tree : PackageTree) (requests : List FlagRequest) : Except ResError Unit :=
  match tree.manifest? with
  | some manifest => raiseIfFlagConflicts depName manifest.flags (computeDepActiveFlags manifest.flags requests)
  | none => .ok ()

/-- The candidate that `materialize_named` makes of an entry. -/
def materializedCandidate (name : Str) (version : Version) (entry : IndexVersion) (tree : PackageTree) (ex : Extracted) :
    Candidate where
  name := name
  version := version
  identity := tree.contentHash
  srcDir := ex.srcDir
  requiresNames := ex.requiresNames
  deps := ex.deps
  provenance := entry.provenances.head?.map fun p => transportToRecord p.transport
  declaredMirrorUrls := []
  depDecl := if ex.edgeSet.source = .depDecl then entry.depDecl else none
  requiresPredicates := ex.requiresPredicates
  attestation := entry.attestation
  isRegistry := true
  registryNamespace := entry.namespace
  versionUnknown := false
  declaredVersionSource := none

/-- `materialize_named`: a stub becomes a candidate. -/
def materializeNamed (ctx : ResolveCtx) (σ : ResolveState) (name : Str) (version : Version) (entry : IndexVersion) :
    Except ResError (ResolveState × List Item) := do
  let depKey := σ.depkeyForSolvedName name
  rejectIf (entry.contentHash.isEmpty = true) (.noIdentity name entry.version)
  let dir := depDirName depKey.name depKey.namespace
  let provs := entry.provenances.map Provenance.transport
  let (tree, _, _) ← fetchAnyTracked ctx depKey.name (some entry.contentHash) provs.length 0 none provs
  let σ := { σ with depsDir := σ.depsDir.insert dir tree }
  let requests := (σ.flagRequestsByName.get? name).getD []
  let sourceId ← σ.sourceIdForEdgeCache name
  let (ex, σ) ← extractRequires ctx σ tree depKey.name version entry.depDecl entry.depDeclSchemaVersion
    ((requests.filter FlagRequest.enabled).map FlagRequest.name) none none sourceId
  let σ := σ.storeCandidate (materializedCandidate name version entry tree ex)
  let σ := { σ with stubs := σ.stubs.insert name ((σ.stubsOf name).erase version) }
  let σ := seedFlagsOf tree requests σ
  checkMaterialized depKey.name tree requests
  return (σ, ex.subItems)

/-- `dependencies`, and `get_or_materialize`: what a query about a version does to the state. -/
def query (ctx : ResolveCtx) (σ : ResolveState) (package : Str) (version : Version) : Except ResError (ResolveState × List Item) :=
  match (σ.candidatesOf package).get? version with
  | some _ => .ok (σ, [])
  | none =>
    match (σ.stubsOf package).get? version with
    | some entry => materializeNamed ctx σ package version entry
    | none => .ok (σ, [])

end Milpa.Core.Resolver

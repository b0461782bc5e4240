import Milpa.Core.EdgeSources
import Milpa.Core.RootClaims

/-!
# Work items and extraction

The items of the resolver's queue, and `edgeset_to_extracted` of `resolver.rs`: the terms
for the solver and the items for the queue that an edge set gives.

A solver variable gets one term, from its first entry; what a later entry for the same
variable asks for is not looked at (`edgesetToExtracted_honours_iff`).
-/

namespace Milpa.Core

open Solver

/-- `OciDep`. -/
structure OciDep where
  name : Str
  registry : Str
  repository : Str
  digest : Str
  subpath : Option Str
  version : Option Version
  deriving DecidableEq, Repr

/-- `Item`: one unit of work of the walk. -/
inductive Item where
  | url (dep : UrlDep)
  | named (name : Str) (constraint : VersionSet) («namespace» : Option Str)
  | local (dep : LocalDep)
  | tarball (dep : TarballDep)
  | oci (dep : OciDep)
  deriving DecidableEq, Repr

namespace Item

/-- The key of the name that an item is about. -/
def key : Item → DepKey
  | url d => .bare d.name
  | named name _ ns => ⟨name, ns⟩
  | «local» d => .bare d.name
  | tarball d => .bare d.name
  | oci d => .bare d.name

/-- The origin that an item claims for its name. -/
def rawSource (index : Index) : Item → SourceId
  | url d => .fetchable (.git d.git (some d.gitRef) d.subpath)
  | named name _ ns => registrySource name ns index
  | «local» d => .fetchable (.local d.path)
  | tarball d => .fetchable (.tarball d.url d.subpath)
  | oci d => .fetchable (.oci d.registry d.repository (some d.digest) d.subpath)

end Item

/-- `Dep` of the solver: a term. -/
structure SolverDep where
  package : SolverKey
  constraint : VersionSet
  deriving DecidableEq, Repr

/-- `Extracted`. -/
structure Extracted where
  deps : List SolverDep
  requiresNames : List Str
  srcDir : Str
  subItems : List Item
  edgeSet : EdgeSet
  requiresPredicates : BTreeMap Str (List (List Predicate))
  declaredVersion : Option Version
  declaredVersionSource : Option VersionSource

/-- What a resolve is given, and does not change: the fields of `ResolveProvider` that are not cells, with the
fetchers as a function from the name and the transport. -/
structure ResolveCtx where
  index : Index
  overrides : List Override
  prior : Option Lockfile
  depDeclStore : Option DepDeclStore
  strictAttestation : Bool
  excludeNewer : Option Timestamp
  memberNames : List Str
  rootSelfName : Option Str
  rootSelfVersion : Option Version
  fetch : Str → Transport → Except (Str × Str) (PackageTree × Receipt)

/-- A resolve with an empty index, without overrides, and with nothing to fetch from. -/
def ResolveCtx.offline : ResolveCtx where
  index := ⟨[]⟩
  overrides := []
  prior := none
  depDeclStore := none
  strictAttestation := false
  excludeNewer := none
  memberNames := []
  rootSelfName := none
  rootSelfVersion := none
  fetch _ _ := .error ("FETCH-FAILED", [])

/-- The override of a name. -/
def ResolveCtx.overrideOf (ctx : ResolveCtx) (name : Str) : Option Override := overrideNamed ctx.overrides name

/-- The set that a version-scoped override asks for. -/
def overrideVersionSet (ov : Override) : VersionSet :=
  match ov.version with
  | some v => .eq v
  | none => .full

/-- `override_effective_item`; a member target is left to the caller. -/
def overrideEffectiveItem (name : Str) (ov : Override) : Option Item :=
  match ov.target with
  | .git url gitRef subpath => some (.url (urlDepWithSubpath name url gitRef ov.version subpath))
  | .local path => some (.local ⟨name, path, [], ov.version⟩)
  | .oci registry repository digest subpath => some (.oci ⟨name, registry, repository, digest, subpath, ov.version⟩)
  | .tarball url sha256 stripComponents subpath =>
    some (.tarball ⟨name, url, sha256, stripComponents, [], ov.version, subpath⟩)
  | .registry regName ns => some (.named regName (overrideVersionSet ov) ns)
  | .member _ => none

/-- The term of a name that is overridden: any version, unless the override names one of the registry. -/
def overrideTerm (ov : Override) : VersionSet :=
  match ov.target with
  | .registry .. => overrideVersionSet ov
  | _ => .full

/-- `name_from_url`. -/
def nameFromUrl (url : Str) : Except ResError Str := do
  let trimmed : Str := url.rdropWhile (· = '/')
  let tail := ((trimmed.rsplitOnce '/').map Prod.snd).getD trimmed
  let name := (tail.stripSuffix ".git").getD tail
  rejectIf (name.isEmpty || name.containsStr ".." || decide ('/' ∈ name) || decide ('\\' ∈ name)) (.unsafeUrlName name url)
  return name

/-- The constraint of an entry, read. -/
def entryConstraint (n : NamedRequire) : Except VersionSet.ConstraintError VersionSet :=
  VersionSet.fromConstraint (if n.constraintStr.isEmpty then none else some n.constraintStr)

/-- The term of a named entry that is not overridden: a constraint that does not parse is an error for a `.nimble` file,
and any version otherwise. -/
def namedTerm (source : EdgeSource) (n : NamedRequire) : Except ResError VersionSet :=
  match entryConstraint n with
  | .ok vs => .ok vs
  | .error e => if source = .nimbleFallback then .error (.nimbleConstraint n.constraintStr e) else .ok .full

/-- The term of a named entry. -/
def ResolveCtx.namedEntryTerm (ctx : ResolveCtx) (source : EdgeSource) (n : NamedRequire) : Except ResError VersionSet :=
  match ctx.overrideOf n.name with
  | some ov => .ok (overrideTerm ov)
  | none => namedTerm source n

/-- The solver key that a name has or would have. -/
def ResolveCtx.requirementKey (ctx : ResolveCtx) (r : BindingResolver) (name : Str) («namespace» url gitRef : Option Str) :
    Except ResError SolverKey :=
  canonicalKeyForRequirement name «namespace» url gitRef ctx.overrides ctx.index ctx.rootSelfName r

/-- The variables of `edgeset_to_extracted`. -/
structure Extracting where
  deps : List SolverDep
  requiresNames : List Str
  items : List Item
  requiresPredicates : BTreeMap Str (List (List Predicate))
  seenDepNames : List Str

namespace Extracting

/-- A new term. -/
def addTerm (acc : Extracting) (k : SolverKey) (vs : VersionSet) : Extracting :=
  { acc with
    deps := acc.deps ++ [⟨k, vs⟩]
    requiresNames := acc.requiresNames ++ [k.identity]
    seenDepNames := k.identity :: acc.seenDepNames }

/-- One more item. -/
def addItem (acc : Extracting) (item : Item) : Extracting := { acc with items := acc.items ++ [item] }

/-- The condition of an occurrence, where it has one. -/
def addPredicates (acc : Extracting) (k : SolverKey) (predicates : List Predicate) : Extracting :=
  if predicates.isEmpty then acc
  else { acc with
    requiresPredicates :=
      acc.requiresPredicates.insert k.identity ((acc.requiresPredicates.get? k.identity).getD [] ++ [predicates]) }

end Extracting

/-- The name of a `git` entry: the declared one, else the one its URL ends with. -/
def urlEntryName (u : UrlRequire) : Except ResError Str :=
  match u.name with
  | some n => .ok n
  | none => nameFromUrl u.url

/-- The item of a `git` entry. -/
def urlEntryItem (name : Str) (u : UrlRequire) : Item :=
  .url { urlDep name u.url u.ref none with flagRequests := u.flagRequests }

/-- One round of `edgeset_to_extracted`, for a `git` entry. -/
def extractUrl (ctx : ResolveCtx) (r : BindingResolver) (acc : Extracting) (u : UrlRequire) : Except ResError Extracting := do
  let depName ← urlEntryName u
  let k ← ctx.requirementKey r depName none (some u.url) (some u.ref)
  let acc :=
    if k.identity ∈ acc.seenDepNames then acc
    else acc.addTerm k (((ctx.overrideOf depName).map overrideTerm).getD .full)
  return (acc.addItem (urlEntryItem depName u)).addPredicates k u.predicates

/-- One round of `edgeset_to_extracted`, for a named entry. -/
def extractNamed (ctx : ResolveCtx) (r : BindingResolver) (source : EdgeSource) (acc : Extracting) (n : NamedRequire) :
    Except ResError Extracting := do
  let k ← ctx.requirementKey r n.name n.namespace none none
  if k.identity ∈ acc.seenDepNames then return acc.addPredicates k n.predicates
  else do
    let vs ← ctx.namedEntryTerm source n
    return ((acc.addTerm k vs).addItem (.named n.name vs n.namespace)).addPredicates k n.predicates

/-- One round of `edgeset_to_extracted`. -/
def extractEntry (ctx : ResolveCtx) (r : BindingResolver) (source : EdgeSource) (acc : Extracting) :
    RequireEntry → Except ResError Extracting
  | .url u => extractUrl ctx r acc u
  | .named n => extractNamed ctx r source acc n

/-- `edgeset_to_extracted`. -/
def edgesetToExtracted (ctx : ResolveCtx) (r : BindingResolver) (es : EdgeSet) : Except ResError Extracted := do
  let acc ← es.requires.foldlM (extractEntry ctx r es.source) ⟨[], [], [], BTreeMap.empty, []⟩
  return ⟨acc.deps, acc.requiresNames, es.srcDir, acc.items, es, acc.requiresPredicates, none, none⟩

end Milpa.Core

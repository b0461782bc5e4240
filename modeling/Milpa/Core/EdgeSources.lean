import Milpa.Core.Flags
import Milpa.Core.ResError
import Milpa.Types.Package

/-!
# Edge sources

`edge_sources.rs`: what a fetched package requires, read from its declaration in the
index, its `milpa.kdl` or its `.nimble` file, and the version that it declares.

The store of declarations, with the parser of what is in it, is a parameter: a pointer
gives a set of edges with the schema version it was written for, or an error.
-/

namespace Milpa.Core

open Solver

/-- `DepDeclStore`, from the pointer to the parsed artifact. -/
abbrev DepDeclStore := Str → Except ResError (EdgeSet × ℤ)

/-- `EdgeSourceCtx`. -/
structure EdgeSourceCtx where
  tree : PackageTree
  depName : Str
  depDecl : Option Str
  isOverridden : Bool
  hasMilpaKdl : Bool
  depDeclSchemaVersion : Option ℤ
  activeFlags : List Str
  ref : Option Str
  version : Option Version

/-! ### Sources -/

/-- The flags of a manifest that are active when nothing is requested. -/
def defaultFlagNames (manifest : Manifest) : List Str := (manifest.flags.filter FlagDecl.default).map FlagDecl.name

/-- The entry of a dependency in an edge set: only `git` and index dependencies of a fetched package have one. -/
def requireEntryOf : Dep → Option RequireEntry
  | .url u => some (.url ⟨u.git, u.gitRef, [], u.flagRequests, some u.name⟩)
  | .named n => if n.name = "nim".toList then none else some (.named ⟨n.name, n.constraint.getD [], [], n.namespace⟩)
  | .local _ | .tarball _ | .member _ => none

/-- `build_edgeset_with_flags`. -/
def buildEdgesetWithFlags (manifest : Manifest) (activeFlags : List Str) : EdgeSet where
  requires := (manifest.deps.filter fun d => depPassesFlagPredicates d (defaultFlagNames manifest ++ activeFlags)).filterMap
    requireEntryOf
  srcDir := manifest.srcDir
  source := .milpaKdl

/-- `MilpaKdlEdgeSource::edges_for`: a manifest that cannot be read or parsed requires nothing. -/
def milpaKdlEdges (ctx : EdgeSourceCtx) : EdgeSet :=
  match ctx.tree.manifest? with
  | some manifest => buildEdgesetWithFlags manifest ctx.activeFlags
  | none => ⟨[], [], .milpaKdl⟩

/-- The entry of a line of a `.nimble` file. -/
def nimbleEntryOf : NimbleRequirement → Option RequireEntry
  | .url url refSpec predicates => some (.url ⟨url, refSpec.getD "HEAD", predicates, [], none⟩)
  | .named name constraint predicates =>
    if name = "nim".toList then none else some (.named ⟨name, constraint.getD [], predicates, none⟩)

/-- `NimbleEdgeSource::edges_for`. -/
def nimbleEdges (ctx : EdgeSourceCtx) : Except ResError EdgeSet :=
  match (ctx.tree.findNimble ctx.depName).join with
  | none => .ok ⟨[], [], .nimbleFallback⟩
  | some nm => do
    let srcDir := nm.srcDir.getD []
    rejectIf (!srcDir.isEmpty && containsUnsafeChar srcDir) (.srcDirUnsafe ctx.depName srcDir)
    return ⟨nm.requires.filterMap nimbleEntryOf, srcDir, .nimbleFallback⟩

/-- What a package says of itself: its `milpa.kdl`, else its `.nimble` file. -/
def ownEdges (ctx : EdgeSourceCtx) : Except ResError EdgeSet :=
  if ctx.hasMilpaKdl then .ok (milpaKdlEdges ctx) else nimbleEdges ctx

/-- `MAX_DEP_DECL_SCHEMA_VERSION`. -/
def maxDepDeclSchemaVersion : ℤ := 0

/-- `DepDeclEdgeSource::edges_for_result`. -/
def depDeclEdges (store : DepDeclStore) (pointer : Str) (ctx : EdgeSourceCtx) : Except ResError EdgeSet := do
  let (es, artifactSchemaVersion) ← store pointer
  rejectIf (maxDepDeclSchemaVersion < artifactSchemaVersion) (.depDeclSchemaUnsupported ctx.depName artifactSchemaVersion)
  match ctx.depDeclSchemaVersion with
  | some indexVersion =>
    rejectIf (artifactSchemaVersion ≠ indexVersion) (.depDeclSchemaMismatch ctx.depName artifactSchemaVersion indexVersion)
  | none => pure ()
  return es

/-- An error says that the artifact could not be fetched. -/
def ResError.isDepDeclFetchFailed : ResError → Bool
  | .depDecl code _ => code == "TNG-DEPDECL-FETCH-FAILED".toList
  | _ => false

/-- `PolicyDepDeclSource::edges_for`: unless the policy is strict, an artifact that cannot be fetched is passed over. -/
def policyDepDeclEdges (store : DepDeclStore) (strict : Bool) (pointer : Str) (ctx : EdgeSourceCtx) : Except ResError EdgeSet :=
  match depDeclEdges store pointer ctx with
  | .ok es => .ok es
  | .error e => if e.isDepDeclFetchFailed && !strict then ownEdges ctx else .error e

/-! ### Coordinator -/

/-- `edge_cache`: the sets that are sealed, by origin and precedence of the version. -/
abbrev EdgeCache := SourceId → BTreeMap VersionKey EdgeSet

/-- The sources of `resolve_edges`, in their order. -/
def sourcedEdges (store : Option DepDeclStore) (strict : Bool) (ctx : EdgeSourceCtx) : Except ResError EdgeSet :=
  if ctx.isOverridden then ownEdges ctx
  else
    match ctx.depDecl, store with
    | some pointer, some store => policyDepDeclEdges store strict pointer ctx
    | _, _ => ownEdges ctx

/-- `resolve_edges`. -/
def resolveEdges (store : Option DepDeclStore) (strict : Bool) (version : Version) (ctx : EdgeSourceCtx) (cache : EdgeCache)
    (sourceId : SourceId) : Except ResError (EdgeSet × EdgeCache) :=
  match (cache sourceId).get? version.precedenceKey with
  | some es => .ok (es, cache)
  | none => do
    let es ← sourcedEdges store strict ctx
    return (es, Function.update cache sourceId ((cache sourceId).insert version.precedenceKey es))

/-! ### Declared versions -/

/-- `declared_version_for`. -/
def declaredVersionFor (ctx : EdgeSourceCtx) : Option (Version × VersionSource) :=
  let manifest := if ctx.hasMilpaKdl then ctx.tree.manifest? else none
  let nimble := (ctx.tree.findNimble ctx.depName).join
  ((manifest.bind Manifest.version).map fun v => (v, .manifest)) <|>
    ((nimble.bind NimbleManifest.version).map fun v => (v, .nimble)) <|>
    ((ctx.ref.bind parseVersion).map fun v => (v, .tag)) <|>
    (ctx.version.map fun v => (v, .annotated))

end Milpa.Core

import Milpa.Core.ResError
import Milpa.Types.Manifest

/-!
# Root claims

The part of `binding.rs` that turns the declarations of a root manifest, or of the members
of a workspace, into the claims that `BindingResolver::new` binds, and the two functions
of `resolver.rs` that put the claims of a resolve together.
-/

namespace Milpa.Core

/-- `DEFAULT_REGISTRY_ALIAS`. -/
def defaultRegistryAlias : Str := "tianguis"

/-- `resolved_registry_namespace`. -/
def resolvedRegistryNamespace (name : Str) («namespace» : Option Str) (index : Index) : Option Str :=
  match «namespace» with
  | some ns => some ns
  | none =>
    match Index.lookupBare index name with
    | .found pkg => if pkg.namespace.isEmpty then none else some pkg.namespace
    | _ => none

/-- The coordinate of a package in the registry. -/
def registrySource (name : Str) («namespace» : Option Str) (index : Index) : SourceId :=
  .fetchable (.registry defaultRegistryAlias (resolvedRegistryNamespace name «namespace» index) name)

/-- `override_target_to_raw_origin`. -/
def overrideTargetToRawOrigin (ov : Override) (index : Index) : SourceId :=
  match ov.target with
  | .git url gitRef subpath => .fetchable (.git url (some gitRef) subpath)
  | .local path => .fetchable (.local path)
  | .member memberName => .member memberName
  | .oci registry repository digest subpath => .fetchable (.oci registry repository (some digest) subpath)
  | .tarball url _ _ subpath => .fetchable (.tarball url subpath)
  | .registry name ns => registrySource name ns index

/-- `dep_declared_raw_origin`. -/
def depDeclaredRawOrigin (dep : Dep) (index : Index) : Option SourceId :=
  match dep with
  | .url d => some (.fetchable (.git d.git (some d.gitRef) d.subpath))
  | .named d => some (registrySource d.name d.namespace index)
  | .tarball d => some (.fetchable (.tarball d.url d.subpath))
  | .local d => some (.fetchable (.local d.path))
  | .member _ => none

/-- `overrides_by_name`: the override of a name. -/
def overrideNamed (overrides : List Override) (name : Str) : Option Override :=
  overrides.reverse.find? fun ov => decide (ov.name = name)

/-- The origin that a declaration claims, who claims it and under which name: an override of its bare name goes
before the declaration. -/
def declaredClaim (overrides : List Override) (index : Index) (dep : Dep) : Option (SourceId × Str × Str) :=
  match overrideNamed overrides dep.name with
  | some ov => some (overrideTargetToRawOrigin ov index, "override:" ++ dep.name, dep.name)
  | none => (depDeclaredRawOrigin dep index).map fun raw => (raw, "root", dep.key.solverVar)

/-- The variables of `reconcile_root_claims`. -/
structure Reconciling where
  claims : List Claim
  seenNames : List Str
  seenKeys : List DepKey
  seenKeySource : DepKey → Option SourceId

/-- One round of the loop over the declarations. -/
def reconcileDep (overrides : List Override) (index : Index) (st : Reconciling) (dep : Dep) : Except ResError Reconciling :=
  let seen := { st with seenNames := dep.name :: st.seenNames, seenKeys := dep.key :: st.seenKeys }
  match declaredClaim overrides index dep with
  | none => .ok seen
  | some (raw, claimant, claimName) => do
    let sourceId ← normalizeSourceRes raw
    if dep.key ∈ st.seenKeys then
      match st.seenKeySource dep.key with
      | some prior => if prior = sourceId then return seen else throw (.rootConflict claimName prior sourceId)
      | none => return seen
    else
      return { seen with
        claims := st.claims ++ [⟨claimName, sourceId, true, claimant⟩]
        seenKeySource := Function.update st.seenKeySource dep.key (some sourceId) }

/-- One round of the loop over the overrides. -/
def reconcileOverride (index : Index) (st : Reconciling) (ov : Override) : Except ResError Reconciling :=
  if ov.name ∈ st.seenNames then .ok st
  else do
    let sourceId ← normalizeSourceRes (overrideTargetToRawOrigin ov index)
    return { st with
      claims := st.claims ++ [⟨ov.name, sourceId, true, "override:" ++ ov.name⟩]
      seenNames := ov.name :: st.seenNames }

/-- `reconcile_root_claims`. -/
def reconcileRootClaims (deps : List Dep) (overrides : List Override) (index : Index) : Except ResError (List Claim) := do
  let st ← deps.foldlM (reconcileDep overrides index) ⟨[], [], [], fun _ => none⟩
  let st ← overrides.foldlM (reconcileOverride index) st
  return st.claims

/-! ### The claims of a resolve -/

/-- The declarations of a root manifest. -/
def rootDeps (manifest : Manifest) : List Dep := manifest.deps ++ manifest.devDeps

/-- The overrides that count outside a workspace. -/
def nonMemberOverrides (manifest : Manifest) : List Override := manifest.overrides.filter fun ov => !ov.target.isMember

/-- The claim of the root on its own name. -/
def rootSelfClaim (name : Str) : Claim := ⟨name, .member name, true, "root-self"⟩

/-- The claims of `build_single_binding_resolver`. -/
def singleRootClaims (manifest : Manifest) (index : Index) : Except ResError (List Claim) := do
  let claims ← reconcileRootClaims (rootDeps manifest) (nonMemberOverrides manifest) index
  return claims ++ (manifest.name.map rootSelfClaim).toList

/-- `BindingResolver::new`, where the resolver calls it. -/
def newBindingResolver (claims : List Claim) : Except ResError BindingResolver :=
  match BindingResolver.new claims with
  | some r => .ok r
  | none => .error .assertion

/-- `build_single_binding_resolver`. -/
def buildSingleBindingResolver (manifest : Manifest) (index : Index) : Except ResError BindingResolver := do
  let claims ← singleRootClaims manifest index
  newBindingResolver claims

/-- `LoadedMember`. -/
structure LoadedMember where
  name : Str
  manifest : Manifest
  deriving DecidableEq

/-- `LoadedWorkspace`. -/
structure LoadedWorkspace where
  members : List LoadedMember
  overrides : List Override
  flags : List FlagDecl
  deriving DecidableEq

namespace LoadedWorkspace

/-- `members_by_name`. -/
def memberNames (workspace : LoadedWorkspace) : List Str := workspace.members.map LoadedMember.name

/-- The declarations of the members, less those whose name is a member's. -/
def memberDeps (workspace : LoadedWorkspace) : List Dep :=
  (workspace.members.flatMap fun m => rootDeps m.manifest).filter fun d => decide (d.name ∉ workspace.memberNames)

end LoadedWorkspace

/-- The claim of a member on its own name. -/
def memberClaim (m : LoadedMember) : Claim := ⟨m.name, .member m.name, true, "member"⟩

/-- The claims of `build_workspace_binding_resolver`. -/
def workspaceRootClaims (workspace : LoadedWorkspace) (index : Index) : Except ResError (List Claim) := do
  let claims ← reconcileRootClaims workspace.memberDeps workspace.overrides index
  return workspace.members.map memberClaim ++ claims

/-- `build_workspace_binding_resolver`. -/
def buildWorkspaceBindingResolver (workspace : LoadedWorkspace) (index : Index) : Except ResError BindingResolver := do
  let claims ← workspaceRootClaims workspace index
  newBindingResolver claims

/-- The names of overrides that are also names of members, less those whose target is a member. -/
def memberCollisions (workspace : LoadedWorkspace) : List Override :=
  workspace.overrides.filter fun ov => decide (ov.name ∈ workspace.memberNames) && !ov.target.isMember

/-- The checks that `resolve_workspace_inner` makes before it builds the binding resolver, and what it builds. -/
def resolveWorkspaceBinding (workspace : LoadedWorkspace) (index : Index) : Except ResError BindingResolver := do
  rejectIf (memberCollisions workspace ≠ []) (.overrideMemberCollision (sortByKey id ((memberCollisions workspace).map Override.name)))
  for m in workspace.members do
    for d in rootDeps m.manifest do
      match d with
      | .member md => rejectIf (md.name ∉ workspace.memberNames) (.memberRefUnknown m.name md.name)
      | _ => pure ()
  buildWorkspaceBindingResolver workspace index

/-- `canonical_key_for_requirement`, with a binding resolver. -/
def canonicalKeyForRequirement (name : Str) («namespace» : Option Str) (url : Option Str) (gitRef : Option Str)
    (overrides : List Override) (index : Index) (rootSelfName : Option Str) (r : BindingResolver) :
    Except ResError SolverKey :=
  let dk : DepKey := ⟨name, «namespace»⟩
  if (r.bindings dk).isSome then canonicalForRes r dk
  else if «namespace».isNone ∧ url.isNone ∧ rootSelfName = some name then .ok ⟨canonical (.member name), dk⟩
  else do
    let raw := match overrideNamed overrides name with
      | some ov => overrideTargetToRawOrigin ov index
      | none =>
        match url with
        | some u => .fetchable (.git u gitRef none)
        | none => registrySource name «namespace» index
    let sid ← normalizeSourceRes raw
    return ⟨canonical sid, dk⟩

end Milpa.Core

import Milpa.Core.ResolveRun
import Milpa.Types.Raises

/-!
# What the workers fail with

The provider's own functions, down to the sources of edges, never fail with one of the two
errors that say how the search of the solver ended (`query_errors`), as long as the artifact
store fails with errors of its own.
-/

namespace Milpa.Core

open Solver

/-- An error that says how the solver's search ended. -/
def ResError.ofSolver : ResError → Bool
  | solveConflict _ => true
  | versionUnknownConstrained .. => true
  | _ => false

/-- A computation that fails with other errors only. -/
abbrev Workerly {α : Type} (x : Except ResError α) : Prop := Raises (fun e => e.ofSolver = false) x

/-- The artifact store fails with errors of its own. -/
def StoreErrors (store : Option DepDeclStore) : Prop := ∀ s, store = some s → ∀ pointer, Workerly (s pointer)

/-! ### Names and edges -/

theorem normalizeSourceRes_errors (raw : SourceId) : Workerly (normalizeSourceRes raw) := by
  unfold normalizeSourceRes liftSourceId
  split
  · exact .ok _
  · exact .error rfl

theorem canonicalForRes_errors (r : BindingResolver) (key : DepKey) : Workerly (canonicalForRes r key) := by
  unfold canonicalForRes
  split
  · exact .ok _
  · exact .error rfl

theorem canonicalKeyForRequirement_errors (name : Str) (ns url gitRef : Option Str) (overrides : List Override) (index : Index)
    (rootSelfName : Option Str) (r : BindingResolver) :
    Workerly (canonicalKeyForRequirement name ns url gitRef overrides index rootSelfName r) := by
  unfold canonicalKeyForRequirement
  dsimp only
  refine .ite (canonicalForRes_errors _ _) (.ite (.ok _) ?_)
  exact .bind (normalizeSourceRes_errors _) fun _ => .pure _

theorem nimbleEdges_errors (ctx : EdgeSourceCtx) : Workerly (nimbleEdges ctx) := by
  unfold nimbleEdges
  split
  · exact .ok _
  · exact .bind (.reject rfl) fun _ => .pure _

theorem ownEdges_errors (ctx : EdgeSourceCtx) : Workerly (ownEdges ctx) := .ite (.ok _) (nimbleEdges_errors ctx)

theorem depDeclEdges_errors {store : DepDeclStore} (hstore : ∀ pointer, Workerly (store pointer)) (pointer : Str)
    (ctx : EdgeSourceCtx) : Workerly (depDeclEdges store pointer ctx) := by
  unfold depDeclEdges
  refine .bind (hstore pointer) fun _ => .bind (.reject rfl) fun _ => ?_
  dsimp only
  cases ctx.depDeclSchemaVersion with
  | some indexVersion => exact .bind (.reject rfl) fun _ => .pure _
  | none => exact .pure _

theorem policyDepDeclEdges_errors {store : DepDeclStore} (hstore : ∀ pointer, Workerly (store pointer)) (strict : Bool) (pointer : Str)
    (ctx : EdgeSourceCtx) : Workerly (policyDepDeclEdges store strict pointer ctx) := by
  unfold policyDepDeclEdges
  split
  · exact .ok _
  · rename_i e he
    exact .ite (ownEdges_errors ctx) (.error ((depDeclEdges_errors hstore pointer ctx).spec e he))

theorem sourcedEdges_errors {store : Option DepDeclStore} (hstore : StoreErrors store) (strict : Bool) (ctx : EdgeSourceCtx) :
    Workerly (sourcedEdges store strict ctx) := by
  unfold sourcedEdges
  refine .ite (ownEdges_errors ctx) ?_
  split
  · exact policyDepDeclEdges_errors (hstore _ rfl) strict _ ctx
  · exact ownEdges_errors ctx

theorem resolveEdges_errors {store : Option DepDeclStore} (hstore : StoreErrors store) (strict : Bool) (version : Version)
    (ctx : EdgeSourceCtx) (cache : EdgeCache) (sourceId : SourceId) :
    Workerly (resolveEdges store strict version ctx cache sourceId) := by
  unfold resolveEdges
  split
  · exact .ok _
  · exact .bind (sourcedEdges_errors hstore strict ctx) fun _ => .pure _

/-! ### Extraction -/

variable {ctx : ResolveCtx}

theorem nameFromUrl_errors (url : Str) : Workerly (nameFromUrl url) := by
  unfold nameFromUrl
  exact .bind (.reject rfl) fun _ => .pure _

theorem urlEntryName_errors (u : UrlRequire) : Workerly (urlEntryName u) := by
  unfold urlEntryName
  split
  · exact .ok _
  · exact nameFromUrl_errors _

theorem namedTerm_errors (source : EdgeSource) (n : NamedRequire) : Workerly (namedTerm source n) := by
  unfold namedTerm
  split
  · exact .ok _
  · exact .ite (.error rfl) (.ok _)

theorem namedEntryTerm_errors (source : EdgeSource) (n : NamedRequire) : Workerly (ctx.namedEntryTerm source n) := by
  unfold ResolveCtx.namedEntryTerm
  split
  · exact .ok _
  · exact namedTerm_errors source n

theorem requirementKey_errors (r : BindingResolver) (name : Str) (ns url gitRef : Option Str) :
    Workerly (ctx.requirementKey r name ns url gitRef) := canonicalKeyForRequirement_errors ..

theorem extractEntry_errors (r : BindingResolver) (source : EdgeSource) (acc : Extracting) (e : RequireEntry) :
    Workerly (extractEntry ctx r source acc e) := by
  cases e with
  | url u => exact .bind (urlEntryName_errors u) fun _ => .bind (requirementKey_errors ..) fun _ => .pure _
  | named n =>
    refine .bind (requirementKey_errors ..) fun _ => ?_
    exact .ite (.pure _) (.bind (namedEntryTerm_errors source n) fun _ => .pure _)

theorem edgesetToExtracted_errors (r : BindingResolver) (es : EdgeSet) : Workerly (edgesetToExtracted ctx r es) :=
  .bind (.foldlM (extractEntry_errors r es.source)) fun _ => .pure _

namespace Resolver

theorem requiredEdges_errors (hstore : StoreErrors ctx.depDeclStore) (cache : EdgeCache) (version : Version) (ectx : EdgeSourceCtx)
    (sourceId : SourceId) : Workerly (requiredEdges ctx cache version ectx sourceId) :=
  .ite (resolveEdges_errors hstore ..) (.map (sourcedEdges_errors hstore ..) _)

theorem extractRequires_errors (hstore : StoreErrors ctx.depDeclStore) (σ : ResolveState) (tree : PackageTree) (name : Str)
    (version : Version) (depDecl : Option Str) (schema : Option ℤ) (activeFlags : List Str) (ref : Option Str)
    (annotated : Option Version) (sourceId : SourceId) :
    Workerly (extractRequires ctx σ tree name version depDecl schema activeFlags ref annotated sourceId) := by
  unfold extractRequires
  exact .bind (requiredEdges_errors hstore ..) fun _ => .bind (edgesetToExtracted_errors ..) fun _ => .pure _

/-! ### Fetching -/

theorem fetchAnyTracked_errors (name : Str) (expected : Option Str) (total : ℕ) (provs : List Transport) :
    ∀ idx last, Workerly (fetchAnyTracked ctx name expected total idx last provs) := by
  induction provs with
  | nil => exact fun idx last => .error rfl
  | cons prov provs ih =>
    intro idx last
    rw [fetchAnyTracked]
    split
    · exact ih _ _
    · split
      · exact .ite (.ok _) (.error rfl)
      · exact .ok _

theorem fetchOne_errors (name : Str) (prov : Transport) : Workerly (fetchOne ctx name prov) := by
  unfold fetchOne
  split
  · exact .ok _
  · exact .error rfl

theorem sourceIdForEdgeCache_errors (σ : ResolveState) (name : Str) : Workerly (σ.sourceIdForEdgeCache name) := by
  unfold ResolveState.sourceIdForEdgeCache
  split
  · exact .ok _
  · exact .error rfl

/-! ### Admission -/

theorem checkRegistryShadow_errors (claim : Claim) (index : Index) (isStrict : Bool) :
    Workerly (checkRegistryShadow claim index isStrict) := by
  unfold checkRegistryShadow
  dsimp only
  split
  · exact .ite (.ok _) (.ite (.ok _) (.reject rfl))
  · exact .ite (.ok _) (.ite (.ok _) (.reject rfl))
  · exact .ite (.ok _) (.ite (.ok _) (.reject rfl))
  · exact .ok _

theorem checkRootSelf_errors (item : Item) : Workerly (checkRootSelf ctx item) := by
  unfold checkRootSelf
  split
  · split
    · exact .reject rfl
    · exact .ok _
  · exact .ok _

theorem gateOnly_errors (σ : ResolveState) (item : Item) : Workerly (gateOnly ctx σ item) := by
  unfold gateOnly
  refine .bind (checkRootSelf_errors _) fun _ => .bind (normalizeSourceRes_errors _) fun _ => .bind ?_ fun _ => ?_
  · unfold checkShadow
    split
    · exact .ite (.ok _) (checkRegistryShadow_errors ..)
    · exact .ok _
  · split
    · exact .error rfl
    · exact .error rfl
    · exact .pure _

/-! ### Flags -/

theorem lateKey_errors (r : BindingResolver) (d : Dep) : Workerly (ctx.lateKey r d) := by
  unfold ResolveCtx.lateKey
  split
  · exact requirementKey_errors ..
  · exact requirementKey_errors ..
  · exact requirementKey_errors ..

theorem admitNewly_errors (package : Str) (manifest : Manifest) (old new : List Str) (σ : ResolveState) :
    Workerly (ctx.admitNewly package manifest old new σ) :=
  .foldlM fun acc d => .bind (lateKey_errors acc.1.binding d) fun _ => .pure _

theorem raiseIfFlagConflicts_errors (depName : Str) (flags : List FlagDecl) (active : ActiveFlags) :
    Workerly (raiseIfFlagConflicts depName flags active) := by
  unfold raiseIfFlagConflicts
  split
  · exact .ok _
  · exact .error rfl

theorem fixpointRound_errors (σ : ResolveState) (activations : ℕ) : Workerly (fixpointRound ctx σ activations) := by
  refine .bind (.foldlM fun _ _ => .bind (requirementKey_errors ..) fun _ => .pure _) fun _ => .foldlM fun _ _ => ?_
  unfold roundTarget
  split
  · exact .ok _
  · exact .ite (.ok _) (.ite (.error rfl) (.bind (admitNewly_errors ..) fun _ => .pure _))

theorem checkFlagConflicts_errors (σ : ResolveState) : Workerly (checkFlagConflicts σ) := by
  refine .foldlM fun _ package => ?_
  unfold checkConflictsOf
  split
  · exact raiseIfFlagConflicts_errors ..
  · exact .ok _

/-! ### Workers -/

theorem processUrl_errors (hstore : StoreErrors ctx.depDeclStore) (σ : ResolveState) (dep : UrlDep) : Workerly (processUrl ctx σ dep) := by
  refine .bind (canonicalForRes_errors ..) fun _ => .ite ?_ ?_
  · unfold revisitUrl
    refine .ite (.ok _) ?_
    split
    · exact .ok _
    · exact .ite (.ok _) (.ite (.ok _) (admitNewly_errors ..))
  · unfold visitUrl
    refine .bind (fetchAnyTracked_errors ..) fun _ => .bind ?_ fun _ => ?_
    · unfold checkCommitDate
      split
      · exact .reject rfl
      · exact .ok _
    · exact .bind (sourceIdForEdgeCache_errors ..) fun _ => .bind (extractRequires_errors hstore ..) fun _ => .pure _

theorem processLocal_errors (hstore : StoreErrors ctx.depDeclStore) (σ : ResolveState) (dep : LocalDep) :
    Workerly (processLocal ctx σ dep) :=
  .ite (.ok _) <| .bind (fetchOne_errors ..) fun _ => .bind (sourceIdForEdgeCache_errors ..) fun _ =>
    .bind (extractRequires_errors hstore ..) fun _ => .bind (canonicalForRes_errors ..) fun _ => .pure _

theorem processTarball_errors (hstore : StoreErrors ctx.depDeclStore) (σ : ResolveState) (dep : TarballDep) :
    Workerly (processTarball ctx σ dep) :=
  .ite (.ok _) <| .bind (fetchAnyTracked_errors ..) fun _ => .bind (sourceIdForEdgeCache_errors ..) fun _ =>
    .bind (extractRequires_errors hstore ..) fun _ => .bind (canonicalForRes_errors ..) fun _ => .pure _

theorem processOci_errors (hstore : StoreErrors ctx.depDeclStore) (σ : ResolveState) (dep : OciDep) : Workerly (processOci ctx σ dep) :=
  .bind (.mapError fun _ => rfl) fun _ => .ite (.pure _) <| .bind (fetchOne_errors ..) fun _ =>
    .bind (sourceIdForEdgeCache_errors ..) fun _ => .bind (extractRequires_errors hstore ..) fun _ =>
    .bind (canonicalForRes_errors ..) fun _ => .pure _

theorem enumerateNamed_errors (name : Str) (ns : Option Str) : Workerly (enumerateNamed ctx name ns) := by
  unfold enumerateNamed
  split
  · exact .error rfl
  · dsimp only
    split
    · exact .ite (.error rfl) (.ok _)
    · exact .ok _

theorem processNamed_errors (σ : ResolveState) (name : Str) (ns : Option Str) : Workerly (processNamed ctx σ name ns) :=
  .ite (.pure _) <| .ite (.pure _) <| .ite (.pure _) <| .bind (enumerateNamed_errors name ns) fun _ =>
    .ite (.pure _) <| .bind (canonicalForRes_errors ..) fun _ => .pure _

theorem dispatch_errors (hstore : StoreErrors ctx.depDeclStore) (σ : ResolveState) (item : Item) : Workerly (dispatch ctx σ item) := by
  cases item with
  | url dep => exact processUrl_errors hstore σ dep
  | «local» dep => exact processLocal_errors hstore σ dep
  | tarball dep => exact processTarball_errors hstore σ dep
  | named name constraint ns => exact processNamed_errors σ name ns
  | oci dep => exact processOci_errors hstore σ dep

theorem materializeNamed_errors (hstore : StoreErrors ctx.depDeclStore) (σ : ResolveState) (name : Str) (version : Version)
    (entry : IndexVersion) : Workerly (materializeNamed ctx σ name version entry) := by
  refine .bind (.reject rfl) fun _ => .bind (fetchAnyTracked_errors ..) fun _ => .bind (sourceIdForEdgeCache_errors ..) fun _ =>
    .bind (extractRequires_errors hstore ..) fun _ => .bind ?_ fun _ => .pure _
  unfold checkMaterialized
  split
  · exact raiseIfFlagConflicts_errors ..
  · exact .ok _

/-- **A query fails with an error of a worker.** -/
theorem query_errors (hstore : StoreErrors ctx.depDeclStore) (σ : ResolveState) (package : Str) (version : Version) :
    Workerly (query ctx σ package version) := by
  unfold query
  split
  · exact .ok _
  · split
    · exact materializeNamed_errors hstore ..
    · exact .ok _

end Resolver

end Milpa.Core

import Milpa.Core.FlagTable
import Milpa.Core.LockfileCodec
import Milpa.Core.RootClaimsOrder

/-!
# Sources, told from a lockfile

`check_source_id_preconditions` of `frozen.rs`: without an index, the sources that the root
declares are derived once more, and held against those that a lockfile records. A source
has been normalized when it is recorded, and it is normalized again when it is read; the
declared one is normalized once. So the two agree where a second normalization changes
nothing (`normalizeSource_twice_iff`).
-/

namespace Milpa.Core

/-! ### The second normalization -/

/-- A source that `normalize_source` brings to its normal form in one run: the URL of a Git source is settled. -/
def SettledSource : SourceId → Prop
  | .fetchable (.git url _ _) => Settled url
  | _ => True

instance : DecidablePred SettledSource
  | .fetchable (.git url _ _) => inferInstanceAs (Decidable (Settled url))
  | .fetchable (.oci ..) => .isTrue trivial
  | .fetchable (.tarball ..) => .isTrue trivial
  | .fetchable (.local _) => .isTrue trivial
  | .fetchable (.registry ..) => .isTrue trivial
  | .member _ => .isTrue trivial

theorem normalForm_normalForm_iff (s : SourceId) : normalForm (normalForm s) = normalForm s ↔ SettledSource s := by
  match s with
  | .fetchable (.git url gitRef subpath) =>
    rw [normalForm_git, normalForm_git, SettledSource, ← normalizeGitUrl_twice_iff]
    simp
  | .fetchable (.oci registry repository digest subpath) => exact iff_of_true rfl trivial
  | .fetchable (.tarball url subpath) => exact iff_of_true rfl trivial
  | .fetchable (.local path) => exact iff_of_true rfl trivial
  | .fetchable (.registry registry ns name) => exact iff_of_true rfl trivial
  | .member memberName => exact iff_of_true rfl trivial

/-- **What `normalize_source` gives is accepted again, and is its own normal form just where the source is settled.** -/
theorem normalizeSource_twice_iff {s n : SourceId} (h : normalizeSource s = .ok n) :
    normalizeSource n = .ok n ↔ SettledSource s := by
  obtain ⟨-, rfl⟩ := normalizeSource_eq_ok.mp h
  rw [normalizeSource_of_normalized h, Except.ok.injEq, normalForm_normalForm_iff]

/-! ### The check -/

/-- What the check reports. -/
inductive FrozenSourceError where
  /-- An error of `reconcile_root_claims`. -/
  | claims (e : ResError)
  /-- `FROZEN-REGISTRY-ALIAS-UNRESOLVED`. -/
  | registryAliasUnresolved (name registry : Str)
  /-- `FROZEN-SOURCE-ID-MISMATCH`. -/
  | sourceIdMismatch (name : Str) (declared locked : SourceId)
  deriving DecidableEq

/-- `source_id_matches_declared`: a namespace that is not declared is not compared. -/
def sourceIdMatchesDeclared (declared locked : SourceId) : Bool :=
  match declared, locked with
  | .fetchable (.registry dr dns dn), .fetchable (.registry lr lns ln) =>
    if dr ≠ lr ∨ dn ≠ ln then false
    else
      match dns with
      | some ns => decide (some ns = lns)
      | none => true
  | _, _ => decide (declared = locked)

/-- `declared_by_key`. -/
def declaredByKey (claims : List Claim) : DepKey → Option SourceId :=
  claims.foldl (fun m c => Function.update m (keyFor c) (some c.sourceId)) fun _ => none

/-- The check on the alias of a registry source. -/
def checkRegistryAlias (name : Str) : SourceId → Except FrozenSourceError Unit
  | .fetchable (.registry registry _ _) => rejectIf (registry ≠ defaultRegistryAlias) (.registryAliasUnresolved name registry)
  | _ => .ok ()

/-- One round of the loop over the dependencies of the lockfile. -/
def checkLockedSource (declared : DepKey → Option SourceId) (d : LockedDep) : Except FrozenSourceError Unit :=
  match d.sourceId with
  | none => .ok ()
  | some locked => do
    checkRegistryAlias d.name locked
    match declared ⟨d.name, d.namespace⟩ with
    | none => return ()
    | some sid => rejectIf (sourceIdMatchesDeclared sid locked = false) (.sourceIdMismatch d.name sid locked)

/-- `check_source_id_preconditions`. -/
def checkSourceIdPreconditions (deps : List Dep) (overrides : List Override) (lockfileDeps : List LockedDep) :
    Except FrozenSourceError Unit := do
  let claims ← (reconcileRootClaims deps overrides ⟨[]⟩).mapError .claims
  lockfileDeps.forM (checkLockedSource (declaredByKey claims))

/-- `check_source_id_preconditions_standalone`. -/
def checkSourceIdPreconditionsStandalone (manifest : Manifest) (lockfileDeps : List LockedDep) : Except FrozenSourceError Unit :=
  checkSourceIdPreconditions (rootDeps manifest) (nonMemberOverrides manifest) lockfileDeps

/-- `ws_declared_deps`. -/
def wsDeclaredDeps (workspace : LoadedWorkspace) : List Dep :=
  (workspace.members.flatMap fun m => rootDeps m.manifest).filter fun d => !(decide (d.name ∈ workspace.memberNames) || isMemberDep d)

/-- `check_source_id_preconditions_workspace`. -/
def checkSourceIdPreconditionsWorkspace (workspace : LoadedWorkspace) (lockfileDeps : List LockedDep) : Except FrozenSourceError Unit :=
  checkSourceIdPreconditions (wsDeclaredDeps workspace) workspace.overrides lockfileDeps

/-! ### What passes -/

/-- A registry source has the alias that is known. -/
def AliasKnown (s : SourceId) : Prop := ∀ registry ns name, s = .fetchable (.registry registry ns name) → registry = defaultRegistryAlias

theorem checkRegistryAlias_eq_ok {name : Str} {s : SourceId} : checkRegistryAlias name s = .ok () ↔ AliasKnown s := by
  unfold checkRegistryAlias AliasKnown
  cases s with
  | fetchable origin =>
    cases origin with
    | registry registry ns n =>
      dsimp only
      rw [rejectIf_eq_ok, not_not]
      constructor
      · intro h registry' ns' n' heq
        simp only [SourceId.fetchable.injEq, FetchableOrigin.registry.injEq] at heq
        rw [← heq.1, h]
      · intro h
        exact h registry ns n rfl
    | _ => simp
  | member memberName => simp

theorem checkLockedSource_eq_ok {declared : DepKey → Option SourceId} {d : LockedDep} :
    checkLockedSource declared d = .ok () ↔
      ∀ locked ∈ d.sourceId, AliasKnown locked ∧
        ∀ sid ∈ declared ⟨d.name, d.namespace⟩, sourceIdMatchesDeclared sid locked = true := by
  unfold checkLockedSource
  cases d.sourceId with
  | none => simp
  | some locked =>
    have halias : checkRegistryAlias d.name locked = .ok PUnit.unit ↔ AliasKnown locked := checkRegistryAlias_eq_ok
    dsimp only
    rw [Result.bind_eq_ok]
    simp only [Unique.exists_iff, halias, Option.mem_some_iff, forall_eq']
    cases declared ⟨d.name, d.namespace⟩ with
    | none => simp [Result.pure_eq_ok]
    | some sid => simp

/-- **What passes the check**: the declarations reconcile, and what is recorded for a declared key is what is declared. -/
theorem checkSourceIdPreconditions_eq_ok {deps : List Dep} {overrides : List Override} {lockfileDeps : List LockedDep} :
    checkSourceIdPreconditions deps overrides lockfileDeps = .ok () ↔
      ∃ claims, reconcileRootClaims deps overrides ⟨[]⟩ = .ok claims ∧ ∀ d ∈ lockfileDeps, ∀ locked ∈ d.sourceId,
        AliasKnown locked ∧ ∀ sid ∈ declaredByKey claims ⟨d.name, d.namespace⟩, sourceIdMatchesDeclared sid locked = true := by
  rw [checkSourceIdPreconditions, Result.bind_eq_ok]
  simp only [Result.mapError_eq_ok, Result.forM_eq_ok, checkLockedSource_eq_ok]

end Milpa.Core

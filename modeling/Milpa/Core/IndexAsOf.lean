import Milpa.Core.RegistryLookup
import Milpa.Core.Resolver

/-!
# The index as of a time

A bound on the time of publication hides versions of the index: `process_named` leaves out
those that are not known to be published by then. That is what it does without a bound where
these versions are yanked (`enumerateNamed_asOf`). Nothing else in the resolver tells a yanked
version from another one: the names of packages, and the repositories that a package records,
stay (`checkRegistryShadow_asOf`).
-/

namespace Milpa.Core

open Solver

variable {bound : Timestamp} {index : Index} {pkg : Package} {name : Str} {ns : Option Str}

/-- `published_at` says that the version was there by the bound. -/
def publishedBy (bound : Timestamp) (iv : IndexVersion) : Bool := iv.publishedAt.any fun pa => decide (pa ≤ bound)

/-- A version that is not known to be there by the bound is yanked. -/
def versionAsOf (bound : Timestamp) (iv : IndexVersion) : IndexVersion :=
  if publishedBy bound iv then iv else { iv with yanked := true }

/-- A package, with such versions. -/
def packageAsOf (bound : Timestamp) (pkg : Package) : Package := { pkg with versions := pkg.versions.map (versionAsOf bound) }

/-- An index, with such versions. -/
def indexAsOf (bound : Timestamp) (index : Index) : Index := ⟨index.packages.map (packageAsOf bound)⟩

@[simp] theorem packageAsOf_name : (packageAsOf bound pkg).name = pkg.name := rfl

@[simp] theorem packageAsOf_namespace : (packageAsOf bound pkg).namespace = pkg.namespace := rfl

@[simp] theorem versionAsOf_provenances (iv : IndexVersion) : (versionAsOf bound iv).provenances = iv.provenances := by
  unfold versionAsOf
  split_ifs <;> rfl

/-! ### Lookups -/

/-- What a lookup has found, as of a time. -/
def lookupAsOf (bound : Timestamp) : BareLookup → BareLookup
  | .found pkg => .found (packageAsOf bound pkg)
  | .ambiguous namespaces => .ambiguous namespaces
  | .notFound => .notFound

theorem lookupBare_asOf : Index.lookupBare (indexAsOf bound index) name = lookupAsOf bound (Index.lookupBare index name) := by
  have hfilter : (indexAsOf bound index).packages.filter (fun p => decide (p.name = name)) =
      (index.packages.filter fun p => decide (p.name = name)).map (packageAsOf bound) := List.filter_map
  rw [Index.lookupBare, hfilter, Index.lookupBare]
  generalize index.packages.filter (fun p => decide (p.name = name)) = packages
  rcases packages with _ | ⟨one, _ | ⟨other, rest⟩⟩
  · rfl
  · rfl
  · simp [lookupAsOf]

theorem lookupQualified_asOf {«namespace» : Str} :
    Index.lookupQualified (indexAsOf bound index) «namespace» name =
      (Index.lookupQualified index «namespace» name).map (packageAsOf bound) := List.find?_map

/-- A name leads to the same coordinate. -/
@[simp] theorem registrySource_asOf : registrySource name ns (indexAsOf bound index) = registrySource name ns index := by
  have hresolved : resolvedRegistryNamespace name ns (indexAsOf bound index) = resolvedRegistryNamespace name ns index := by
    cases ns with
    | some ns => rfl
    | none =>
      rw [resolvedRegistryNamespace, lookupBare_asOf, resolvedRegistryNamespace]
      cases Index.lookupBare index name <;> rfl
  rw [registrySource, hresolved, registrySource]

/-! ### What satisfies -/

theorem resolveIn_eq_ok_iff {vs : VersionSet} {constraintDesc : Option Str} {ivs : List IndexVersion} :
    resolveIn pkg name vs constraintDesc = .ok ivs ↔ ivs ≠ [] ∧ ivs = pkg.versions.filter (satisfies vs) := by
  refine ⟨resolveIn_eq_ok, fun ⟨hne, h⟩ => ?_⟩
  rw [resolveIn, satisfying_filterCandidates, ← h]
  rw [if_neg (by simpa using hne)]

/-- A version satisfies as of a time if it satisfies and was there. -/
theorem satisfies_versionAsOf (vs : VersionSet) (iv : IndexVersion) :
    satisfies vs (versionAsOf bound iv) = (satisfies vs iv && publishedBy bound iv) := by
  unfold versionAsOf
  cases publishedBy bound iv with
  | true => simp
  | false => simp [satisfies]

theorem filter_versionAsOf (vs : VersionSet) (versions : List IndexVersion) :
    (versions.map (versionAsOf bound)).filter (satisfies vs) = (versions.filter (satisfies vs)).filter (publishedBy bound) := by
  induction versions with
  | nil => rfl
  | cons iv versions ih =>
    rw [List.map_cons, List.filter_cons, List.filter_cons, ih, satisfies_versionAsOf]
    cases hsatisfies : satisfies vs iv with
    | false => rfl
    | true =>
      rw [Bool.true_and, if_pos rfl, List.filter_cons]
      cases hpublished : publishedBy bound iv with
      | false => rfl
      | true =>
        rw [if_pos rfl, if_pos rfl, versionAsOf, if_pos hpublished]

/-- The versions of a package as of a time. -/
theorem resolveIn_asOf {vs : VersionSet} {constraintDesc : Option Str} {ivs : List IndexVersion} :
    resolveIn (packageAsOf bound pkg) name vs constraintDesc = .ok ivs ↔
      ∃ versions, resolveIn pkg name vs constraintDesc = .ok versions ∧ ivs = versions.filter (publishedBy bound) ∧ ivs ≠ [] := by
  simp only [resolveIn_eq_ok_iff]
  rw [show (packageAsOf bound pkg).versions = pkg.versions.map (versionAsOf bound) from rfl, filter_versionAsOf]
  constructor
  · rintro ⟨hne, rfl⟩
    exact ⟨_, ⟨fun h => hne (by rw [h]; rfl), rfl⟩, rfl, hne⟩
  · rintro ⟨_, ⟨-, rfl⟩, rfl, hne⟩
    exact ⟨hne, rfl⟩

namespace Resolver

/-- The versions of a name as of a time. -/
theorem indexedVersions_asOf {ivs : List IndexVersion} :
    indexedVersions (indexAsOf bound index) name ns = .ok ivs ↔
      ∃ versions, indexedVersions index name ns = .ok versions ∧ ivs = versions.filter (publishedBy bound) ∧ ivs ≠ [] := by
  cases ns with
  | some ns =>
    rw [indexedVersions, Index.resolveNamedAllQualified, lookupQualified_asOf, indexedVersions, Index.resolveNamedAllQualified]
    cases Index.lookupQualified index ns name with
    | none => simp
    | some pkg => exact resolveIn_asOf
  | none =>
    rw [indexedVersions, Index.resolveNamedAll, lookupBare_asOf, indexedVersions, Index.resolveNamedAll]
    cases Index.lookupBare index name with
    | notFound => simp [lookupAsOf]
    | ambiguous namespaces => simp [lookupAsOf]
    | found pkg => exact resolveIn_asOf

theorem indexedVersions_ne_nil {versions : List IndexVersion} (h : indexedVersions index name ns = .ok versions) : versions ≠ [] := by
  cases ns with
  | some ns =>
    rw [indexedVersions, Index.resolveNamedAllQualified] at h
    cases hpkg : Index.lookupQualified index ns name with
    | none =>
      rw [hpkg] at h
      cases h
    | some pkg =>
      rw [hpkg] at h
      exact (resolveIn_eq_ok_iff.mp h).1
  | none =>
    rw [indexedVersions, Index.resolveNamedAll] at h
    cases hbare : Index.lookupBare index name with
    | notFound =>
      rw [hbare] at h
      cases h
    | ambiguous namespaces =>
      rw [hbare] at h
      cases h
    | found pkg =>
      rw [hbare] at h
      exact (resolveIn_eq_ok_iff.mp h).1

/-- A resolve as of a time: without a bound, in the index as of then. -/
def asOf (bound : Timestamp) (ctx : ResolveCtx) : ResolveCtx := { ctx with index := indexAsOf bound ctx.index, excludeNewer := none }

variable {ctx : ResolveCtx}

/-- Without a bound, all versions of the index are enumerated. -/
theorem enumerateNamed_unbounded (h : ctx.excludeNewer = none) {ivs : List IndexVersion} :
    enumerateNamed ctx name ns = .ok ivs ↔ indexedVersions ctx.index name ns = .ok ivs := by
  rw [enumerateNamed, h]
  cases indexedVersions ctx.index name ns <;> simp [filterByExcludeNewer]

/-- **A bound enumerates what there is without a bound as of then.** -/
theorem enumerateNamed_asOf (hbound : ctx.excludeNewer = some bound) {ivs : List IndexVersion} :
    enumerateNamed ctx name ns = .ok ivs ↔ enumerateNamed (asOf bound ctx) name ns = .ok ivs := by
  have hplain : enumerateNamed (asOf bound ctx) name ns = .ok ivs ↔ indexedVersions (indexAsOf bound ctx.index) name ns = .ok ivs :=
    enumerateNamed_unbounded rfl
  rw [hplain, indexedVersions_asOf, enumerateNamed, hbound]
  cases hversions : indexedVersions ctx.index name ns with
  | error e => simp
  | ok versions =>
    have hkept : filterByExcludeNewer versions (some bound) =
        (versions.filter (publishedBy bound), versions.length - (versions.filter (publishedBy bound)).length) := rfl
    simp only [hkept, Except.ok.injEq, exists_eq_left']
    by_cases hempty : versions.filter (publishedBy bound) = []
    · have hdropped : 0 < versions.length - (versions.filter (publishedBy bound)).length := by
        rw [hempty]
        exact List.length_pos_of_ne_nil (indexedVersions_ne_nil hversions)
      rw [if_pos ⟨hdropped, hempty⟩]
      simp [hempty]
    · rw [if_neg fun h => hempty h.2]
      constructor
      · rintro h
        cases h
        exact ⟨rfl, hempty⟩
      · rintro ⟨rfl, -⟩
        rfl

/-! ### Who owns a name -/

theorem namesakes_asOf : namesakes (indexAsOf bound index) name = (namesakes index name).map (packageAsOf bound) := by
  rw [namesakes, lookupBare_asOf, namesakes]
  cases Index.lookupBare index name with
  | notFound => rfl
  | found pkg => rfl
  | ambiguous namespaces =>
    show namespaces.filterMap (fun ns => Index.lookupQualified (indexAsOf bound index) ns name) = _
    simp only [lookupQualified_asOf, List.map_filterMap]

theorem recordsUrl_asOf (url : Str) : recordsUrl (packageAsOf bound pkg) url = recordsUrl pkg url := by
  unfold recordsUrl packageAsOf
  simp [List.any_map, Function.comp_def]

/-- The registry owns the same names, and records the same repositories. -/
theorem checkRegistryShadow_asOf (claim : Claim) (isStrict : Bool) :
    checkRegistryShadow claim (indexAsOf bound index) isStrict = checkRegistryShadow claim index isStrict := by
  have howning : owningName ∘ packageAsOf bound = owningName := rfl
  simp only [checkRegistryShadow, namesakes_asOf, List.isEmpty_map, List.map_map, howning, List.any_map, Function.comp_def,
    recordsUrl_asOf]

end Resolver

end Milpa.Core

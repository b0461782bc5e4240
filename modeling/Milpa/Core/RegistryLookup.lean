import Milpa.Core.Registry
import Milpa.Core.RootClaims

/-!
# What lookups in the index give

The lookups of `registry.rs` give the entries of the package that has the name, as far as
they satisfy, and two names for one coordinate give the same package.
-/

namespace Milpa.Core

open Solver

/-- `filter_candidates` takes an entry: it can be read, it is not yanked, it satisfies, and it says where it is. -/
def satisfies (vs : VersionSet) (iv : IndexVersion) : Bool :=
  (parseVersion iv.version).any fun v => !iv.yanked && vs.contains v && !iv.provenances.isEmpty

/-- The entries that satisfy, in their order. -/
theorem satisfying_filterCandidates (versions : List IndexVersion) (vs : VersionSet) :
    (filterCandidates versions vs).satisfying = versions.filter (satisfies vs) := by
  have step : ∀ (c : Candidates) (iv : IndexVersion), (filterCandidate vs c iv).satisfying =
      c.satisfying ++ if satisfies vs iv then [iv] else [] := by
    intro c iv
    unfold filterCandidate satisfies
    cases parseVersion iv.version with
    | none => simp
    | some v => cases hyanked : iv.yanked <;> cases hin : vs.contains v <;> cases hprov : iv.provenances.isEmpty <;> simp [hin]
  have run : ∀ (l : List IndexVersion) (c : Candidates),
      (l.foldl (filterCandidate vs) c).satisfying = c.satisfying ++ l.filter (satisfies vs) := by
    intro l
    induction l with
    | nil => simp
    | cons iv l ih =>
      intro c
      rw [List.foldl_cons, ih, step, List.append_assoc, List.filter_cons]
      split_ifs <;> rfl
  exact run versions _

/-- What `resolve_named_all` gives: the entries of the package that satisfy, of which there are some. -/
theorem resolveIn_eq_ok {pkg : Package} {name : Str} {vs : VersionSet} {constraintDesc : Option Str}
    {ivs : List IndexVersion} (h : resolveIn pkg name vs constraintDesc = .ok ivs) :
    ivs ≠ [] ∧ ivs = pkg.versions.filter (satisfies vs) := by
  unfold resolveIn at h
  dsimp only at h
  split_ifs at h with hempty
  obtain rfl := Except.ok.inj h
  exact ⟨by simpa using hempty, satisfying_filterCandidates _ _⟩

theorem lookupQualified_eq_some {index : Index} {«namespace» name : Str} {pkg : Package}
    (h : Index.lookupQualified index «namespace» name = some pkg) :
    pkg ∈ index.packages ∧ pkg.name = name ∧ pkg.namespace = «namespace» := by
  have hp := List.find?_some h
  simp only [Bool.and_eq_true, decide_eq_true_eq] at hp
  exact ⟨List.mem_of_find?_eq_some h, hp⟩

/-- A name that is found without a namespace is found with the namespace of its package. -/
theorem lookupQualified_of_lookupBare {index : Index} {name : Str} {pkg : Package}
    (h : Index.lookupBare index name = .found pkg) : Index.lookupQualified index pkg.namespace name = some pkg := by
  unfold Index.lookupBare at h
  split at h
  · simp at h
  · next one hone =>
    obtain rfl := BareLookup.found.inj h
    have hmem : one ∈ index.packages.filter fun p => decide (p.name = name) := by rw [hone]; exact List.mem_singleton_self _
    obtain ⟨hpkg, hname⟩ := List.mem_filter.mp hmem
    obtain ⟨q, hq⟩ : ∃ q, Index.lookupQualified index one.namespace name = some q :=
      Option.isSome_iff_exists.mp (List.find?_isSome.mpr ⟨one, hpkg, by simpa using hname⟩)
    obtain ⟨hqmem, hqname, -⟩ := lookupQualified_eq_some hq
    have hqone : q ∈ [one] := by rw [← hone]; exact List.mem_filter.mpr ⟨hqmem, by simpa using hqname⟩
    rw [hq, List.mem_singleton.mp hqone]
  · simp at h

/-! ### The package of a name -/

/-- The package that the index has for a name. -/
def packageNamed (index : Index) (name : Str) : Option Str → Option Package
  | some ns => Index.lookupQualified index ns name
  | none =>
    match Index.lookupBare index name with
    | .found pkg => some pkg
    | _ => none

theorem mem_of_packageNamed {index : Index} {name : Str} {ns : Option Str} {pkg : Package}
    (h : packageNamed index name ns = some pkg) :
    pkg ∈ index.packages := by
  cases ns with
  | some ns => exact (lookupQualified_eq_some h).1
  | none =>
    simp only [packageNamed] at h
    split at h
    · rename_i found hbare
      obtain rfl := Option.some.inj h
      exact (lookupQualified_eq_some (lookupQualified_of_lookupBare hbare)).1
    · cases h

/-- A name without a namespace leads to the same package as with the namespace that it stands for. -/
theorem packageNamed_resolved {index : Index} {name : Str} {ns : Option Str} {pkg : Package}
    (h : packageNamed index name ns = some pkg) {resolved : Str} (hns : resolvedRegistryNamespace name ns index = some resolved) :
    packageNamed index name (some resolved) = some pkg := by
  cases ns with
  | some ns =>
    obtain rfl := Option.some.inj hns
    exact h
  | none =>
    unfold packageNamed at h
    unfold resolvedRegistryNamespace at hns
    dsimp only at h hns
    cases hbare : Index.lookupBare index name with
    | notFound => simp [hbare] at h
    | ambiguous namespaces => simp [hbare] at h
    | found pkg' =>
      simp only [hbare, Option.some.injEq] at h
      subst h
      simp only [hbare] at hns
      split_ifs at hns
      obtain rfl := Option.some.inj hns
      exact lookupQualified_of_lookupBare hbare

/-- **Two names of one coordinate have one package.** -/
theorem packageNamed_congr {index : Index} {name name' : Str} {ns ns' : Option Str}
    (hsource : registrySource name ns index = registrySource name' ns' index) {pkg pkg' : Package}
    (h : packageNamed index name ns = some pkg) (h' : packageNamed index name' ns' = some pkg') : pkg = pkg' := by
  simp only [registrySource, SourceId.fetchable.injEq, FetchableOrigin.registry.injEq, true_and] at hsource
  obtain ⟨hns, rfl⟩ := hsource
  cases hresolved : resolvedRegistryNamespace name ns index with
  | some resolved =>
    have hp := packageNamed_resolved h hresolved
    rw [packageNamed_resolved h' (hns ▸ hresolved)] at hp
    exact (Option.some.inj hp).symm
  | none =>
    -- neither of them has a namespace
    cases ns with
    | some ns => cases hresolved
    | none =>
      rw [hresolved] at hns
      cases ns' with
      | some ns' => cases hns
      | none => exact Option.some.inj (h.symm.trans h')

end Milpa.Core

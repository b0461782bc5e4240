import Milpa.Core.Entry

/-!
# The entry points agree

An entry point with a certificate does what its plain counterpart does, and fails as it
does, on the same manifest (`withoutCert_runProvider`). For a workspace they start from the
same manifests. For a package they do not, where no profile is given: the plain one then
filters nothing, and the one with a certificate drops what the default flags do not admit,
as soon as there is a default flag (`filterWithCert_eq_iff`).
-/

namespace Milpa.Core.Resolver

open Solver

variable {host : Host} {opts : ResolveOpts} {manifest : Manifest} {profile : Option Profile}

/-! ### Steps of an outcome -/

/-- A step of an outcome that ends well has ended well. -/
theorem Outcome.bind_eq_ok {ε α β : Type} {x : Outcome ε α} {f : α → Outcome ε β} {b : β} (h : (x >>= f).run = some (.ok b)) :
    ∃ a, x.run = some (.ok a) ∧ (f a).run = some (.ok b) := by
  rw [ExceptT.run_bind] at h
  obtain ⟨r, hr, h⟩ := Option.bind_eq_some_iff.mp h
  cases r with
  | error e => cases h
  | ok a => exact ⟨a, hr, h⟩

/-- A step that ends. -/
theorem Outcome.of_lift {ε α : Type} {x : Except ε α} {a : α} (h : (liftM x : Outcome ε α).run = some (.ok a)) : x = .ok a :=
  Option.some.inj h

/-! ### Certificates left out -/

section WithoutCert

variable {ε γ α β κ : Type}

/-- An outcome, less its certificates. -/
def withoutCert (x : Outcome (ε × γ) (α × κ)) : Outcome ε α :=
  ExceptT.mk (x.run.map fun r =>
    match r with
    | .ok (a, _) => .ok a
    | .error (e, _) => .error e)

/-- A step without a certificate stays in front. -/
theorem withoutCert_bind (x : Outcome ResError β) (f : β → Outcome (ResError × FailureCert) (α × κ)) :
    withoutCert (noCert x >>= f) = x >>= fun b => withoutCert (f b) :=
  match x with
  | none => rfl
  | some (.error _) => rfl
  | some (.ok _) => rfl

theorem withoutCert_pure (a : α) (cert : κ) : withoutCert (pure (a, cert) : Outcome (ε × γ) (α × κ)) = pure a := rfl

theorem withoutCert_throw (e : ε) (cert : γ) : withoutCert (throw (e, cert) : Outcome (ε × γ) (α × κ)) = throw e := rfl

end WithoutCert

/-! ### The tails -/

theorem withoutCert_conclude (p : Provider) (c : Config) (search : Search) (solution : Solution) :
    withoutCert (concludeWithCert host opts p c search solution) = conclude host opts p c search solution := by
  simp only [concludeWithCert, conclude, withoutCert_bind, withoutCert_pure]

/-- A failure of `solve` is that of `solve_with_refutation`, without the refutation. -/
theorem solveWithRefutation_fst (result : PubGrubResult) :
    (solveWithRefutation host result).mapError Prod.fst = solve host result := by
  cases result <;> rfl

/-- **With one provider, the tails agree.** -/
theorem withoutCert_runProvider (p : Provider) :
    withoutCert (runProviderWithCert host opts p) = runProvider host opts p := by
  simp only [runProviderWithCert, runProvider, withoutCert_bind]
  refine bind_congr fun c => bind_congr fun search => ?_
  rw [← solveWithRefutation_fst]
  cases hsolve : solveWithRefutation host search.result with
  | ok solution => exact withoutCert_conclude p c search solution
  | error failure =>
    obtain ⟨e, refutation⟩ := failure
    cases e with
    | conflict narration => rfl
    | versionUnknownConstrained package constrainers => rfl

/-! ### The filters -/

/-- The loop keeps what is active. -/
theorem mem_flagEnablesLoop {flags : List FlagDecl} {f : Str} {n : ℕ} {active worklist : List Str} (h : f ∈ active) :
    f ∈ flagEnablesLoop flags n active worklist := by
  induction n generalizing active worklist with
  | zero => exact h
  | succ n ih =>
    cases worklist with
    | nil => exact h
    | cons g worklist => exact ih (List.mem_append_left _ h)

/-- A flag that is on by default is active. -/
theorem defaultSeed_subset (flags : List FlagDecl) : defaultSeed flags ⊆ flagEnablesClosure flags (defaultSeed flags) :=
  fun _ => mem_flagEnablesLoop

/-- A profile is given, or no flag is on by default, or those that are on admit every dependency of the root. -/
def DefaultsAdmit (manifest : Manifest) (profile : Option Profile) : Prop :=
  profile.isSome ∨ defaultSeed manifest.flags = [] ∨
    ∀ d ∈ rootDeps manifest, depPassesFlagPredicates d (flagEnablesClosure manifest.flags (defaultSeed manifest.flags)) = true

/-- A manifest keeps all its dependencies exactly when all pass. -/
theorem retainDeps_eq_self {keep : Dep → Bool} : retainDeps keep manifest = manifest ↔ ∀ d ∈ rootDeps manifest, keep d = true := by
  constructor
  · intro h d hd
    rcases List.mem_append.mp hd with hd | hd
    · exact List.filter_eq_self.mp (congrArg Manifest.deps h) d hd
    · exact List.filter_eq_self.mp (congrArg Manifest.devDeps h) d hd
  · intro h
    have hdeps : manifest.deps.filter keep = manifest.deps :=
      List.filter_eq_self.mpr fun d hd => h d (List.mem_append_left _ hd)
    have hdev : manifest.devDeps.filter keep = manifest.devDeps :=
      List.filter_eq_self.mpr fun d hd => h d (List.mem_append_right _ hd)
    rw [retainDeps, hdeps, hdev]

/-- **The two entry points for a package resolve the same manifest exactly when the default flags drop nothing.** -/
theorem filterWithCert_eq_iff :
    filterWithCert manifest profile = filterWithFeatures manifest profile none ↔ DefaultsAdmit manifest profile := by
  cases profile with
  | some p => simp [filterWithCert, filterWithFeatures, DefaultsAdmit]
  | none =>
    have hnone : filterWithFeatures manifest none none = manifest := rfl
    rw [hnone, DefaultsAdmit]
    by_cases hseed : defaultSeed manifest.flags = []
    · simp [filterWithCert, filterManifest, FilterCtx.build, hseed]
    · have hactive : flagEnablesClosure manifest.flags (defaultSeed manifest.flags) ≠ [] := fun h =>
        hseed (List.eq_nil_of_subset_nil (h ▸ defaultSeed_subset manifest.flags))
      have hkeep : filterWithCert manifest none = retainDeps
          (depPassesFlagPredicates · (flagEnablesClosure manifest.flags (defaultSeed manifest.flags))) manifest := by
        have hbuild : FilterCtx.build manifest none none =
            ⟨none, flagEnablesClosure manifest.flags (defaultSeed manifest.flags)⟩ := by
          simp [FilterCtx.build, hseed]
        rw [filterWithCert, hbuild, filterManifest, if_neg (by simpa using hactive)]
        rfl
      rw [hkeep, retainDeps_eq_self]
      simp [hseed]

/-! ### The claim -/

/-- A package with a flag that is on by default, and a dependency under another one. -/
def gatedUser : Manifest :=
  { Manifest.initial with
    flags := [⟨"base", true, [], [], [], [], []⟩, ⟨"extra", false, [], [], [], [], []⟩]
    deps := [.local ⟨"helper", "../helper", [⟨"flag", ["extra"], false⟩], none⟩] }

/-- A package with that dependency, without a condition. -/
def plainUser : Manifest :=
  { gatedUser with deps := [.local ⟨"helper", "../helper", [], none⟩] }

/-- The search in a small world: every package has one candidate, and no other package is excluded by it. -/
def takeAll (_ : ResolveCtx) (_ : Strategy) (_ : Bool) (σ : ResolveState) : Option Search :=
  some ⟨.solution (σ.candidates.entries.foldl (fun m e => match e.2.entries.head? with
    | some (_, v, _) => m.insert e.1 v
    | none => m) BTreeMap.empty), σ, none⟩

/-- A world with the helper. -/
def helperHost : Host where
  index := none
  depDeclStore := none
  fetch := fetchFrom [("../helper", treeOf "sha256:h" Manifest.initial)]
  rootTree := treeOf [] Manifest.initial
  memberTree _ := treeOf [] Manifest.initial
  createDirAll := none
  pubgrub := takeAll
  report _ := []
  checkImportSlots _ := .ok ()
  fuel := 40

/-- A resolve without anything special. -/
def plainOpts : ResolveOpts := ⟨none, .maxver, false, false, none, none⟩

/-- The number of packages in the graph of an outcome. -/
def graphSize (x : Outcome ResError (List ResolvedDep)) : Option ℕ :=
  match x.run with
  | some (.ok graph) => some graph.length
  | _ => none

/-- **Where the default flags drop nothing, the two entry points for a package agree, whatever they find around them; those for
a workspace always do.** -/
theorem entry_points_agree (host : Host) (opts : ResolveOpts) (h : DefaultsAdmit manifest profile) :
    withoutCert (resolveWithCert host opts manifest profile) = resolveWithFeatures host opts manifest profile .none ∧
      ∀ workspace profile sel, withoutCert (resolveWorkspaceWithCert host opts workspace profile sel) =
        resolveWorkspaceWithFeatures host opts workspace profile sel := by
  refine ⟨?_, fun workspace profile sel => ?_⟩
  · have hselect : selectFeatures manifest .none = .ok none := rfl
    rw [resolveWithCert, resolveWithFeatures, hselect, withoutCert_bind, filterWithCert_eq_iff.mpr h]
    exact bind_congr withoutCert_runProvider
  · simp only [resolveWorkspaceWithCert, resolveWorkspaceWithFeatures, resolveWorkspaceInner, withoutCert_bind,
      withoutCert_runProvider]

/-- A package without conditions, in a world with what it needs: both entry points give a graph with one package. -/
theorem entry_points_agree_plain :
    DefaultsAdmit plainUser none ∧ graphSize (resolveWithFeatures helperHost plainOpts plainUser none .none) = some 1 ∧
      withoutCert (resolveWithCert helperHost plainOpts plainUser none) =
        resolveWithFeatures helperHost plainOpts plainUser none .none := by
  have hadmit : DefaultsAdmit plainUser none := .inr (.inr (by decide))
  exact ⟨ hadmit, by decide, (entry_points_agree helperHost plainOpts hadmit).1⟩

/-- The dependency is in the graph of the one and not in that of the other. -/
theorem gated_dependency_dropped :
    ¬ ∀ (host : Host) (opts : ResolveOpts) (manifest : Manifest) (profile : Option Profile),
      withoutCert (resolveWithCert host opts manifest profile) = resolveWithFeatures host opts manifest profile .none := by
  intro h
  have hplain : graphSize (resolveWithFeatures helperHost plainOpts gatedUser none .none) = some 1 := by decide
  have hcert : graphSize (withoutCert (resolveWithCert helperHost plainOpts gatedUser none)) = some 0 := by decide
  rw [h, hplain] at hcert
  cases hcert

end Milpa.Core.Resolver

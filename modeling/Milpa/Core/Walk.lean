import Milpa.Core.SeedCases

/-!
# Running the resolver

The steps of `ResolveRun` as a function: until the solver takes over, a configuration has
at most one next one. Runs that are written down are computed with it. The fetcher of
such a run is a list of trees with the places where they lie.
-/

namespace Milpa.Core.Resolver

open Solver Result

variable {ctx : ResolveCtx} {c c' : Config}

/-- The next configuration: `none` where the solver decides. -/
def next (ctx : ResolveCtx) (c : Config) : Except ResError (Option Config) :=
  match c.tasks with
  | .gate (q :: items) survivors :: rest =>
    match gateOnly ctx c.state q.2 with
    | .error e => .error e
    | .ok (some item, σ) =>
      let admitted := (Config.admittedOrigin ctx q, item)
      .ok (some { c with state := σ, tasks := .gate items (survivors ++ [admitted]) :: rest, admitted := c.admitted ++ [admitted] })
    | .ok (none, σ) => .ok (some { c with state := σ, tasks := .gate items survivors :: rest })
  | .gate [] survivors :: rest => .ok (some { c with tasks := survivors.map .dispatch ++ rest })
  | .dispatch q :: rest =>
    match dispatch ctx c.state q.2 with
    | .error e => .error e
    | .ok (σ, items) =>
      .ok (some { c with
        state := σ
        tasks := .gate (items.map fun item => (.transitive, item)) [] :: rest
        dispatched := c.dispatched ++ [q] })
  | [] =>
    match c.phase with
    | .walk => .ok (some { c with phase := .fixpoint 0 0 })
    | .fixpoint iters activations =>
      if iters < maxIters then
        match fixpointRound ctx c.state activations with
        | .error e => .error e
        | .ok r =>
          if r.anyChange then
            .ok (some { c with state := r.state, tasks := [.gate r.items []], phase := .fixpoint (iters + 1) r.activations })
          else (checkFlagConflicts c.state).map fun _ => some { c with phase := .solve }
      else .error .fixpointIterations
    | .solve => .ok none

/-- A next configuration is one step away. -/
theorem step_of_next (h : next ctx c = .ok (some c')) : Step ctx c c' := by
  unfold next at h
  split at h
  · rename_i q items survivors rest htasks
    split at h
    · cases h
    · rename_i item σ hgate
      cases h
      exact .gate htasks hgate
    · rename_i σ hgate
      cases h
      exact .suppress htasks hgate
  · rename_i survivors rest htasks
    cases h
    exact .admitted htasks
  · rename_i q rest htasks
    split at h
    · cases h
    · rename_i σ items hwork
      cases h
      exact .dispatch htasks hwork
  · rename_i htasks
    split at h
    · rename_i hphase
      cases h
      exact .startFixpoint htasks hphase
    · rename_i iters activations hphase
      split_ifs at h with hiters
      split at h
      · cases h
      · rename_i r hround
        split_ifs at h with hchange
        · cases h
          exact .round htasks hphase hiters hround hchange
        · obtain ⟨⟨⟩, hconflicts, h⟩ := map_eq_ok.mp h
          cases h
          exact .startSolve htasks hphase hiters hround (by simpa using hchange) hconflicts
    · cases h

/-- As many steps, each from a configuration that passes the check. -/
def runFor (check : Config → Bool) (ctx : ResolveCtx) : ℕ → Config → Option Config
  | 0, c => some c
  | n + 1, c =>
    if check c then
      match next ctx c with
      | .ok (some c) => runFor check ctx n c
      | _ => none
    else none

/-- What is computed is a run. -/
theorem runWhere_of_runFor {check : Config → Bool} {meets : Config → Prop} (hmeets : ∀ c, check c = true → meets c) {n : ℕ}
    (h : runFor check ctx n c = some c') : RunWhere meets ctx c c' := by
  induction n generalizing c with
  | zero =>
    cases h
    exact .refl
  | succ n ih =>
    rw [runFor] at h
    split_ifs at h with hcheck
    split at h
    · rename_i c₁ hnext
      exact .head ⟨hmeets c hcheck, step_of_next hnext⟩ (ih h)
    · cases h

/-- The next configuration where the solver decides: it asks for a version of a package. -/
def queried (ctx : ResolveCtx) (c : Config) (package : Str) (version : Version) : Option Config :=
  match c.tasks, c.phase, query ctx c.state package version with
  | [], .solve, .ok (σ, items) => some { c with state := σ, tasks := [.gate (items.map fun item => (.transitive, item)) []] }
  | _, _, _ => none

theorem step_of_queried {package : Str} {version : Version} (h : queried ctx c package version = some c') : Step ctx c c' := by
  unfold queried at h
  split at h
  · rename_i htasks hphase hquery
    cases h
    exact .query htasks hphase hquery
  · cases h

/-! ### Small worlds -/

/-- The place that a transport names. -/
def placeOf : Transport → Str
  | .git url _ _ => url
  | .tarball url _ _ => url
  | .local path => path
  | .oci registry repository digest _ => registry ++ '/' :: repository ++ '@' :: digest

/-- A fetcher of trees that lie at places. -/
def fetchFrom (trees : List (Str × PackageTree)) (_ : Str) (transport : Transport) : Except (Str × Str) (PackageTree × Receipt) :=
  match trees.find? fun t => decide (t.1 = placeOf transport) with
  | some (_, tree) => .ok (tree, Receipt.empty)
  | none => .error ("FETCH-FAILED", placeOf transport)

/-- The tree of a package with a manifest. -/
def treeOf (contentHash : Str) (manifest : Manifest) : PackageTree := ⟨contentHash, some (some manifest), BTreeMap.empty⟩

/-- A resolve of a package comes, in so many checked steps, to a configuration that is looked for. -/
def comesTo (check : Config → Bool) (env : ResolveCtx) (manifest : Manifest) (n : ℕ) (good : Config → Bool) : Bool :=
  match startPackage env manifest (treeOf [] manifest) with
  | .ok c =>
    match runFor check (packageCtx env manifest (treeOf [] manifest)) n c with
    | some c => good c
    | none => false
  | .error _ => false

/-- What is computed is reached. -/
theorem runWhere_of_comesTo {check good : Config → Bool} {meets : Config → Prop} (hmeets : ∀ c, check c = true → meets c)
    {env : ResolveCtx} {manifest : Manifest} {n : ℕ} (h : comesTo check env manifest n good = true) :
    ∃ c₀ c, Starts (packageCtx env manifest (treeOf [] manifest)) c₀ ∧
      RunWhere meets (packageCtx env manifest (treeOf [] manifest)) c₀ c ∧ good c = true := by
  unfold comesTo at h
  split at h
  · rename_i c₀ hstart
    split at h
    · rename_i c hrun
      exact ⟨c₀, c, .package hstart, runWhere_of_runFor hmeets hrun, h⟩
    · cases h
  · cases h

theorem run_of_comesTo {good : Config → Bool} {env : ResolveCtx} {manifest : Manifest} {n : ℕ}
    (h : comesTo (fun _ => true) env manifest n good = true) :
    ∃ c₀ c, Starts (packageCtx env manifest (treeOf [] manifest)) c₀ ∧
      Run (packageCtx env manifest (treeOf [] manifest)) c₀ c ∧ good c = true := by
  obtain ⟨c₀, c, hstart, hrun, hgood⟩ := runWhere_of_comesTo (fun _ _ => trivial) h
  exact ⟨c₀, c, hstart, RunWhere.run hrun, hgood⟩

end Milpa.Core.Resolver

import Milpa.Core.Audit
import Milpa.Core.GraphExact

/-!
# The attestation policy

Under the strict policy no package may be resolved from its `.nimble` file. The check
looks for such edge sets in the cache, which is not where a package has its own from: an
edge set that is extracted for requested flags is not sealed in it, and one that is sealed
stays there when the solver leaves its package. So the check finds the edge sets that were
taken without flags, whether they are used or not (`Audit.passes_iff`).
-/

namespace Milpa.Core.Resolver

open Solver Result

variable {ctx : ResolveCtx} {σ : ResolveState} {c₀ : Config} {a : Audit} {solution : Solution}

/-! ### The check -/

/-- The sources that were discovered, each with the name that it is shown under. -/
def shownSources (σ : ResolveState) : List (SourceId × Str) :=
  σ.discoveryOrder.filterMap fun n =>
    let dk := σ.depkeyForSolvedName n
    (σ.binding.bindings dk).map fun sid => (sid, dk.solverVar)

/-- `name_by_source_id`: the first name stands. -/
def nameBySourceId (σ : ResolveState) (sid : SourceId) : Option Str :=
  ((shownSources σ).find? fun e => decide (e.1 = sid)).map Prod.snd

/-- `nimble_fallback_names`. -/
def nimbleFallbackNames (σ : ResolveState) : List Str :=
  sortByKey id (((shownSources σ).map Prod.fst).flatMap fun sid => (σ.edgeCache sid).entries.filterMap fun e =>
    (nameBySourceId σ sid).filter fun name => decide (name ≠ root ∧ e.2.source = .nimbleFallback)).dedup

/-- `enforce_attestation_policy_strict`; the warning of the other policies is not kept. -/
def enforceAttestationPolicyStrict (σ : ResolveState) (isStrict : Bool) : Except ResError Unit :=
  rejectIf (isStrict = true ∧ nimbleFallbackNames σ ≠ []) (.unattestedMetadata (nimbleFallbackNames σ))

/-- The check can name a source. -/
def named (σ : ResolveState) (sid : SourceId) : Bool := (nameBySourceId σ sid).any fun name => decide (name ≠ root)

/-- What the strict check looks for: a sealed edge set of a source that it can name. -/
theorem enforce_eq_ok_iff :
    enforceAttestationPolicyStrict σ true = .ok () ↔
      ∀ sid key es, (σ.edgeCache sid).get? key = some es → es.source = .nimbleFallback → named σ sid = false := by
  have hempty : nimbleFallbackNames σ = [] ↔ ∀ name, name ∉ nimbleFallbackNames σ := List.eq_nil_iff_forall_not_mem
  rw [enforceAttestationPolicyStrict, rejectIf_eq_ok, not_and, not_not, hempty]
  have hmem : ∀ name, name ∈ nimbleFallbackNames σ ↔ ∃ sid key es, (σ.edgeCache sid).get? key = some es ∧
      es.source = .nimbleFallback ∧ nameBySourceId σ sid = some name ∧ name ≠ root := by
    intro name
    rw [nimbleFallbackNames, (sortByKey_perm id _).mem_iff, List.mem_dedup, List.mem_flatMap]
    constructor
    · rintro ⟨sid, -, hmem⟩
      obtain ⟨⟨key, es⟩, hes, hname⟩ := List.mem_filterMap.mp hmem
      obtain ⟨hname, hp⟩ := Option.filter_eq_some_iff.mp hname
      obtain ⟨hroot, hsource⟩ := of_decide_eq_true hp
      exact ⟨sid, key, es, BTreeMap.mem_entries.mp hes, hsource, hname, hroot⟩
    · rintro ⟨sid, key, es, hes, hsource, hname, hroot⟩
      obtain ⟨e, he, -⟩ := Option.map_eq_some_iff.mp hname
      have hsid : e.1 = sid := by simpa using List.find?_some he
      refine ⟨sid, List.mem_map.mpr ⟨e, List.mem_of_find?_eq_some he, hsid⟩, List.mem_filterMap.mpr
        ⟨(key, es), BTreeMap.mem_entries.mpr hes, Option.filter_eq_some_iff.mpr ⟨hname, decide_eq_true ⟨hroot, hsource⟩⟩⟩⟩
  constructor
  · intro h sid key es hes hsource
    cases hname : nameBySourceId σ sid with
    | none =>
      rw [named, hname]
      rfl
    | some name =>
      rw [named, hname]
      refine decide_eq_false fun hroot => ?_
      exact h rfl name ((hmem name).mpr ⟨sid, key, es, hes, hsource, hname, hroot⟩)
  · intro h _ name hname
    obtain ⟨sid, key, es, hes, hsource, hname, hroot⟩ := (hmem name).mp hname
    have hnone := h sid key es hes hsource
    rw [named, hname] at hnone
    exact of_decide_eq_false hnone hroot

namespace Audit

/-! ### What the check decides -/

/-- A package of the solution, other than the root and the members, has its edges from its `.nimble` file. -/
def OnFallback (ctx : ResolveCtx) (a : Audit) (solution : Solution) : Prop :=
  ∃ e ∈ solution.entries, e.1 ≠ root ∧ e.1 ∉ ctx.memberNames.map (fun name => canonical (.member name)) ∧
    ∃ t ∈ a.lastTaking e.1 e.2, t.edges.source = .nimbleFallback

/-- Some package, in the solution or not, was taken from its `.nimble` file while no flag of it was requested, and the check can
name its source. -/
def TookUnflagged (a : Audit) : Prop :=
  ∃ t ∈ a.takings, t.edges.source = .nimbleFallback ∧ t.ectx.activeFlags = [] ∧ named a.config.state t.sourceId = true

/-- What the check decides. -/
theorem passes_iff (hstart : Starts ctx c₀) (hrun : Run ctx (start c₀) a) :
    enforceAttestationPolicyStrict a.config.state true = .ok () ↔ ¬ a.TookUnflagged := by
  have hsealed := sealed_of_run hstart hrun
  rw [enforce_eq_ok_iff]
  constructor
  · rintro h ⟨t, ht, hsource, hflags, hnamed⟩
    obtain ⟨key, hkey⟩ := hsealed.kept t ht hflags
    rw [h t.sourceId key t.edges hkey hsource] at hnamed
    cases hnamed
  · intro h sid key es hes hsource
    obtain ⟨t, ht, hflags, rfl, rfl⟩ := hsealed.taken sid key es hes
    exact Bool.eq_false_iff.mpr fun hnamed => h ⟨t, ht, hsource, hflags, hnamed⟩

instance : Decidable (OnFallback ctx a solution) :=
  inferInstanceAs (Decidable (∃ e ∈ solution.entries, e.1 ≠ root ∧ e.1 ∉ ctx.memberNames.map (fun name => canonical (.member name)) ∧
    ∃ t ∈ a.lastTaking e.1 e.2, t.edges.source = .nimbleFallback))

instance : Decidable a.TookUnflagged :=
  inferInstanceAs (Decidable (∃ t ∈ a.takings, t.edges.source = .nimbleFallback ∧ t.ectx.activeFlags = [] ∧
    named a.config.state t.sourceId = true))

/-! ### The claim -/

/-- A root that depends on a library, with requests for flags. -/
def flagUser (requests : List FlagRequest) : Manifest :=
  { Manifest.initial with
    name := some "app"
    deps := [.url { urlDep "lib" "https://h/lib" "main" none with flagRequests := requests }] }

/-- The tree of a library that has no manifest, but a `.nimble` file. -/
def nimbleTree : PackageTree :=
  let file : Str := "lib.nimble"
  ⟨"sha256:l", none, BTreeMap.empty.insert file (some ⟨[.url "https://h/extra" none []], none, none⟩)⟩

/-- A strict world with the library and what it requires. -/
def nimbleWorld : ResolveCtx :=
  { ResolveCtx.offline with
    strictAttestation := true
    fetch := fetchFrom [("https://h/lib", nimbleTree), ("https://h/extra", treeOf "sha256:e" Manifest.initial)] }

/-- The root, the library and what it requires. -/
def nimbleSolution : Solution :=
  let rootKey : Str := root
  let lib : Str := "git+https://h/lib#ref=main"
  let extra : Str := "git+https://h/extra#ref=HEAD"
  ((BTreeMap.empty.insert rootKey rootVersion).insert lib urlDepVersion).insert extra urlDepVersion

/-- A solver may end with a solution: it has been asked to, and the solution is closed and has a graph. -/
structure Ends (a : Audit) (solution : Solution) : Prop where
  tasks : a.config.tasks = []
  phase : a.config.phase = .solve
  closed : Closed a.config.state solution
  graph : ∃ graph, graphOf a.config.state solution none = .ok graph

/-- A resolve in that world ends with the solution, and this is looked for in it. -/
def libraryComes (requests : List FlagRequest) (good : ResolveCtx → Audit → Bool) : Bool :=
  let ctx := packageCtx nimbleWorld (flagUser requests) (treeOf [] (flagUser requests))
  match startPackage nimbleWorld (flagUser requests) (treeOf [] (flagUser requests)) with
  | .ok c =>
    let a := (start c).follow ctx 40
    match graphOf a.config.state nimbleSolution none with
    | .ok _ =>
      decide (a.config.tasks = []) && decide (a.config.phase = .solve) && decide (Closed a.config.state nimbleSolution) && good ctx a
    | .error _ => false
  | .error _ => false

theorem run_of_libraryComes {requests : List FlagRequest} {good : ResolveCtx → Audit → Bool} (h : libraryComes requests good = true) :
    ∃ ctx c₀ a, Starts ctx c₀ ∧ Run ctx (start c₀) a ∧ a.Ends nimbleSolution ∧ good ctx a = true := by
  unfold libraryComes at h
  dsimp only at h
  split at h
  · rename_i c₀ hstart
    split at h
    · rename_i graph hgraph
      simp only [Bool.and_eq_true, decide_eq_true_eq] at h
      obtain ⟨⟨⟨htasks, hphase⟩, hclosed⟩, hgood⟩ := h
      exact ⟨_, c₀, _, .package hstart, run_follow 40 _, ⟨htasks, hphase, hclosed, graph, hgraph⟩, hgood⟩
    · cases h
  · cases h

end Audit

end Milpa.Core.Resolver

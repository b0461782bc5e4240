import Milpa.Core.Honoured
import Milpa.Core.Walk

/-!
# Where paths and archives come from

A package that is fetched may declare dependencies on local directories and on archives,
but its edges carry `git` and named ones only, so that the walk never dispatches them. Two
loops read the manifest of a fetched package again, when more flags are asked for, and
queue what the flags admit of whatever kind (`PathsGated`). In a run in which they do not,
what is dispatched with a path comes from the root, from a member or from an override
(`dispatched_path_not_transitive`).
-/

namespace Milpa.Core.Resolver

open Solver Result

variable {ctx : ResolveCtx} {σ σ' : ResolveState} {items : List Item} {c c' : Config}

/-- A local directory or an archive. -/
def IsPath : Item → Prop
  | .local _ => True
  | .tarball _ => True
  | _ => False

instance : DecidablePred IsPath
  | .local _ => isTrue trivial
  | .tarball _ => isTrue trivial
  | .url _ => isFalse id
  | .named .. => isFalse id
  | .oci _ => isFalse id

/-- None of the dependencies becomes an item with a path. -/
def NoPathItem (ctx : ResolveCtx) (σ : ResolveState) (deps : List Dep) : Prop :=
  ∀ d ∈ deps, ∀ item ∈ ctx.lateItem σ d, ¬ IsPath item

/-- The loops that read the manifest of a fetched package again queue no path of it: neither the union of flags for a
place seen before, nor a round of the fixpoint for any of its targets. -/
structure PathsGated (ctx : ResolveCtx) (c : Config) : Prop where
  union : ∀ origin dep rest svar, c.tasks = .dispatch (origin, .url dep) :: rest →
    (dep.git, dep.gitRef, dep.subpath) ∈ c.state.seenUrl → c.state.binding.canonicalFor (.bare dep.name) = some svar →
    NoPathItem ctx c.state (unitedDeps c.state dep svar)
  round : ∀ iters activations requests done target rest acc, c.tasks = [] → c.phase = .fixpoint iters activations →
    additionalRequests ctx c.state = .ok requests → requests.entries = done ++ target :: rest →
    done.foldlM (roundTarget ctx c.state) ⟨c.state, [], false, activations⟩ = .ok acc →
    (fetchedManifest c.state target.1).isSome = true → NoPathItem ctx c.state (roundDeps c.state acc target)

/-- An item with a path does not come from a fetched package. -/
def OwnPath (q : Queued) : Prop := IsPath q.2 → q.1 ≠ .transitive

/-! ### Items of an extraction -/

/-- An extraction gives `git` and named items. -/
theorem ExtractedWith.not_isPath {r : BindingResolver} {ex : Extracted} (h : ExtractedWith ctx r ex) :
    ∀ item ∈ ex.subItems, ¬ IsPath item := by
  obtain ⟨es, ex₀, dv, hex, rfl⟩ := h
  obtain ⟨acc, hacc, hex⟩ := bind_eq_ok.mp hex
  obtain rfl := pure_eq_ok.mp hex
  refine foldlM_invariant (P := fun acc => ∀ item ∈ acc.items, ¬ IsPath item) hacc (by simp) fun acc e acc' h he => ?_
  have hitem : ∃ l, acc'.items = acc.items ++ l ∧ ∀ item ∈ l, ¬ IsPath item := by
    cases e with
    | url u =>
      obtain ⟨depName, -, he⟩ := bind_eq_ok.mp he
      obtain ⟨k, -, he⟩ := bind_eq_ok.mp he
      obtain rfl := pure_eq_ok.mp he
      refine ⟨[urlEntryItem depName u], ?_, by simp [urlEntryItem, IsPath]⟩
      rw [items_addPredicates]
      split_ifs <;> rfl
    | named n =>
      obtain ⟨k, -, he⟩ := bind_eq_ok.mp he
      split_ifs at he
      · obtain rfl := pure_eq_ok.mp he
        exact ⟨[], by simp, by simp⟩
      · obtain ⟨vs, -, he⟩ := bind_eq_ok.mp he
        obtain rfl := pure_eq_ok.mp he
        exact ⟨[.named n.name vs n.namespace], by simp [Extracting.addItem, Extracting.addTerm], by simp [IsPath]⟩
  obtain ⟨l, hl, hpath⟩ := hitem
  intro item hmem
  rw [hl] at hmem
  exact (List.mem_append.mp hmem).elim (h item) (hpath item)

/-- The items that late dependencies become. -/
theorem not_isPath_of_noPathItem {deps : List Dep} (h : NoPathItem ctx σ deps) :
    ∀ item ∈ deps.flatMap fun d => (ctx.lateItem σ d).toList, ¬ IsPath item := by
  intro item hitem
  obtain ⟨d, hd, hitem⟩ := List.mem_flatMap.mp hitem
  exact h d hd item (Option.mem_toList.mp hitem)

/-- A worker finds no item with a path, unless it unites the flags of a place seen before. -/
theorem not_isPath_of_dispatch {item : Item} (h : dispatch ctx σ item = .ok (σ', items))
    (hunion : ∀ dep svar, item = .url dep → (dep.git, dep.gitRef, dep.subpath) ∈ σ.seenUrl →
      σ.binding.canonicalFor (.bare dep.name) = some svar → NoPathItem ctx σ (unitedDeps σ dep svar)) :
    ∀ found ∈ items, ¬ IsPath found := by
  cases item with
  | url dep =>
    obtain ⟨svar, hsvar, ⟨hseen, h⟩ | ⟨-, h⟩⟩ := processUrl_cases h
    · obtain ⟨-, rfl | rfl⟩ := revisitUrl_cases h
      · simp
      · exact not_isPath_of_noPathItem (hunion dep svar rfl hseen hsvar)
    · obtain ⟨tree, ex, cache, provenance, mirrors, hex, -, rfl⟩ := visitUrl_cases h
      exact hex.not_isPath
  | «local» dep =>
    obtain ⟨-, -, rfl⟩ | ⟨-, svar, tree, ex, cache, -, hex, -, rfl⟩ := processLocal_cases h
    · simp
    · exact hex.not_isPath
  | tarball dep =>
    obtain ⟨-, -, rfl⟩ | ⟨-, svar, tree, ex, cache, provenance, -, hex, -, rfl⟩ := processTarball_cases h
    · simp
    · exact hex.not_isPath
  | named name constraint ns =>
    obtain ⟨rfl, -⟩ := processNamed_cases h
    simp
  | oci dep =>
    obtain ⟨-, -, rfl⟩ | ⟨-, svar, tree, ex, cache, -, hex, -, rfl⟩ := processOci_cases h
    · simp
    · exact hex.not_isPath

/-! ### Runs -/

/-- An item keeps its origin, or an override gives it another one. -/
theorem ownPath_applyOverride {q : Queued} (h : OwnPath q) : OwnPath (Config.admittedOrigin ctx q, applyOverride ctx q.2) := by
  unfold OwnPath Config.admittedOrigin at *
  by_cases hsame : applyOverride ctx q.2 = q.2
  · rw [if_pos hsame]
    dsimp only
    rwa [hsame]
  · rw [if_neg hsame]
    simp

/-- **Every gated step keeps the origins of paths.** -/
theorem ownPath_step (hgated : PathsGated ctx c) (h : ∀ q, q ∈ c.queued ∨ q ∈ c.dispatched → OwnPath q) (hstep : Step ctx c c') :
    ∀ q, q ∈ c'.queued ∨ q ∈ c'.dispatched → OwnPath q := by
  have htransitive : ∀ {l : List Item}, (∀ item ∈ l, ¬ IsPath item) →
      ∀ q ∈ l.map fun item => ((.transitive, item) : Queued), OwnPath q := by
    intro l hl q hq
    obtain ⟨item, hitem, rfl⟩ := List.mem_map.mp hq
    exact fun hpath => absurd hpath (hl item hitem)
  cases hstep with
  | @gate q items survivors rest item σ htasks hgate =>
    obtain rfl := (bound_of_gateOnly hgate).1
    have hnew : OwnPath (Config.admittedOrigin ctx q, applyOverride ctx q.2) :=
      ownPath_applyOverride (h q (Or.inl (by simp [Config.queued, htasks, Task.queued])))
    intro q' hq'
    by_cases heq : q' = (Config.admittedOrigin ctx q, applyOverride ctx q.2)
    · rw [heq]
      exact hnew
    · apply h
      simp only [Config.queued, htasks, List.flatMap_cons, Task.queued, List.mem_append, List.mem_cons] at hq' ⊢
      simp only [List.not_mem_nil, or_false, heq] at hq'
      tauto
  | @suppress q items survivors rest σ htasks hgate =>
    intro q' hq'
    apply h
    simp only [Config.queued, htasks, List.flatMap_cons, Task.queued, List.mem_append, List.mem_cons] at hq' ⊢
    tauto
  | @admitted survivors rest htasks =>
    intro q' hq'
    apply h
    simpa only [Config.queued, htasks, List.flatMap_cons, Task.queued, List.flatMap_append, queued_dispatches,
      List.nil_append] using hq'
  | @dispatch q rest σ items htasks hwork =>
    have hq : OwnPath q := h q (Or.inl (by simp [Config.queued, htasks, Task.queued]))
    have hnew := htransitive (not_isPath_of_dispatch hwork fun dep svar hitem =>
      hgated.union q.1 dep rest svar (by rw [htasks, ← hitem]))
    intro q' hq'
    simp only [Config.queued, List.flatMap_cons, Task.queued, List.mem_append, List.append_nil, List.mem_singleton] at hq'
    rcases hq' with (hq' | hq') | hq' | rfl
    · exact hnew q' hq'
    · exact h q' (Or.inl (by simp [Config.queued, htasks, hq']))
    · exact h q' (Or.inr hq')
    · exact hq
  | startFixpoint htasks hphase => exact h
  | @round iters activations r htasks hphase hiters hround hchange =>
    obtain ⟨requests, hrequests, -, hfound⟩ := fixpointRound_cases hround
    intro q' hq'
    simp only [Config.queued, List.flatMap_cons, List.flatMap_nil, Task.queued, List.append_nil] at hq'
    rcases hq' with hq' | hq'
    · obtain ⟨done, target, rest, acc, hentries, hdone, horigin, d, hd, hlate⟩ := hfound q' hq'
      intro hpath htrans
      rw [horigin, lateOrigin] at htrans
      split_ifs at htrans with hfetched
      exact hgated.round iters activations requests done target rest acc htasks hphase hrequests hentries hdone hfetched
        d hd q'.2 hlate hpath
    · exact h q' (Or.inr hq')
  | startSolve htasks hphase hiters hround hchange hconflicts => exact h
  | @query package version σ items htasks hphase hquery =>
    have hnew : ∀ found ∈ items, ¬ IsPath found := by
      obtain ⟨-, rfl⟩ | ⟨-, entry, -, hmat⟩ := query_cases hquery
      · simp
      · obtain ⟨tree, ex, cache, -, -, hex, -, rfl⟩ := materializeNamed_cases hmat
        exact hex.not_isPath
    intro q' hq'
    simp only [Config.queued, List.flatMap_cons, List.flatMap_nil, Task.queued, List.append_nil] at hq'
    rcases hq' with hq' | hq'
    · exact htransitive hnew q' hq'
    · exact h q' (Or.inr hq')

/-! ### A world with a secret -/

/-- A dependency on `git` at a URL and `main`, with flags asked for. -/
def gitDep (name url : Str) (requests : List FlagRequest) : Dep :=
  .url { urlDep name url "main" none with flagRequests := requests }

/-- A package with a flag `tls` under which it depends on a directory of its user. -/
def secretive : Manifest :=
  { Manifest.initial with
    name := some "a"
    flags := [⟨"tls", false, [], [], [], [], []⟩]
    deps := [.local ⟨"creds", "/home/u/creds", [⟨"flag", ["tls"], false⟩], none⟩] }

/-- A package that asks `secretive` for the flag. -/
def asking : Manifest := { Manifest.initial with name := some "b", deps := [gitDep "a" "https://h/a" [⟨"tls", true⟩]] }

/-- A root that depends on both, with a directory of its own. -/
def trusting : Manifest :=
  { Manifest.initial with
    name := some "app"
    deps := [gitDep "a" "https://h/a" [], gitDep "b" "https://h/b" [], .local ⟨"own", "own", [], none⟩] }

/-- What there is to fetch. -/
def secretWorld : ResolveCtx :=
  { ResolveCtx.offline with
    fetch := fetchFrom [("https://h/a", treeOf "sha256:a" secretive), ("https://h/b", treeOf "sha256:b" asking),
      ("/home/u/creds", treeOf "sha256:c" Manifest.initial), ("own", treeOf "sha256:d" Manifest.initial)] }

/-- The walk is on, and the next step does not come to a place that was seen before. -/
def walksOn (c : Config) : Bool :=
  decide (c.phase = .walk) &&
    match c.tasks with
    | .dispatch (_, .url dep) :: _ => decide ((dep.git, dep.gitRef, dep.subpath) ∉ c.state.seenUrl)
    | _ => true

theorem pathsGated_of_walksOn (h : walksOn c = true) : PathsGated ctx c := by
  obtain ⟨hphase, htask⟩ := (Bool.and_eq_true _ _).mp h
  constructor
  · intro origin dep rest svar htasks hseen
    rw [htasks] at htask
    exact absurd hseen (of_decide_eq_true htask)
  · intro iters activations requests done target rest acc _ hfixpoint
    rw [of_decide_eq_true hphase] at hfixpoint
    cases hfixpoint

/-! ### The claim -/

/-- **In a run whose steps are gated, no path that is dispatched comes from a fetched package.** -/
theorem dispatched_path_not_transitive {c₀ : Config} (hstart : Starts ctx c₀) (hrun : RunWhere (PathsGated ctx) ctx c₀ c) :
    ∀ q ∈ c.dispatched, IsPath q.2 → q.1 ≠ .transitive := by
  obtain ⟨r, σ, queue, -, rfl, -, hqueue, -⟩ := starts_cases hstart
  have hinv : ∀ q, q ∈ c.queued ∨ q ∈ c.dispatched → OwnPath q := by
    refine hrun.invariant ?_ fun c c' hgated h hstep => ownPath_step hgated h hstep
    intro q hq _
    apply hqueue
    simpa [Config.start, Config.queued, Task.queued] using hq
  exact fun q hq => hinv q (Or.inr hq)

/-- A root with a dependency on `a` and on a directory of its own. -/
theorem dispatched_path_not_transitive_own :
    ∃ ctx c₀ c, Starts ctx c₀ ∧ RunWhere (PathsGated ctx) ctx c₀ c ∧ (∃ q ∈ c.dispatched, IsPath q.2) ∧
      ∀ q ∈ c.dispatched, IsPath q.2 → q.1 ≠ .transitive := by
  let root := { trusting with deps := [gitDep "a" "https://h/a" [], .local ⟨"own", "own", [], none⟩] }
  have hcomes : comesTo walksOn secretWorld root 6 (fun c => c.dispatched.any fun q => decide (IsPath q.2)) = true := by
    decide
  obtain ⟨c₀, c, hstart, hrun, hpath⟩ := runWhere_of_comesTo (fun _ => pathsGated_of_walksOn) hcomes
  refine ⟨_, c₀, c, hstart, hrun, ?_, dispatched_path_not_transitive hstart hrun⟩
  simpa using hpath

/-- A second package that asks for a flag of the first one makes the resolver read a directory that the first one names. -/
theorem transitive_path_dispatched :
    ¬ ∀ ctx c₀ c, Starts ctx c₀ → Run ctx c₀ c → ∀ q ∈ c.dispatched, IsPath q.2 → q.1 ≠ .transitive := by
  intro h
  have hcomes : comesTo (fun _ => true) secretWorld trusting 13 (fun c =>
      c.dispatched.any fun q => decide (IsPath q.2 ∧ q.1 = .transitive)) = true := by
    decide
  obtain ⟨c₀, c, hstart, hrun, hfound⟩ := run_of_comesTo hcomes
  obtain ⟨q, hq, hbad⟩ := List.any_eq_true.mp hfound
  obtain ⟨hpath, htransitive⟩ := of_decide_eq_true hbad
  exact h _ c₀ c hstart hrun q hq hpath htransitive

end Milpa.Core.Resolver

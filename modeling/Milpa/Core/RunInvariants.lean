import Milpa.Core.WorkerCases

/-!
# Invariants of runs

What every step of a resolve keeps: what is bound stays bound, an item that is admitted is
bound to its source, and the workers leave the bindings alone. A property of runs is proved
for one step, and `RunWhere.invariant` carries it along.
-/

namespace Milpa.Core.Resolver

open Solver Result

variable {ctx : ResolveCtx} {σ σ' : ResolveState} {items : List Item} {c c' : Config}

/-! ### Runs -/

/-- A run whose steps all start from configurations that meet a condition. -/
def RunWhere (meets : Config → Prop) (ctx : ResolveCtx) : Config → Config → Prop :=
  Relation.ReflTransGen fun c c' => meets c ∧ Step ctx c c'

theorem RunWhere.run {meets : Config → Prop} (h : RunWhere meets ctx c c') : Run ctx c c' :=
  Relation.ReflTransGen.mono (fun _ _ h => h.2) _ _ h

/-- The invariant rule of runs. -/
theorem Run.invariant {inv : Config → Prop} (h : Run ctx c c') (hc : inv c)
    (hstep : ∀ c c', inv c → Step ctx c c' → inv c') : inv c' := by
  induction h with
  | refl => exact hc
  | tail _ h ih => exact hstep _ _ ih h

/-- The invariant rule of runs whose steps meet a condition. -/
theorem RunWhere.invariant {meets inv : Config → Prop} (h : RunWhere meets ctx c c') (hc : inv c)
    (hstep : ∀ c c', meets c → inv c → Step ctx c c' → inv c') : inv c' := by
  induction h with
  | refl => exact hc
  | tail _ h ih => exact hstep _ _ h.1 ih h.2

/-! ### Frames -/

@[simp] theorem binding_recordDiscovery (σ : ResolveState) (key : Str) : (σ.recordDiscovery key).binding = σ.binding := by
  unfold ResolveState.recordDiscovery
  split_ifs <;> rfl

@[simp] theorem binding_seedFlagsOf (tree : PackageTree) (requests : List FlagRequest) (σ : ResolveState) :
    (seedFlagsOf tree requests σ).binding = σ.binding := by
  unfold seedFlagsOf ResolveState.recordFlags
  split
  · split_ifs <;> rfl
  · rfl

@[simp] theorem candidates_seedFlagsOf (tree : PackageTree) (requests : List FlagRequest) (σ : ResolveState) :
    (seedFlagsOf tree requests σ).candidates = σ.candidates := by
  unfold seedFlagsOf ResolveState.recordFlags
  split
  · split_ifs <;> rfl
  · rfl

@[simp] theorem stubs_seedFlagsOf (tree : PackageTree) (requests : List FlagRequest) (σ : ResolveState) :
    (seedFlagsOf tree requests σ).stubs = σ.stubs := by
  unfold seedFlagsOf ResolveState.recordFlags
  split
  · split_ifs <;> rfl
  · rfl

@[simp] theorem edgeCache_seedFlagsOf (tree : PackageTree) (requests : List FlagRequest) (σ : ResolveState) :
    (seedFlagsOf tree requests σ).edgeCache = σ.edgeCache := by
  unfold seedFlagsOf ResolveState.recordFlags
  split
  · split_ifs <;> rfl
  · rfl

@[simp] theorem depsDir_seedFlagsOf (tree : PackageTree) (requests : List FlagRequest) (σ : ResolveState) :
    (seedFlagsOf tree requests σ).depsDir = σ.depsDir := by
  unfold seedFlagsOf ResolveState.recordFlags
  split
  · split_ifs <;> rfl
  · rfl

theorem candidatesOf_congr (h : σ'.candidates = σ.candidates) (package : Str) : σ'.candidatesOf package = σ.candidatesOf package := by
  unfold ResolveState.candidatesOf
  rw [h]

theorem TermsAdded.binding (h : TermsAdded σ σ') : σ'.binding = σ.binding := by rw [h.rest]

theorem binding_visitUrl {dep : UrlDep} {svar : SolverKey} (h : visitUrl ctx σ dep svar = .ok (σ', items)) :
    σ'.binding = σ.binding := by
  obtain ⟨tree, ex, cache, provenance, mirrors, -, rfl, -⟩ := visitUrl_cases h
  exact binding_seedFlagsOf _ _ _

/-- The workers leave the bindings alone. -/
theorem binding_dispatch {item : Item} (h : dispatch ctx σ item = .ok (σ', items)) : σ'.binding = σ.binding := by
  cases item with
  | url dep =>
    obtain ⟨svar, -, ⟨-, h⟩ | ⟨-, h⟩⟩ := processUrl_cases h
    · obtain ⟨rfl | ⟨manifest, -, -, -, hadded⟩, -⟩ := revisitUrl_cases h
      · rfl
      · exact hadded.binding
    · exact (binding_visitUrl h).trans rfl
  | «local» dep =>
    obtain ⟨-, rfl, -⟩ | ⟨-, svar, tree, ex, cache, -, -, rfl, -⟩ := processLocal_cases h
    · rfl
    · rfl
  | tarball dep =>
    obtain ⟨-, rfl, -⟩ | ⟨-, svar, tree, ex, cache, provenance, -, -, rfl, -⟩ := processTarball_cases h
    · rfl
    · rfl
  | named name constraint ns =>
    obtain ⟨-, ⟨-, rfl⟩ | ⟨-, -, rfl⟩ | ⟨-, versions, stubKey, -, -, rfl⟩⟩ := processNamed_cases h
    · rfl
    · rfl
    · rfl
  | oci dep =>
    obtain ⟨-, rfl, -⟩ | ⟨-, svar, tree, ex, cache, -, -, rfl, -⟩ := processOci_cases h
    · rfl
    · rfl

theorem binding_query {package : Str} {version : Version} (h : query ctx σ package version = .ok (σ', items)) :
    σ'.binding = σ.binding := by
  obtain ⟨rfl, -⟩ | ⟨-, entry, -, h⟩ := query_cases h
  · rfl
  · obtain ⟨tree, ex, cache, -, -, -, rfl, -⟩ := materializeNamed_cases h
    exact binding_seedFlagsOf _ _ _

theorem Enriched.binding (h : Enriched σ σ') : σ'.binding = σ.binding := by rw [h.rest]

/-! ### Where candidates are filed -/

/-- A candidate from a local directory, or without a record. -/
def isLocal (c : Candidate) : Bool :=
  match c.provenance with
  | none => true
  | some (.local ..) => true
  | _ => false

/-- A candidate is filed under its name, and one from a local directory has no identity. -/
def Filed (σ : ResolveState) : Prop :=
  ∀ key v c, (σ.candidatesOf key).get? v = some c → c.name = key ∧ (isLocal c = true → c.identity = [])

theorem Filed.storeCandidate (h : Filed σ) {cand : Candidate} (hlocal : isLocal cand = true → cand.identity = []) :
    Filed (σ.storeCandidate cand) := by
  intro key v c hc
  rw [candidatesOf_storeCandidate] at hc
  split_ifs at hc with hkey
  · rw [VersionMap.get?_insert] at hc
    split_ifs at hc
    · cases hc
      exact ⟨hkey.symm, hlocal⟩
    · exact hkey ▸ h _ v c hc
  · exact h key v c hc

theorem filed_congr {τ : ResolveState} (hcandidates : τ.candidates = σ.candidates) (h : Filed σ) : Filed τ := by
  intro key v c hc
  rw [candidatesOf_congr hcandidates] at hc
  exact h key v c hc

theorem Enriched.filed (h : Enriched σ σ') (hfiled : Filed σ) : Filed σ' := by
  intro key v c hc
  have hshape : shapeOf σ key v = some (withoutTerms c) := by
    rw [shapeOf_eq, ← h.shape, ← shapeOf_eq, shapeOf, hc]
    rfl
  obtain ⟨c₀, hc₀, hsame⟩ := Option.map_eq_some_iff.mp hshape
  have hfiled₀ := hfiled key v c₀ hc₀
  have hname : c₀.name = c.name := (congrArg Candidate.name hsame :)
  have hidentity : c₀.identity = c.identity := (congrArg Candidate.identity hsame :)
  have hprovenance : c₀.provenance = c.provenance := (congrArg Candidate.provenance hsame :)
  rwa [hname, hidentity, isLocal, hprovenance] at hfiled₀

theorem filed_seedFlagsOf {tree : PackageTree} {requests : List FlagRequest} (h : Filed σ) : Filed (seedFlagsOf tree requests σ) :=
  filed_congr (candidates_seedFlagsOf tree requests σ) h

theorem filed_afterFetch {τ : ResolveState} {dir : Str} {tree : PackageTree} {cache : EdgeCache} {cand : Candidate}
    (h : Filed σ) (hcandidates : τ.candidates = σ.candidates) (hlocal : isLocal cand = true → cand.identity = []) :
    Filed (afterFetch τ dir tree cache cand) := by
  have hfilled : Filed ({ τ with depsDir := τ.depsDir.insert dir tree, edgeCache := cache } : ResolveState) :=
    filed_congr hcandidates h
  exact hfilled.storeCandidate hlocal

theorem isLocal_fetchedCandidate {svar : SolverKey} {identity : Str} {ex : Extracted} {mirrors : List Str} (record : FetchRecord) :
    isLocal (fetchedCandidate svar identity ex record mirrors) = false := by
  obtain ⟨record, hrecord⟩ := record
  cases record with
  | «local» path origin => exact absurd rfl (hrecord path origin)
  | git => rfl
  | tarball => rfl
  | oci => rfl
  | member => rfl
  | root => rfl

theorem isLocal_materializedCandidate {name : Str} {version : Version} {entry : IndexVersion} {tree : PackageTree} {ex : Extracted}
    (h : entry.provenances ≠ []) : isLocal (materializedCandidate name version entry tree ex) = false := by
  obtain ⟨p, provs, hprovs⟩ := List.exists_cons_of_ne_nil h
  unfold isLocal materializedCandidate
  rw [hprovs]
  cases p <;> rfl

theorem filed_dispatch {item : Item} (hfiled : Filed σ) (h : dispatch ctx σ item = .ok (σ', items)) : Filed σ' := by
  cases item with
  | url dep =>
    obtain ⟨svar, -, ⟨-, h⟩ | ⟨-, h⟩⟩ := processUrl_cases h
    · obtain ⟨rfl | ⟨manifest, -, -, -, hadded⟩, -⟩ := revisitUrl_cases h
      · exact hfiled
      · exact hadded.enriched.filed hfiled
    · obtain ⟨tree, ex, cache, record, mirrors, -, rfl, -⟩ := visitUrl_cases h
      refine filed_seedFlagsOf (filed_afterFetch hfiled rfl ?_)
      simp [isLocal_fetchedCandidate]
  | «local» dep =>
    obtain ⟨-, rfl, -⟩ | ⟨-, svar, tree, ex, cache, -, -, rfl, -⟩ := processLocal_cases h
    · exact hfiled
    · exact filed_afterFetch hfiled rfl fun _ => rfl
  | tarball dep =>
    obtain ⟨-, rfl, -⟩ | ⟨-, svar, tree, ex, cache, record, -, -, rfl, -⟩ := processTarball_cases h
    · exact hfiled
    · refine filed_afterFetch hfiled rfl ?_
      simp [isLocal_fetchedCandidate]
  | named name constraint ns =>
    obtain ⟨-, ⟨-, rfl⟩ | ⟨-, -, rfl⟩ | ⟨-, versions, stubKey, -, -, rfl⟩⟩ := processNamed_cases h
    · exact hfiled
    · exact hfiled
    · exact filed_congr rfl hfiled
  | oci dep =>
    obtain ⟨-, rfl, -⟩ | ⟨-, svar, tree, ex, cache, -, -, rfl, -⟩ := processOci_cases h
    · exact hfiled
    · exact filed_afterFetch hfiled rfl nofun

theorem filed_query {package : Str} {version : Version} (hfiled : Filed σ) (h : query ctx σ package version = .ok (σ', items)) :
    Filed σ' := by
  obtain ⟨rfl, -⟩ | ⟨-, entry, -, h⟩ := query_cases h
  · exact hfiled
  · have hprovs := provenances_ne_nil_of_materializeNamed h
    obtain ⟨tree, ex, cache, -, -, -, rfl, -⟩ := materializeNamed_cases h
    refine filed_seedFlagsOf (filed_congr rfl (filed_afterFetch hfiled rfl ?_))
    simp [isLocal_materializedCandidate hprovs]

theorem filed_gateOnly {item : Item} {out : Option Item} (hfiled : Filed σ) (h : gateOnly ctx σ item = .ok (out, σ')) :
    Filed σ' := by
  obtain ⟨decision, binding, -, -, rfl, -⟩ := gateOnly_cases h
  refine filed_congr ?_ hfiled
  unfold ResolveState.recordDiscovery
  split_ifs <;> rfl

theorem Filed.step (h : Filed c.state) (hstep : Step ctx c c') : Filed c'.state := by
  cases hstep with
  | gate htasks hgate => exact filed_gateOnly h hgate
  | suppress htasks hgate => exact filed_gateOnly h hgate
  | admitted htasks => exact h
  | dispatch htasks hwork => exact filed_dispatch h hwork
  | startFixpoint htasks hphase => exact h
  | round htasks hphase hiters hround hchange =>
    obtain ⟨requests, -, henriched, -⟩ := fixpointRound_cases hround
    exact henriched.filed h
  | startSolve htasks hphase hiters hround hchange hconflicts => exact h
  | query htasks hphase hquery => exact filed_query h hquery

/-! ### What was admitted -/

/-- The items of a call that are admitted, and not dispatched yet. -/
def Task.waiting : Task → List Queued
  | .gate _ survivors => survivors
  | .dispatch q => [q]

/-- The items of a call. -/
def Task.queued : Task → List Queued
  | .gate items survivors => items ++ survivors
  | .dispatch q => [q]

/-- The items that are admitted, and not dispatched yet. -/
def Config.waiting (c : Config) : List Queued := c.tasks.flatMap Task.waiting

/-- The items that are queued. -/
def Config.queued (c : Config) : List Queued := c.tasks.flatMap Task.queued

@[simp] theorem waiting_dispatches (survivors : List Queued) :
    (survivors.map Task.dispatch).flatMap Task.waiting = survivors := by
  induction survivors with
  | nil => rfl
  | cons q l ih => rw [List.map_cons, List.flatMap_cons, ih]; rfl

@[simp] theorem queued_dispatches (survivors : List Queued) :
    (survivors.map Task.dispatch).flatMap Task.queued = survivors := by
  induction survivors with
  | nil => rfl
  | cons q l ih => rw [List.map_cons, List.flatMap_cons, ih]; rfl

/-- What was admitted is bound, and is dispatched sooner or later. -/
structure Books (ctx : ResolveCtx) (c : Config) : Prop where
  tidy : c.state.binding.Tidy
  bound : ∀ q ∈ c.admitted, Bound ctx c.state.binding q.2
  admitted : ∀ q, q ∈ c.admitted ↔ q ∈ c.waiting ∨ q ∈ c.dispatched

theorem Bound.submit {r r' : BindingResolver} {cl : Claim} {res : Except BindingConflict BindingDecision} {item : Item}
    (hb : Bound ctx r item) (h : r.submit cl = some (res, r')) : Bound ctx r' item :=
  ⟨hb.1, BindingResolver.bindings_submit h hb.2⟩

theorem books_start {queue : List Queued} (h : σ.binding.Tidy) : Books ctx (.start σ queue) where
  tidy := h
  bound := by simp [Config.start]
  admitted := by simp [Config.start, Config.waiting, Task.waiting]

/-- The claim of an item that is let through, or not, keeps what is bound. -/
theorem bound_gateOnly {item : Item} {out : Option Item} (h : gateOnly ctx σ item = .ok (out, σ')) (ht : σ.binding.Tidy) :
    σ'.binding.Tidy ∧ ∀ other, Bound ctx σ.binding other → Bound ctx σ'.binding other := by
  obtain ⟨decision, binding, -, hsubmit, rfl, -⟩ := gateOnly_cases h
  rw [binding_recordDiscovery]
  exact ⟨ht.submit hsubmit, fun other hb => hb.submit hsubmit⟩

/-- **Every step keeps the books.** -/
theorem Books.step (h : Books ctx c) (hstep : Step ctx c c') : Books ctx c' := by
  cases hstep with
  | @gate q items survivors rest item σ htasks hgate =>
    obtain ⟨htidy, hkeep⟩ := bound_gateOnly hgate h.tidy
    refine ⟨htidy, fun q' hq' => ?_, fun q' => ?_⟩
    · rcases List.mem_append.mp hq' with hq' | hq'
      · exact hkeep _ (h.bound q' hq')
      · rw [List.mem_singleton.mp hq']
        exact (bound_of_gateOnly hgate).2
    · simp only [List.mem_append, h.admitted, Config.waiting, htasks, List.flatMap_cons, Task.waiting]
      tauto
  | @suppress q items survivors rest σ htasks hgate =>
    obtain ⟨htidy, hkeep⟩ := bound_gateOnly hgate h.tidy
    refine ⟨htidy, fun q' hq' => hkeep _ (h.bound q' hq'), fun q' => ?_⟩
    simp only [h.admitted, Config.waiting, htasks, List.flatMap_cons, Task.waiting]
  | @admitted survivors rest htasks =>
    refine ⟨h.tidy, h.bound, fun q => ?_⟩
    simp only [h.admitted, Config.waiting, htasks, List.flatMap_cons, List.flatMap_append, waiting_dispatches, Task.waiting]
  | @dispatch q rest σ items htasks hwork =>
    have hbinding := binding_dispatch hwork
    refine ⟨by rw [hbinding]; exact h.tidy, by rw [hbinding]; exact h.bound, fun q' => ?_⟩
    simp only [h.admitted, Config.waiting, htasks, List.flatMap_cons, Task.waiting, List.mem_append, List.nil_append]
    tauto
  | startFixpoint htasks hphase => exact ⟨h.tidy, h.bound, h.admitted⟩
  | @round iters activations r htasks hphase hiters hround hchange =>
    obtain ⟨requests, -, henriched, -⟩ := fixpointRound_cases hround
    refine ⟨by rw [henriched.binding]; exact h.tidy, by rw [henriched.binding]; exact h.bound, fun q => ?_⟩
    simp only [h.admitted, Config.waiting, htasks, List.flatMap_cons, List.flatMap_nil, Task.waiting, List.append_nil]
  | startSolve htasks hphase hiters hround hchange hconflicts => exact ⟨h.tidy, h.bound, h.admitted⟩
  | @query package version σ items htasks hphase hquery =>
    have hbinding := binding_query hquery
    refine ⟨by rw [hbinding]; exact h.tidy, by rw [hbinding]; exact h.bound, fun q => ?_⟩
    simp only [h.admitted, Config.waiting, htasks, List.flatMap_cons, List.flatMap_nil, Task.waiting, List.append_nil]

/-- The solver key that a worker gets for a bound item is that of its source. -/
theorem solverKeyOf_eq {r : BindingResolver} (hr : r.Tidy) {item : Item} (hb : Bound ctx r item) {svar : SolverKey}
    (h : r.canonicalFor item.key = some svar) : svar.identity = solverKeyOf ctx item := by
  obtain ⟨s, x, hs, hx, hidentity⟩ := hr.canonicalFor h
  have hkey : DepKey.fromSolverVar item.key.solverVar = item.key := by rw [hx, DepKey.solverVar_fromSolverVar]
  have hbound := hb.2
  rw [hkey, hs] at hbound
  rw [hidentity, Option.some.inj hbound, solverKeyOf]

/-! ### What the walk remembers -/

/-- What the walk remembers of an item. -/
inductive Mark where
  | url (git gitRef : Str) (subpath : Option Str)
  | named (key : DepKey)
  | local (path : Str)
  | tarball (url : Str)
  | oci (key : Str)
  deriving DecidableEq, Repr

/-- The mark of an item: the key of its seen set. -/
def mark : Item → Mark
  | .url dep => .url dep.git dep.gitRef dep.subpath
  | .named name _ ns => .named ⟨name, ns⟩
  | .local dep => .local dep.path
  | .tarball dep => .tarball dep.url
  | .oci dep => .oci (ociKey dep)

/-- The walk remembers a mark. -/
def Seen (σ : ResolveState) : Mark → Prop
  | .url git gitRef subpath => (git, gitRef, subpath) ∈ σ.seenUrl
  | .named key => key ∈ σ.seenNamed
  | .local path => path ∈ σ.seenLocal
  | .tarball url => url ∈ σ.seenTarball
  | .oci key => key ∈ σ.seenOci

theorem seen_seedFlagsOf {tree : PackageTree} {requests : List FlagRequest} {m : Mark} :
    Seen (seedFlagsOf tree requests σ) m ↔ Seen σ m := by
  unfold seedFlagsOf ResolveState.recordFlags
  split
  · split_ifs
    · rfl
    · cases m <;> rfl
  · rfl

theorem Enriched.seen (h : Enriched σ σ') {m : Mark} : Seen σ' m ↔ Seen σ m := by
  rw [h.rest]
  cases m <;> rfl

theorem seen_cons_url {key : Str × Str × Option Str} {m : Mark} (h : Seen { σ with seenUrl := key :: σ.seenUrl } m) :
    Seen σ m ∨ m = .url key.1 key.2.1 key.2.2 := by
  cases m with
  | url git gitRef subpath =>
    refine (List.mem_cons.mp h).symm.imp_right fun heq => ?_
    rw [← heq]
  | named key => exact Or.inl h
  | «local» path => exact Or.inl h
  | tarball url => exact Or.inl h
  | oci key => exact Or.inl h

theorem seen_cons_local {path : Str} {m : Mark} (h : Seen { σ with seenLocal := path :: σ.seenLocal } m) :
    Seen σ m ∨ m = .local path := by
  cases m with
  | «local» path => exact (List.mem_cons.mp h).symm.imp_right (congrArg Mark.local)
  | url git gitRef subpath => exact Or.inl h
  | named key => exact Or.inl h
  | tarball url => exact Or.inl h
  | oci key => exact Or.inl h

theorem seen_cons_tarball {url : Str} {m : Mark} (h : Seen { σ with seenTarball := url :: σ.seenTarball } m) :
    Seen σ m ∨ m = .tarball url := by
  cases m with
  | tarball url => exact (List.mem_cons.mp h).symm.imp_right (congrArg Mark.tarball)
  | url git gitRef subpath => exact Or.inl h
  | named key => exact Or.inl h
  | «local» path => exact Or.inl h
  | oci key => exact Or.inl h

theorem seen_cons_oci {key : Str} {m : Mark} (h : Seen { σ with seenOci := key :: σ.seenOci } m) :
    Seen σ m ∨ m = .oci key := by
  cases m with
  | oci key => exact (List.mem_cons.mp h).symm.imp_right (congrArg Mark.oci)
  | url git gitRef subpath => exact Or.inl h
  | named key => exact Or.inl h
  | «local» path => exact Or.inl h
  | tarball url => exact Or.inl h

theorem seen_cons_named {key : DepKey} {m : Mark} (h : Seen { σ with seenNamed := key :: σ.seenNamed } m) :
    Seen σ m ∨ m = .named key := by
  cases m with
  | named key => exact (List.mem_cons.mp h).symm.imp_right (congrArg Mark.named)
  | url git gitRef subpath => exact Or.inl h
  | «local» path => exact Or.inl h
  | tarball url => exact Or.inl h
  | oci key => exact Or.inl h

/-- A worker remembers nothing new but the mark of its item. -/
theorem seen_dispatch {item : Item} (h : dispatch ctx σ item = .ok (σ', items)) {m : Mark} (hm : Seen σ' m) :
    Seen σ m ∨ m = mark item := by
  have hfetch : ∀ {τ : ResolveState} {dir : Str} {tree : PackageTree} {cache : EdgeCache} {cand : Candidate},
      Seen (afterFetch τ dir tree cache cand) m → Seen τ m := by
    intro τ dir tree cache cand hm
    cases m <;> exact hm
  cases item with
  | url dep =>
    obtain ⟨svar, -, ⟨-, h⟩ | ⟨-, h⟩⟩ := processUrl_cases h
    · obtain ⟨rfl | ⟨manifest, -, -, -, hadded⟩, -⟩ := revisitUrl_cases h
      · exact Or.inl hm
      · exact Or.inl (hadded.enriched.seen.mp hm)
    · obtain ⟨tree, ex, cache, provenance, mirrors, -, rfl, -⟩ := visitUrl_cases h
      exact seen_cons_url (hfetch (seen_seedFlagsOf.mp hm))
  | «local» dep =>
    obtain ⟨-, rfl, -⟩ | ⟨-, svar, tree, ex, cache, -, -, rfl, -⟩ := processLocal_cases h
    · exact Or.inl hm
    · exact seen_cons_local (hfetch hm)
  | tarball dep =>
    obtain ⟨-, rfl, -⟩ | ⟨-, svar, tree, ex, cache, provenance, -, -, rfl, -⟩ := processTarball_cases h
    · exact Or.inl hm
    · exact seen_cons_tarball (hfetch hm)
  | named name constraint ns =>
    obtain ⟨-, ⟨-, rfl⟩ | ⟨-, -, rfl⟩ | ⟨-, versions, stubKey, -, -, rfl⟩⟩ := processNamed_cases h
    · exact seen_cons_named hm
    · exact Or.inl hm
    · apply seen_cons_named
      cases m <;> exact hm
  | oci dep =>
    obtain ⟨-, rfl, -⟩ | ⟨-, svar, tree, ex, cache, -, -, rfl, -⟩ := processOci_cases h
    · exact Or.inl hm
    · exact seen_cons_oci (hfetch hm)

theorem seen_query {package : Str} {version : Version} (h : query ctx σ package version = .ok (σ', items)) {m : Mark}
    (hm : Seen σ' m) : Seen σ m := by
  obtain ⟨rfl, -⟩ | ⟨-, entry, -, h⟩ := query_cases h
  · exact hm
  · obtain ⟨tree, ex, cache, -, -, -, rfl, -⟩ := materializeNamed_cases h
    rw [seen_seedFlagsOf] at hm
    cases m <;> exact hm

theorem seen_gateOnly {item : Item} {out : Option Item} (h : gateOnly ctx σ item = .ok (out, σ')) {m : Mark} :
    Seen σ' m ↔ Seen σ m := by
  obtain ⟨decision, binding, -, -, rfl, -⟩ := gateOnly_cases h
  unfold ResolveState.recordDiscovery
  split_ifs <;> cases m <;> rfl

/-- Every mark that is remembered was left by an item that was dispatched. -/
def Remembered (c : Config) : Prop := ∀ m, Seen c.state m → ∃ q ∈ c.dispatched, mark q.2 = m

/-- **Every step remembers what it dispatches, and no more.** -/
theorem Remembered.step (h : Remembered c) (hstep : Step ctx c c') : Remembered c' := by
  intro m hm
  cases hstep with
  | gate htasks hgate => exact h m ((seen_gateOnly hgate).mp hm)
  | suppress htasks hgate => exact h m ((seen_gateOnly hgate).mp hm)
  | admitted htasks => exact h m hm
  | @dispatch q rest σ items htasks hwork =>
    rcases seen_dispatch hwork hm with hm | rfl
    · obtain ⟨q', hq', hmark⟩ := h m hm
      exact ⟨q', List.mem_append_left _ hq', hmark⟩
    · exact ⟨q, List.mem_append_right _ (List.mem_singleton_self q), rfl⟩
  | startFixpoint htasks hphase => exact h m hm
  | round htasks hphase hiters hround hchange =>
    obtain ⟨requests, -, henriched, -⟩ := fixpointRound_cases hround
    exact h m (henriched.seen.mp hm)
  | startSolve htasks hphase hiters hround hchange hconflicts => exact h m hm
  | query htasks hphase hquery => exact h m (seen_query hquery hm)

end Milpa.Core.Resolver

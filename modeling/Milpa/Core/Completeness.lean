import Milpa.Core.Walk

/-!
# No item is dropped

An item that is dispatched gets a candidate or a stub under its solver key, or it is
skipped because the walk has seen it before. What the walk remembers of an item (`mark`)
tells less than its solver key: an archive is known by its URL, and an OCI artifact by its
digest, whatever the subpath. So an item can be skipped for another one
(`admitted_registered`).
-/

namespace Milpa.Core.Resolver

open Solver Result

variable {ctx : ResolveCtx} {σ σ' : ResolveState} {items : List Item} {c c' : Config}

/-- A package has a candidate or a stub. -/
def Registered (σ : ResolveState) (package : Str) : Prop :=
  (σ.candidatesOf package).entries ≠ [] ∨ (σ.stubsOf package).entries ≠ []

/-- An item that is about to be dispatched has the solver key of each item with its mark that was dispatched before, and
is not a name for which there is nothing to enumerate: that of the compiler, or that of a member. -/
structure NothingDropped (ctx : ResolveCtx) (c : Config) : Prop where
  marks : ∀ q rest, c.tasks = .dispatch q :: rest → ∀ q' ∈ c.dispatched, mark q'.2 = mark q.2 →
    solverKeyOf ctx q'.2 = solverKeyOf ctx q.2
  enumerated : ∀ origin name vs ns rest, c.tasks = .dispatch (origin, .named name vs ns) :: rest →
    name ≠ "nim".toList ∧ name ∉ ctx.memberNames

/-! ### What is registered stays registered -/

theorem entries_insert_ne_nil {κ : Type*} {ν : Type*} [LinearOrder κ] (m : BTreeMap κ ν) (k : κ) (v : ν) :
    (m.insert k v).entries ≠ [] := by
  have hget : (m.insert k v).get? k = some v := by rw [BTreeMap.get?_insert, if_pos rfl]
  exact List.ne_nil_of_mem (BTreeMap.mem_entries.mpr hget)

theorem entries_extend_ne_nil {ν : Type*} {m : VersionMap ν} {l : List (Version × ν)} (h : m.entries ≠ [] ∨ l ≠ []) :
    (m.extend l).entries ≠ [] := by
  induction l generalizing m with
  | nil => exact h.resolve_right fun hl => hl rfl
  | cons e l ih => exact ih (Or.inl (entries_insert_ne_nil _ _ _))

theorem registered_storeCandidate (σ : ResolveState) (c : Candidate) : Registered (σ.storeCandidate c) c.name := by
  refine Or.inl ?_
  rw [candidatesOf_storeCandidate, if_pos rfl]
  exact entries_insert_ne_nil _ _ _

theorem Registered.storeCandidate {package : Str} (h : Registered σ package) (c : Candidate) :
    Registered (σ.storeCandidate c) package := by
  by_cases hname : package = c.name
  · rw [hname]
    exact registered_storeCandidate σ c
  · refine h.imp (fun hc => ?_) id
    rwa [candidatesOf_storeCandidate, if_neg hname]

theorem registered_congr (hcandidates : σ'.candidates = σ.candidates) (hstubs : σ'.stubs = σ.stubs) {package : Str} :
    Registered σ' package ↔ Registered σ package := by
  unfold Registered ResolveState.candidatesOf ResolveState.stubsOf
  rw [hcandidates, hstubs]

theorem Registered.afterFetch {package : Str} (h : Registered σ package) (dir : Str) (tree : PackageTree) (cache : EdgeCache)
    (c : Candidate) : Registered (Resolver.afterFetch σ dir tree cache c) package := by
  apply Registered.storeCandidate
  exact (registered_congr rfl rfl).mpr h

theorem registered_afterFetch (σ : ResolveState) (dir : Str) (tree : PackageTree) (cache : EdgeCache) (c : Candidate) :
    Registered (Resolver.afterFetch σ dir tree cache c) c.name := registered_storeCandidate _ c

theorem registered_seedFlagsOf {tree : PackageTree} {requests : List FlagRequest} {package : Str} :
    Registered (seedFlagsOf tree requests σ) package ↔ Registered σ package :=
  registered_congr (candidates_seedFlagsOf _ _ _) (stubs_seedFlagsOf _ _ _)

theorem shape_eq_nil {package : Str} : shape σ package = [] ↔ (σ.candidatesOf package).entries = [] := List.map_eq_nil_iff

theorem Enriched.registered (h : Enriched σ σ') {package : Str} : Registered σ' package ↔ Registered σ package := by
  have hstubs : σ'.stubsOf package = σ.stubsOf package := by
    rw [h.rest]
    rfl
  unfold Registered
  rw [Ne, ← shape_eq_nil, h.shape, shape_eq_nil, hstubs]

/-! ### Workers -/

/-- What a worker must do for an item: it keeps what is registered, and, unless the walk remembered the item's mark,
registers its solver key. -/
structure Served (ctx : ResolveCtx) (σ σ' : ResolveState) (item : Item) : Prop where
  keeps : ∀ package, Registered σ package → Registered σ' package
  registers : Seen σ (mark item) ∨ Registered σ' (solverKeyOf ctx item)

/-- A worker that skips an item it has seen. -/
theorem served_of_seen {item : Item} (h : Seen σ (mark item)) : Served ctx σ σ item := ⟨fun _ => id, Or.inl h⟩

/-- A worker that has fetched. -/
theorem served_afterFetch {item : Item} {τ : ResolveState} {dir : Str} {tree : PackageTree} {cache : EdgeCache} {cand : Candidate}
    (hcandidates : τ.candidates = σ.candidates) (hstubs : τ.stubs = σ.stubs) (hname : cand.name = solverKeyOf ctx item) :
    Served ctx σ (afterFetch τ dir tree cache cand) item := by
  refine ⟨fun package h => ?_, Or.inr ?_⟩
  · apply Registered.afterFetch
    exact (registered_congr hcandidates hstubs).mpr h
  · rw [← hname]
    exact registered_afterFetch _ _ _ _ _

/-- **Every worker serves its item**, where it enumerates at all. -/
theorem served_dispatch {item : Item} (hr : σ.binding.Tidy) (hb : Bound ctx σ.binding item)
    (hnamed : ∀ name vs ns, item = .named name vs ns → name ≠ "nim".toList ∧ name ∉ ctx.memberNames)
    (h : dispatch ctx σ item = .ok (σ', items)) : Served ctx σ σ' item := by
  cases item with
  | url dep =>
    obtain ⟨svar, hsvar, ⟨hseen, h⟩ | ⟨-, h⟩⟩ := processUrl_cases h
    · obtain ⟨rfl | ⟨manifest, -, -, -, hadded⟩, -⟩ := revisitUrl_cases h
      · exact served_of_seen hseen
      · exact ⟨fun package => hadded.enriched.registered.mpr, Or.inl hseen⟩
    · obtain ⟨tree, ex, cache, provenance, mirrors, -, rfl, -⟩ := visitUrl_cases h
      have hserved : Served ctx σ (afterFetch { σ with seenUrl := (dep.git, dep.gitRef, dep.subpath) :: σ.seenUrl } dep.name tree
          cache (fetchedCandidate svar tree.contentHash ex provenance mirrors)) (.url dep) :=
        served_afterFetch rfl rfl (solverKeyOf_eq hr hb hsvar)
      exact ⟨fun package hp => registered_seedFlagsOf.mpr (hserved.keeps package hp),
        hserved.registers.imp_right registered_seedFlagsOf.mpr⟩
  | «local» dep =>
    obtain ⟨hseen, rfl, -⟩ | ⟨-, svar, tree, ex, cache, hsvar, -, rfl, -⟩ := processLocal_cases h
    · exact served_of_seen hseen
    · exact served_afterFetch rfl rfl (solverKeyOf_eq hr hb hsvar)
  | tarball dep =>
    obtain ⟨hseen, rfl, -⟩ | ⟨-, svar, tree, ex, cache, provenance, hsvar, -, rfl, -⟩ := processTarball_cases h
    · exact served_of_seen hseen
    · exact served_afterFetch rfl rfl (solverKeyOf_eq hr hb hsvar)
  | named name constraint ns =>
    obtain ⟨hnim, hmember⟩ := hnamed name constraint ns rfl
    obtain ⟨-, ⟨heq, -⟩ | ⟨hmem | hseen, -, rfl⟩ | ⟨-, versions, stubKey, hversions, hstub, rfl⟩⟩ := processNamed_cases h
    · exact absurd heq hnim
    · exact absurd hmem hmember
    · exact served_of_seen hseen
    · have hstub : stubKey.identity = solverKeyOf ctx (.named name constraint ns) := solverKeyOf_eq hr hb hstub
      obtain ⟨hne, pkg, -, rfl⟩ := enumerateNamed_eq_ok hversions
      have hnew : ((σ.stubsOf stubKey.identity).extend (byVer (offeredBy ctx pkg)).toList).entries ≠ [] :=
        entries_extend_ne_nil (Or.inr (by simpa [VersionMap.toList] using entries_byVer_ne_nil hne fun e => isSome_of_mem_offeredBy))
      refine ⟨fun package hp => hp.imp id fun hold => ?_, Or.inr (Or.inr ?_)⟩
      · rw [stubsOf_afterEnumerate]
        split_ifs
        · exact hnew
        · exact hold
      · rw [← hstub, stubsOf_afterEnumerate, if_pos rfl]
        exact hnew
  | oci dep =>
    obtain ⟨hseen, rfl, -⟩ | ⟨-, svar, tree, ex, cache, hsvar, -, rfl, -⟩ := processOci_cases h
    · exact served_of_seen hseen
    · exact served_afterFetch rfl rfl (solverKeyOf_eq hr hb hsvar)

/-- What is registered stays so when a stub becomes a candidate. -/
theorem Registered.query {package : Str} {version : Version} (h : query ctx σ package version = .ok (σ', items)) {p : Str}
    (hp : Registered σ p) : Registered σ' p := by
  obtain ⟨rfl, -⟩ | ⟨-, entry, -, h⟩ := query_cases h
  · exact hp
  · obtain ⟨tree, ex, cache, -, -, -, rfl, -⟩ := materializeNamed_cases h
    rw [registered_seedFlagsOf]
    unfold Registered
    rw [candidatesOf_afterMaterialize, stubsOf_afterMaterialize]
    by_cases hname : p = package
    · exact Or.inl (by rw [if_pos hname]; exact entries_insert_ne_nil _ _ _)
    · rwa [if_neg hname, if_neg hname]

/-! ### Runs -/

/-- Every item that was dispatched is registered, and only they are remembered. -/
structure Covered (ctx : ResolveCtx) (c : Config) : Prop where
  books : Books ctx c
  remembered : Remembered c
  registered : ∀ q ∈ c.dispatched, Registered c.state (solverKeyOf ctx q.2)

/-- The admission of an item changes nothing that is registered. -/
theorem registered_gateOnly {item : Item} {out : Option Item} (h : gateOnly ctx σ item = .ok (out, σ')) {package : Str} :
    Registered σ' package ↔ Registered σ package := by
  obtain ⟨decision, binding, -, -, rfl, -⟩ := gateOnly_cases h
  unfold ResolveState.recordDiscovery
  split_ifs <;> exact registered_congr rfl rfl

/-- **Every step that drops nothing keeps the cover.** -/
theorem Covered.step (h : Covered ctx c) (hmeets : NothingDropped ctx c) (hstep : Step ctx c c') : Covered ctx c' := by
  refine ⟨h.books.step hstep, h.remembered.step hstep, fun q hq => ?_⟩
  cases hstep with
  | gate htasks hgate => exact (registered_gateOnly hgate).mpr (h.registered q hq)
  | suppress htasks hgate => exact (registered_gateOnly hgate).mpr (h.registered q hq)
  | admitted htasks => exact h.registered q hq
  | @dispatch q₁ rest σ items htasks hwork =>
    have hbound : Bound ctx c.state.binding q₁.2 :=
      h.books.bound q₁ ((h.books.admitted q₁).mpr (Or.inl (by simp [Config.waiting, htasks, Task.waiting])))
    have hserved := served_dispatch h.books.tidy hbound
      (fun name vs ns hitem => hmeets.enumerated q₁.1 name vs ns rest (by rw [htasks, ← hitem])) hwork
    rcases List.mem_append.mp hq with hq | hq
    · exact hserved.keeps _ (h.registered q hq)
    · rw [List.mem_singleton.mp hq]
      refine hserved.registers.elim (fun hseen => ?_) id
      -- the item that left the mark has the same solver key
      obtain ⟨q₀, hq₀, hmark⟩ := h.remembered _ hseen
      rw [← hmeets.marks q₁ rest htasks q₀ hq₀ hmark]
      exact hserved.keeps _ (h.registered q₀ hq₀)
  | startFixpoint htasks hphase => exact h.registered q hq
  | round htasks hphase hiters hround hchange =>
    obtain ⟨requests, -, henriched, -⟩ := fixpointRound_cases hround
    exact henriched.registered.mpr (h.registered q hq)
  | startSolve htasks hphase hiters hround hchange hconflicts => exact h.registered q hq
  | query htasks hphase hquery => exact (h.registered q hq).query hquery

/-! ### The claim -/

instance (σ : ResolveState) (package : Str) : Decidable (Registered σ package) :=
  inferInstanceAs (Decidable (¬ _ = [] ∨ ¬ _ = []))

/-- The check that nothing is dropped. -/
def dropsNothing (ctx : ResolveCtx) (c : Config) : Bool :=
  match c.tasks with
  | .dispatch q :: _ =>
    c.dispatched.all (fun q' => decide (mark q'.2 = mark q.2 → solverKeyOf ctx q'.2 = solverKeyOf ctx q.2)) &&
      match q.2 with
      | .named name _ _ => decide (name ≠ "nim".toList ∧ name ∉ ctx.memberNames)
      | _ => true
  | _ => true

theorem nothingDropped_of_dropsNothing (h : dropsNothing ctx c = true) : NothingDropped ctx c := by
  constructor
  · intro q rest htasks q' hq'
    rw [dropsNothing, htasks] at h
    exact of_decide_eq_true (List.all_eq_true.mp ((Bool.and_eq_true _ _).mp h).1 q' hq')
  · intro origin name vs ns rest htasks
    rw [dropsNothing, htasks] at h
    exact of_decide_eq_true ((Bool.and_eq_true _ _).mp h).2

/-- An archive that holds a package in each of two directories. -/
def archiveDep (name subpath : Str) : Dep := .tarball ⟨name, "https://h/mono.tgz", none, 0, [], none, some subpath⟩

/-- A root that depends on packages of the archive. -/
def monorepo (deps : List Dep) : Manifest := { Manifest.initial with name := some "app", deps := deps }

/-- What there is to fetch. -/
def archiveWorld : ResolveCtx :=
  { ResolveCtx.offline with fetch := fetchFrom [("https://h/mono.tgz", treeOf "sha256:m" Manifest.initial)] }

end Milpa.Core.Resolver

import Milpa.Core.Slots

/-!
# The directories of a run

Which dependencies a run of the resolver fetches, step by step, and which it links in the
end; and that their directories stay where they belong exactly when their names do not
get into each other's way (`visits_stay_iff`). The names that are checked against a
character set are in order; the one that `name_from_url` lets pass and that is no
component of a path is `.` (`named_of_nameFromUrl`).
-/

namespace Milpa.Core.Resolver

open Nimcfg (Components)
open Result

variable {ctx : ResolveCtx} {c₀ c c' : Config} {fetches : List Fetch} {depsDir cwd : Components}

/-! ### Fetches of a run -/

/-- A fetch from a `git` repository. -/
def isGit : Transport → Bool
  | .git .. => true
  | _ => false

/-- What the worker for an item fetches. -/
def fetchOf (σ : ResolveState) : Item → Option Fetch
  | .url dep => if (dep.git, dep.gitRef, dep.subpath) ∈ σ.seenUrl then none else some ⟨.bare dep.name, true⟩
  | .local dep => if dep.path ∈ σ.seenLocal then none else some ⟨.bare dep.name, false⟩
  | .tarball dep => if dep.url ∈ σ.seenTarball then none else some ⟨.bare dep.name, false⟩
  | .oci dep => if ociKey dep ∈ σ.seenOci then none else some ⟨.bare dep.name, false⟩
  | .named .. => none

/-- What a query fetches: a version that is only a stub. -/
def queryFetch (σ : ResolveState) (package : Str) (version : Version) : Option Fetch :=
  match (σ.candidatesOf package).get? version, (σ.stubsOf package).get? version with
  | none, some entry =>
    if entry.contentHash.isEmpty then none
    else some ⟨σ.depkeyForSolvedName package, entry.provenances.any fun prov => isGit prov.transport⟩
  | _, _ => none

/-- What the next call fetches, whether it succeeds or not. -/
inductive Attempts (c : Config) : Fetch → Prop
  | dispatch {q : Queued} {rest : List Task} {f : Fetch} (htasks : c.tasks = .dispatch q :: rest)
      (hfetch : fetchOf c.state q.2 = some f) : Attempts c f
  | query {package : Str} {version : Version} {f : Fetch} (htasks : c.tasks = []) (hphase : c.phase = .solve)
      (hfetch : queryFetch c.state package version = some f) : Attempts c f

/-- A step, with what it fetches. -/
inductive FetchStep (ctx : ResolveCtx) : Config → Option Fetch → Config → Prop
  | dispatch {c : Config} {q : Queued} {rest : List Task} {σ : ResolveState} {items : List Item}
      (htasks : c.tasks = .dispatch q :: rest) (hwork : dispatch ctx c.state q.2 = .ok (σ, items)) :
      FetchStep ctx c (fetchOf c.state q.2) { c with
        state := σ
        tasks := .gate (items.map fun item => (.transitive, item)) [] :: rest
        dispatched := c.dispatched ++ [q] }
  | query {c : Config} {package : Str} {version : Version} {σ : ResolveState} {items : List Item} (htasks : c.tasks = [])
      (hphase : c.phase = .solve) (hquery : query ctx c.state package version = .ok (σ, items)) :
      FetchStep ctx c (queryFetch c.state package version)
        { c with state := σ, tasks := [.gate (items.map fun item => (.transitive, item)) []] }
  /-- No other step fetches anything. -/
  | other {c c' : Config} (hstep : Step ctx c c') (htasks : ∀ q rest, c.tasks ≠ .dispatch q :: rest)
      (hphase : c.tasks = [] → c.phase ≠ .solve) : FetchStep ctx c none c'

/-- The steps are those of the resolver. -/
theorem exists_fetchStep_iff : (∃ f, FetchStep ctx c f c') ↔ Step ctx c c' := by
  constructor
  · rintro ⟨f, h⟩
    cases h with
    | dispatch htasks hwork => exact .dispatch htasks hwork
    | query htasks hphase hquery => exact .query htasks hphase hquery
    | other hstep => exact hstep
  · intro h
    cases h with
    | gate htasks hgate => exact ⟨none, .other (.gate htasks hgate) (by simp [htasks]) (by simp [htasks])⟩
    | suppress htasks hgate => exact ⟨none, .other (.suppress htasks hgate) (by simp [htasks]) (by simp [htasks])⟩
    | admitted htasks => exact ⟨none, .other (.admitted htasks) (by simp [htasks]) (by simp [htasks])⟩
    | dispatch htasks hwork => exact ⟨_, .dispatch htasks hwork⟩
    | startFixpoint htasks hphase => exact ⟨none, .other (.startFixpoint htasks hphase) (by simp [htasks]) (by simp [hphase])⟩
    | round htasks hphase hiters hround hchange =>
      exact ⟨none, .other (.round htasks hphase hiters hround hchange) (by simp [htasks]) (by simp [hphase])⟩
    | startSolve htasks hphase hiters hround hchange hconflicts =>
      exact ⟨none, .other (.startSolve htasks hphase hiters hround hchange hconflicts) (by simp [htasks]) (by simp [hphase])⟩
    | query htasks hphase hquery => exact ⟨_, .query htasks hphase hquery⟩

/-- A run, with all that it has fetched. -/
inductive FetchRun (ctx : ResolveCtx) (c₀ : Config) : List Fetch → Config → Prop
  | refl : FetchRun ctx c₀ [] c₀
  | step {fetches : List Fetch} {c c' : Config} {f : Option Fetch} (hrun : FetchRun ctx c₀ fetches c) (hstep : FetchStep ctx c f c') :
      FetchRun ctx c₀ (fetches ++ f.toList) c'

/-- What is linked for a node of the graph. -/
def linkOf (dep : ResolvedDep) : Option Fetch := if (viewEntries dep).isEmpty then none else some ⟨⟨dep.name, dep.namespace⟩, false⟩

/-- The dependencies that a resolve has fetched with the one that is fetched next, or with those that are linked in the end. -/
inductive Visits (ctx : ResolveCtx) (c₀ : Config) : List Fetch → Prop
  | fetching {fetches : List Fetch} {c : Config} {f : Fetch} (hrun : FetchRun ctx c₀ fetches c) (hnext : Attempts c f) :
      Visits ctx c₀ (fetches ++ [f])
  | linking {fetches : List Fetch} {c : Config} {solution : Solution} {trust : Option EntryTrust} {graph : List ResolvedDep}
      (hrun : FetchRun ctx c₀ fetches c) (hgraph : graphOf c.state solution trust = .ok graph) :
      Visits ctx c₀ (fetches ++ graph.filterMap linkOf)

theorem exists_fetchRun_iff : (∃ fetches, FetchRun ctx c₀ fetches c) ↔ Run ctx c₀ c := by
  constructor
  · rintro ⟨fetches, h⟩
    induction h with
    | refl => exact .refl
    | step _ hstep ih => exact .tail ih (exists_fetchStep_iff.mp ⟨_, hstep⟩)
  · intro h
    induction h with
    | refl => exact ⟨[], .refl⟩
    | tail _ hstep ih =>
      obtain ⟨fetches, hrun⟩ := ih
      obtain ⟨f, hstep⟩ := exists_fetchStep_iff.mpr hstep
      exact ⟨_, .step hrun hstep⟩

/-! ### Names -/

theorem isComponent_of_validFlagName {name : Str} (h : validFlagName name = true) : IsComponent name := by
  obtain ⟨hsome, hchars⟩ := (Bool.and_eq_true _ _).mp h
  have hmem : ∀ c ∈ name, (c.isAlphanum || c == '_' || c == '-') = true := List.all_eq_true.mp hchars
  have hdot : '.' ∉ name := fun hmem' => absurd (hmem '.' hmem') (by decide)
  refine ⟨by simpa using hsome, ?_, ?_, fun hslash => absurd (hmem '/' hslash) (by decide)⟩
  · rintro rfl
    exact hdot (by decide)
  · rintro rfl
    exact hdot (by decide)

theorem isComponent_of_checks {name : Str} (hup : name.containsStr ".." = false) (hslash : '/' ∉ name) :
    IsComponent name ↔ name ≠ [] ∧ name ≠ ".".toList := by
  have hne : name ≠ "..".toList := by
    rintro rfl
    exact absurd hup (by decide)
  constructor
  · exact fun h => ⟨h.1, h.2.1⟩
  · exact fun h => ⟨h.1, h.2, hne, hslash⟩

/-- A name that a URL ends with is a component of a path, but for `.`. -/
theorem isComponent_of_nameFromUrl {url name : Str} (h : nameFromUrl url = .ok name) : IsComponent name ↔ name ≠ ".".toList := by
  obtain ⟨u, hcheck, h⟩ := bind_eq_ok.mp h
  rw [← pure_eq_ok.mp h, rejectIf_eq_ok] at hcheck
  simp only [Bool.or_eq_true, decide_eq_true_eq, not_or, Bool.not_eq_true, List.isEmpty_eq_false_iff] at hcheck
  obtain ⟨⟨⟨hsome, hup⟩, hslash⟩, -⟩ := hcheck
  rw [isComponent_of_checks hup hslash, and_iff_right hsome]

/-- A name in the index is a component of a path, but for `.` and the empty one. -/
theorem isComponent_of_isSafeName {name : Str} (h : isSafeName name = true) : IsComponent name ↔ name ≠ [] ∧ name ≠ ".".toList := by
  unfold isSafeName at h
  simp only [Bool.not_eq_true', Bool.or_eq_false_iff, decide_eq_false_iff_not] at h
  exact isComponent_of_checks h.1.1.1 h.1.1.2

/-! ### A resolve -/

/-- A configuration whose next call fetches nothing. -/
def Config.Quiet (c : Config) : Prop := (∀ q rest, c.tasks ≠ .dispatch q :: rest) ∧ c.phase ≠ .solve

/-- `Quiet`, computed. -/
def Config.isQuiet (c : Config) : Bool :=
  (match c.tasks with
    | .dispatch _ :: _ => false
    | _ => true) && decide (c.phase ≠ .solve)

theorem quiet_of_isQuiet {c : Config} (h : c.isQuiet = true) : c.Quiet := by
  obtain ⟨htasks, hphase⟩ := (Bool.and_eq_true _ _).mp h
  refine ⟨fun q rest heq => ?_, of_decide_eq_true hphase⟩
  rw [heq] at htasks
  cases htasks

/-- Quiet steps fetch nothing. -/
theorem fetchRun_of_quiet (h : RunWhere Config.Quiet ctx c₀ c) : FetchRun ctx c₀ [] c := by
  induction h with
  | refl => exact .refl
  | tail _ hstep ih =>
    obtain ⟨⟨htasks, hphase⟩, hstep⟩ := hstep
    exact .step ih (.other hstep htasks fun _ => hphase)

/-- A world with one repository, whose package says nothing. -/
def slotWorld : ResolveCtx := { ResolveCtx.offline with fetch := fetchFrom [("https://h/lib", treeOf "sha256:a" Manifest.initial)] }

/-- A root that depends on that repository. -/
def slotUser : Manifest := { Manifest.initial with name := some "app", deps := [.url (urlDep "lib" "https://h/lib" "main" none)] }

/-- A call for the next item fetches into the directory of this name. -/
def Config.isAbout (name : Str) (c : Config) : Bool :=
  match c.tasks with
  | .dispatch q :: _ => decide (fetchOf c.state q.2 = some ⟨.bare name, true⟩)
  | _ => false

theorem attempts_of_isAbout {name : Str} (h : c.isAbout name = true) : Attempts c ⟨.bare name, true⟩ := by
  unfold Config.isAbout at h
  split at h
  · rename_i q rest htasks
    exact .dispatch htasks (of_decide_eq_true h)
  · cases h

/-- A package whose `.nimble` file requires a URL that ends with `.`. -/
def dotRequirer : PackageTree :=
  ⟨"sha256:a", none, BTreeMap.empty.insert "lib.nimble" (some ⟨[.url "https://h/." none []], none, none⟩)⟩

/-- What there is to fetch. -/
def dotWorld : ResolveCtx := { ResolveCtx.offline with fetch := fetchFrom [("https://h/lib", dotRequirer)] }

end Milpa.Core.Resolver

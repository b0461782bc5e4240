import Milpa.Solver.PickVersion
import Milpa.Solver.Refutation

/-!
# Who constrains a package

`ProviderAdapter` records, when PubGrub asks for the dependencies of a version, whom this
version constrains; what was recorded for its package before is taken out. PubGrub asks once
for each version, and does not say when it gives a decision up. So the tables say of each
package what the version constrains that was asked for last (`recorded_of_run`): a package
that was given up is still there, and one that went back to a version that was asked for
before is there with the constraints of another one. The list of an error is that of the
decided versions exactly where the two agree (`report_exact_iff`).
-/

namespace Milpa.Solver

/-! ### The adapter -/

/-- `PackageProvider`, as the adapter asks it. -/
structure DependencyProvider extends ChoiceProvider where
  dependencies : Str → Version → List (Str × VersionSet)

/-- What `get_dependencies` makes of a list of dependencies: one constraint for each package. -/
def mergedConstraints (deps : List (Str × VersionSet)) : BTreeMap Str VersionSet := deps.foldl mergeConstraint BTreeMap.empty

/-- The constraints that are recorded, as texts: those that are not full. -/
def recordedConstraints (deps : List (Str × VersionSet)) : List (Str × Str) :=
  ((mergedConstraints deps).entries.filter fun e => !e.2.isFull).map fun e => (e.1, e.2.toConstraintStr)

/-- The tables of `ProviderAdapter`. -/
structure Adapter where
  /-- For each package, the consumers that constrain it, and how. -/
  constrainers : BTreeMap Str (BTreeMap Str Str)
  /-- For each consumer, the packages that it constrains. -/
  consumerTargets : BTreeMap Str (List Str)

/-- `ProviderAdapter::new`. -/
def Adapter.new : Adapter := ⟨BTreeMap.empty, BTreeMap.empty⟩

/-- The constrainers of a package, by name. -/
def Adapter.constrainersOf (a : Adapter) (package : Str) : List (Str × Str) :=
  ((a.constrainers.get? package).map BTreeMap.entries).getD []

/-- A target of a consumer that is cleared. -/
def clearTarget (consumer : Str) (m : BTreeMap Str (BTreeMap Str Str)) (target : Str) : BTreeMap Str (BTreeMap Str Str) :=
  match m.get? target with
  | some byConsumer => m.insert target (byConsumer.erase consumer)
  | none => m

/-- What was recorded for a consumer is taken out. -/
def Adapter.clear (a : Adapter) (consumer : Str) : Adapter :=
  match a.consumerTargets.get? consumer with
  | some prevTargets => ⟨prevTargets.foldl (clearTarget consumer) a.constrainers, a.consumerTargets.erase consumer⟩
  | none => a

/-- A constraint of a consumer that is recorded. -/
def recordTarget (consumer : Str) (m : BTreeMap Str (BTreeMap Str Str)) (c : Str × Str) : BTreeMap Str (BTreeMap Str Str) :=
  m.insert c.1 (((m.get? c.1).getD BTreeMap.empty).insert consumer c.2)

/-- The constraints of a consumer are recorded. -/
def Adapter.record (a : Adapter) (consumer : Str) (constraints : List (Str × Str)) : Adapter where
  constrainers := constraints.foldl (recordTarget consumer) a.constrainers
  consumerTargets :=
    if constraints.isEmpty then a.consumerTargets else a.consumerTargets.insert consumer (constraints.map Prod.fst)

/-- `get_dependencies`. -/
def getDependencies (provider : DependencyProvider) (a : Adapter) (package : Str) (version : Version) :
    List (Str × VersionSet) × Adapter :=
  let deps := provider.dependencies package version
  ((mergedConstraints deps).entries, (a.clear package).record package (recordedConstraints deps))

/-! ### PubGrub -/

/-- A search: the tables of the adapter, the partial solution, and what PubGrub has asked for, the last first. -/
structure Search where
  adapter : Adapter
  decided : List (Str × Version)
  asked : List (Str × Version)

/-- The search at the start. -/
def Search.start : Search := ⟨.new, [], []⟩

/-- The version of a package that comes first. -/
def versionIn (l : List (Str × Version)) (package : Str) : Option Version :=
  (l.find? fun e => decide (e.1 = package)).map Prod.snd

/-- The dependencies of a version were asked for. -/
def Search.wasAsked (s : Search) (package : Str) (v : Version) : Bool := s.asked.any fun e => decide (e.1 = package) && e.2 == v

/-- What PubGrub does. -/
inductive SearchEvent where
  /-- It has a version chosen, and asks for its dependencies. -/
  | ask (package : Str) (range : VersionSet)
  /-- It has a version chosen, and decides it. -/
  | decide (package : Str) (range : VersionSet)
  /-- It gives the last decisions up. -/
  | backtrack (n : ℕ)

variable {provider : DependencyProvider} {strategy : Strategy}

/-- The version that the adapter chooses. -/
def Search.chosen (provider : DependencyProvider) (strategy : Strategy) (s : Search) (package : Str) (range : VersionSet) :
    Option Version :=
  match chooseVersion provider.toChoiceProvider strategy s.adapter.constrainersOf package range with
  | .ok v => v
  | .error _ => none

/-- What PubGrub does to a search: it asks for what it has not asked for, and decides what it has asked for. -/
def Search.next (provider : DependencyProvider) (strategy : Strategy) (s : Search) : SearchEvent → Option Search
  | .ask package range => do
    let v ← s.chosen provider strategy package range
    if (versionIn s.decided package).isNone && !s.wasAsked package v then
      some { s with adapter := (getDependencies provider s.adapter package v).2, asked := (package, v) :: s.asked }
    else none
  | .decide package range => do
    let v ← s.chosen provider strategy package range
    if (versionIn s.decided package).isNone && s.wasAsked package v then some { s with decided := (package, v) :: s.decided }
    else none
  | .backtrack n => some { s with decided := s.decided.drop n }

/-- A run, from the start. -/
def Search.run (provider : DependencyProvider) (strategy : Strategy) (events : List SearchEvent) : Option Search :=
  events.foldlM (Search.next provider strategy) .start

/-! ### What is recorded -/

/-- How a consumer constrains a package. -/
def recordedIn (m : BTreeMap Str (BTreeMap Str Str)) (package consumer : Str) : Option Str :=
  (m.get? package).bind fun byConsumer => byConsumer.get? consumer

theorem recordedIn_clearTarget (m : BTreeMap Str (BTreeMap Str Str)) (consumer target package other : Str) :
    recordedIn (clearTarget consumer m target) package other =
      if other = consumer ∧ package = target then none else recordedIn m package other := by
  unfold clearTarget recordedIn
  cases hm : m.get? target with
  | none =>
    by_cases h : other = consumer ∧ package = target
    · rw [if_pos h, h.2]
      simp [hm]
    · rw [if_neg h]
  | some byConsumer =>
    dsimp only
    rw [BTreeMap.get?_insert]
    by_cases hpackage : package = target
    · rw [if_pos hpackage, hpackage, hm, Option.bind_some, Option.bind_some, BTreeMap.get?_erase]
      simp
    · rw [if_neg hpackage, if_neg fun h => hpackage h.2]

theorem recordedIn_clear (m : BTreeMap Str (BTreeMap Str Str)) (consumer : Str) (targets : List Str) (package other : Str) :
    recordedIn (targets.foldl (clearTarget consumer) m) package other =
      if other = consumer ∧ package ∈ targets then none else recordedIn m package other := by
  induction targets generalizing m with
  | nil => simp
  | cons target targets ih =>
    rw [List.foldl_cons, ih, recordedIn_clearTarget]
    by_cases hother : other = consumer
    · by_cases hpackage : package = target
      · simp [hpackage, hother]
      · simp [hpackage]
    · simp [hother]

theorem recordedIn_recordTarget (m : BTreeMap Str (BTreeMap Str Str)) (consumer : Str) (c : Str × Str) (package other : Str) :
    recordedIn (recordTarget consumer m c) package other =
      if other = consumer ∧ package = c.1 then some c.2 else recordedIn m package other := by
  unfold recordTarget recordedIn
  rw [BTreeMap.get?_insert]
  by_cases hpackage : package = c.1
  · rw [if_pos hpackage, Option.bind_some, BTreeMap.get?_insert, hpackage]
    by_cases hother : other = consumer
    · simp [hother]
    · rw [if_neg hother, if_neg fun h => hother h.1]
      cases m.get? c.1 <;> rfl
  · rw [if_neg hpackage, if_neg fun h => hpackage h.2]

/-- Recording changes what is recorded of the consumer, for the packages that it constrains. -/
theorem recordedIn_record {constraints : List (Str × Str)} (hnodup : (constraints.map Prod.fst).Nodup)
    (m : BTreeMap Str (BTreeMap Str Str)) (consumer package other cstr : Str) :
    recordedIn (constraints.foldl (recordTarget consumer) m) package other = some cstr ↔
      (other = consumer ∧ (package, cstr) ∈ constraints) ∨
        (¬ (other = consumer ∧ package ∈ constraints.map Prod.fst) ∧ recordedIn m package other = some cstr) := by
  induction constraints generalizing m with
  | nil => simp
  | cons c constraints ih =>
    obtain ⟨hc, hnodup⟩ := List.nodup_cons.mp hnodup
    rw [List.foldl_cons, ih hnodup, recordedIn_recordTarget]
    by_cases hother : other = consumer
    · by_cases hpackage : package = c.1
      · have hmem : (package, cstr) ∉ constraints := fun h => hc (hpackage ▸ List.mem_map_of_mem (f := Prod.fst) h)
        obtain ⟨target, text⟩ := c
        obtain rfl : package = target := hpackage
        simp [hother, hmem, hc, eq_comm]
      · obtain ⟨target, text⟩ := c
        simp [hother, show package ≠ target from hpackage]
    · simp [hother]

theorem nodup_recordedConstraints (deps : List (Str × VersionSet)) : ((recordedConstraints deps).map Prod.fst).Nodup := by
  rw [recordedConstraints, List.map_map]
  refine List.pairwise_map.mpr (((mergedConstraints deps).sorted.filter _).imp fun {a b} hlt heq => ?_)
  have heq : a.1 = b.1 := heq
  rw [heq] at hlt
  exact lt_irrefl _ hlt

theorem mem_constrainersOf {a : Adapter} {package consumer cstr : Str} :
    (consumer, cstr) ∈ a.constrainersOf package ↔ recordedIn a.constrainers package consumer = some cstr := by
  unfold Adapter.constrainersOf recordedIn
  cases a.constrainers.get? package with
  | none => simp
  | some byConsumer => exact BTreeMap.mem_entries

/-! ### What the tables say -/

/-- The tables say of each consumer whom it constrains, and how. -/
structure Adapter.Tells (a : Adapter) (constraints : Str → List (Str × Str)) : Prop where
  recorded : ∀ package consumer cstr, recordedIn a.constrainers package consumer = some cstr ↔ (package, cstr) ∈ constraints consumer
  targets : ∀ consumer, (a.consumerTargets.get? consumer).getD [] = (constraints consumer).map Prod.fst

variable {a : Adapter} {constraints : Str → List (Str × Str)} {consumer package : Str} {version : Version} {s s' : Search}

theorem tells_new : Adapter.new.Tells fun _ => [] where
  recorded package consumer cstr := by simp [Adapter.new, recordedIn]
  targets consumer := rfl

theorem Adapter.Tells.clear (h : a.Tells constraints) (consumer : Str) :
    (a.clear consumer).Tells (Function.update constraints consumer []) := by
  unfold Adapter.clear
  have htargets := h.targets consumer
  cases hprev : a.consumerTargets.get? consumer with
  | none =>
    rw [hprev, Option.getD_none] at htargets
    have hnone : constraints consumer = [] := List.map_eq_nil_iff.mp htargets.symm
    rw [← hnone, Function.update_eq_self]
    exact h
  | some prevTargets =>
    rw [hprev, Option.getD_some] at htargets
    refine ⟨fun package other cstr => ?_, fun other => ?_⟩
    · rw [recordedIn_clear, htargets]
      by_cases hother : other = consumer
      · subst hother
        rw [Function.update_self]
        split_ifs with hmem
        · simp
        · rw [h.recorded]
          simp only [List.not_mem_nil, iff_false]
          exact fun hin => hmem ⟨rfl, List.mem_map_of_mem (f := Prod.fst) hin⟩
      · rw [if_neg fun h => hother h.1, Function.update_of_ne hother]
        exact h.recorded package other cstr
    · rw [BTreeMap.get?_erase]
      by_cases hother : other = consumer
      · rw [if_pos hother, hother, Function.update_self]
        rfl
      · rw [if_neg hother, Function.update_of_ne hother]
        exact h.targets other

theorem Adapter.Tells.record (h : a.Tells constraints) (hnone : constraints consumer = []) {l : List (Str × Str)}
    (hnodup : (l.map Prod.fst).Nodup) : (a.record consumer l).Tells (Function.update constraints consumer l) := by
  refine ⟨fun package other cstr => ?_, fun other => ?_⟩
  · show recordedIn (l.foldl (recordTarget consumer) a.constrainers) package other = some cstr ↔ _
    rw [recordedIn_record hnodup, h.recorded]
    by_cases hother : other = consumer
    · subst hother
      simp [hnone]
    · simp [hother]
  · show ((if l.isEmpty then a.consumerTargets else a.consumerTargets.insert consumer (l.map Prod.fst)).get? other).getD [] = _
    by_cases hother : other = consumer
    · subst hother
      rw [Function.update_self]
      cases l with
      | nil => exact (h.targets other).trans (by rw [hnone])
      | cons c l => rw [if_neg (by simp), BTreeMap.get?_insert, if_pos rfl, Option.getD_some]
    · rw [Function.update_of_ne hother, ← h.targets other]
      split_ifs
      · rfl
      · rw [BTreeMap.get?_insert, if_neg hother]

/-- **After `get_dependencies` the tables say of the package whom this version constrains**, and of the others what they said. -/
theorem Adapter.Tells.getDependencies (h : a.Tells constraints) (package : Str) (version : Version) :
    (getDependencies provider a package version).2.Tells
      (Function.update constraints package (recordedConstraints (provider.dependencies package version))) := by
  have hrecorded := (h.clear package).record (Function.update_self ..) (nodup_recordedConstraints (provider.dependencies package version))
  rwa [Function.update_idem] at hrecorded

/-! ### Runs -/

/-- The constraints of the version of a consumer that comes first. -/
def constraintsIn (provider : DependencyProvider) (l : List (Str × Version)) (consumer : Str) : List (Str × Str) :=
  ((versionIn l consumer).map fun v => recordedConstraints (provider.dependencies consumer v)).getD []

theorem constraintsIn_cons (package : Str) (v : Version) (l : List (Str × Version)) :
    constraintsIn provider ((package, v) :: l) =
      Function.update (constraintsIn provider l) package (recordedConstraints (provider.dependencies package v)) := by
  funext consumer
  rw [constraintsIn, versionIn, Function.update_apply]
  by_cases hconsumer : consumer = package
  · rw [List.find?_cons_of_pos (by simp [hconsumer]), if_pos hconsumer, hconsumer]
    rfl
  · rw [List.find?_cons_of_neg (by simpa using Ne.symm hconsumer), if_neg hconsumer]
    rfl

/-- What holds in a run: the tables are those of what was asked for last, and a package is decided once. -/
structure Search.Recorded (provider : DependencyProvider) (s : Search) : Prop where
  tells : s.adapter.Tells (constraintsIn provider s.asked)
  once : (s.decided.map Prod.fst).Nodup

theorem recorded_start : Search.start.Recorded provider := ⟨tells_new, List.nodup_nil⟩

theorem versionIn_eq_none {l : List (Str × Version)} : versionIn l package = none ↔ package ∉ l.map Prod.fst := by
  rw [versionIn, Option.map_eq_none_iff, List.find?_eq_none, List.mem_map]
  constructor
  · rintro h ⟨e, he, rfl⟩
    exact h e he (decide_eq_true rfl)
  · intro h e he heq
    exact h ⟨e, he, of_decide_eq_true heq⟩

theorem Search.Recorded.next {event : SearchEvent} (h : s.Recorded provider) (hnext : s.next provider strategy event = some s') :
    s'.Recorded provider := by
  cases event with
  | ask package range =>
    obtain ⟨v, -, hnext⟩ := Option.bind_eq_some_iff.mp hnext
    split_ifs at hnext
    cases hnext
    refine ⟨?_, h.once⟩
    show Adapter.Tells _ (constraintsIn provider ((package, v) :: s.asked))
    rw [constraintsIn_cons]
    exact h.tells.getDependencies package v
  | decide package range =>
    obtain ⟨v, -, hnext⟩ := Option.bind_eq_some_iff.mp hnext
    split_ifs at hnext with hcond
    cases hnext
    refine ⟨h.tells, List.nodup_cons.mpr ⟨versionIn_eq_none.mp ?_, h.once⟩⟩
    exact Option.isNone_iff_eq_none.mp ((Bool.and_eq_true _ _).mp hcond).1
  | backtrack n =>
    cases hnext
    refine ⟨h.tells, ?_⟩
    show ((s.decided.drop n).map Prod.fst).Nodup
    rw [List.map_drop]
    exact h.once.sublist (List.drop_sublist n _)

/-- **In every run, the tables say of each package whom the version constrains that was asked for last.** -/
theorem recorded_of_run {events : List SearchEvent} (h : Search.run provider strategy events = some s) : s.Recorded provider := by
  suffices hall : ∀ s₀ : Search, s₀.Recorded provider → events.foldlM (Search.next provider strategy) s₀ = some s →
      s.Recorded provider from hall _ recorded_start h
  clear h
  induction events with
  | nil =>
    intro s₀ h₀ h
    cases h
    exact h₀
  | cons event events ih =>
    intro s₀ h₀ h
    rw [List.foldlM_cons] at h
    obtain ⟨s₁, hnext, h⟩ := Option.bind_eq_some_iff.mp h
    exact ih s₁ (h₀.next hnext) h

/-! ### The claim -/

/-- The list is that of the decided versions that constrain a package, with their constraints. -/
def ReportExact (provider : DependencyProvider) (s : Search) (package : Str) (reported : List (Str × Str)) : Prop :=
  ∀ consumer cstr, (consumer, cstr) ∈ reported ↔
    ∃ v, (consumer, v) ∈ s.decided ∧ (package, cstr) ∈ recordedConstraints (provider.dependencies consumer v)

/-- For every consumer, the version that was asked for last and the one that is decided, if any, put the same constraint on a
package. -/
def AskedAsDecided (provider : DependencyProvider) (s : Search) (package : Str) : Prop :=
  ∀ consumer cstr, (package, cstr) ∈ constraintsIn provider s.asked consumer ↔ (package, cstr) ∈ constraintsIn provider s.decided consumer

theorem mem_constraintsIn {l : List (Str × Version)} (h : (l.map Prod.fst).Nodup) {cstr : Str} :
    (package, cstr) ∈ constraintsIn provider l consumer ↔
      ∃ v, (consumer, v) ∈ l ∧ (package, cstr) ∈ recordedConstraints (provider.dependencies consumer v) := by
  induction l with
  | nil => simp [constraintsIn, versionIn]
  | cons e l ih =>
    obtain ⟨name, v⟩ := e
    obtain ⟨hname, hnodup⟩ := List.nodup_cons.mp h
    rw [constraintsIn_cons, Function.update_apply]
    by_cases hconsumer : consumer = name
    · have hnone : ∀ w, (consumer, w) ∉ l := fun w hw => hname (List.mem_map.mpr ⟨_, hw, hconsumer⟩)
      subst hconsumer
      simp [hnone]
    · rw [if_neg hconsumer, ih hnodup]
      simp [hconsumer]

/-- **In every run, what an error reports of who constrains a package is exact if and only if the versions that were asked for
last constrain it as the decided ones do.** -/
theorem report_exact_iff {events : List SearchEvent} (hrun : Search.run provider strategy events = some s) {range : VersionSet}
    {reported : List (Str × Str)}
    (herror : chooseVersion provider.toChoiceProvider strategy s.adapter.constrainersOf package range =
      .error (.versionUnknownConstrained package reported)) :
    ReportExact provider s package reported ↔ AskedAsDecided provider s package := by
  obtain ⟨htells, honce⟩ := recorded_of_run hrun
  have hreported : reported = s.adapter.constrainersOf package := by
    unfold chooseVersion at herror
    split_ifs at herror
    simp only [Except.error.injEq, ProviderError.versionUnknownConstrained.injEq, true_and] at herror
    exact herror.symm
  unfold ReportExact AskedAsDecided
  refine forall₂_congr fun consumer cstr => ?_
  rw [hreported, mem_constrainersOf, htells.recorded, mem_constraintsIn honce]

/-! ### A consumer that was given up -/

/-- Packages of which one, the unknown one, is constrained by others: by `B`, and by `A`, which `X` requires in one version and
which no solution has. -/
def phantomProvider : DependencyProvider where
  versions package :=
    if package = "root".toList then [.release 0 0 1]
    else if package = "X".toList then [.release 1 0 0, .release 2 0 0]
    else if package = "C".toList then [.release 0 0 0]
    else [.release 1 0 0]
  isVersionUnknown package := decide (package = "C".toList)
  preference _ := none
  isRootDirect _ := false
  dependencies package v :=
    if package = "root".toList then [("B", .full), ("C", .full), ("X", .full)]
    else if package = "X".toList ∧ v = .release 2 0 0 then [("A", .full)]
    else if package = "A".toList then [("C", .gte (.release 5 0 0)), ("Z", .gte (.release 9 0 0))]
    else if package = "B".toList then [("C", .lte (.release 8 0 0))]
    else []

/-- A version is chosen, asked for and decided. -/
def expand (package : Str) (range : VersionSet) : List SearchEvent := [.ask package range, .decide package range]

/-- A run ends with an error about `C`, and its list is one that is looked for. -/
def reports (events : List SearchEvent) (good : Search → List (Str × Str) → Bool) : Bool :=
  match Search.run phantomProvider .maxver events with
  | some s =>
    match chooseVersion phantomProvider.toChoiceProvider .maxver s.adapter.constrainersOf "C" (.lte (.release 8 0 0)) with
    | .error (.versionUnknownConstrained package reported) => decide (package = "C".toList) && good s reported
    | .ok _ => false
  | none => false

theorem exists_of_reports {events : List SearchEvent} {good : Search → List (Str × Str) → Bool} (h : reports events good = true) :
    ∃ s reported, Search.run phantomProvider .maxver events = some s ∧
      chooseVersion phantomProvider.toChoiceProvider .maxver s.adapter.constrainersOf "C" (.lte (.release 8 0 0)) =
        .error (.versionUnknownConstrained "C" reported) ∧ good s reported = true := by
  unfold reports at h
  split at h
  · rename_i s hrun
    split at h
    · rename_i package reported herror
      obtain ⟨hpackage, hgood⟩ := (Bool.and_eq_true _ _).mp h
      exact ⟨s, reported, hrun, of_decide_eq_true hpackage ▸ herror, hgood⟩
    · cases h
  · cases h

/-- All that was asked for is decided. -/
theorem report_exact_iff_decided :
    ∃ events s range reported, Search.run phantomProvider .maxver events = some s ∧
      chooseVersion phantomProvider.toChoiceProvider .maxver s.adapter.constrainersOf "C" range =
        .error (.versionUnknownConstrained "C" reported) ∧ reported.length = 1 ∧ ReportExact phantomProvider s "C" reported := by
  have hreports : reports (expand "root" .full ++ expand "B" .full) (fun s reported =>
      decide (reported.length = 1) && decide (s.asked = s.decided)) = true := by
    decide
  obtain ⟨s, reported, hrun, herror, hgood⟩ := exists_of_reports hreports
  obtain ⟨hlength, hsame⟩ := (Bool.and_eq_true _ _).mp hgood
  refine ⟨_, s, _, reported, hrun, herror, of_decide_eq_true hlength, (report_exact_iff hrun herror).mpr fun consumer cstr => ?_⟩
  rw [of_decide_eq_true hsame]

/-- A consumer that was given up, and that no later decision brings back, is still named. -/
theorem phantom_reported :
    ¬ ∀ provider strategy events s package range reported, Search.run provider strategy events = some s →
      chooseVersion provider.toChoiceProvider strategy s.adapter.constrainersOf package range =
        .error (.versionUnknownConstrained package reported) → ReportExact provider s package reported := by
  intro h
  let otherX : VersionSet := (VersionSet.eq (.release 2 0 0)).complement
  have hreports : reports (expand "root" .full ++ expand "B" .full ++ expand "X" .full ++ expand "A" .full ++
      [.backtrack 1, .backtrack 1] ++ expand "X" otherX) (fun s reported =>
      decide ((("A", ">=5.0.0") : Str × Str) ∈ reported) && decide ("A".toList ∉ s.decided.map Prod.fst)) = true := by
    decide
  obtain ⟨s, reported, hrun, herror, hgood⟩ := exists_of_reports hreports
  obtain ⟨hnamed, hgone⟩ := (Bool.and_eq_true _ _).mp hgood
  obtain ⟨v, hv, -⟩ := (h _ _ _ s _ _ reported hrun herror "A" ">=5.0.0").mp (of_decide_eq_true hnamed)
  exact of_decide_eq_true hgone (List.mem_map_of_mem (f := Prod.fst) hv)

end Milpa.Solver

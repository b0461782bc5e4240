import Milpa.Solver.VersionSetLaws
import Milpa.Types.Manifest

/-!
# Choosing a version

`choose_version` and `pick_version`: the version of a package that the solver tries, out of
those that the provider lists. Versions of one precedence differ in their build metadata only,
and the order of versions does not see it: among them the order of the list decides, and a
preference stands for itself where another of its precedence is in the list
(`choiceLaw_iff`).
-/

namespace Milpa.Solver

/-! ### Strategies -/

/-- `EffectiveStrategy`. -/
inductive EffectiveStrategy where
  | maxver
  | minver
  | semver
  deriving DecidableEq, Repr

/-- `effective_strategy`. -/
def effectiveStrategy (strategy : Strategy) (isRootDirect : Bool) : EffectiveStrategy :=
  match strategy with
  | .maxver => .maxver
  | .minver => .minver
  | .semver => .semver
  | .lowestDirect => if isRootDirect then .minver else .maxver

/-- The loop of `lower_bound`, from the least bound so far. -/
def lowerBoundFrom (min : Option Version) : List Interval → Option Version
  | [] => min
  | iv :: rest =>
    match iv.lo with
    | none => none
    | some v =>
      lowerBoundFrom (some (match min with
        | some m => if m ≤ v then m else v
        | none => v)) rest

/-- `lower_bound`. -/
def VersionSet.lowerBound (s : VersionSet) : Option Version := lowerBoundFrom none s.intervals

/-! ### Picking -/

/-- `Iterator::max`: the last of the largest. -/
def lastMax : List Version → Option Version
  | [] => none
  | c :: cs => some (cs.foldl (fun m v => if v < m then m else v) c)

/-- `Iterator::min`: the first of the least. -/
def firstMin : List Version → Option Version
  | [] => none
  | c :: cs => some (cs.foldl (fun m v => if v < m then v else m) c)

/-- `pick_semver`. -/
def pickSemver (candidates : List Version) (range : VersionSet) : Option Version :=
  match range.lowerBound with
  | none => lastMax candidates
  | some lb => lastMax (candidates.filter fun v => decide (v.major = lb.major))

/-- `candidates.contains(pref)`: a candidate of the precedence of the preference. -/
def survives (candidates : List Version) (pref : Version) : Bool := candidates.any fun c => c == pref

/-- `pick_version`. -/
def pickVersion (candidates : List Version) (range : VersionSet) (strategy : EffectiveStrategy) (preference : Option Version) :
    Option Version :=
  if candidates.isEmpty then none
  else
    match preference.filter (survives candidates) with
    | some pref => some pref
    | none =>
      match strategy with
      | .maxver => lastMax candidates
      | .minver => firstMin candidates
      | .semver => pickSemver candidates range

/-- `PackageProvider`, as far as `choose_version` asks. -/
structure ChoiceProvider where
  versions : Str → List Version
  isVersionUnknown : Str → Bool
  preference : Str → Option Version
  isRootDirect : Str → Bool

/-- `ProviderError`. -/
inductive ProviderError where
  | versionUnknownConstrained (package : Str) (constrainers : List (Str × Str))
  deriving DecidableEq, Repr

/-- The candidates of `choose_version`. -/
def candidatesOf (provider : ChoiceProvider) (package : Str) (range : VersionSet) : List Version :=
  (provider.versions package).filter range.contains

/-- `choose_version`. The constrainers of a package are those recorded by `get_dependencies`, by name. -/
def chooseVersion (provider : ChoiceProvider) (strategy : Strategy) (constrainers : Str → List (Str × Str)) (package : Str)
    (range : VersionSet) : Except ProviderError (Option Version) :=
  if provider.isVersionUnknown package && !range.isFull then .error (.versionUnknownConstrained package (constrainers package))
  else .ok (pickVersion (candidatesOf provider package range) range (effectiveStrategy strategy (provider.isRootDirect package))
    (provider.preference package))

/-! ### The largest and the least -/

/-- A fold that keeps one of two, and the one that is related to both, ends with an element that is related to all. -/
theorem foldl_keep {r : Version → Version → Prop} {step : Version → Version → Version} (hrefl : ∀ a, r a a)
    (htrans : ∀ {a b c}, r a b → r b c → r a c)
    (hstep : ∀ m v, (step m v = m ∨ step m v = v) ∧ r m (step m v) ∧ r v (step m v)) (c : Version) (cs : List Version) :
    cs.foldl step c ∈ c :: cs ∧ ∀ d ∈ c :: cs, r d (cs.foldl step c) := by
  induction cs generalizing c with
  | nil => simpa using hrefl c
  | cons d cs ih =>
    rw [List.foldl_cons]
    obtain ⟨hmem, hall⟩ := ih (step c d)
    obtain ⟨hone, hc, hd⟩ := hstep c d
    have hkept := hall _ List.mem_cons_self
    refine ⟨?_, fun e he => ?_⟩
    · rcases List.mem_cons.mp hmem with hmem | hmem
      · rcases hone with hone | hone
        · rw [hmem, hone]
          exact List.mem_cons_self
        · rw [hmem, hone]
          exact List.mem_cons_of_mem c List.mem_cons_self
      · exact List.mem_cons_of_mem c (List.mem_cons_of_mem d hmem)
    · rcases List.mem_cons.mp he with rfl | he
      · exact htrans hc hkept
      · rcases List.mem_cons.mp he with rfl | he
        · exact htrans hd hkept
        · exact hall e (List.mem_cons_of_mem _ he)

theorem lastMax_eq_some {l : List Version} {v : Version} (h : lastMax l = some v) : v ∈ l ∧ ∀ c ∈ l, c ≤ v := by
  cases l with
  | nil => cases h
  | cons c cs =>
    obtain rfl := Option.some.inj h
    refine foldl_keep (r := fun a b => a ≤ b) (fun _ => le_rfl) le_trans (fun m v => ?_) c cs
    split_ifs with hlt
    · exact ⟨Or.inl rfl, le_rfl, hlt.le⟩
    · exact ⟨Or.inr rfl, Version.not_lt.mp hlt, le_rfl⟩

theorem firstMin_eq_some {l : List Version} {v : Version} (h : firstMin l = some v) : v ∈ l ∧ ∀ c ∈ l, v ≤ c := by
  cases l with
  | nil => cases h
  | cons c cs =>
    obtain rfl := Option.some.inj h
    refine foldl_keep (r := fun a b => b ≤ a) (fun _ => le_rfl) (fun hab hbc => hbc.trans hab) (fun m v => ?_) c cs
    split_ifs with hlt
    · exact ⟨Or.inr rfl, hlt.le, le_rfl⟩
    · exact ⟨Or.inl rfl, le_rfl, Version.not_lt.mp hlt⟩

/-- The last of the list is the last of the largest, where nothing is larger. -/
theorem lastMax_concat {l : List Version} {v : Version} (h : ∀ c ∈ l, c ≤ v) : lastMax (l ++ [v]) = some v := by
  cases l with
  | nil => rfl
  | cons c cs =>
    rw [List.cons_append, lastMax, List.foldl_concat, if_neg]
    obtain ⟨hmem, -⟩ := lastMax_eq_some (l := c :: cs) rfl
    exact Version.not_lt.mpr (h _ hmem)

/-- The first of the list is the first of the least, where nothing is less. -/
theorem firstMin_cons {l : List Version} {v : Version} (h : ∀ c ∈ l, v ≤ c) : firstMin (v :: l) = some v := by
  rw [firstMin]
  congr 1
  induction l with
  | nil => rfl
  | cons c l ih =>
    obtain ⟨hc, hl⟩ := List.forall_mem_cons.mp h
    rw [List.foldl_cons, if_neg (Version.not_lt.mpr hc)]
    exact ih hl

/-! ### The best of a strategy -/

/-- The strategy `semver` stays with the major version of the lower bound, where there is one. -/
def majorAllowed (strategy : EffectiveStrategy) (range : VersionSet) (v : Version) : Bool :=
  match strategy, range.lowerBound with
  | .semver, some lb => decide (v.major = lb.major)
  | _, _ => true

/-- The versions in the range among which the strategy takes the best. -/
def eligible (strategy : EffectiveStrategy) (range : VersionSet) (versions : List Version) : List Version :=
  versions.filter fun v => majorAllowed strategy range v && range.contains v

/-- The best: for `minver` the first of the least, for the others the last of the largest. -/
def best (strategy : EffectiveStrategy) (l : List Version) : Option Version :=
  if strategy = .minver then firstMin l else lastMax l

/-- No version of the list is better. -/
def Optimum (strategy : EffectiveStrategy) (l : List Version) (v : Version) : Prop :=
  v ∈ l ∧ ∀ c ∈ l, if strategy = .minver then v ≤ c else c ≤ v

theorem best_eq_none {strategy : EffectiveStrategy} {l : List Version} : best strategy l = none ↔ l = [] := by
  unfold best
  cases l <;> split_ifs <;> simp [firstMin, lastMax]

theorem optimum_best {strategy : EffectiveStrategy} {l : List Version} {v : Version} (h : best strategy l = some v) :
    Optimum strategy l v := by
  unfold best at h
  unfold Optimum
  split_ifs at h ⊢
  · exact firstMin_eq_some h
  · exact lastMax_eq_some h

theorem Optimum.perm {strategy : EffectiveStrategy} {l m : List Version} (hperm : l.Perm m) {v : Version}
    (h : Optimum strategy l v) : Optimum strategy m v :=
  ⟨hperm.mem_iff.mp h.1, fun c hc => h.2 c (hperm.mem_iff.mpr hc)⟩

/-- Every best version is taken in some order of the list. -/
theorem exists_perm_best {strategy : EffectiveStrategy} {range : VersionSet} {versions : List Version} {v : Version}
    (h : Optimum strategy (eligible strategy range versions) v) :
    ∃ versions', versions.Perm versions' ∧ best strategy (eligible strategy range versions') = some v := by
  obtain ⟨hv, hbest⟩ := h
  obtain ⟨hmem, hallowed⟩ := List.mem_filter.mp hv
  obtain ⟨front, back, rfl⟩ := List.append_of_mem hmem
  have hothers : ∀ c ∈ eligible strategy range (front ++ back), if strategy = .minver then v ≤ c else c ≤ v := by
    intro c hc
    obtain ⟨hc, hcAllowed⟩ := List.mem_filter.mp hc
    refine hbest c (List.mem_filter.mpr ⟨?_, hcAllowed⟩)
    rcases List.mem_append.mp hc with hc | hc
    · exact List.mem_append_left _ hc
    · exact List.mem_append_right _ (List.mem_cons_of_mem v hc)
  by_cases hmin : strategy = .minver
  · refine ⟨v :: (front ++ back), List.perm_middle, ?_⟩
    have hcut : eligible strategy range (v :: (front ++ back)) = v :: eligible strategy range (front ++ back) := by
      unfold eligible
      rw [List.filter_cons, if_pos hallowed]
    rw [hcut, best, if_pos hmin]
    exact firstMin_cons fun c hc => by simpa [hmin] using hothers c hc
  · refine ⟨front ++ back ++ [v], List.perm_middle.trans (List.perm_append_singleton _ _).symm, ?_⟩
    have hcut : eligible strategy range (front ++ back ++ [v]) = eligible strategy range (front ++ back) ++ [v] := by
      unfold eligible
      rw [List.filter_append, List.filter_cons, if_pos hallowed, List.filter_nil]
    rw [hcut, best, if_neg hmin]
    exact lastMax_concat fun c hc => by simpa [hmin] using hothers c hc

/-! ### The law of the choice -/

section

variable (provider : ChoiceProvider) (strategy : Strategy) (constrainers : Str → List (Str × Str)) (package : Str) (range : VersionSet)

/-- The strategy for the package. -/
def strategyFor : EffectiveStrategy := effectiveStrategy strategy (provider.isRootDirect package)

/-- The versions of the package that the strategy can take. -/
def eligibleOf : List Version := eligible (strategyFor provider strategy package) range (provider.versions package)

/-- The preference of the package, where it survives the filter. -/
def preferredOf : Option Version := (provider.preference package).filter (survives (candidatesOf provider package range))

/-- **What the choice is to be**: an element of the list in the range, the preference where it survives the filter and else
the best of the strategy, whatever the order of the list. -/
structure ChoiceLaw : Prop where
  sound : ∀ v, chooseVersion provider strategy constrainers package range = .ok (some v) →
    v ∈ provider.versions package ∧ range.contains v = true
  preference : ∀ r, chooseVersion provider strategy constrainers package range = .ok r →
    ∀ pref, preferredOf provider package range = some pref → r = some pref
  optimal : ∀ r, chooseVersion provider strategy constrainers package range = .ok r → preferredOf provider package range = none →
    (r = none ↔ eligibleOf provider strategy package range = []) ∧
      ∀ v, r = some v → Optimum (strategyFor provider strategy package) (eligibleOf provider strategy package range) v
  orderless : ∀ versions', (∀ p, (provider.versions p).Perm (versions' p)) →
    chooseVersion { provider with versions := versions' } strategy constrainers package range =
      chooseVersion provider strategy constrainers package range

/-- The package is refused, or a preference that survives is itself in the list, or there is one best version. -/
def Settled : Prop :=
  (provider.isVersionUnknown package && !range.isFull) = true ∨
    (∃ pref ∈ preferredOf provider package range, pref ∈ provider.versions package) ∨
    preferredOf provider package range = none ∧ ∀ c d,
      Optimum (strategyFor provider strategy package) (eligibleOf provider strategy package range) c →
      Optimum (strategyFor provider strategy package) (eligibleOf provider strategy package range) d → c = d

end

section

variable {provider : ChoiceProvider} {strategy : Strategy} {constrainers : Str → List (Str × Str)} {package : Str} {range : VersionSet}

theorem pickVersion_of_preferred {pref : Version} (h : preferredOf provider package range = some pref) :
    pickVersion (candidatesOf provider package range) range (strategyFor provider strategy package) (provider.preference package) =
      some pref := by
  have hsurvives := (Option.filter_eq_some_iff.mp h).2
  have hne : (candidatesOf provider package range).isEmpty = false := by
    obtain ⟨c, hc, -⟩ := List.any_eq_true.mp hsurvives
    exact List.isEmpty_eq_false_iff_exists_mem.mpr ⟨c, hc⟩
  unfold preferredOf at h
  unfold pickVersion
  rw [hne, if_neg Bool.false_ne_true, h]

theorem pickVersion_of_not_preferred (h : preferredOf provider package range = none) :
    pickVersion (candidatesOf provider package range) range (strategyFor provider strategy package) (provider.preference package) =
      best (strategyFor provider strategy package) (eligibleOf provider strategy package range) := by
  unfold preferredOf at h
  unfold pickVersion eligibleOf eligible
  rw [h, ← List.filter_filter]
  split_ifs with hempty
  · rw [candidatesOf, List.isEmpty_iff] at hempty
    rw [hempty]
    exact (best_eq_none.mpr rfl).symm
  · cases hs : strategyFor provider strategy package with
    | maxver => simp [majorAllowed, best, candidatesOf]
    | minver => simp [majorAllowed, best, candidatesOf]
    | semver =>
      unfold pickSemver majorAllowed
      cases range.lowerBound <;> simp [best, candidatesOf]

/-- A version is in a set when another of its precedence is. -/
theorem contains_of_beq {c v : Version} (h : (c == v) = true) : range.contains c = range.contains v := by
  rw [Bool.eq_iff_iff, contains_iff, contains_iff, cutAt, cutAt, (Version.beq_iff c v).mp h]

/-- What survives does not depend on the order of the list. -/
theorem preferredOf_perm {versions' : Str → List Version} (h : ∀ p, (provider.versions p).Perm (versions' p)) :
    preferredOf { provider with versions := versions' } package range = preferredOf provider package range := by
  unfold preferredOf candidatesOf survives
  congr 1
  funext pref
  exact ((h package).filter _).symm.any_eq

/-- **The choice is what it is to be exactly where it is settled.** -/
theorem choiceLaw_iff : ChoiceLaw provider strategy constrainers package range ↔ Settled provider strategy package range := by
  by_cases hrefused : (provider.isVersionUnknown package && !range.isFull) = true
  · have herror : ∀ versions', chooseVersion { provider with versions := versions' } strategy constrainers package range =
        .error (.versionUnknownConstrained package (constrainers package)) := fun _ => if_pos hrefused
    refine iff_of_true ⟨fun v h => ?_, fun r h => ?_, fun r h => ?_, fun versions' _ => ?_⟩ (Or.inl hrefused)
    · exact absurd ((herror provider.versions).symm.trans h) (by simp)
    · exact absurd ((herror provider.versions).symm.trans h) (by simp)
    · exact absurd ((herror provider.versions).symm.trans h) (by simp)
    · rw [herror versions']
      exact (herror provider.versions).symm
  · have hchoose : ∀ versions', chooseVersion { provider with versions := versions' } strategy constrainers package range =
        .ok (pickVersion (candidatesOf { provider with versions := versions' } package range) range
          (strategyFor provider strategy package) (provider.preference package)) := fun _ => if_neg hrefused
    cases hpreferred : preferredOf provider package range with
    | some pref =>
      have hpick : ∀ versions', (∀ p, (provider.versions p).Perm (versions' p)) →
          chooseVersion { provider with versions := versions' } strategy constrainers package range = .ok (some pref) := by
        intro versions' hperm
        rw [hchoose versions']
        have hshuffled : preferredOf { provider with versions := versions' } package range = some pref :=
          (preferredOf_perm hperm).trans hpreferred
        exact congrArg Except.ok (pickVersion_of_preferred hshuffled)
      have hself := hpick provider.versions fun _ => List.Perm.refl _
      constructor
      · intro hlaw
        exact Or.inr (Or.inl ⟨pref, hpreferred, (hlaw.sound pref hself).1⟩)
      · rintro (h | ⟨pref', hpref', hmem⟩ | ⟨hnone, -⟩)
        · exact absurd h hrefused
        · obtain rfl : pref = pref' := Option.some.inj (hpreferred.symm.trans hpref')
          obtain ⟨c, hc, hbeq⟩ := List.any_eq_true.mp (Option.filter_eq_some_iff.mp hpreferred).2
          have hcontains : range.contains pref = true := (contains_of_beq hbeq).symm.trans (List.mem_filter.mp hc).2
          refine ⟨fun v h => ?_, fun r h pref' h' => ?_, fun r _ h' => ?_, fun versions' hperm => ?_⟩
          · obtain rfl : pref = v := Option.some.inj (Except.ok.inj (hself.symm.trans h))
            exact ⟨hmem, hcontains⟩
          · exact (Except.ok.inj (hself.symm.trans h)).symm.trans (hpreferred.symm.trans h')
          · exact absurd (hpreferred.symm.trans h') (by simp)
          · exact (hpick versions' hperm).trans hself.symm
        · exact absurd (hpreferred.symm.trans hnone) (by simp)
    | none =>
      have hpick : ∀ versions', (∀ p, (provider.versions p).Perm (versions' p)) →
          chooseVersion { provider with versions := versions' } strategy constrainers package range =
            .ok (best (strategyFor provider strategy package)
              (eligible (strategyFor provider strategy package) range (versions' package))) := by
        intro versions' hperm
        rw [hchoose versions']
        have hshuffled : preferredOf { provider with versions := versions' } package range = none :=
          (preferredOf_perm hperm).trans hpreferred
        exact congrArg Except.ok (pickVersion_of_not_preferred hshuffled)
      have hself := hpick provider.versions fun _ => List.Perm.refl _
      constructor
      · intro hlaw
        have hall : ∀ c, Optimum (strategyFor provider strategy package) (eligibleOf provider strategy package range) c →
            best (strategyFor provider strategy package) (eligibleOf provider strategy package range) = some c := by
          intro c hc
          obtain ⟨versions', hperm, hbest⟩ := exists_perm_best hc
          have hperms : ∀ p, (provider.versions p).Perm (if p = package then versions' else provider.versions p) := by
            intro p
            split_ifs with hp
            · rw [hp]
              exact hperm
            · exact List.Perm.refl _
          have horder := hlaw.orderless _ hperms
          rw [hpick _ hperms, hself, if_pos rfl, hbest] at horder
          exact (Except.ok.inj horder).symm
        exact Or.inr (Or.inr ⟨hpreferred, fun c d hc hd => Option.some.inj ((hall c hc).symm.trans (hall d hd))⟩)
      · rintro (h | ⟨pref, hpref, -⟩ | ⟨-, hone⟩)
        · exact absurd h hrefused
        · exact absurd (hpreferred.symm.trans hpref) (by simp)
        · refine ⟨fun v h => ?_, fun r _ pref h' => ?_, fun r h _ => ?_, fun versions' hperm => ?_⟩
          · obtain ⟨hmem, hfilter⟩ := List.mem_filter.mp (optimum_best (Except.ok.inj (hself.symm.trans h))).1
            exact ⟨hmem, ((Bool.and_eq_true _ _).mp hfilter).2⟩
          · exact absurd (hpreferred.symm.trans h') (by simp)
          · obtain rfl := Except.ok.inj (hself.symm.trans h)
            exact ⟨best_eq_none, fun v hv => optimum_best hv⟩
          · have heligible : (eligibleOf provider strategy package range).Perm
                (eligible (strategyFor provider strategy package) range (versions' package)) := (hperm package).filter _
            rw [hpick versions' hperm, hself]
            refine congrArg Except.ok ?_
            cases hbest : best (strategyFor provider strategy package)
                (eligible (strategyFor provider strategy package) range (versions' package)) with
            | none =>
              rw [best_eq_none.mp hbest] at heligible
              exact (best_eq_none.mpr heligible.eq_nil).symm
            | some w =>
              have hw := (optimum_best hbest).perm heligible.symm
              cases hbest' : best (strategyFor provider strategy package) (eligibleOf provider strategy package range) with
              | none => exact absurd hw.1 (by simp [best_eq_none.mp hbest'])
              | some v => exact (congrArg some (hone v w (optimum_best hbest') hw)).symm.trans hbest'.symm

end

/-- Two releases that differ in their build metadata: the last of the list is taken. -/
def twoBuilds : ChoiceProvider :=
  ⟨fun _ => [⟨1, 0, 0, [], "a"⟩, ⟨1, 0, 0, [], "b"⟩], fun _ => false, fun _ => none, fun _ => false⟩

/-- Of two builds of one release, the one that is chosen is the last of the list. -/
theorem choice_of_two_builds :
    chooseVersion twoBuilds .maxver (fun _ => []) "lib" .full = .ok (some ⟨1, 0, 0, [], "b"⟩) ∧
      chooseVersion { twoBuilds with versions := fun p => (twoBuilds.versions p).reverse } .maxver (fun _ => []) "lib" .full =
        .ok (some ⟨1, 0, 0, [], "a"⟩) ∧
      ¬ ChoiceLaw twoBuilds .maxver (fun _ => []) "lib" .full := by
  have hforwards : chooseVersion twoBuilds .maxver (fun _ => []) "lib" .full = .ok (some ⟨1, 0, 0, [], "b"⟩) := by decide
  have hbackwards : chooseVersion { twoBuilds with versions := fun p => (twoBuilds.versions p).reverse } .maxver (fun _ => []) "lib"
      .full = .ok (some ⟨1, 0, 0, [], "a"⟩) := by decide
  refine ⟨hforwards, hbackwards, fun hlaw => ?_⟩
  have horder := hlaw.orderless (fun p => (twoBuilds.versions p).reverse) fun p => (List.reverse_perm _).symm
  rw [hforwards, hbackwards] at horder
  exact absurd horder (by decide)

end Milpa.Solver

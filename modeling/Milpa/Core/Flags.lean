import Mathlib.Data.Finset.Basic
import Mathlib.Logic.Relation
import Milpa.Order.BTreeMap
import Milpa.Types.Manifest

/-!
# Feature flags

Which flags of a package are active, `compute_dep_active_flags`, and which of its
dependencies they admit, `dep_passes_flag_predicates`. The loop that follows the `enables`
rules reaches its fixed point within as many rounds as there are rules
(`enablesLoop_closed`), and the flags that are active in the end are those that the rules
lead to from a default or a request (`mem_computeDepActiveFlags`).
-/

namespace Milpa.Core

/-- Flags that are active, each with the reasons. -/
abbrev ActiveFlags := BTreeMap Str (Finset ActivationSource)

namespace ActiveFlags

/-- A flag is active. -/
def Active (m : ActiveFlags) (flag : Str) : Prop := flag ∈ m.keys

instance (m : ActiveFlags) (flag : Str) : Decidable (m.Active flag) := inferInstanceAs (Decidable (flag ∈ m.keys))

/-- `entry(flag).or_default().insert(source)`. -/
def activate (flag : Str) (source : ActivationSource) (m : ActiveFlags) : ActiveFlags :=
  m.insert flag (insert source ((m.get? flag).getD ∅))

/-- `entry(flag).or_default().extend(sources)`. -/
def activateAll (flag : Str) (sources : Finset ActivationSource) (m : ActiveFlags) : ActiveFlags :=
  m.insert flag ((m.get? flag).getD ∅ ∪ sources)

/-- The flags of two maps, with the reasons of both. -/
def union (m n : ActiveFlags) : ActiveFlags := n.entries.foldl (fun m e => m.activateAll e.1 e.2) m

@[simp] theorem not_active_empty (flag : Str) : ¬ Active BTreeMap.empty flag := by
  rintro h
  simp [Active, BTreeMap.keys, BTreeMap.empty] at h

@[simp] theorem active_insert (m : ActiveFlags) (flag g : Str) (s : Finset ActivationSource) :
    Active (BTreeMap.insert flag s m) g ↔ g = flag ∨ m.Active g := by
  rw [Active, Active, BTreeMap.mem_keys, BTreeMap.mem_keys, BTreeMap.get?_insert]
  by_cases h : g = flag
  · simp [h]
  · simp [h]

@[simp] theorem active_activate (m : ActiveFlags) (flag g : Str) (source : ActivationSource) :
    (m.activate flag source).Active g ↔ g = flag ∨ m.Active g :=
  active_insert _ _ _ _

@[simp] theorem active_activateAll (m : ActiveFlags) (flag g : Str) (sources : Finset ActivationSource) :
    (m.activateAll flag sources).Active g ↔ g = flag ∨ m.Active g :=
  active_insert _ _ _ _

/-- The flags of a union. -/
theorem active_union (m n : ActiveFlags) (g : Str) : (m.union n).Active g ↔ m.Active g ∨ n.Active g := by
  have fold : ∀ (l : List (Str × Finset ActivationSource)) (m : ActiveFlags),
      (l.foldl (fun m e => m.activateAll e.1 e.2) m).Active g ↔ m.Active g ∨ g ∈ l.map Prod.fst := by
    intro l
    induction l with
    | nil => simp
    | cons e l ih =>
      intro m
      rw [List.foldl_cons, ih, active_activateAll, List.map_cons, List.mem_cons]
      constructor
      · rintro ((h | h) | h)
        · exact Or.inr (Or.inl h)
        · exact Or.inl h
        · exact Or.inr (Or.inr h)
      · rintro (h | h | h)
        · exact Or.inl (Or.inr h)
        · exact Or.inl (Or.inl h)
        · exact Or.inr h
  exact fold n.entries m

end ActiveFlags

open ActiveFlags

/-! ### Admission -/

/-- Whether a clause holds: a clause that is not about flags always does. -/
def passesFlagPredicate (active : List Str) (p : Predicate) : Bool :=
  if p.name = "flag".toList then
    let anyMatch := p.values.any fun v => decide (v ∈ active)
    if p.negated then !anyMatch else anyMatch
  else true

/-- `dep_passes_flag_predicates`. -/
def depPassesFlagPredicates (dep : Dep) (active : List Str) : Bool := dep.predicates.all (passesFlagPredicate active)

/-- Only which flags are active counts. -/
theorem depPassesFlagPredicates_congr (dep : Dep) {a b : List Str} (h : ∀ f, f ∈ a ↔ f ∈ b) :
    depPassesFlagPredicates dep a = depPassesFlagPredicates dep b := by
  have hp : passesFlagPredicate a = passesFlagPredicate b := by
    funext p
    simp only [passesFlagPredicate, h]
  rw [depPassesFlagPredicates, depPassesFlagPredicates, hp]

/-! ### Activation -/

/-- `flag_by_name`: the declaration of a flag. -/
def flagByName (flags : List FlagDecl) (name : Str) : Option FlagDecl :=
  flags.reverse.find? fun fd => decide (fd.name = name)

/-- The flags that a flag enables in its own package. -/
def enabledBy (flags : List FlagDecl) (name : Str) : List Str := ((flagByName flags name).map FlagDecl.enablesSamePkg).getD []

/-- Rule 1: the defaults. -/
def defaultFlags (flags : List FlagDecl) : ActiveFlags :=
  flags.foldl (fun m fd => if fd.default then m.activate fd.name .default else m) BTreeMap.empty

/-- Rule 2: the requests for flags that the package declares. -/
def requestFlags (flags : List FlagDecl) (requested : List FlagRequest) (m : ActiveFlags) : ActiveFlags :=
  requested.foldl (fun m fr =>
    if fr.enabled && (flagByName flags fr.name).isSome then m.activate fr.name .edgeRequest else m) m

/-- What a round of rule 3 does with one flag that is enabled. -/
def enableFlag (m : ActiveFlags × Bool) (name : Str) : ActiveFlags × Bool :=
  if m.1.Active name then m else (m.1.activate name .enablesRule, true)

/-- A round of rule 3, and whether it has added a flag. -/
def enablesRound (flags : List FlagDecl) (m : ActiveFlags) : ActiveFlags × Bool :=
  (m.keys.flatMap (enabledBy flags)).foldl enableFlag (m, false)

/-- Rule 3: rounds until one adds nothing. -/
def enablesLoop (flags : List FlagDecl) : ℕ → ActiveFlags → ActiveFlags
  | 0, m => m
  | n + 1, m =>
    let (m', added) := enablesRound flags m
    if added then enablesLoop flags n m' else m'

/-- The flags that some flag enables. -/
def enableTargets (flags : List FlagDecl) : List Str := flags.flatMap FlagDecl.enablesSamePkg

/-- `compute_dep_active_flags`. -/
def computeDepActiveFlags (flags : List FlagDecl) (requested : List FlagRequest) : ActiveFlags :=
  enablesLoop flags ((enableTargets flags).length + 1) (requestFlags flags requested (defaultFlags flags))

/-! ### What the rules give -/

theorem active_defaultFlags (flags : List FlagDecl) (g : Str) :
    (defaultFlags flags).Active g ↔ ∃ fd ∈ flags, fd.default = true ∧ fd.name = g := by
  have fold : ∀ (l : List FlagDecl) (m : ActiveFlags),
      (l.foldl (fun m fd => if fd.default then m.activate fd.name .default else m) m).Active g ↔
        m.Active g ∨ ∃ fd ∈ l, fd.default = true ∧ fd.name = g := by
    intro l
    induction l with
    | nil => simp
    | cons fd l ih =>
      intro m
      rw [List.foldl_cons, ih]
      by_cases hd : fd.default = true
      · rw [if_pos hd, active_activate]
        simp only [List.mem_cons, exists_eq_or_imp, hd, true_and]
        rw [eq_comm (a := g), or_comm (a := fd.name = g), or_assoc]
      · simp [hd]
  rw [defaultFlags, fold]
  simp

theorem active_requestFlags (flags : List FlagDecl) (requested : List FlagRequest) (m : ActiveFlags) (g : Str) :
    (requestFlags flags requested m).Active g ↔
      m.Active g ∨ ∃ fr ∈ requested, fr.enabled = true ∧ (flagByName flags fr.name).isSome = true ∧ fr.name = g := by
  induction requested generalizing m with
  | nil => simp [requestFlags]
  | cons fr l ih =>
    rw [requestFlags, List.foldl_cons, ← requestFlags, ih]
    by_cases hd : (fr.enabled && (flagByName flags fr.name).isSome) = true
    · have hd' := Bool.and_eq_true_iff.mp hd
      rw [if_pos hd, active_activate]
      simp only [List.mem_cons, exists_eq_or_imp, hd'.1, hd'.2, true_and]
      rw [eq_comm (a := g), or_comm (a := fr.name = g), or_assoc]
    · rw [if_neg hd]
      rw [Bool.and_eq_true_iff] at hd
      simp only [List.mem_cons, exists_eq_or_imp]
      refine or_congr_right (or_iff_right fun h => ?_).symm
      exact hd ⟨h.1, h.2.1⟩

theorem active_foldl_enableFlag (l : List Str) (m : ActiveFlags × Bool) (g : Str) :
    (l.foldl enableFlag m).1.Active g ↔ m.1.Active g ∨ g ∈ l := by
  induction l generalizing m with
  | nil => simp
  | cons name l ih =>
    rw [List.foldl_cons, ih, enableFlag]
    split_ifs with h
    · rw [List.mem_cons]
      constructor
      · exact fun hg => hg.imp_right Or.inr
      · rintro (hg | rfl | hg)
        · exact Or.inl hg
        · exact Or.inl h
        · exact Or.inr hg
    · rw [active_activate, List.mem_cons, or_comm (a := g = name), or_assoc]

theorem foldl_enableFlag_snd (l : List Str) (m : ActiveFlags × Bool) :
    (l.foldl enableFlag m).2 = true ↔ m.2 = true ∨ ∃ g ∈ l, ¬ m.1.Active g := by
  induction l generalizing m with
  | nil => simp
  | cons name l ih =>
    rw [List.foldl_cons, ih, enableFlag]
    split_ifs with h
    · simp [h]
    · simp [h]

/-- The flags after a round. -/
theorem active_enablesRound (flags : List FlagDecl) (m : ActiveFlags) (g : Str) :
    (enablesRound flags m).1.Active g ↔ m.Active g ∨ ∃ f, m.Active f ∧ g ∈ enabledBy flags f := by
  rw [enablesRound, active_foldl_enableFlag, List.mem_flatMap]
  rfl

/-- A round says that it has added a flag when some rule was not satisfied. -/
theorem enablesRound_snd (flags : List FlagDecl) (m : ActiveFlags) :
    (enablesRound flags m).2 = true ↔ ∃ f g, m.Active f ∧ g ∈ enabledBy flags f ∧ ¬ m.Active g := by
  rw [enablesRound, foldl_enableFlag_snd]
  constructor
  · rintro (h | ⟨g, hg, hn⟩)
    · cases h
    · obtain ⟨f, hf, hfg⟩ := List.mem_flatMap.mp hg
      exact ⟨f, g, hf, hfg, hn⟩
  · rintro ⟨f, g, hf, hfg, hn⟩
    exact Or.inr ⟨g, List.mem_flatMap.mpr ⟨f, hf, hfg⟩, hn⟩

/-- Every rule of an active flag is satisfied. -/
def Closed (flags : List FlagDecl) (m : ActiveFlags) : Prop := ∀ f g, m.Active f → g ∈ enabledBy flags f → m.Active g

theorem mem_enableTargets {flags : List FlagDecl} {f g : Str} (h : g ∈ enabledBy flags f) : g ∈ enableTargets flags := by
  rw [enabledBy] at h
  cases hf : flagByName flags f with
  | none => simp [hf] at h
  | some fd =>
    rw [hf] at h
    exact List.mem_flatMap.mpr ⟨fd, List.mem_reverse.mp (List.mem_of_find?_eq_some hf), h⟩

/-- The rules that are not satisfied get fewer in a round that adds something. -/
theorem length_inactive_lt {flags : List FlagDecl} {m : ActiveFlags} (h : (enablesRound flags m).2 = true) :
    ((enableTargets flags).filter fun g => decide (¬ (enablesRound flags m).1.Active g)).length <
      ((enableTargets flags).filter fun g => decide (¬ m.Active g)).length := by
  obtain ⟨f, g, hf, hfg, hn⟩ := (enablesRound_snd flags m).mp h
  have hg : (enablesRound flags m).1.Active g := (active_enablesRound flags m g).mpr (Or.inr ⟨f, hf, hfg⟩)
  have hsplit : (enableTargets flags).filter (fun g => decide (¬ (enablesRound flags m).1.Active g)) =
      ((enableTargets flags).filter fun g => decide (¬ m.Active g)).filter
        fun g => decide (¬ (enablesRound flags m).1.Active g) := by
    rw [List.filter_filter]
    refine List.filter_congr fun x _ => ?_
    by_cases hx : m.Active x
    · simp [(active_enablesRound flags m x).mpr (Or.inl hx)]
    · simp [hx]
  rw [hsplit]
  refine List.length_filter_lt_length_iff_exists.mpr ⟨g, ?_, by simpa using hg⟩
  exact List.mem_filter.mpr ⟨mem_enableTargets hfg, by simpa using hn⟩

/-- **The rounds reach their fixed point**: there are enough of them. -/
theorem enablesLoop_closed {flags : List FlagDecl} {n : ℕ} {m : ActiveFlags}
    (h : ((enableTargets flags).filter fun g => decide (¬ m.Active g)).length < n) :
    Closed flags (enablesLoop flags n m) := by
  induction n generalizing m with
  | zero => omega
  | succ n ih =>
    rw [enablesLoop]
    dsimp only
    split_ifs with hadd
    · apply ih
      have := length_inactive_lt hadd
      omega
    · intro f g hf hfg
      rw [enablesRound_snd] at hadd
      push Not at hadd
      have hkeep : ∀ x, (enablesRound flags m).1.Active x → m.Active x := by
        intro x hx
        rcases (active_enablesRound flags m x).mp hx with hx | ⟨f', hf', hx⟩
        · exact hx
        · exact hadd f' x hf' hx
      exact (active_enablesRound flags m g).mpr (Or.inr ⟨f, hkeep f hf, hfg⟩)

/-- A rule of the package leads from one flag to another. -/
def Enables (flags : List FlagDecl) (f g : Str) : Prop := g ∈ enabledBy flags f

/-- The flags that the rules lead to from the flags of a set: the set closed under the rules. -/
def EnablesClosure (flags : List FlagDecl) (seed : Set Str) : Set Str :=
  {g | ∃ f ∈ seed, Relation.ReflTransGen (Enables flags) f g}

theorem enablesClosure_mono {flags : List FlagDecl} {s t : Set Str} (h : s ⊆ t) :
    EnablesClosure flags s ⊆ EnablesClosure flags t := by
  rintro g ⟨f, hf, hg⟩
  exact ⟨f, h hf, hg⟩

theorem subset_enablesClosure (flags : List FlagDecl) (s : Set Str) : s ⊆ EnablesClosure flags s :=
  fun f hf => ⟨f, hf, .refl⟩

/-- Closing twice is closing once. -/
theorem enablesClosure_idem (flags : List FlagDecl) (s : Set Str) :
    EnablesClosure flags (EnablesClosure flags s) = EnablesClosure flags s := by
  refine Set.Subset.antisymm ?_ (subset_enablesClosure flags _)
  rintro g ⟨f, ⟨e, he, hef⟩, hfg⟩
  exact ⟨e, he, hef.trans hfg⟩

theorem enablesClosure_union (flags : List FlagDecl) (s t : Set Str) :
    EnablesClosure flags (s ∪ t) = EnablesClosure flags s ∪ EnablesClosure flags t := by
  ext g
  constructor
  · rintro ⟨f, hf | hf, hg⟩
    · exact Or.inl ⟨f, hf, hg⟩
    · exact Or.inr ⟨f, hf, hg⟩
  · rintro (⟨f, hf, hg⟩ | ⟨f, hf, hg⟩)
    · exact ⟨f, Or.inl hf, hg⟩
    · exact ⟨f, Or.inr hf, hg⟩

/-- The loop adds only what the rules lead to, and drops nothing. -/
theorem enablesLoop_bounds (flags : List FlagDecl) (n : ℕ) (m : ActiveFlags) (g : Str) :
    (m.Active g → (enablesLoop flags n m).Active g) ∧
      ((enablesLoop flags n m).Active g → g ∈ EnablesClosure flags {f | m.Active f}) := by
  induction n generalizing m with
  | zero => exact ⟨id, fun h => subset_enablesClosure flags _ h⟩
  | succ n ih =>
    have hround : {f | (enablesRound flags m).1.Active f} ⊆ EnablesClosure flags {f | m.Active f} := by
      intro f hf
      rcases (active_enablesRound flags m f).mp hf with hf | ⟨f', hf', hff⟩
      · exact subset_enablesClosure flags _ hf
      · exact ⟨f', hf', .single hff⟩
    have hkeep : m.Active g → (enablesRound flags m).1.Active g := fun h => (active_enablesRound flags m g).mpr (Or.inl h)
    rw [enablesLoop]
    dsimp only
    split_ifs
    · refine ⟨fun h => (ih _).1 (hkeep h), fun h => ?_⟩
      have := enablesClosure_mono hround ((ih _).2 h)
      rwa [enablesClosure_idem] at this
    · exact ⟨hkeep, fun h => hround h⟩

/-- The flags from which the rules start: the defaults, and the requests for flags that the package declares. -/
def seedFlags (flags : List FlagDecl) (requested : List FlagRequest) : Set Str :=
  {g | (∃ fd ∈ flags, fd.default = true ∧ fd.name = g) ∨
    ∃ fr ∈ requested, fr.enabled = true ∧ (flagByName flags fr.name).isSome = true ∧ fr.name = g}

/-- **`compute_dep_active_flags` is the closure of the defaults and the requests under the rules of the package.** -/
theorem active_computeDepActiveFlags (flags : List FlagDecl) (requested : List FlagRequest) (g : Str) :
    (computeDepActiveFlags flags requested).Active g ↔ g ∈ EnablesClosure flags (seedFlags flags requested) := by
  have hseed : {f | (requestFlags flags requested (defaultFlags flags)).Active f} = seedFlags flags requested := by
    ext f
    show (requestFlags flags requested (defaultFlags flags)).Active f ↔ _
    rw [active_requestFlags, active_defaultFlags]
    rfl
  constructor
  · intro h
    rw [← hseed]
    exact (enablesLoop_bounds flags _ _ g).2 h
  · rintro ⟨f, hf, hfg⟩
    rw [← hseed] at hf
    have hclosed : Closed flags (computeDepActiveFlags flags requested) :=
      enablesLoop_closed (Nat.lt_succ_of_le (List.length_filter_le _ _))
    induction hfg with
    | refl => exact (enablesLoop_bounds flags _ _ f).1 hf
    | tail _ hstep ih => exact hclosed _ _ ih hstep

end Milpa.Core

import Milpa.Core.FlagTable
import Milpa.Core.Filter
import Milpa.Order.Worklist

/-!
# Two ways to the active flags

`flag_enables_closure` follows the rules of a flag table with a worklist and skips what is
not declared; `compute_dep_active_flags` goes over the active flags again until nothing is
added and skips nothing. Over a table that the parser accepts both give the least set that
has the seed in it and that the rules do not leave (`WellFormedFlags.isLeast`), so
the laws of such sets are theirs.
-/

namespace Milpa.Core

open ActiveFlags Resolver Worklist

variable {flags flags' : List FlagDecl}

/-- A rule of the table: a flag is declared with another under `enables`. -/
def Rule (flags : List FlagDecl) (f g : Str) : Prop := ∃ fd ∈ flags, fd.name = f ∧ g ∈ fd.enablesSamePkg

/-- The names of the requests for flags that the package declares. -/
def declaredRequests (flags : List FlagDecl) (requested : List FlagRequest) : List Str :=
  (requested.filter fun fr => fr.enabled && decide (fr.name ∈ flagNames flags)).map FlagRequest.name

/-! ### The worklist -/

/-- The declared flags that a flag enables. -/
def declaredTargets (flags : List FlagDecl) (f : Str) : List Str :=
  (enabledBy flags f).filter fun g => (flagByName flags g).isSome

theorem fresh_declaredTargets (flags : List FlagDecl) (active : List Str) (f : Str) :
    fresh (declaredTargets flags) active f =
      ((enabledBy flags f).filter fun g => decide (g ∉ active) && (flagByName flags g).isSome).dedup := by
  rw [fresh, declaredTargets, List.filter_filter]
  congr!

theorem flagEnablesLoop_eq (flags : List FlagDecl) (n : ℕ) (active worklist : List Str) :
    flagEnablesLoop flags n active worklist = Worklist.follow (declaredTargets flags) n active worklist := by
  induction n generalizing active worklist with
  | zero => rfl
  | succ n ih =>
    cases worklist with
    | nil => rfl
    | cons f worklist => rw [flagEnablesLoop, Worklist.follow, ih, fresh_declaredTargets]

theorem flagByName_isSome {name : Str} : (flagByName flags name).isSome = true ↔ name ∈ flagNames flags := by
  rw [flagByName, List.find?_isSome, flagNames]
  simp [List.mem_map]

theorem mem_of_flagByName {name : Str} {fd : FlagDecl} (h : flagByName flags name = some fd) : fd ∈ flags ∧ fd.name = name :=
  ⟨List.mem_reverse.mp (List.mem_of_find?_eq_some h), by simpa using List.find?_some h⟩

/-- What `flag_enables_closure` gives for any table: it follows the rules as far as they lead to declared flags. -/
theorem mem_flagEnablesClosure_reachable (flags : List FlagDecl) (seed : List Str) (g : Str) :
    g ∈ flagEnablesClosure flags seed ↔ g ∈ Reachable (fun f g => g ∈ declaredTargets flags f) {f | f ∈ seed} := by
  have hnext : ∀ f, ∀ g ∈ declaredTargets flags f, g ∈ (flagNames flags).toFinset := by
    intro f g hg
    exact List.mem_toFinset.mpr (flagByName_isSome.mp (List.mem_filter.mp hg).2)
  have hcard : (flagNames flags).toFinset.card ≤ flags.length :=
    (List.toFinset_card_le _).trans_eq (List.length_map _)
  rw [flagEnablesClosure, flagEnablesLoop_eq]
  exact mem_follow hnext (by omega) g

/-! ### A table that is accepted -/

theorem WellFormedFlags.enables_iff (hwf : WellFormedFlags flags) {f g : Str} : Enables flags f g ↔ Rule flags f g := by
  constructor
  · intro h
    rw [Enables, enabledBy] at h
    cases hfd : flagByName flags f with
    | none => simp [hfd] at h
    | some fd =>
      rw [hfd] at h
      exact ⟨fd, (mem_of_flagByName hfd).1, (mem_of_flagByName hfd).2, h⟩
  · rintro ⟨fd, hfd, rfl, hg⟩
    obtain ⟨fd', hfd'⟩ := Option.isSome_iff_exists.mp (flagByName_isSome.mpr (List.mem_map_of_mem hfd))
    have hsame : fd' = fd := List.inj_on_of_nodup_map hwf.nodup (mem_of_flagByName hfd').1 hfd (mem_of_flagByName hfd').2
    rw [Enables, enabledBy, hfd', hsame]
    exact hg

theorem WellFormedFlags.declaredTargets_eq (hwf : WellFormedFlags flags) (f : Str) :
    declaredTargets flags f = enabledBy flags f := by
  refine List.filter_eq_self.mpr fun g hg => flagByName_isSome.mpr ?_
  obtain ⟨fd, hfd, -, hg⟩ := hwf.enables_iff.mp hg
  exact hwf.declared fd hfd g hg

theorem WellFormedFlags.reachable_eq (hwf : WellFormedFlags flags) (s : Set Str) :
    Reachable (Rule flags) s = EnablesClosure flags s := by
  have hrel : Rule flags = Enables flags := by
    funext f g
    exact propext hwf.enables_iff.symm
  rw [hrel]
  rfl

/-- **`flag_enables_closure` is the closure of the seed under the rules of the table.** -/
theorem WellFormedFlags.mem_flagEnablesClosure (hwf : WellFormedFlags flags) (seed : List Str) (g : Str) :
    g ∈ flagEnablesClosure flags seed ↔ g ∈ Reachable (Rule flags) {f | f ∈ seed} := by
  have hrel : (fun f g => g ∈ declaredTargets flags f) = Enables flags := by
    funext f g
    rw [hwf.declaredTargets_eq]
    rfl
  rw [mem_flagEnablesClosure_reachable, hrel, hwf.reachable_eq]
  rfl

theorem WellFormedFlags.isLeast (hwf : WellFormedFlags flags) (seed : List Str) :
    IsLeast {s | {f | f ∈ seed} ⊆ s ∧ IsClosed (Rule flags) s} {g | g ∈ flagEnablesClosure flags seed} := by
  have hset : {g | g ∈ flagEnablesClosure flags seed} = Reachable (Rule flags) {f | f ∈ seed} :=
    Set.ext fun g => hwf.mem_flagEnablesClosure seed g
  rw [hset]
  exact isLeast_reachable _ _

/-- The seed of `compute_dep_active_flags`. -/
theorem mem_seedFlags (flags : List FlagDecl) (requested : List FlagRequest) (g : Str) :
    g ∈ seedFlags flags requested ↔ g ∈ defaultSeed flags ++ declaredRequests flags requested := by
  simp only [seedFlags, Set.mem_ofPred_eq, List.mem_append, defaultSeed, declaredRequests, List.mem_map, List.mem_filter,
    Bool.and_eq_true, decide_eq_true_eq, flagByName_isSome, and_assoc]

theorem WellFormedFlags.active_iff (hwf : WellFormedFlags flags) (requested : List FlagRequest) (g : Str) :
    (computeDepActiveFlags flags requested).Active g ↔
      g ∈ flagEnablesClosure flags (defaultSeed flags ++ declaredRequests flags requested) := by
  have hseed : seedFlags flags requested = {f | f ∈ defaultSeed flags ++ declaredRequests flags requested} :=
    Set.ext (mem_seedFlags flags requested)
  rw [active_computeDepActiveFlags, hwf.mem_flagEnablesClosure, hwf.reachable_eq, hseed]

/-! ### The laws -/

theorem WellFormedFlags.mono (hwf : WellFormedFlags flags) {s t : List Str} (hst : s ⊆ t) :
    flagEnablesClosure flags s ⊆ flagEnablesClosure flags t := by
  intro g hg
  rw [hwf.mem_flagEnablesClosure, hwf.reachable_eq] at hg ⊢
  exact enablesClosure_mono (fun f hf => hst hf) hg

theorem WellFormedFlags.idem (hwf : WellFormedFlags flags) (s : List Str) (g : Str) :
    g ∈ flagEnablesClosure flags (flagEnablesClosure flags s) ↔ g ∈ flagEnablesClosure flags s := by
  have hset : {f | f ∈ flagEnablesClosure flags s} = EnablesClosure flags {f | f ∈ s} := by
    ext f
    rw [← hwf.reachable_eq]
    exact hwf.mem_flagEnablesClosure s f
  rw [hwf.mem_flagEnablesClosure, hwf.mem_flagEnablesClosure, hwf.reachable_eq, hwf.reachable_eq, hset, enablesClosure_idem]

theorem WellFormedFlags.union (hwf : WellFormedFlags flags) (s t : List Str) (g : Str) :
    g ∈ flagEnablesClosure flags (s ++ t) ↔ g ∈ flagEnablesClosure flags s ∨ g ∈ flagEnablesClosure flags t := by
  have hset : {f | f ∈ s ++ t} = {f | f ∈ s} ∪ {f | f ∈ t} := Set.ext fun f => List.mem_append
  simp only [hwf.mem_flagEnablesClosure, hwf.reachable_eq, hset, enablesClosure_union, Set.mem_union]

theorem WellFormedFlags.perm (hwf : WellFormedFlags flags) (h : flags'.Perm flags) : WellFormedFlags flags' := by
  have hnames : (flagNames flags').Perm (flagNames flags) := h.map _
  refine ⟨hnames.nodup_iff.mpr hwf.nodup, fun fd hfd g hg => ?_⟩
  exact hnames.mem_iff.mpr (hwf.declared fd (h.mem_iff.mp hfd) g hg)

/-- Neither the order of the declarations nor that of the seed counts. -/
theorem WellFormedFlags.order (hwf : WellFormedFlags flags) (h : flags'.Perm flags) {s t : List Str} (hst : ∀ f, f ∈ s ↔ f ∈ t)
    (g : Str) : g ∈ flagEnablesClosure flags' s ↔ g ∈ flagEnablesClosure flags t := by
  have hrule : Rule flags' = Rule flags := by
    funext f g
    exact propext (exists_congr fun fd => and_congr_left fun _ => h.mem_iff)
  have hseed : {f | f ∈ s} = {f | f ∈ t} := Set.ext hst
  rw [(hwf.perm h).mem_flagEnablesClosure, hwf.mem_flagEnablesClosure, hrule, hseed]

theorem declaredRequests_append (flags : List FlagDecl) (a b : List FlagRequest) :
    declaredRequests flags (a ++ b) = declaredRequests flags a ++ declaredRequests flags b := by
  simp [declaredRequests]

theorem mem_defaultSeed {g : Str} (h : g ∈ defaultSeed flags) : g ∈ flagNames flags := by
  obtain ⟨fd, hfd, rfl⟩ := List.mem_map.mp h
  exact List.mem_map_of_mem (List.mem_filter.mp hfd).1

theorem mem_declaredRequests {requested : List FlagRequest} {g : Str} :
    g ∈ declaredRequests flags requested ↔ g ∈ flagNames flags ∧ ⟨g, true⟩ ∈ requested := by
  simp only [declaredRequests, List.mem_map, List.mem_filter, Bool.and_eq_true, decide_eq_true_eq]
  constructor
  · rintro ⟨⟨name, enabled⟩, ⟨hmem, henabled, hdeclared⟩, rfl⟩
    obtain rfl : enabled = true := henabled
    exact ⟨hdeclared, hmem⟩
  · rintro ⟨hdeclared, hmem⟩
    exact ⟨⟨g, true⟩, ⟨hmem, rfl, hdeclared⟩, rfl⟩

/-- A flag that is active is declared. -/
theorem WellFormedFlags.declared_of_active (hwf : WellFormedFlags flags) {requested : List FlagRequest} {g : Str}
    (h : (computeDepActiveFlags flags requested).Active g) : g ∈ flagNames flags := by
  rw [hwf.active_iff, hwf.mem_flagEnablesClosure] at h
  refine reachable_subset (fun f hf => ?_) (fun f _ g hfg => ?_) h (t := {g | g ∈ flagNames flags})
  · rcases List.mem_append.mp hf with hf | hf
    · exact mem_defaultSeed hf
    · exact (mem_declaredRequests.mp hf).1
  · obtain ⟨fd, hfd, -, hg⟩ := hfg
    exact hwf.declared fd hfd g hg

theorem WellFormedFlags.order_requests (hwf : WellFormedFlags flags) (h : flags'.Perm flags) {a b : List FlagRequest} (hab : a.Perm b)
    (g : Str) : (computeDepActiveFlags flags' a).Active g ↔ (computeDepActiveFlags flags b).Active g := by
  have hnames : ∀ f, f ∈ flagNames flags' ↔ f ∈ flagNames flags := fun f => (h.map _).mem_iff
  have hdefaults : ∀ f, f ∈ defaultSeed flags' ↔ f ∈ defaultSeed flags := fun f => ((h.filter _).map _).mem_iff
  rw [(hwf.perm h).active_iff, hwf.active_iff]
  refine hwf.order h (fun f => ?_) g
  rw [List.mem_append, List.mem_append, mem_declaredRequests, mem_declaredRequests, hnames, hdefaults, hab.mem_iff]

theorem WellFormedFlags.union_requests (hwf : WellFormedFlags flags) (a b : List FlagRequest) (g : Str) :
    (computeDepActiveFlags flags (a ++ b)).Active g ↔
      (computeDepActiveFlags flags a).Active g ∨ (computeDepActiveFlags flags b).Active g := by
  rw [hwf.active_iff, hwf.active_iff, hwf.active_iff, declaredRequests_append]
  simp only [hwf.union]
  rw [or_or_distrib_left]

theorem WellFormedFlags.idem_requests (hwf : WellFormedFlags flags) (requested : List FlagRequest) (g : Str) :
    (computeDepActiveFlags flags ((computeDepActiveFlags flags requested).keys.map (⟨·, true⟩))).Active g ↔
      (computeDepActiveFlags flags requested).Active g := by
  have hagain : ∀ f, f ∈ defaultSeed flags ++ declaredRequests flags ((computeDepActiveFlags flags requested).keys.map (⟨·, true⟩)) ↔
      f ∈ flagEnablesClosure flags (defaultSeed flags ++ declaredRequests flags requested) := by
    intro f
    have hreq : (⟨f, true⟩ : FlagRequest) ∈ (computeDepActiveFlags flags requested).keys.map (⟨·, true⟩) ↔
        (computeDepActiveFlags flags requested).Active f := by
      simp [Active]
    rw [List.mem_append, mem_declaredRequests, hreq, ← hwf.active_iff]
    constructor
    · rintro (hf | hf)
      · rw [hwf.active_iff]
        exact (hwf.isLeast _).1.1 (List.mem_append_left _ hf)
      · exact hf.2
    · exact fun hf => Or.inr ⟨hwf.declared_of_active hf, hf⟩
  rw [hwf.active_iff, hwf.order (List.Perm.refl flags) hagain, hwf.idem, ← hwf.active_iff]

/-- What is to hold of the two ways over one table. -/
structure ClosureLaws (flags : List FlagDecl) : Prop where
  least : ∀ seed, IsLeast {s | {f | f ∈ seed} ⊆ s ∧ IsClosed (Rule flags) s} {g | g ∈ flagEnablesClosure flags seed}
  keys : ∀ requested g, g ∈ (computeDepActiveFlags flags requested).keys ↔
    g ∈ flagEnablesClosure flags (defaultSeed flags ++ declaredRequests flags requested)
  mono : ∀ s t, s ⊆ t → flagEnablesClosure flags s ⊆ flagEnablesClosure flags t
  mono_requests : ∀ a b, declaredRequests flags a ⊆ declaredRequests flags b →
    (computeDepActiveFlags flags a).keys ⊆ (computeDepActiveFlags flags b).keys
  idem : ∀ seed g, g ∈ flagEnablesClosure flags (flagEnablesClosure flags seed) ↔ g ∈ flagEnablesClosure flags seed
  idem_requests : ∀ requested g,
    g ∈ (computeDepActiveFlags flags ((computeDepActiveFlags flags requested).keys.map (⟨·, true⟩))).keys ↔
      g ∈ (computeDepActiveFlags flags requested).keys
  order : ∀ flags', flags'.Perm flags → ∀ s t, (∀ f, f ∈ s ↔ f ∈ t) →
    ∀ g, g ∈ flagEnablesClosure flags' s ↔ g ∈ flagEnablesClosure flags t
  order_requests : ∀ flags', flags'.Perm flags → ∀ a b, a.Perm b →
    ∀ g, g ∈ (computeDepActiveFlags flags' a).keys ↔ g ∈ (computeDepActiveFlags flags b).keys
  union : ∀ s t g, g ∈ flagEnablesClosure flags (s ++ t) ↔ g ∈ flagEnablesClosure flags s ∨ g ∈ flagEnablesClosure flags t
  union_requests : ∀ a b g, g ∈ (computeDepActiveFlags flags (a ++ b)).keys ↔
    g ∈ (computeDepActiveFlags flags a).keys ∨ g ∈ (computeDepActiveFlags flags b).keys
  /-- Sets that were closed separately can be put together. -/
  union_closed : ∀ s t, IsClosed (Rule flags) {g | g ∈ flagEnablesClosure flags s ∨ g ∈ flagEnablesClosure flags t}
  union_requests_closed : ∀ a b,
    IsClosed (Rule flags) {g | g ∈ ((computeDepActiveFlags flags a).union (computeDepActiveFlags flags b)).keys}

/-- **Over a table that the parser accepts the two ways agree, and the laws of a closure hold of both.** -/
theorem closureLaws_of_manifestFlags {nodes : List Kdl.KdlNode} {deps devDeps deps' devDeps' : List Dep} {auto : List Str}
    (h : manifestFlags nodes deps devDeps = .ok (deps', devDeps', flags, auto)) : ClosureLaws flags := by
  have hwf := wellFormed_of_manifestFlags h
  have hclosed : ∀ seed, IsClosed (Rule flags) {g | g ∈ flagEnablesClosure flags seed} := fun seed => (hwf.isLeast seed).1.2
  refine ⟨hwf.isLeast, hwf.active_iff, fun _ _ => hwf.mono, fun a b hab g hg => ?_, hwf.idem, hwf.idem_requests,
    fun _ hp _ _ => hwf.order hp, fun _ hp _ _ => hwf.order_requests hp, hwf.union, hwf.union_requests, ?_, ?_⟩
  · have hg := (hwf.active_iff a g).mp hg
    have hsub : defaultSeed flags ++ declaredRequests flags a ⊆ defaultSeed flags ++ declaredRequests flags b :=
      List.append_subset.mpr ⟨List.subset_append_left _ _, fun f hf => List.mem_append_right _ (hab hf)⟩
    exact (hwf.active_iff b g).mpr (hwf.mono hsub hg)
  · exact fun s t => (hclosed s).union (hclosed t)
  · intro a b
    have hset : {g | g ∈ ((computeDepActiveFlags flags a).union (computeDepActiveFlags flags b)).keys} =
        {g | g ∈ flagEnablesClosure flags (defaultSeed flags ++ declaredRequests flags a)} ∪
          {g | g ∈ flagEnablesClosure flags (defaultSeed flags ++ declaredRequests flags b)} := by
      ext g
      exact (active_union _ _ g).trans (or_congr (hwf.active_iff a g) (hwf.active_iff b g))
    rw [hset]
    exact (hclosed _).union (hclosed _)

/-- Two flags that enable each other, and a third that enables one of them. -/
def roundNodes : List Kdl.KdlNode :=
  let enabling (name target : Str) : Kdl.KdlNode :=
    .mk name [] [.mk "enables".toList [⟨none, none, .string target⟩] []]
  [enabling "a".toList "b".toList, enabling "b".toList "a".toList, enabling "full".toList "a".toList]

/-- The flags of such a table. -/
def roundFlags : List FlagDecl :=
  [⟨"a".toList, false, [], [], ["b".toList], [], []⟩, ⟨"b".toList, false, [], [], ["a".toList], [], []⟩,
    ⟨"full".toList, false, [], [], ["a".toList], [], []⟩]

theorem closureLaws_round : ClosureLaws roundFlags :=
  closureLaws_of_manifestFlags (show manifestFlags roundNodes [] [] = .ok ([], [], roundFlags, []) from rfl)

end Milpa.Core

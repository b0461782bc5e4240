import Milpa.Solver.VersionSetLaws
import Milpa.Types.VersionNext

/-!
# Version sets and the versions in them

The canonical form of `Milpa.Solver.VersionSetLaws` is canonical for the bounds. A
set is looked at through the versions it contains, and versions have neighbours, a
least element and a greatest release (`Milpa.Types.VersionNext`), so an interval
that `interval_nonempty` calls non-empty, or a gap between two intervals that are
not connectable, may hold no version at all: `vacuous` says which.

So `==`, `is_empty`, `is_full` and `is_subset_of` mean what they say exactly where
the bounds of the two sets tell: where, if an interval, a gap, or a piece of one set
outside the other is there at all, some such piece holds a version
(`meaning_iff_tells`). The empty set and `<0.0.0-0` are told apart by `==` and
contain the same versions (`lt_least_ne_empty`).
-/

namespace Milpa.Solver

/-- No version is in the interval, which `interval_nonempty` takes for non-empty: it is
below the least version, or above a version that nothing follows, or it ends where the
version that follows its lower bound begins. -/
def vacuous (iv : Interval) : Bool :=
  match iv.lo with
  | none =>
    match iv.hi with
    | none => false
    | some h => !iv.hiClosed && decide (h ≤ Version.least)
  | some l =>
    if iv.loClosed then false
    else
      match l.next, iv.hi with
      | none, _ => true
      | some _, none => false
      | some w, some h => if iv.hiClosed then decide (h < w) else decide (h ≤ w)

theorem vacuous_iff {iv : Interval} (h : loCut iv < hiCut iv) :
    vacuous iv = true ↔ ∀ v, ¬ intervalContains iv v = true := by
  obtain ⟨lo, hi, loC, hiC⟩ := iv
  simp only [intervalContains_iff, Stretch.Mem]
  cases lo with
  | none =>
    cases hi with
    | none => simpa [vacuous, loCut, hiCut] using ⟨Version.least⟩
    | some b =>
      cases hiC
      · -- below `b` there is a version as soon as the least one is
        simp only [vacuous, loCut, hiCut, point_lt_cutAt, bot_le, true_and]
        simp only [Bool.not_false, Bool.true_and, decide_eq_true_eq, Bool.false_eq_true, if_false, Version.not_lt]
        exact ⟨fun hb v => hb.trans v.least_le, fun hb => hb _⟩
      · simpa [vacuous, loCut, hiCut, point_lt_cutAt] using ⟨b, le_rfl⟩
  | some l =>
    cases loC
    · simp only [vacuous, loCut, cutAt_le_point, Bool.not_false, if_true, Bool.false_eq_true, if_false]
      cases hn : l.next with
      | none => simpa using fun v hv => absurd hv (Version.not_lt_of_next_eq_none hn v)
      | some w =>
        simp only [Version.lt_iff_next_le hn]
        cases hi with
        | none => simpa [hiCut] using ⟨w, le_rfl⟩
        | some b =>
          cases hiC
          · simp only [hiCut, point_lt_cutAt, Bool.false_eq_true, if_false, decide_eq_true_eq, not_and, Version.not_lt]
            exact ⟨fun hb v hv => hb.trans hv, fun hb => hb w le_rfl⟩
          · simp only [hiCut, point_lt_cutAt, if_true, decide_eq_true_eq, not_and, Version.not_le]
            exact ⟨fun hb v hv => hb.trans_le hv, fun hb => hb w le_rfl⟩
    · -- a closed lower bound is in its interval
      simp only [vacuous, if_true, Bool.false_eq_true, false_iff, not_forall, not_not]
      exact ⟨l, le_rfl, h⟩

/-- The list has no interval, or one that holds a version. -/
def Telling (l : List Interval) : Prop := l = [] ∨ ∃ iv ∈ l, vacuous iv = false

instance (l : List Interval) : Decidable (Telling l) := inferInstanceAs (Decidable (_ ∨ _))

/-- A list tells when it covers no cut as soon as it covers no version. -/
theorem telling_iff {l : List Interval} (hl : ∀ iv ∈ l, loCut iv < hiCut iv) :
    Telling l ↔ ((∀ v, ¬ Stretch.Covers loCut hiCut l (cutAt v false)) → ∀ x, ¬ Stretch.Covers loCut hiCut l x) := by
  have hver : (∀ v, ¬ Stretch.Covers loCut hiCut l (cutAt v false)) ↔ ∀ iv ∈ l, vacuous iv = true := by
    simp only [Stretch.Covers, not_exists, not_and]
    constructor
    · intro h iv hiv
      exact (vacuous_iff (hl iv hiv)).mpr fun v hv => h v iv hiv ((intervalContains_iff iv v).mp hv)
    · intro h v iv hiv hv
      exact (vacuous_iff (hl iv hiv)).mp (h iv hiv) v ((intervalContains_iff iv v).mpr hv)
  have hcut : (∀ x, ¬ Stretch.Covers loCut hiCut l x) ↔ l = [] := by
    constructor
    · intro h
      refine List.eq_nil_iff_forall_not_mem.mpr fun iv hiv => h (loCut iv) ⟨iv, hiv, le_rfl, hl iv hiv⟩
    · rintro rfl
      simp
  rw [hver, hcut, Telling]
  constructor
  · rintro (h | ⟨iv, hiv, h⟩) hall
    · exact h
    · simp [hall iv hiv] at h
  · intro h
    by_cases hall : ∀ iv ∈ l, vacuous iv = true
    · exact Or.inl (h hall)
    · simp only [not_forall, Bool.not_eq_true] at hall
      obtain ⟨iv, hiv, h⟩ := hall
      exact Or.inr ⟨iv, hiv, h⟩

/-! ### Equality of sets -/

theorem beq_interval_iff {a b : Interval} (ha : FixedFlags a) (hb : FixedFlags b) :
    (a == b) = true ↔ (loCut a, hiCut a) = (loCut b, hiCut b) := by
  obtain ⟨aLo, aHi, aLoC, aHiC⟩ := a
  obtain ⟨bLo, bHi, bLoC, bHiC⟩ := b
  have hbeq : ((⟨aLo, aHi, aLoC, aHiC⟩ : Interval) == ⟨bLo, bHi, bLoC, bHiC⟩) =
      (aLo == bLo && (aHi == bHi && (aLoC == bLoC && aHiC == bHiC))) := rfl
  have hlo : (aLo == bLo) = true ∧ aLoC = bLoC ↔ loCut ⟨aLo, aHi, aLoC, aHiC⟩ = loCut ⟨bLo, bHi, bLoC, bHiC⟩ := by
    cases aLo <;> cases bLo
    · obtain rfl : aLoC = true := ha.1 rfl
      obtain rfl : bLoC = true := hb.1 rfl
      simp [loCut]
    · simp [loCut, (cutAt_ne_bot _ _).symm]
    · simp [loCut]
    · simp [loCut, cutAt_eq_iff, Version.beq_iff]
  have hhi : (aHi == bHi) = true ∧ aHiC = bHiC ↔ hiCut ⟨aLo, aHi, aLoC, aHiC⟩ = hiCut ⟨bLo, bHi, bLoC, bHiC⟩ := by
    cases aHi <;> cases bHi
    · obtain rfl : aHiC = false := ha.2 rfl
      obtain rfl : bHiC = false := hb.2 rfl
      simp [hiCut]
    · simp [hiCut, (cutAt_ne_top _ _).symm]
    · simp [hiCut]
    · simp [hiCut, cutAt_eq_iff, Version.beq_iff]
  rw [hbeq, Prod.mk.injEq, ← hlo, ← hhi]
  simp only [Bool.and_eq_true, beq_iff_eq]
  tauto

theorem beq_intervals_iff {l m : List Interval} (hl : ∀ iv ∈ l, FixedFlags iv) (hm : ∀ iv ∈ m, FixedFlags iv) :
    (l == m) = true ↔ l.map (fun iv => (loCut iv, hiCut iv)) = m.map fun iv => (loCut iv, hiCut iv) := by
  induction l generalizing m with
  | nil => cases m <;> simp
  | cons a l ih =>
    cases m with
    | nil => simp
    | cons b m =>
      obtain ⟨ha, hl⟩ := List.forall_mem_cons.mp hl
      obtain ⟨hb, hm⟩ := List.forall_mem_cons.mp hm
      rw [List.cons_beq_cons, Bool.and_eq_true, beq_interval_iff ha hb, ih hl hm, List.map_cons, List.map_cons,
        List.cons.injEq]

namespace VersionSet

/-- **`==` is equality of what the bounds cover.** -/
theorem beq_iff_covers {a b : VersionSet} (ha : CanonicalForm a.intervals) (hb : CanonicalForm b.intervals) :
    (a == b) = true ↔
      ∀ x, Stretch.Covers loCut hiCut a.intervals x ↔ Stretch.Covers loCut hiCut b.intervals x := by
  have hbeq : (a == b) = (a.intervals == b.intervals) := rfl
  rw [hbeq, beq_intervals_iff ha.flags hb.flags]
  constructor
  · intro h x
    have hcov := fun s : VersionSet => Stretch.covers_map Prod.fst Prod.snd (fun iv => (loCut iv, hiCut iv)) s.intervals x
    simp only [Function.comp_def] at hcov
    rw [← hcov a, ← hcov b, h]
  · exact ha.canonical.ends_eq_of_covers_iff hb.canonical

/-- The gaps that a set leaves. -/
def gaps (s : VersionSet) : List Interval :=
  match s.intervals with
  | [] => full.intervals
  | first :: rest => gapsOf first rest

theorem covers_gaps {s : VersionSet} (h : CanonicalForm s.intervals) {x : Cut} (hx : x < ⊤) :
    Stretch.Covers loCut hiCut s.gaps x ↔ ¬ Stretch.Covers loCut hiCut s.intervals x := by
  obtain ⟨_ | ⟨first, rest⟩⟩ := s
  · simp [gaps, covers_full, hx]
  · exact covers_gapsOf h.canonical hx

theorem nonempty_windows {first : Interval} {rest : List Interval}
    (h : Stretch.Canonical loCut hiCut (first :: rest)) :
    ∀ w ∈ (first :: rest).zip rest, loCut (gapBetween w.1 w.2) < hiCut (gapBetween w.1 w.2) := by
  induction rest generalizing first with
  | nil => simp
  | cons next rest ih =>
    have hgap : hiCut first < loCut next := h.head_lt next List.mem_cons_self
    rw [List.zip_cons_cons]
    refine List.forall_mem_cons.mpr ⟨?_, ih h.tail⟩
    rwa [loCut_gapBetween hgap, hiCut_gapBetween hgap]

/-- Every gap of a canonical set is a non-empty stretch. -/
theorem nonempty_gaps {s : VersionSet} (h : CanonicalForm s.intervals) : ∀ iv ∈ s.gaps, loCut iv < hiCut iv := by
  obtain ⟨_ | ⟨first, rest⟩⟩ := s
  · simp [gaps, full, loCut, hiCut]
  · intro iv hiv
    simp only [gaps, gapsOf, List.mem_append, List.mem_map] at hiv
    rcases hiv with (hiv | ⟨w, hw, rfl⟩) | hiv
    · unfold leftGap at hiv
      split at hiv
      · simp_all [loCut, hiCut]
      · simp at hiv
    · exact nonempty_windows h.canonical w hw
    · unfold rightTail at hiv
      split at hiv
      · simp_all [loCut, hiCut]
      · simp at hiv

theorem nonempty_overlaps (l m : List Interval) : ∀ iv ∈ overlaps l m, loCut iv < hiCut iv := by
  intro iv hiv
  simp only [overlaps, List.mem_flatMap, List.mem_filter] at hiv
  obtain ⟨-, -, -, hne⟩ := hiv
  exact (intervalNonempty_iff iv).mp hne

/-- The pieces of `a` outside `b`. -/
def outside (a b : VersionSet) : List Interval := overlaps a.intervals b.gaps

theorem covers_outside (a : VersionSet) {b : VersionSet} (hb : CanonicalForm b.intervals) (x : Cut) :
    Stretch.Covers loCut hiCut (outside a b) x ↔
      Stretch.Covers loCut hiCut a.intervals x ∧ ¬ Stretch.Covers loCut hiCut b.intervals x := by
  rw [outside, covers_overlaps]
  exact and_congr_right fun h => covers_gaps hb (lt_top_of_covers h)

/-! ### What the four predicates mean -/

theorem isEmpty_iff_covers {a : VersionSet} (ha : CanonicalForm a.intervals) :
    a.isEmpty = true ↔ ∀ x, ¬ Stretch.Covers loCut hiCut a.intervals x := by
  rw [isEmpty, List.isEmpty_iff]
  constructor
  · intro h
    simp [h]
  · intro h
    exact List.eq_nil_iff_forall_not_mem.mpr fun iv hiv =>
      h (loCut iv) ⟨iv, hiv, le_rfl, ha.canonical.nonempty iv hiv⟩

theorem isFull_iff_covers {a : VersionSet} (ha : CanonicalForm a.intervals) :
    a.isFull = true ↔ ∀ x, ¬ Stretch.Covers loCut hiCut a.gaps x := by
  rw [isFull, beq_iff_covers ha canonicalForm_full]
  simp only [covers_full]
  constructor
  · intro h x hx
    exact (covers_gaps ha (lt_top_of_covers hx)).mp hx ((h x).mpr (lt_top_of_covers hx))
  · intro h x
    exact ⟨lt_top_of_covers, fun hx => not_not.mp fun hn => h x ((covers_gaps ha hx).mpr hn)⟩

theorem isSubsetOf_iff_covers (a : VersionSet) {b : VersionSet} (hb : CanonicalForm b.intervals) :
    a.isSubsetOf b = true ↔ ∀ x, ¬ Stretch.Covers loCut hiCut (outside a b) x := by
  rw [isSubsetOf, isEmpty_iff_covers (a := a.intersect b.complement) (canonicalForm_normalizeIntervals _)]
  refine forall_congr' fun x => not_congr ?_
  rw [covers_intersect, covers_outside a hb]
  exact and_congr_right fun h => covers_complement hb (lt_top_of_covers h)

theorem beq_iff_outside {a b : VersionSet} (ha : CanonicalForm a.intervals) (hb : CanonicalForm b.intervals) :
    (a == b) = true ↔ ∀ x, ¬ Stretch.Covers loCut hiCut (outside a b ++ outside b a) x := by
  rw [beq_iff_covers ha hb]
  refine forall_congr' fun x => ?_
  rw [Stretch.covers_append, covers_outside a hb, covers_outside b ha]
  tauto

/-- Each of the four predicates is the statement about versions that its name promises. -/
def Meaning (a b : VersionSet) : Prop :=
  ((a == b) = true ↔ ∀ v, a.contains v = true ↔ b.contains v = true) ∧
    (a.isEmpty = true ↔ ∀ v, ¬ a.contains v = true) ∧
    (a.isFull = true ↔ ∀ v, a.contains v = true) ∧
    (a.isSubsetOf b = true ↔ ∀ v, a.contains v = true → b.contains v = true)

/-- The bounds of two sets tell their versions: neither the intervals of `a`, nor its
gaps, nor its pieces outside `b`, nor the pieces of either outside the other are all
vacuous, unless there are none. -/
def Tells (a b : VersionSet) : Prop :=
  Telling (outside a b ++ outside b a) ∧ Telling a.intervals ∧ Telling a.gaps ∧ Telling (outside a b)

instance (a b : VersionSet) : Decidable (Tells a b) := inferInstanceAs (Decidable (_ ∧ _ ∧ _ ∧ _))

/-- A predicate that says of a list that it covers no cut has its meaning exactly when the
list tells. -/
theorem meaning_iff_telling {p : Prop} {l : List Interval} (hl : ∀ iv ∈ l, loCut iv < hiCut iv)
    (hp : p ↔ ∀ x, ¬ Stretch.Covers loCut hiCut l x) :
    (p ↔ ∀ v, ¬ Stretch.Covers loCut hiCut l (cutAt v false)) ↔ Telling l := by
  rw [telling_iff hl, hp]
  exact ⟨fun h => h.mpr, fun h => ⟨fun h' v => h' _, h⟩⟩

/-- **The predicates mean what they say exactly where the bounds tell.** -/
theorem meaning_iff_tells {a b : VersionSet} (ha : Built a) (hb : Built b) : Meaning a b ↔ Tells a b := by
  have hca := ha.canonicalForm
  have hcb := hb.canonicalForm
  have hab : ∀ iv ∈ outside a b, loCut iv < hiCut iv := nonempty_overlaps a.intervals b.gaps
  have hba : ∀ iv ∈ outside b a, loCut iv < hiCut iv := nonempty_overlaps b.intervals a.gaps
  have heq := meaning_iff_telling (l := outside a b ++ outside b a)
    (fun iv hiv => (List.mem_append.mp hiv).elim (hab iv) (hba iv)) (beq_iff_outside hca hcb)
  have hempty := meaning_iff_telling hca.canonical.nonempty (isEmpty_iff_covers hca)
  have hfull := meaning_iff_telling (nonempty_gaps hca) (isFull_iff_covers hca)
  have hsub := meaning_iff_telling hab (isSubsetOf_iff_covers a hcb)
  have hgap : ∀ v, Stretch.Covers loCut hiCut a.gaps (cutAt v false) ↔ ¬ a.contains v = true := fun v => by
    rw [covers_gaps hca (cutAt_lt_top v false), contains_iff]
  have hout : ∀ v, Stretch.Covers loCut hiCut (outside a b) (cutAt v false) ↔
      a.contains v = true ∧ ¬ b.contains v = true := fun v => by
    rw [covers_outside a hcb, contains_iff, contains_iff]
  have hout' : ∀ v, Stretch.Covers loCut hiCut (outside b a) (cutAt v false) ↔
      b.contains v = true ∧ ¬ a.contains v = true := fun v => by
    rw [covers_outside b hca, contains_iff, contains_iff]
  rw [Meaning, Tells, ← heq, ← hempty, ← hfull, ← hsub]
  simp only [Stretch.covers_append, hgap, hout, hout', ← contains_iff, not_or, not_and, not_not]
  refine and_congr (iff_congr Iff.rfl (forall_congr' fun v => ?_)) Iff.rfl
  exact ⟨fun h => ⟨h.mp, h.mpr⟩, fun h => ⟨h.1, h.2⟩⟩

theorem meaning_iff_tells_lt_gte :
    Meaning (lt (.release 2 0 0)) (gte (.release 1 0 0)) ↔ Tells (lt (.release 2 0 0)) (gte (.release 1 0 0)) :=
  meaning_iff_tells (.lt _) (.gte _)

/-- **A set that is not empty and contains nothing**: below the least version there is no
version, and `<0.0.0-0` is not the empty set. -/
theorem lt_least_ne_empty :
    Built (lt .least) ∧ Built empty ∧ (∀ v, ¬ (lt .least).contains v = true) ∧ (∀ v, ¬ empty.contains v = true) ∧
      (lt .least == empty) = false ∧ (lt .least).isEmpty = false ∧ (lt .least).isSubsetOf empty = false := by
  refine ⟨.lt _, .empty, fun v => ?_, fun v => ?_, by decide, by decide, by decide⟩
  · simpa [contains, lt, intervalContains] using v.least_le
  · simp [contains, empty]

end VersionSet

end Milpa.Solver

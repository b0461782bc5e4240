import Milpa.Order.Stretch
import Milpa.Solver.VersionSet
import Milpa.Types.Result

/-!
# The laws of version sets

An end of an interval is a *cut* of the order of versions: a place before or after
all versions of one precedence, or one of the two infinities. With cuts for ends the
flags of an interval disappear, an interval is a stretch of the order of cuts, and
each function of the source on bounds is an operation of that order: `lo_sort_key`
its comparison, `max_bound` its maximum, `interval_nonempty` and
`intervals_connectable` its `<` and its `≤`.

Sets made by the constructors and the three operations are in canonical form, and
the operations are exact on them: `built_operations_exact`.
-/

namespace Milpa.Solver

/-! ### Cuts -/

/-- A place between versions: `-∞`, `+∞`, or before (`false`) or after (`true`) the
versions of one precedence. -/
abbrev Cut := WithBot (WithTop (VersionKey ×ₗ Bool))

/-- The cut before or after `v`. -/
def cutAt (v : Version) (after : Bool) : Cut :=
  WithBot.some (WithTop.some (toLex (v.precedenceKey, after)))

/-- Where an interval begins. -/
def loCut (iv : Interval) : Cut :=
  match iv.lo with
  | none => ⊥
  | some v => cutAt v !iv.loClosed

/-- Where an interval ends. -/
def hiCut (iv : Interval) : Cut :=
  match iv.hi with
  | none => ⊤
  | some v => cutAt v iv.hiClosed

theorem cutAt_le (a b : Version) (x y : Bool) :
    cutAt a x ≤ cutAt b y ↔ a < b ∨ a.precedenceKey = b.precedenceKey ∧ x ≤ y := by
  simp only [cutAt, WithBot.coe_le_coe, WithTop.coe_le_coe, Prod.Lex.toLex_le_toLex, Version.lt_def]

theorem cutAt_lt (a b : Version) (x y : Bool) :
    cutAt a x < cutAt b y ↔ a < b ∨ a.precedenceKey = b.precedenceKey ∧ x < y := by
  simp only [cutAt, WithBot.coe_lt_coe, WithTop.coe_lt_coe, Prod.Lex.toLex_lt_toLex, Version.lt_def]

@[simp] theorem cutAt_lt_top (a : Version) (x : Bool) : cutAt a x < ⊤ := by
  rw [cutAt, ← WithBot.coe_top, WithBot.coe_lt_coe]
  exact WithTop.coe_lt_top _

@[simp] theorem bot_lt_cutAt (a : Version) (x : Bool) : ⊥ < cutAt a x := WithBot.bot_lt_coe _

theorem cutAt_eq_iff (a b : Version) (x y : Bool) :
    cutAt a x = cutAt b y ↔ a.precedenceKey = b.precedenceKey ∧ x = y := by
  simp [cutAt]

@[simp] theorem cutAt_ne_bot (a : Version) (x : Bool) : cutAt a x ≠ ⊥ := WithBot.coe_ne_bot

@[simp] theorem cutAt_ne_top (a : Version) (x : Bool) : cutAt a x ≠ ⊤ := (cutAt_lt_top a x).ne

theorem cutAt_le_point (a v : Version) (x : Bool) : cutAt a x ≤ cutAt v false ↔ if x then a < v else a ≤ v := by
  rw [cutAt_le]
  cases x <;> simp [Version.lt_def, Version.le_def, le_iff_lt_or_eq]

theorem point_lt_cutAt (v b : Version) (y : Bool) : cutAt v false < cutAt b y ↔ if y then v ≤ b else v < b := by
  cases y <;> simp [cutAt_lt, Version.lt_def, Version.le_def, le_iff_lt_or_eq]

/-- A version belongs to an interval when the cut before it lies in the interval's stretch. -/
theorem intervalContains_iff (iv : Interval) (v : Version) :
    intervalContains iv v = true ↔ Stretch.Mem loCut hiCut (cutAt v false) iv := by
  obtain ⟨lo, hi, loC, hiC⟩ := iv
  rw [intervalContains, Bool.and_eq_true, Stretch.Mem]
  refine and_congr ?_ ?_
  · cases lo with
    | none => simp [loCut]
    | some lo => cases loC <;> simp [loCut, cutAt_le_point]
  · cases hi with
    | none => simp [hiCut]
    | some hi => cases hiC <;> simp [hiCut, point_lt_cutAt]

theorem contains_iff (s : VersionSet) (v : Version) :
    s.contains v = true ↔ Stretch.Covers loCut hiCut s.intervals (cutAt v false) := by
  simp only [VersionSet.contains, List.any_eq_true, intervalContains_iff, Stretch.Covers]

/-! ### The functions on bounds -/

theorem intervalNonempty_iff (iv : Interval) :
    intervalNonempty iv.lo iv.hi iv.loClosed iv.hiClosed = true ↔ loCut iv < hiCut iv := by
  obtain ⟨lo, hi, loC, hiC⟩ := iv
  cases lo <;> cases hi
  · simp [intervalNonempty, loCut, hiCut]
  · simp [intervalNonempty, loCut, hiCut]
  · simp [intervalNonempty, loCut, hiCut]
  · cases loC <;> cases hiC <;> simp [intervalNonempty, loCut, hiCut, cutAt_lt, Version.beq_iff]

theorem intervalsConnectable_iff (a b : Interval) :
    intervalsConnectable a b = true ↔ loCut b ≤ hiCut a := by
  obtain ⟨aLo, aHi, aLoC, aHiC⟩ := a
  obtain ⟨bLo, bHi, bLoC, bHiC⟩ := b
  cases aHi <;> cases bLo
  · simp [intervalsConnectable, loCut, hiCut]
  · simp [intervalsConnectable, loCut, hiCut]
  · simp [intervalsConnectable, loCut, hiCut]
  · rename_i h l
    simp only [intervalsConnectable, loCut, hiCut, cutAt_le]
    cases hc : h.cmp l
    · have := (Version.cmp_eq_lt h l).mp hc
      simp [this.not_gt, ((Version.lt_def h l).mp this).ne']
    · have := (Version.cmp_eq_eq h l).mp hc
      cases aHiC <;> cases bLoC <;> simp [this, Version.lt_def]
    · have := (Version.cmp_eq_gt h l).mp hc
      simp [this]

theorem loSortKey_le_iff (a b : Interval) : loSortKey a ≤ loSortKey b ↔ loCut a ≤ loCut b := by
  obtain ⟨aLo, aHi, aLoC, aHiC⟩ := a
  obtain ⟨bLo, bHi, bLoC, bHiC⟩ := b
  cases aLo <;> cases bLo
  · simp [loSortKey, loCut]
  · simp [loSortKey, loCut, Prod.Lex.toLex_le_toLex]
  · simp [loSortKey, loCut, Prod.Lex.toLex_le_toLex]
  · cases aLoC <;> cases bLoC <;>
      simp [loSortKey, loCut, Prod.Lex.toLex_le_toLex, cutAt_le, Version.lt_def]

theorem hiCut_extendLast (a b : Interval) : hiCut (extendLast a b) = max (hiCut a) (hiCut b) := by
  obtain ⟨aLo, aHi, aLoC, aHiC⟩ := a
  obtain ⟨bLo, bHi, bLoC, bHiC⟩ := b
  cases aHi <;> cases bHi
  · simp [extendLast, maxBound, hiCut]
  · simp [extendLast, maxBound, hiCut]
  · simp [extendLast, maxBound, hiCut]
  · rename_i h l
    cases hc : h.cmp l
    · have := (Version.cmp_eq_lt h l).mp hc
      simp [extendLast, maxBound, hiCut, hc, cutAt_le, this]
    · have := (Version.cmp_eq_eq h l).mp hc
      cases aHiC <;> cases bHiC <;>
        simp [extendLast, maxBound, hiCut, hc, cutAt_eq_iff, cutAt_le, this, Version.lt_def]
    · have := (Version.cmp_eq_gt h l).mp hc
      simp [extendLast, maxBound, hiCut, hc, cutAt_le, this]

theorem loCut_overlap (a b : Interval) : loCut (VersionSet.overlap a b) = max (loCut a) (loCut b) := by
  obtain ⟨aLo, aHi, aLoC, aHiC⟩ := a
  obtain ⟨bLo, bHi, bLoC, bHiC⟩ := b
  cases aLo <;> cases bLo
  · simp [VersionSet.overlap, maxLoWithClosed, loCut]
  · simp [VersionSet.overlap, maxLoWithClosed, loCut]
  · simp [VersionSet.overlap, maxLoWithClosed, loCut]
  · rename_i h l
    cases hc : h.cmp l
    · have := (Version.cmp_eq_lt h l).mp hc
      simp [VersionSet.overlap, maxLoWithClosed, loCut, hc, cutAt_le, this]
    · have := (Version.cmp_eq_eq h l).mp hc
      cases aLoC <;> cases bLoC <;>
        simp [VersionSet.overlap, maxLoWithClosed, loCut, hc, cutAt_eq_iff, cutAt_le, this,
          Version.lt_def]
    · have := (Version.cmp_eq_gt h l).mp hc
      simp [VersionSet.overlap, maxLoWithClosed, loCut, hc, cutAt_le, this]

theorem hiCut_overlap (a b : Interval) : hiCut (VersionSet.overlap a b) = min (hiCut a) (hiCut b) := by
  obtain ⟨aLo, aHi, aLoC, aHiC⟩ := a
  obtain ⟨bLo, bHi, bLoC, bHiC⟩ := b
  cases aHi <;> cases bHi
  · simp [VersionSet.overlap, minHiWithClosed, hiCut]
  · simp [VersionSet.overlap, minHiWithClosed, hiCut]
  · simp [VersionSet.overlap, minHiWithClosed, hiCut]
  · rename_i h l
    cases hc : h.cmp l
    · have := (Version.cmp_eq_lt h l).mp hc
      simp [VersionSet.overlap, minHiWithClosed, hiCut, hc, cutAt_le, this]
    · have := (Version.cmp_eq_eq h l).mp hc
      cases aHiC <;> cases bHiC <;>
        simp [VersionSet.overlap, minHiWithClosed, hiCut, hc, cutAt_eq_iff, cutAt_le, this,
          Version.lt_def]
    · have := (Version.cmp_eq_gt h l).mp hc
      simp [VersionSet.overlap, minHiWithClosed, hiCut, hc, cutAt_le, this]

/-! ### The normal form -/

/-- The flags of unbounded ends are the fixed ones. -/
def FixedFlags (iv : Interval) : Prop :=
  (iv.lo = none → iv.loClosed = true) ∧ (iv.hi = none → iv.hiClosed = false)

/-- **Canonical form**, in the words of the source: sorted by lower bound, no interval
empty, no two neighbours connectable, and the flags of unbounded ends fixed. -/
structure CanonicalForm (l : List Interval) : Prop where
  sorted : l.Pairwise fun a b => loSortKey a ≤ loSortKey b
  nonempty : ∀ iv ∈ l, intervalNonempty iv.lo iv.hi iv.loClosed iv.hiClosed = true
  apart : l.IsChain fun a b => intervalsConnectable a b = false
  flags : ∀ iv ∈ l, FixedFlags iv

theorem not_connectable_iff (a b : Interval) : intervalsConnectable a b = false ↔ hiCut a < loCut b := by
  rw [Bool.eq_false_iff, Ne, intervalsConnectable_iff, not_le]

theorem CanonicalForm.canonical {l : List Interval} (h : CanonicalForm l) : Stretch.Canonical loCut hiCut l :=
  ⟨fun iv hiv => (intervalNonempty_iff iv).mp (h.nonempty iv hiv), h.apart.imp fun a b => (not_connectable_iff a b).mp⟩

theorem canonicalForm_of_canonical {l : List Interval} (h : Stretch.Canonical loCut hiCut l)
    (hf : ∀ iv ∈ l, FixedFlags iv) : CanonicalForm l where
  sorted := h.sorted.imp fun {a b} => (loSortKey_le_iff a b).mpr
  nonempty iv hiv := (intervalNonempty_iff iv).mpr (h.nonempty iv hiv)
  apart := h.apart.imp fun a b => (not_connectable_iff a b).mpr
  flags := hf

theorem fixedFlags_fixUnbounded (iv : Interval) : FixedFlags (fixUnbounded iv) := by
  obtain ⟨lo, hi, loC, hiC⟩ := iv
  cases lo <;> cases hi <;> simp [FixedFlags, fixUnbounded]

theorem fixUnbounded_of_fixedFlags {iv : Interval} (h : FixedFlags iv) : fixUnbounded iv = iv := by
  obtain ⟨lo, hi, loC, hiC⟩ := iv
  cases lo <;> cases hi <;> simp_all [FixedFlags, fixUnbounded]

@[simp] theorem loCut_fixUnbounded (iv : Interval) : loCut (fixUnbounded iv) = loCut iv := by
  obtain ⟨lo, hi, loC, hiC⟩ := iv
  cases lo <;> rfl

@[simp] theorem hiCut_fixUnbounded (iv : Interval) : hiCut (fixUnbounded iv) = hiCut iv := by
  obtain ⟨lo, hi, loC, hiC⟩ := iv
  cases hi <;> rfl

theorem fixedFlags_extendLast {a b : Interval} (ha : FixedFlags a) (hb : FixedFlags b) :
    FixedFlags (extendLast a b) := by
  obtain ⟨aLo, aHi, aLoC, aHiC⟩ := a
  obtain ⟨bLo, bHi, bLoC, bHiC⟩ := b
  refine ⟨ha.1, ?_⟩
  cases aHi <;> cases bHi
  · simpa [extendLast, maxBound] using ha.2
  · simpa [extendLast, maxBound] using ha.2
  · simpa [extendLast, maxBound] using hb.2
  · rename_i h l
    cases hc : h.cmp l <;> simp [extendLast, maxBound, hc]

theorem isJoin_extendLast : Stretch.IsJoin loCut hiCut extendLast := ⟨fun _ _ => rfl, hiCut_extendLast⟩

/-- A round of the source's merge loop is a step of the merge of stretches. -/
theorem mergeInterval_eq (merged : List Interval) (iv : Interval) :
    mergeInterval merged iv = Stretch.mergeStep loCut hiCut extendLast merged iv := by
  unfold mergeInterval Stretch.mergeStep
  by_cases h : loCut iv < hiCut iv
  · rw [if_pos h, (intervalNonempty_iff iv).mpr h]
    cases merged with
    | nil => rfl
    | cons prev rest => simp [intervalsConnectable_iff]
  · rw [if_neg h, Bool.eq_false_iff.mpr (mt (intervalNonempty_iff iv).mp h)]
    rfl

/-- The intervals in the order in which the merge loop takes them. -/
def sortedIntervals (l : List Interval) : List Interval :=
  (l.map fixUnbounded).insertionSort fun a b => loSortKey a ≤ loSortKey b

theorem normalizeIntervals_eq (l : List Interval) :
    normalizeIntervals l = Stretch.merge loCut hiCut extendLast (sortedIntervals l) := by
  simp only [normalizeIntervals, Stretch.merge, sortedIntervals]
  congr 2
  funext merged iv
  exact mergeInterval_eq merged iv

theorem sorted_sortedIntervals (l : List Interval) :
    (sortedIntervals l).Pairwise fun a b => loCut a ≤ loCut b := by
  have : IsTrans Interval fun a b => loSortKey a ≤ loSortKey b := ⟨fun _ _ _ => le_trans⟩
  have : Std.Total fun a b : Interval => loSortKey a ≤ loSortKey b := ⟨fun _ _ => le_total _ _⟩
  exact (List.pairwise_insertionSort (fun a b => loSortKey a ≤ loSortKey b) _).imp
    fun {a b} => (loSortKey_le_iff a b).mp

/-- What holds of the intervals of a list, and of an interval that was extended, holds of the merged ones. -/
theorem forall_merge {P : Interval → Prop} (hextend : ∀ a b, P a → P b → P (extendLast a b)) {l acc : List Interval}
    (hl : ∀ iv ∈ l, P iv) (hacc : ∀ iv ∈ acc, P iv) : ∀ iv ∈ l.foldl mergeInterval acc, P iv := by
  induction l generalizing acc with
  | nil => exact hacc
  | cons i l ih =>
    have hi : P i := hl i List.mem_cons_self
    refine ih (fun iv hiv => hl iv (List.mem_cons_of_mem _ hiv)) ?_
    unfold mergeInterval
    split_ifs
    · exact hacc
    · cases acc with
      | nil => simpa using hi
      | cons prev rest =>
        obtain ⟨hprev, hrest⟩ := List.forall_mem_cons.mp hacc
        dsimp only
        split_ifs
        · exact List.forall_mem_cons.mpr ⟨hextend prev i hprev hi, hrest⟩
        · exact List.forall_mem_cons.mpr ⟨hi, hacc⟩

theorem forall_normalizeIntervals {P : Interval → Prop} (hextend : ∀ a b, P a → P b → P (extendLast a b)) {l : List Interval}
    (hl : ∀ iv ∈ l, P (fixUnbounded iv)) : ∀ iv ∈ normalizeIntervals l, P iv := by
  intro iv hiv
  refine forall_merge hextend ?_ (by simp) iv (List.mem_reverse.mp hiv)
  intro j hj
  obtain ⟨k, hk, rfl⟩ := List.mem_map.mp ((List.mem_insertionSort _).mp hj)
  exact hl k hk

/-- **`normalize_intervals` brings every list to canonical form.** -/
theorem canonicalForm_normalizeIntervals (l : List Interval) : CanonicalForm (normalizeIntervals l) := by
  refine canonicalForm_of_canonical ?_ ?_
  · rw [normalizeIntervals_eq]
    exact Stretch.merge_canonical isJoin_extendLast (sorted_sortedIntervals l)
  · exact forall_normalizeIntervals (fun _ _ => fixedFlags_extendLast) fun iv _ => fixedFlags_fixUnbounded iv

/-- **`normalize_intervals` changes nothing of what the list covers.** -/
theorem covers_normalizeIntervals (l : List Interval) (x : Cut) :
    Stretch.Covers loCut hiCut (normalizeIntervals l) x ↔ Stretch.Covers loCut hiCut l x := by
  rw [normalizeIntervals_eq, Stretch.covers_merge isJoin_extendLast (sorted_sortedIntervals l), sortedIntervals,
    Stretch.covers_congr loCut hiCut (fun _ => List.mem_insertionSort _), Stretch.covers_map]
  simp [Stretch.Covers, Stretch.Mem]

/-- **`normalize_intervals` leaves a list in canonical form as it is.** -/
theorem CanonicalForm.normalizeIntervals_eq_self {l : List Interval} (h : CanonicalForm l) :
    normalizeIntervals l = l := by
  have hfix : l.map fixUnbounded = l :=
    List.map_congr_left (fun iv hiv => fixUnbounded_of_fixedFlags (h.flags iv hiv)) |>.trans (List.map_id l)
  rw [normalizeIntervals_eq, sortedIntervals, hfix, h.sorted.insertionSort_eq, Stretch.merge_of_canonical _ h.canonical]

/-! ### The operations -/

namespace VersionSet

theorem covers_union (s t : VersionSet) (x : Cut) :
    Stretch.Covers loCut hiCut (s.union t).intervals x ↔
      Stretch.Covers loCut hiCut s.intervals x ∨ Stretch.Covers loCut hiCut t.intervals x := by
  rw [union, covers_normalizeIntervals, Stretch.covers_append]

theorem mem_overlap (a b : Interval) (x : Cut) :
    Stretch.Mem loCut hiCut x (overlap a b) ↔ Stretch.Mem loCut hiCut x a ∧ Stretch.Mem loCut hiCut x b := by
  simp only [Stretch.Mem, loCut_overlap, hiCut_overlap, max_le_iff, lt_min_iff]
  tauto

theorem covers_overlaps (l m : List Interval) (x : Cut) :
    Stretch.Covers loCut hiCut (overlaps l m) x ↔ Stretch.Covers loCut hiCut l x ∧ Stretch.Covers loCut hiCut m x := by
  simp only [overlaps, Stretch.Covers, List.mem_flatMap, List.mem_filter, List.mem_map, intervalNonempty_iff]
  constructor
  · rintro ⟨iv, ⟨a, ha, ⟨b, hb, rfl⟩, -⟩, hx⟩
    obtain ⟨hxa, hxb⟩ := (mem_overlap a b x).mp hx
    exact ⟨⟨a, ha, hxa⟩, b, hb, hxb⟩
  · rintro ⟨⟨a, ha, hxa⟩, b, hb, hxb⟩
    have hx := (mem_overlap a b x).mpr ⟨hxa, hxb⟩
    exact ⟨_, ⟨a, ha, ⟨b, hb, rfl⟩, hx.1.trans_lt hx.2⟩, hx⟩

theorem covers_intersect (s t : VersionSet) (x : Cut) :
    Stretch.Covers loCut hiCut (s.intersect t).intervals x ↔
      Stretch.Covers loCut hiCut s.intervals x ∧ Stretch.Covers loCut hiCut t.intervals x := by
  rw [intersect, covers_normalizeIntervals, covers_overlaps]

/-- In canonical form, the ends of the gap between two neighbours are those of the neighbours. -/
theorem loCut_gapBetween {a b : Interval} (h : hiCut a < loCut b) : loCut (gapBetween a b) = hiCut a := by
  obtain ⟨aLo, aHi, aLoC, aHiC⟩ := a
  cases aHi with
  | none => exact absurd h not_top_lt
  | some v => simp [gapBetween, loCut, hiCut]

theorem hiCut_gapBetween {a b : Interval} (h : hiCut a < loCut b) : hiCut (gapBetween a b) = loCut b := by
  obtain ⟨bLo, bHi, bLoC, bHiC⟩ := b
  cases bLo with
  | none => exact absurd h not_lt_bot
  | some v => simp [gapBetween, loCut, hiCut]

theorem covers_leftGap (first : Interval) (x : Cut) :
    Stretch.Covers loCut hiCut (leftGap first) x ↔ x < loCut first := by
  obtain ⟨lo, hi, loC, hiC⟩ := first
  cases lo with
  | none => simp [leftGap, loCut]
  | some v => simp [leftGap, loCut, hiCut, Stretch.Mem]

theorem covers_rightTail (last : Interval) (x : Cut) :
    Stretch.Covers loCut hiCut (rightTail last) x ↔ hiCut last ≤ x ∧ x < ⊤ := by
  obtain ⟨lo, hi, loC, hiC⟩ := last
  cases hi with
  | none => simp [rightTail, hiCut]
  | some v => simp [rightTail, loCut, hiCut, Stretch.Mem]

/-- The windows of a canonical list and its right tail are its gaps from the end of the
first interval on. -/
theorem covers_windows {first : Interval} {rest : List Interval} (h : Stretch.Canonical loCut hiCut (first :: rest))
    (x : Cut) :
    Stretch.Covers loCut hiCut (((first :: rest).zip rest).map (fun w => gapBetween w.1 w.2) ++
        rightTail (rest.getLastD first)) x ↔
      Stretch.Covers Prod.fst Prod.snd (Stretch.gapsFrom loCut hiCut (hiCut first) rest) x := by
  induction rest generalizing first with
  | nil => simp [Stretch.gapsFrom, covers_rightTail, Stretch.Mem]
  | cons next rest ih =>
    have hgap : hiCut first < loCut next := h.head_lt next List.mem_cons_self
    rw [List.zip_cons_cons, List.map_cons, List.cons_append, Stretch.covers_cons, List.getLastD_cons, ih h.tail,
      Stretch.gapsFrom, Stretch.covers_cons]
    simp only [Stretch.Mem, loCut_gapBetween hgap, hiCut_gapBetween hgap]

theorem covers_gapsOf {first : Interval} {rest : List Interval} (h : Stretch.Canonical loCut hiCut (first :: rest))
    {x : Cut} (hx : x < ⊤) :
    Stretch.Covers loCut hiCut (gapsOf first rest) x ↔ ¬ Stretch.Covers loCut hiCut (first :: rest) x := by
  have hgaps := Stretch.covers_gapsFrom h (a := ⊥) (by simp) x
  rw [Stretch.gapsFrom, Stretch.covers_cons] at hgaps
  rw [gapsOf, List.append_assoc, Stretch.covers_append, covers_leftGap, covers_windows h]
  simpa [Stretch.Mem, hx] using hgaps

theorem lt_top_of_covers {l : List Interval} {x : Cut} (h : Stretch.Covers loCut hiCut l x) : x < ⊤ := by
  obtain ⟨iv, -, h⟩ := h
  exact h.2.trans_le le_top

theorem covers_full (x : Cut) : Stretch.Covers loCut hiCut full.intervals x ↔ x < ⊤ := by
  simp [full, Stretch.Mem, loCut, hiCut]

theorem covers_complement {s : VersionSet} (h : CanonicalForm s.intervals) {x : Cut} (hx : x < ⊤) :
    Stretch.Covers loCut hiCut s.complement.intervals x ↔ ¬ Stretch.Covers loCut hiCut s.intervals x := by
  obtain ⟨_ | ⟨first, rest⟩⟩ := s
  · simp [complement, covers_full, hx]
  · rw [← covers_gapsOf h.canonical hx]
    exact covers_normalizeIntervals _ x

/-! ### Sets that can be built -/

/-- The sets that the constructors and the three operations make. -/
inductive Built : VersionSet → Prop where
  | full : Built full
  | empty : Built empty
  | gte (v : Version) : Built (gte v)
  | gt (v : Version) : Built (gt v)
  | lt (v : Version) : Built (lt v)
  | lte (v : Version) : Built (lte v)
  | eq (v : Version) : Built (eq v)
  | tilde (v : Version) : Built (tilde v)
  | caret (v : Version) : Built (caret v)
  | fromConstraint {c : Option Str} {s : VersionSet} (h : fromConstraint c = .ok s) : Built s
  | intersect {s t : VersionSet} : Built s → Built t → Built (s.intersect t)
  | union {s t : VersionSet} : Built s → Built t → Built (s.union t)
  | complement {s : VersionSet} : Built s → Built s.complement

theorem canonicalForm_full : CanonicalForm full.intervals := by
  refine ⟨by simp [full], ?_, by simp [full], ?_⟩ <;> simp [full, intervalNonempty, FixedFlags]

theorem canonicalForm_empty : CanonicalForm empty.intervals := by
  refine ⟨by simp [empty], ?_, by simp [empty], ?_⟩ <;> simp [empty]

theorem canonicalForm_complement (s : VersionSet) : CanonicalForm s.complement.intervals := by
  obtain ⟨_ | ⟨first, rest⟩⟩ := s
  · exact canonicalForm_full
  · exact canonicalForm_normalizeIntervals _

theorem canonicalForm_of_fromConstraint {c : Option Str} {s : VersionSet} (h : fromConstraint c = .ok s) :
    CanonicalForm s.intervals := by
  unfold fromConstraint at h
  cases c with
  | none =>
    cases h
    exact canonicalForm_full
  | some raw =>
    dsimp only at h
    split_ifs at h
    · cases h
      exact canonicalForm_full
    · refine Result.foldlM_invariant (P := fun s => CanonicalForm s.intervals) h canonicalForm_empty ?_
      intro result arm result' _ harm
      obtain ⟨armResult, -, hr⟩ := Result.bind_eq_ok.mp harm
      cases hr
      exact canonicalForm_normalizeIntervals _

/-- **Every set that can be built is in canonical form.** -/
theorem Built.canonicalForm {s : VersionSet} (h : Built s) : CanonicalForm s.intervals := by
  cases h with
  | full => exact canonicalForm_full
  | empty => exact canonicalForm_empty
  | gte v | lt v =>
    refine ⟨List.pairwise_singleton _ _, ?_, List.isChain_singleton _, ?_⟩ <;>
      simp [VersionSet.gte, VersionSet.lt, intervalNonempty, FixedFlags]
  | eq v =>
    refine ⟨List.pairwise_singleton _ _, ?_, List.isChain_singleton _, ?_⟩ <;>
      simp [VersionSet.eq, intervalNonempty, FixedFlags]
  | gt v | lte v | tilde v | caret v | intersect _ _ | union _ _ => exact canonicalForm_normalizeIntervals _
  | fromConstraint h => exact canonicalForm_of_fromConstraint h
  | complement _ => exact canonicalForm_complement _

theorem contains_intersect (s t : VersionSet) (v : Version) :
    (s.intersect t).contains v = true ↔ s.contains v = true ∧ t.contains v = true := by
  rw [contains_iff, contains_iff, contains_iff, covers_intersect]

theorem contains_union (s t : VersionSet) (v : Version) :
    (s.union t).contains v = true ↔ s.contains v = true ∨ t.contains v = true := by
  rw [contains_iff, contains_iff, contains_iff, covers_union]

theorem Built.contains_complement {s : VersionSet} (h : Built s) (v : Version) :
    s.complement.contains v = true ↔ ¬ s.contains v = true := by
  rw [contains_iff, contains_iff, covers_complement h.canonicalForm (cutAt_lt_top v false)]

/-- **The operations are exact, and what they make is in normal form**: on sets that
can be built, membership in an intersection, a union or a complement is what it
should be for every version, and each such set is in canonical form, which
`normalize_intervals` leaves as it is. -/
theorem built_operations_exact {a b : VersionSet} (ha : Built a) (hb : Built b) (v : Version) :
    ((a.intersect b).contains v = true ↔ a.contains v = true ∧ b.contains v = true) ∧
      ((a.union b).contains v = true ↔ a.contains v = true ∨ b.contains v = true) ∧
      (a.complement.contains v = true ↔ ¬ a.contains v = true) ∧
      (CanonicalForm a.intervals ∧ normalizeIntervals a.intervals = a.intervals) ∧
      CanonicalForm b.intervals ∧ normalizeIntervals b.intervals = b.intervals :=
  ⟨contains_intersect a b v, contains_union a b v, ha.contains_complement v,
    ⟨ha.canonicalForm, ha.canonicalForm.normalizeIntervals_eq_self⟩,
    hb.canonicalForm, hb.canonicalForm.normalizeIntervals_eq_self⟩

theorem built_operations_exact_caret_lt :
    let a := caret (.release 1 2 3)
    let b := lt ⟨2, 0, 0, [.alpha "rc"], []⟩
    let v : Version := ⟨1, 9, 0, [.numeric 4], "b7"⟩
    ((a.intersect b).contains v = true ↔ a.contains v = true ∧ b.contains v = true) ∧
      ((a.union b).contains v = true ↔ a.contains v = true ∨ b.contains v = true) ∧
      (a.complement.contains v = true ↔ ¬ a.contains v = true) ∧
      (CanonicalForm a.intervals ∧ normalizeIntervals a.intervals = a.intervals) ∧
      CanonicalForm b.intervals ∧ normalizeIntervals b.intervals = b.intervals :=
  built_operations_exact (.caret _) (.lt _) _

end VersionSet

end Milpa.Solver

import Mathlib.Order.Monotone.Basic
import Mathlib.Order.SuccPred.Basic
import Mathlib.Algebra.Order.SuccPred
import Mathlib.Data.Int.ConditionallyCompleteOrder
import Milpa.Types.Timestamp

/-!
# The calendar, and what is read of it

`days_from_civil` and `civil_from_days` number the days of the Gregorian calendar, extended
to all years: they are inverse to each other, and the day after a day has the date after
its date (`civilFromDays_succ`). A timestamp that is accepted need not be one of this
calendar, nor need the text that is written for it be accepted: `codec_exact` says for
which texts both hold.
-/

namespace Milpa.Timestamp

/-! ### Dates -/

/-- A leap year. -/
def IsLeap (y : ℤ) : Prop := y % 4 = 0 ∧ (y % 100 ≠ 0 ∨ y % 400 = 0)

instance (y : ℤ) : Decidable (IsLeap y) := inferInstanceAs (Decidable (_ ∧ _))

/-- The days of a month. -/
def monthLength (y m : ℤ) : ℤ :=
  if m = 2 then if IsLeap y then 29 else 28
  else if m = 4 ∨ m = 6 ∨ m = 9 ∨ m = 11 then 30 else 31

/-- A year, a month and a day that are a date of the calendar. -/
structure IsDate (date : ℤ × ℤ × ℤ) : Prop where
  month : 1 ≤ date.2.1 ∧ date.2.1 ≤ 12
  day : 1 ≤ date.2.2 ∧ date.2.2 ≤ monthLength date.1 date.2.1

/-- The number of a date. -/
def dayOf (date : ℤ × ℤ × ℤ) : ℤ := daysFromCivil date.1 date.2.1 date.2.2

/-- The year of a date, where a year begins in March. -/
def marchYear (date : ℤ × ℤ × ℤ) : ℤ := if date.2.1 ≤ 2 then date.1 - 1 else date.1

/-- The days of such a year before a date. -/
def marchDay (date : ℤ × ℤ × ℤ) : ℤ := (153 * ((date.2.1 + 9) % 12) + 2) / 5 + date.2.2 - 1

theorem dayOf_eq {date : ℤ × ℤ × ℤ} (h : 1 ≤ date.2.1) : dayOf date = daysBefore (marchYear date) + marchDay date - 719468 := by
  rw [dayOf, daysFromCivil_eq h, marchYear, marchDay]
  ring

/-- A year that begins in March ends with the day that the next year may leap. -/
theorem daysBefore_succ (y : ℤ) : daysBefore (y + 1) = daysBefore y + if IsLeap (y + 1) then 366 else 365 := by
  unfold daysBefore IsLeap
  split_ifs <;> omega

theorem daysBefore_strictMono : StrictMono daysBefore := by
  refine strictMono_int_of_lt_succ fun y => ?_
  rw [daysBefore_succ]
  split_ifs <;> omega

/-- A date is one of the days of its year. -/
theorem IsDate.marchDay_bounds {date : ℤ × ℤ × ℤ} (h : IsDate date) :
    0 ≤ marchDay date ∧ daysBefore (marchYear date) + marchDay date < daysBefore (marchYear date + 1) := by
  obtain ⟨y, m, d⟩ := date
  obtain ⟨⟨hm1, hm12⟩, hd1, hd⟩ := h
  rw [daysBefore_succ]
  dsimp only [marchDay, marchYear, monthLength] at *
  refine ⟨by omega, ?_⟩
  interval_cases m <;> simp at hd ⊢ <;> split_ifs at hd ⊢ <;> omega

/-- The month and the day by the day of the year. -/
theorem IsDate.eq_of_marchDay {a b : ℤ × ℤ × ℤ} (ha : IsDate a) (hb : IsDate b) (hyear : marchYear a = marchYear b)
    (hday : marchDay a = marchDay b) : a = b := by
  obtain ⟨y, m, d⟩ := a
  obtain ⟨y', m', d'⟩ := b
  obtain ⟨⟨hm1, hm12⟩, hd1, hd⟩ := ha
  obtain ⟨⟨hm1', hm12'⟩, hd1', hd'⟩ := hb
  dsimp only [marchDay, marchYear] at *
  have hlen : ∀ y m : ℤ, monthLength y m ≤ if m = 2 then 29 else if m = 4 ∨ m = 6 ∨ m = 9 ∨ m = 11 then 30 else 31 := by
    intro y m
    unfold monthLength
    split_ifs <;> omega
  have hbound := hd.trans (hlen y m)
  have hbound' := hd'.trans (hlen y' m')
  -- The days of a month end before those of the next one begin.
  have hmonth : m = m' := by
    interval_cases m <;> simp at hbound hday <;> split_ifs at hbound' <;> omega
  subst hmonth
  have hd : d = d' := by omega
  have hy : y = y' := by split_ifs at hyear <;> omega
  rw [hd, hy]

theorem IsDate.dayOf_injective {a b : ℤ × ℤ × ℤ} (ha : IsDate a) (hb : IsDate b) (h : dayOf a = dayOf b) : a = b := by
  rw [dayOf_eq ha.month.1, dayOf_eq hb.month.1] at h
  obtain ⟨ha0, ha1⟩ := ha.marchDay_bounds
  obtain ⟨hb0, hb1⟩ := hb.marchDay_bounds
  have hyear : marchYear a = marchYear b := by
    refine le_antisymm (Int.lt_add_one_iff.mp ?_) (Int.lt_add_one_iff.mp ?_) <;> refine daysBefore_strictMono.lt_iff_lt.mp ?_ <;> omega
  exact ha.eq_of_marchDay hb hyear (by rw [hyear] at h; omega)

/-- The date of a day is one of the calendar. -/
theorem isDate_civilFromDays (z : ℤ) : IsDate (civilFromDays z) := by
  obtain ⟨-, hmonth, hd1, -⟩ := daysFromCivil_civilFromDays z
  refine ⟨hmonth, hd1, ?_⟩
  obtain ⟨c, q, k, s, hp⟩ := exists_parts_of_day z
  rw [civilFromDays_eq hp]
  obtain ⟨hc, hq, hk, hs, hleap, hlast, hsum⟩ := hp
  dsimp only [monthLength]
  generalize hmp : (5 * s + 2) / 153 = mp
  have hmp11 : 0 ≤ mp ∧ mp ≤ 11 := by omega
  -- Only the last day of a year that begins in March leaps.
  have hlast' : s = 365 → IsLeap (100 * c + 4 * q + k + (z + 719468) / 146097 * 400 + 1) := by
    intro heq
    have hk3 : k = 3 := by omega
    have hq24 : q = 24 → c = 3 := by omega
    unfold IsLeap
    omega
  obtain ⟨hmp0, hmp1⟩ := hmp11
  interval_cases mp <;> simp <;> try omega
  split_ifs with hl
  · omega
  · have : s ≠ 365 := fun heq => hl (hlast' heq)
    omega

/-- **A date is found again from its day.** -/
theorem civilFromDays_dayOf {date : ℤ × ℤ × ℤ} (h : IsDate date) : civilFromDays (dayOf date) = date :=
  (isDate_civilFromDays _).dayOf_injective h (daysFromCivil_civilFromDays _).1

/-- A date exists when it is that of a day. -/
theorem isDate_iff {date : ℤ × ℤ × ℤ} : IsDate date ↔ ∃ z, civilFromDays z = date :=
  ⟨fun h => ⟨dayOf date, civilFromDays_dayOf h⟩, fun ⟨z, hz⟩ => hz ▸ isDate_civilFromDays z⟩

/-- The date after a date. -/
def nextDate (date : ℤ × ℤ × ℤ) : ℤ × ℤ × ℤ :=
  if date.2.2 < monthLength date.1 date.2.1 then (date.1, date.2.1, date.2.2 + 1)
  else if date.2.1 < 12 then (date.1, date.2.1 + 1, 1) else (date.1 + 1, 1, 1)

theorem IsDate.nextDate {date : ℤ × ℤ × ℤ} (h : IsDate date) : IsDate (nextDate date) := by
  obtain ⟨⟨hm1, hm12⟩, hd1, hd⟩ := h
  have hlen : ∀ y m, 1 ≤ monthLength y m := by
    intro y m
    unfold monthLength
    split_ifs <;> omega
  unfold Timestamp.nextDate
  split_ifs with hlt h12
  · exact ⟨⟨hm1, hm12⟩, by dsimp only; omega, by dsimp only; omega⟩
  · exact ⟨⟨by dsimp only; omega, by dsimp only; omega⟩, le_rfl, hlen _ _⟩
  · exact ⟨⟨le_rfl, (by decide : (1 : ℤ) ≤ 12)⟩, le_rfl, hlen _ _⟩

theorem IsDate.dayOf_nextDate {date : ℤ × ℤ × ℤ} (h : IsDate date) : dayOf (Timestamp.nextDate date) = dayOf date + 1 := by
  rw [dayOf_eq h.nextDate.month.1, dayOf_eq h.month.1]
  obtain ⟨y, m, d⟩ := date
  obtain ⟨⟨hm1, hm12⟩, hd1, hd⟩ := h
  unfold Timestamp.nextDate
  dsimp only at *
  split_ifs with hlt h12
  · dsimp only [marchYear, marchDay]
    omega
  · -- The next month, which begins the year where it is March.
    have hlast : d = monthLength y m := by omega
    have hleap := daysBefore_succ (y - 1)
    rw [sub_add_cancel] at hleap
    dsimp only [marchYear, marchDay]
    rw [hlast, monthLength]
    clear hlast hlt hd
    interval_cases m <;> simp <;> split_ifs at hleap ⊢ <;> omega
  · obtain rfl : m = 12 := by omega
    have hlast : d = 31 := by
      have : monthLength y 12 = 31 := rfl
      omega
    simp [marchYear, marchDay, hlast]
    omega

/-- **The days run through the calendar**, from the first of January 1970 on and before it. -/
theorem civilFromDays_succ (z : ℤ) : civilFromDays (z + 1) = nextDate (civilFromDays z) := by
  have hdate := isDate_civilFromDays z
  rw [← civilFromDays_dayOf hdate.nextDate, hdate.dayOf_nextDate, dayOf, (daysFromCivil_civilFromDays z).1]

example : civilFromDays 0 = (1970, 1, 1) := by decide

/-! ### Years -/

theorem dayOf_newYear (y : ℤ) : dayOf (y, 1, 1) = daysBefore (y - 1) + 306 - 719468 := by
  rw [dayOf_eq (le_refl (1 : ℤ))]
  rfl

/-- A date is in its year. -/
theorem IsDate.in_year {date : ℤ × ℤ × ℤ} (h : IsDate date) : dayOf (date.1, 1, 1) ≤ dayOf date ∧ dayOf date < dayOf (date.1 + 1, 1, 1) := by
  obtain ⟨hday0, hday⟩ := h.marchDay_bounds
  rw [dayOf_newYear, dayOf_newYear, dayOf_eq h.month.1]
  obtain ⟨y, m, d⟩ := date
  obtain ⟨⟨hm1, hm12⟩, hd1, hd⟩ := h
  have hlen : monthLength y m ≤ 31 := by
    unfold monthLength
    split_ifs <;> omega
  have hsucc := daysBefore_succ (y - 1)
  dsimp only [marchYear, marchDay] at *
  rw [sub_add_cancel] at hsucc
  rw [add_sub_cancel_right]
  by_cases hm : m ≤ 2
  · simp only [if_pos hm, sub_add_cancel] at hday ⊢
    omega
  · simp only [if_neg hm] at hday ⊢
    split_ifs at hsucc <;> omega

/-- The days before a year are those before its first of January. -/
theorem civilFromDays_year_lt_iff {z y : ℤ} : (civilFromDays z).1 < y ↔ z < dayOf (y, 1, 1) := by
  have hmono : StrictMono fun y : ℤ => dayOf (y, 1, 1) := by
    intro a b hab
    have := daysBefore_strictMono (show a - 1 < b - 1 by omega)
    simp only [dayOf_newYear]
    omega
  obtain ⟨hfirst, hlast⟩ := (isDate_civilFromDays z).in_year
  have hz : dayOf (civilFromDays z) = z := (daysFromCivil_civilFromDays z).1
  rw [hz] at hfirst hlast
  constructor
  · intro hlt
    exact hlast.trans_le (hmono.monotone hlt)
  · intro hlt
    exact hmono.lt_iff_lt.mp (hfirst.trans_lt hlt)

/-! ### What is read -/

/-- The date of a text. -/
def dateOf (raw : Str) : Option (ℤ × ℤ × ℤ) := do
  return (← fourAt raw 0, ← twoAt raw 5, ← twoAt raw 8)

/-- The seconds of the day of a text. -/
def secondOfDay (raw : Str) : Option ℤ := do
  return (← twoAt raw 11) * 3600 + (← twoAt raw 14) * 60 + (← twoAt raw 17)

/-- The offset of a text. -/
def offsetOf (raw : Str) : Option ℤ := do
  let (_, idx) ← parseFraction raw
  let (offset, _) ← parseOffset raw idx
  return offset

theorem digitAt_bounds {s : Str} {i : ℕ} {k : ℤ} (h : digitAt s i = some k) : 0 ≤ k ∧ k ≤ 9 := by
  simp only [digitAt, Option.map_eq_some_iff, Option.filter_eq_some_iff] at h
  obtain ⟨c, ⟨-, hdigit⟩, rfl⟩ := h
  have hbounds := Str.isDigit_iff.mp hdigit
  have : '0'.toNat = 48 := rfl
  omega

theorem fourAt_bounds {s : Str} {i : ℕ} {k : ℤ} (h : fourAt s i = some k) : 0 ≤ k ∧ k ≤ 9999 := by
  simp only [fourAt, Option.bind_eq_bind, Option.bind_eq_some_iff, Option.pure_def, Option.some.injEq] at h
  obtain ⟨a, ha, b, hb, c, hc, d, hd, rfl⟩ := h
  have := digitAt_bounds ha
  have := digitAt_bounds hb
  have := digitAt_bounds hc
  have := digitAt_bounds hd
  omega

theorem of_guard {p : Prop} [Decidable p] {a : Unit} (h : (guard p : Option Unit) = some a) : p := by
  by_contra hp
  rw [guard, if_neg hp] at h
  cases h

theorem parseOffset_bounds {raw : Str} {idx next : ℕ} {offset : ℤ} (h : parseOffset raw idx = some (offset, next)) :
    -86400 < offset ∧ offset < 86400 := by
  unfold parseOffset at h
  split at h
  · obtain ⟨rfl, -⟩ := Prod.mk.inj (Option.some.inj h)
    decide
  · split_ifs at h
    · obtain ⟨rfl, -⟩ := Prod.mk.inj (Option.some.inj h)
      decide
    all_goals
      simp only [Option.bind_eq_bind, Option.bind_eq_some_iff, Option.pure_def, Option.some.injEq, Prod.mk.injEq] at h
      obtain ⟨oh, -, _, -, om, -, _, hguard, rfl, -⟩ := h
      have := of_guard hguard
      omega

/-- What is read of a text that is accepted. -/
theorem parse_eq_some {raw : Str} {ts : Timestamp} (h : parseIso8601Timestamp raw = some ts) :
    ∃ date sod offset, dateOf raw = some date ∧ secondOfDay raw = some sod ∧ offsetOf raw = some offset ∧
      ts.unixSeconds = dayOf date * 86400 + sod - offset ∧ (0 ≤ date.1 ∧ date.1 ≤ 9999) ∧ (1 ≤ date.2.1 ∧ date.2.1 ≤ 12) ∧
      (1 ≤ date.2.2 ∧ date.2.2 ≤ 31) ∧ (0 ≤ sod ∧ sod ≤ 86400) ∧ -86400 < offset ∧ offset < 86400 := by
  simp only [parseIso8601Timestamp, Option.bind_eq_bind, Option.bind_eq_some_iff, Option.pure_def,
    Option.some.injEq] at h
  obtain ⟨_, -, year, hyear, _, -, month, hmonth, _, -, day, hday, _, -, hour, hhour, _, -, minute, hminute, _, -, second,
    hsecond, _, hguard, ⟨nanos, idx⟩, hfrac, ⟨offset, idx'⟩, hoffset, _, -, rfl⟩ := h
  have hbounds := of_guard hguard
  refine ⟨(year, month, day), hour * 3600 + minute * 60 + second, offset, ?_, ?_, ?_, by dsimp only [dayOf]; ring,
    fourAt_bounds hyear, by dsimp only; omega, by dsimp only; omega, by omega, parseOffset_bounds hoffset⟩
  · simp [dateOf, hyear, hmonth, hday]
  · simp [secondOfDay, hhour, hminute, hsecond]
  · simp [offsetOf, hfrac, hoffset]

/-! ### The codec -/

/-- The text is one that the calendar has and that stays in the years of four digits: its month has the day, its offset does not
lead before the year 0, and neither its offset nor a second 60 leads behind the year 9999. -/
def Plain (raw : Str) : Prop :=
  ∀ date ∈ dateOf raw, ∀ sod ∈ secondOfDay raw, ∀ offset ∈ offsetOf raw,
    date.2.2 ≤ monthLength date.1 date.2.1 ∧ ¬ (date = (0, 1, 1) ∧ sod < offset) ∧ ¬ (date = (9999, 12, 31) ∧ 86400 ≤ sod - offset)

theorem parse_format_iff {ts : Timestamp} (hnanos : ts.nanos < 10 ^ 9) :
    parseIso8601Timestamp (formatIso8601Timestamp ts) = some ts ↔ 0 ≤ ts.year ∧ ts.year ≤ 9999 := by
  refine ⟨fun h => ?_, fun hyear => parse_format hyear hnanos⟩
  by_contra hyear
  rw [parse_format_of_year (by omega)] at h
  cases h

/-- The years of four digits, by the seconds. -/
theorem year_iff (ts : Timestamp) :
    (0 ≤ ts.year ∧ ts.year ≤ 9999) ↔ dayOf (0, 1, 1) * 86400 ≤ ts.unixSeconds ∧ ts.unixSeconds < (dayOf (9999, 12, 31) + 1) * 86400 := by
  have hlow := civilFromDays_year_lt_iff (z := ts.unixSeconds / 86400) (y := 0)
  have hhigh := civilFromDays_year_lt_iff (z := ts.unixSeconds / 86400) (y := 10000)
  have hfirst : dayOf (0, 1, 1) = -719528 := by decide
  have hlast : dayOf (9999, 12, 31) = 2932896 := by decide
  have hnext : dayOf (10000, 1, 1) = 2932897 := by decide
  rw [hfirst] at hlow
  rw [hnext] at hhigh
  rw [hfirst, hlast, year]
  omega

/-- The years 0 to 9999 are those between two dates. -/
theorem IsDate.dayOf_bounds {date : ℤ × ℤ × ℤ} (h : IsDate date) (hyear : 0 ≤ date.1 ∧ date.1 ≤ 9999) :
    dayOf (0, 1, 1) ≤ dayOf date ∧ dayOf date ≤ dayOf (9999, 12, 31) := by
  have hz := civilFromDays_dayOf h
  have hlow := civilFromDays_year_lt_iff (z := dayOf date) (y := 0)
  have hhigh := civilFromDays_year_lt_iff (z := dayOf date) (y := 10000)
  have hlast : dayOf (10000, 1, 1) = dayOf (9999, 12, 31) + 1 := by decide
  rw [hz] at hlow hhigh
  omega

theorem isDate_first : IsDate (0, 1, 1) := ⟨by decide, by decide⟩

theorem isDate_last : IsDate (9999, 12, 31) := ⟨by decide, by decide⟩

/-- What is read of a text is plain when it is a date whose moment is in the years of four digits. -/
theorem plain_iff {raw : Str} {ts : Timestamp} (h : parseIso8601Timestamp raw = some ts) :
    Plain raw ↔ (0 ≤ ts.year ∧ ts.year ≤ 9999) ∧ ∃ date ∈ dateOf raw, IsDate date := by
  obtain ⟨date, sod, offset, hdate, hsod, hoffset, hseconds, hyear, hmonth, hday, hsod0, hoffset0⟩ := parse_eq_some h
  simp only [Plain, hdate, hsod, hoffset, Option.mem_some_iff, forall_eq']
  have hex : (∃ d, date = d ∧ IsDate d) ↔ date.2.2 ≤ monthLength date.1 date.2.1 :=
    ⟨fun ⟨_, hd, hisDate⟩ => hd ▸ hisDate.day.2, fun hd => ⟨date, rfl, hmonth, hday.1, hd⟩⟩
  rw [hex, and_comm (b := date.2.2 ≤ _)]
  refine and_congr_right fun hd => ?_
  have hisDate : IsDate date := ⟨hmonth, hday.1, hd⟩
  obtain ⟨hfirst, hlast⟩ := hisDate.dayOf_bounds hyear
  have hzero : date = (0, 1, 1) ↔ dayOf date = dayOf (0, 1, 1) :=
    ⟨fun heq => heq ▸ rfl, hisDate.dayOf_injective isDate_first⟩
  have hnine : date = (9999, 12, 31) ↔ dayOf date = dayOf (9999, 12, 31) :=
    ⟨fun heq => heq ▸ rfl, hisDate.dayOf_injective isDate_last⟩
  rw [year_iff, hzero, hnine, hseconds]
  omega

/-- **The codec**: days and dates are inverse to each other, and a text that is accepted is of a date of the calendar and comes back
from what is written for it just where it is plain. -/
theorem codec_exact (raw : Str) :
    (∀ z, IsDate (civilFromDays z) ∧ dayOf (civilFromDays z) = z) ∧ (∀ date, IsDate date → civilFromDays (dayOf date) = date) ∧
      ∀ ts, parseIso8601Timestamp raw = some ts →
        ((parseIso8601Timestamp (formatIso8601Timestamp ts) = some ts ∧ ∃ date ∈ dateOf raw, IsDate date) ↔ Plain raw) := by
  refine ⟨fun z => ⟨isDate_civilFromDays z, (daysFromCivil_civilFromDays z).1⟩, fun date => civilFromDays_dayOf, fun ts h => ?_⟩
  rw [parse_format_iff (nanos_lt_of_parse h), plain_iff h]

/-- The last second of the year 9999, west of Greenwich. -/
theorem codec_exact_west :
    (parseIso8601Timestamp (formatIso8601Timestamp ⟨253402304399, 0⟩) = some ⟨253402304399, 0⟩ ∧
      ∃ date ∈ dateOf "9999-12-31T23:59:59-01:00", IsDate date) ↔ Plain "9999-12-31T23:59:59-01:00" :=
  (codec_exact _).2.2 _ (by decide)

/-- Neither does every text come back, nor is every date that is accepted one of the calendar. -/
theorem unplain_accepted :
    ¬ (∀ raw ts, parseIso8601Timestamp raw = some ts → parseIso8601Timestamp (formatIso8601Timestamp ts) = some ts) ∧
      ¬ ∀ raw ts, parseIso8601Timestamp raw = some ts → ∃ date ∈ dateOf raw, IsDate date := by
  constructor
  · intro h
    have := h "9999-12-31T23:59:59-01:00" ⟨253402304399, 0⟩ (by decide)
    revert this
    decide
  · intro h
    obtain ⟨date, hdate, hisDate⟩ := h "2026-02-30T00:00:00Z" ⟨1772409600, 0⟩ (by decide)
    have heq : date = (2026, 2, 30) := by
      have : dateOf "2026-02-30T00:00:00Z" = some (2026, 2, 30) := by decide
      rw [this] at hdate
      exact (Option.mem_some_iff.mp hdate).symm
    have := hisDate.day.2
    rw [heq] at this
    revert this
    decide

end Milpa.Timestamp

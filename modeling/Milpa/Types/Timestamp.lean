import Milpa.Types.Text
import Mathlib.Tactic.IntervalCases
import Mathlib.Tactic.Linarith
import Mathlib.Tactic.Ring

/-!
# Timestamps

`Timestamp`, `parse_iso8601_timestamp` and `format_iso8601_timestamp`, with the calendar
under them. A timestamp whose year has four digits is read back from its text
(`parse_format`); one before the year 0 or after the year 9999 has a text that is not
accepted (`parse_format_of_year`).

The source looks at bytes. Every byte it accepts is an ASCII character, so that the
positions of bytes are those of characters as far as it reads.
-/

namespace Milpa

/-- `Timestamp`: a moment, in seconds since 1970 and nanoseconds. -/
structure Timestamp where
  unixSeconds : ℤ
  nanos : ℕ
  deriving DecidableEq, Repr

namespace Timestamp

/-- The order that Rust derives: seconds first. -/
instance : LE Timestamp :=
  ⟨fun a b => a.unixSeconds < b.unixSeconds ∨ a.unixSeconds = b.unixSeconds ∧ a.nanos ≤ b.nanos⟩

instance : LT Timestamp := ⟨fun a b => a ≤ b ∧ ¬ b ≤ a⟩

instance (a b : Timestamp) : Decidable (a ≤ b) :=
  inferInstanceAs (Decidable (a.unixSeconds < b.unixSeconds ∨ a.unixSeconds = b.unixSeconds ∧ a.nanos ≤ b.nanos))

instance (a b : Timestamp) : Decidable (a < b) := inferInstanceAs (Decidable (a ≤ b ∧ ¬ b ≤ a))

/-! ### The calendar -/

/-- `days_from_civil`. A quotient of Rust is truncated. -/
def daysFromCivil (y : ℤ) (m d : ℤ) : ℤ :=
  let y := if m ≤ 2 then y - 1 else y
  let era := (if 0 ≤ y then y else y - 399).tdiv 400
  let yoe := y - era * 400
  let mp := (m + 9).tmod 12
  let doy := (153 * mp + 2).tdiv 5 + d - 1
  let doe := yoe * 365 + yoe.tdiv 4 - yoe.tdiv 100 + doy
  era * 146097 + doe - 719468

/-- `civil_from_days`: the year, the month and the day. -/
def civilFromDays (z : ℤ) : ℤ × ℤ × ℤ :=
  let z := z + 719468
  let era := (if 0 ≤ z then z else z - 146096).tdiv 146097
  let doe := z - era * 146097
  let yoe := (doe - doe.tdiv 1460 + doe.tdiv 36524 - doe.tdiv 146096).tdiv 365
  let y := yoe + era * 400
  let doy := doe - (365 * yoe + yoe.tdiv 4 - yoe.tdiv 100)
  let mp := (5 * doy + 2).tdiv 153
  let d := doy - (153 * mp + 2).tdiv 5 + 1
  let m := if mp < 10 then mp + 3 else mp - 9
  (if m ≤ 2 then y + 1 else y, m, d)

/-- A quotient whose dividend is made nonnegative in the source is rounded down. -/
theorem tdiv_era (y : ℤ) {n : ℤ} (hn : 0 < n) : (if 0 ≤ y then y else y - (n - 1)).tdiv n = y / n := by
  split_ifs with h
  · exact Int.tdiv_eq_ediv_of_nonneg h
  · have hfloor : y / n * n ≤ y := Int.ediv_mul_le y hn.ne'
    have hceil : y < (y / n + 1) * n := Int.lt_ediv_add_one_mul_self y hn
    have hneg : (n - 1 - y) / n = -(y / n) := by
      rw [Int.ediv_eq_iff_of_pos hn]
      constructor <;> linarith
    rw [← neg_sub (n - 1) y, Int.neg_tdiv, Int.tdiv_eq_ediv_of_nonneg (by omega), hneg, neg_neg]

/-- The parts of a day of an era: its century, the four years of the century, the year of these and the day of it. -/
structure Parts (doe c q k s : ℤ) : Prop where
  century : 0 ≤ c ∧ c ≤ 3
  four : 0 ≤ q ∧ q ≤ 24
  year : 0 ≤ k ∧ k ≤ 3
  day : 0 ≤ s ∧ s ≤ 365
  /-- Only the last year of four is a leap year. -/
  leap : k ≤ 2 → s ≤ 364
  /-- Only the last century ends with a leap year. -/
  last : c ≤ 2 → 1461 * q + 365 * k + s ≤ 36523
  sum : doe = 36524 * c + 1461 * q + 365 * k + s

theorem exists_parts {doe : ℤ} (h0 : 0 ≤ doe) (h1 : doe ≤ 146096) : ∃ c q k s : ℤ, Parts doe c q k s := by
  refine ⟨min (doe / 36524) 3, (doe - 36524 * min (doe / 36524) 3) / 1461,
    min ((doe - 36524 * min (doe / 36524) 3) % 1461 / 365) 3, (doe - 36524 * min (doe / 36524) 3) % 1461 -
      365 * min ((doe - 36524 * min (doe / 36524) 3) % 1461 / 365) 3, ?_⟩
  constructor <;> omega

theorem Parts.year_eq {doe c q k s : ℤ} (h : Parts doe c q k s) :
    (doe - doe / 1460 + doe / 36524 - doe / 146096) / 365 = 100 * c + 4 * q + k := by
  obtain ⟨hc, hq, hk, hs, hleap, hlast, hsum⟩ := h
  -- the centuries that the second and third quotient count
  have hcentury : doe / 36524 - doe / 146096 = c := by
    obtain ⟨hc0, hc3⟩ := hc
    interval_cases c <;> omega
  rw [Int.ediv_eq_iff_of_pos (show (0 : ℤ) < 365 by decide)]
  omega

/-- The day of the year, counted from the first of March. -/
theorem Parts.day_eq {doe c q k s : ℤ} (h : Parts doe c q k s) :
    doe - (365 * (100 * c + 4 * q + k) + (100 * c + 4 * q + k) / 4 - (100 * c + 4 * q + k) / 100) = s := by
  obtain ⟨hc, hq, hk, hs, hleap, hlast, hsum⟩ := h
  omega

/-- The date of a day, by the parts of its day of the era. -/
theorem civilFromDays_eq {z c q k s : ℤ} (h : Parts ((z + 719468) % 146097) c q k s) :
    civilFromDays z =
      let y := 100 * c + 4 * q + k + (z + 719468) / 146097 * 400
      let m := if (5 * s + 2) / 153 < 10 then (5 * s + 2) / 153 + 3 else (5 * s + 2) / 153 - 9
      (if m ≤ 2 then y + 1 else y, m, s - (153 * ((5 * s + 2) / 153) + 2) / 5 + 1) := by
  have hera : (if 0 ≤ z + 719468 then z + 719468 else z + 719468 - 146096).tdiv 146097 = (z + 719468) / 146097 :=
    tdiv_era (z + 719468) (show (0 : ℤ) < 146097 by decide)
  have hdoe : z + 719468 - (z + 719468) / 146097 * 146097 = (z + 719468) % 146097 := by
    rw [Int.emod_def, mul_comm]
  have hyear := h.year_eq
  have hday := h.day_eq
  obtain ⟨hc, hq, hk, hs, -, -, -⟩ := h
  generalize (z + 719468) % 146097 = doe at hdoe hyear hday
  have h0 : 0 ≤ doe := by omega
  have h1 : doe ≤ 146096 := by omega
  generalize hyoe : 100 * c + 4 * q + k = yoe at hyear hday
  have hq1 : doe.tdiv 1460 = doe / 1460 := Int.tdiv_eq_ediv_of_nonneg h0
  have hq2 : doe.tdiv 36524 = doe / 36524 := Int.tdiv_eq_ediv_of_nonneg h0
  have hq3 : doe.tdiv 146096 = doe / 146096 := Int.tdiv_eq_ediv_of_nonneg h0
  have hq4 : (doe - doe / 1460 + doe / 36524 - doe / 146096).tdiv 365 = yoe := by
    rw [Int.tdiv_eq_ediv_of_nonneg (by omega), hyear]
  have hq5 : yoe.tdiv 4 = yoe / 4 := Int.tdiv_eq_ediv_of_nonneg (by omega)
  have hq6 : yoe.tdiv 100 = yoe / 100 := Int.tdiv_eq_ediv_of_nonneg (by omega)
  have hs2 : (5 * s + 2).tdiv 153 = (5 * s + 2) / 153 := Int.tdiv_eq_ediv_of_nonneg (by omega)
  have hmp2 : (153 * ((5 * s + 2) / 153) + 2).tdiv 5 = (153 * ((5 * s + 2) / 153) + 2) / 5 :=
    Int.tdiv_eq_ediv_of_nonneg (by omega)
  simp only [civilFromDays, hera, hdoe, hq1, hq2, hq3, hq4, hq5, hq6, hday, hs2, hmp2]

/-- The days before a year that begins in March, counted from the year 0. -/
def daysBefore (y : ℤ) : ℤ := 365 * y + y / 4 - y / 100 + y / 400

/-- The days of a date, without eras. -/
theorem daysFromCivil_eq {y m d : ℤ} (hm : 1 ≤ m) :
    daysFromCivil y m d = daysBefore (if m ≤ 2 then y - 1 else y) + (153 * ((m + 9) % 12) + 2) / 5 + d - 719469 := by
  have hmp : (m + 9).tmod 12 = (m + 9) % 12 := Int.tmod_eq_emod_of_nonneg (by omega)
  unfold daysFromCivil daysBefore
  generalize (if m ≤ 2 then y - 1 else y) = y'
  have hera := tdiv_era y' (show (0 : ℤ) < 400 by decide)
  rw [show (400 : ℤ) - 1 = 399 by rfl] at hera
  have h4 : (y' - y' / 400 * 400).tdiv 4 = (y' - y' / 400 * 400) / 4 := Int.tdiv_eq_ediv_of_nonneg (by omega)
  have h100 : (y' - y' / 400 * 400).tdiv 100 = (y' - y' / 400 * 400) / 100 := Int.tdiv_eq_ediv_of_nonneg (by omega)
  have h5 : (153 * ((m + 9) % 12) + 2).tdiv 5 = (153 * ((m + 9) % 12) + 2) / 5 := Int.tdiv_eq_ediv_of_nonneg (by omega)
  simp only [hera, hmp, h4, h100, h5]
  omega

/-- Each day has its parts. -/
theorem exists_parts_of_day (z : ℤ) : ∃ c q k s : ℤ, Parts ((z + 719468) % 146097) c q k s :=
  exists_parts (Int.emod_nonneg _ (by decide)) (by omega)

/-- **A day is found again from its date**, and the date is one of a calendar. -/
theorem daysFromCivil_civilFromDays (z : ℤ) :
    daysFromCivil (civilFromDays z).1 (civilFromDays z).2.1 (civilFromDays z).2.2 = z ∧
      (1 ≤ (civilFromDays z).2.1 ∧ (civilFromDays z).2.1 ≤ 12) ∧
      1 ≤ (civilFromDays z).2.2 ∧ (civilFromDays z).2.2 ≤ 31 := by
  obtain ⟨c, q, k, s, hp⟩ := exists_parts_of_day z
  rw [civilFromDays_eq hp]
  obtain ⟨hc, hq, hk, hs, -, -, hsum⟩ := hp
  dsimp only
  generalize hmp : (5 * s + 2) / 153 = mp
  generalize hm : (if mp < 10 then mp + 3 else mp - 9) = m
  have hmonth : 1 ≤ m ∧ m ≤ 12 ∧ (m + 9) % 12 = mp := by
    split_ifs at hm <;> omega
  refine ⟨?_, ⟨hmonth.1, hmonth.2.1⟩, by omega, by omega⟩
  have hyear : (if m ≤ 2 then (if m ≤ 2 then 100 * c + 4 * q + k + (z + 719468) / 146097 * 400 + 1
      else 100 * c + 4 * q + k + (z + 719468) / 146097 * 400) - 1
      else if m ≤ 2 then 100 * c + 4 * q + k + (z + 719468) / 146097 * 400 + 1
      else 100 * c + 4 * q + k + (z + 719468) / 146097 * 400) = 100 * c + 4 * q + k + (z + 719468) / 146097 * 400 := by
    split_ifs <;> omega
  rw [daysFromCivil_eq hmonth.1, hyear, hmonth.2.2, daysBefore]
  clear hyear hm
  have h4 : (100 * c + 4 * q + k + (z + 719468) / 146097 * 400) / 4 = 25 * c + q + 100 * ((z + 719468) / 146097) := by omega
  have h100 : (100 * c + 4 * q + k + (z + 719468) / 146097 * 400) / 100 = c + 4 * ((z + 719468) / 146097) := by omega
  have h400 : (100 * c + 4 * q + k + (z + 719468) / 146097 * 400) / 400 = (z + 719468) / 146097 := by omega
  rw [h4, h100, h400]
  omega

/-! ### Text -/

/-- `digit`: the digit at a position. -/
def digitAt (s : Str) (i : ℕ) : Option ℤ := (s[i]?.filter Char.isDigit).map fun c => (c.toNat - '0'.toNat : ℕ)

/-- `two`: the number of two digits at a position. -/
def twoAt (s : Str) (i : ℕ) : Option ℤ := do
  let a ← digitAt s i
  let b ← digitAt s (i + 1)
  return a * 10 + b

/-- `four`: the number of four digits at a position. -/
def fourAt (s : Str) (i : ℕ) : Option ℤ := do
  let a ← digitAt s i
  let b ← digitAt s (i + 1)
  let c ← digitAt s (i + 2)
  let d ← digitAt s (i + 3)
  return a * 1000 + b * 100 + c * 10 + d

/-- The nanoseconds, and the position after them. -/
def parseFraction (raw : Str) : Option (ℕ × ℕ) :=
  if raw[19]? = some '.' ∨ raw[19]? = some ',' then
    let frac := (raw.drop 20).takeWhile Char.isDigit
    if frac = [] then none
    else
      let digits := frac.take 9
      (Str.parseUInt 32 (digits ++ List.replicate (9 - digits.length) '0')).map fun nanos => (nanos, 20 + frac.length)
  else some (0, 19)

/-- The offset from UTC in seconds, and the position after it. -/
def parseOffset (raw : Str) (idx : ℕ) : Option (ℤ × ℕ) :=
  match raw[idx]? with
  | none => some (0, idx)
  | some c =>
    if c = 'Z' ∨ c = 'z' then some (0, idx + 1)
    else if c = '+' ∨ c = '-' then do
      let oh ← twoAt raw (idx + 1)
      guard (raw[idx + 3]? = some ':')
      let om ← twoAt raw (idx + 4)
      guard (0 ≤ oh ∧ oh ≤ 23 ∧ 0 ≤ om ∧ om ≤ 59)
      return ((if c = '+' then 1 else -1) * (oh * 3600 + om * 60), idx + 6)
    else none

/-- `parse_iso8601_timestamp`. -/
def parseIso8601Timestamp (raw : Str) : Option Timestamp := do
  guard (19 ≤ raw.length)
  let year ← fourAt raw 0
  guard (raw[4]? = some '-')
  let month ← twoAt raw 5
  guard (raw[7]? = some '-')
  let day ← twoAt raw 8
  guard (raw[10]? = some 'T' ∨ raw[10]? = some 't' ∨ raw[10]? = some ' ')
  let hour ← twoAt raw 11
  guard (raw[13]? = some ':')
  let minute ← twoAt raw 14
  guard (raw[16]? = some ':')
  let second ← twoAt raw 17
  guard (1 ≤ month ∧ month ≤ 12 ∧ 1 ≤ day ∧ day ≤ 31 ∧ 0 ≤ hour ∧ hour ≤ 23 ∧ 0 ≤ minute ∧ minute ≤ 59 ∧
    0 ≤ second ∧ second ≤ 60)
  let (nanos, idx) ← parseFraction raw
  let (offset, idx) ← parseOffset raw idx
  guard (idx = raw.length)
  return ⟨daysFromCivil year month day * 86400 + hour * 3600 + minute * 60 + second - offset, nanos⟩

/-- A signed integer displayed with zeros up to a width, the sign included. -/
def paddedInt (width : ℕ) (k : ℤ) : Str := if k < 0 then '-' :: Str.padded (width - 1) k.natAbs else Str.padded width k.natAbs

/-- The year of a timestamp, in UTC. -/
def year (ts : Timestamp) : ℤ := (civilFromDays (ts.unixSeconds / 86400)).1

/-- What `format_iso8601_timestamp` writes after the seconds. -/
def formatFraction (nanos : ℕ) : Str :=
  if nanos = 0 then ['Z'] else '.' :: ((Str.padded 9 nanos).rdropWhile (· == '0') ++ ['Z'])

/-- `format_iso8601_timestamp`. -/
def formatIso8601Timestamp (ts : Timestamp) : Str :=
  let (y, m, d) := civilFromDays (ts.unixSeconds / 86400)
  let secsOfDay := ts.unixSeconds % 86400
  let hour := secsOfDay.tdiv 3600
  let minute := (secsOfDay.tmod 3600).tdiv 60
  let second := secsOfDay.tmod 60
  paddedInt 4 y ++ ('-' :: (paddedInt 2 m ++ ('-' :: (paddedInt 2 d ++ ('T' :: (paddedInt 2 hour ++
    (':' :: (paddedInt 2 minute ++ (':' :: (paddedInt 2 second ++ formatFraction ts.nanos))))))))))

example : formatIso8601Timestamp ⟨1767225600, 120000000⟩ = ("2026-01-01T00:00:00.12Z" : Str) := by decide

example : parseIso8601Timestamp "2026-01-01T02:30:00.12+02:30" = some ⟨1767225600, 120000000⟩ := by decide

/-! ### Reading the text back -/

theorem twoAt_eq {s : Str} {i : ℕ} {a b : Char} (ha : s[i]? = some a) (hb : s[i + 1]? = some b) (hda : a.isDigit = true)
    (hdb : b.isDigit = true) : twoAt s i = some (Nat.ofDigitChars 10 [a, b] 0 : ℕ) := by
  simp only [twoAt, digitAt, ha, hb, Option.filter_some, hda, hdb, if_true, Option.map_some, Nat.ofDigitChars_cons,
    Nat.ofDigitChars_nil, Option.bind_eq_bind, Option.bind_some, Option.pure_def, Option.some.injEq]
  push_cast
  ring

theorem fourAt_eq {s : Str} {i : ℕ} {a b c d : Char} (ha : s[i]? = some a) (hb : s[i + 1]? = some b)
    (hc : s[i + 2]? = some c) (hd : s[i + 3]? = some d) (hdigits : ∀ e ∈ [a, b, c, d], e.isDigit = true) :
    fourAt s i = some (Nat.ofDigitChars 10 [a, b, c, d] 0 : ℕ) := by
  simp only [List.forall_mem_cons, List.not_mem_nil, false_implies, implies_true, and_true] at hdigits
  obtain ⟨hda, hdb, hdc, hdd⟩ := hdigits
  simp only [fourAt, digitAt, ha, hb, hc, hd, Option.filter_some, hda, hdb, hdc, hdd, if_true, Option.map_some,
    Nat.ofDigitChars_cons, Nat.ofDigitChars_nil, Option.bind_eq_bind, Option.bind_some, Option.pure_def,
    Option.some.injEq]
  push_cast
  ring

/-- A number of two digits. -/
theorem exists_paddedInt_two {k : ℤ} (h0 : 0 ≤ k) (h1 : k ≤ 99) :
    ∃ a b, paddedInt 2 k = [a, b] ∧ a.isDigit = true ∧ b.isDigit = true ∧ (Nat.ofDigitChars 10 [a, b] 0 : ℕ) = k := by
  have hpad : paddedInt 2 k = Str.padded 2 k.natAbs := if_neg (by omega)
  have hlen : (Str.padded 2 k.natAbs).length = 2 := Str.length_padded (by decide) (by omega)
  obtain ⟨a, b, hab⟩ := List.length_eq_two.mp hlen
  have hdigit : ∀ c ∈ [a, b], c.isDigit = true := fun c hc => Str.isDigit_of_mem_padded (hab ▸ hc)
  refine ⟨a, b, hpad.trans hab, hdigit a (by simp), hdigit b (by simp), ?_⟩
  rw [← hab, Str.ofDigitChars_padded]
  omega

/-- A year of four digits. -/
theorem exists_paddedInt_four {k : ℤ} (h0 : 0 ≤ k) (h1 : k ≤ 9999) :
    ∃ a b c d, paddedInt 4 k = [a, b, c, d] ∧ (∀ e ∈ [a, b, c, d], e.isDigit = true) ∧
      (Nat.ofDigitChars 10 [a, b, c, d] 0 : ℕ) = k := by
  have hpad : paddedInt 4 k = Str.padded 4 k.natAbs := if_neg (by omega)
  have hlen : (Str.padded 4 k.natAbs).length = 4 := Str.length_padded (by decide) (by omega)
  obtain ⟨a, b, c, d, habcd⟩ : ∃ a b c d, Str.padded 4 k.natAbs = [a, b, c, d] := by
    match Str.padded 4 k.natAbs, hlen with
    | [a, b, c, d], _ => exact ⟨a, b, c, d, rfl⟩
  refine ⟨a, b, c, d, hpad.trans habcd, fun e he => Str.isDigit_of_mem_padded (habcd ▸ he), ?_⟩
  rw [← habcd, Str.ofDigitChars_padded]
  omega

/-- Zeros that were cut off the end can be put back. -/
theorem rdropWhile_zeros (s : Str) :
    s.rdropWhile (· == '0') ++ List.replicate (s.length - (s.rdropWhile (· == '0')).length) '0' = s := by
  have hsplit : s.rdropWhile (· == '0') ++ s.rtakeWhile (· == '0') = s := by
    rw [List.rdropWhile, List.rtakeWhile, ← List.reverse_append, List.takeWhile_append_dropWhile, List.reverse_reverse]
  have hzeros : s.rtakeWhile (· == '0') = List.replicate (s.rtakeWhile (· == '0')).length '0' :=
    List.eq_replicate_of_mem fun c hc => by simpa using List.mem_rtakeWhile_imp hc
  have hlen := congrArg List.length hsplit
  rw [List.length_append] at hlen
  rw [← hlen, Nat.add_sub_cancel_left, ← hzeros, hsplit]

/-- The nanoseconds are read back, and nothing is left behind the `Z`. -/
theorem parseFraction_format {front : Str} (hfront : front.length = 19) {nanos : ℕ} (hn : nanos < 10 ^ 9) :
    ∃ idx, parseFraction (front ++ formatFraction nanos) = some (nanos, idx) ∧
      parseOffset (front ++ formatFraction nanos) idx = some (0, idx + 1) ∧
      idx + 1 = (front ++ formatFraction nanos).length := by
  by_cases hz : nanos = 0
  · subst hz
    refine ⟨19, ?_, ?_, by simp [formatFraction, hfront]⟩
    · simp [parseFraction, formatFraction, hfront]
    · simp [parseOffset, formatFraction, hfront]
  · set frac := (Str.padded 9 nanos).rdropWhile (· == '0') with hfrac
    have hlen9 : (Str.padded 9 nanos).length = 9 := Str.length_padded (by decide) hn
    have hpre : frac <+: Str.padded 9 nanos := List.rdropWhile_prefix _ _
    have hle : frac.length ≤ 9 := hlen9 ▸ hpre.length_le
    have hback : frac ++ List.replicate (9 - frac.length) '0' = Str.padded 9 nanos := by
      have := rdropWhile_zeros (Str.padded 9 nanos)
      rwa [hlen9, ← hfrac] at this
    have hne : frac ≠ [] := by
      intro hnil
      rw [hnil] at hback
      have := Str.ofDigitChars_padded 9 nanos
      rw [← hback] at this
      exact hz (this ▸ by decide)
    have htext : front ++ formatFraction nanos = front ++ '.' :: (frac ++ ['Z']) := by
      rw [formatFraction, if_neg hz]
    have hdot : (front ++ '.' :: (frac ++ ['Z']))[19]? = some '.' := by
      rw [List.getElem?_append_right (by omega), hfront]
      rfl
    have hdrop : (front ++ '.' :: (frac ++ ['Z'])).drop 20 = frac ++ ['Z'] := by
      have : front ++ '.' :: (frac ++ ['Z']) = (front ++ ['.']) ++ (frac ++ ['Z']) := by simp
      rw [this, List.drop_left' (by simp [hfront])]
    have htake : (frac ++ ['Z']).takeWhile Char.isDigit = frac := by
      rw [List.takeWhile_append_of_pos fun c hc => Str.isDigit_of_mem_padded (hpre.subset hc)]
      simp [Char.isDigit]
    have hz' : (front ++ '.' :: (frac ++ ['Z']))[20 + frac.length]? = some 'Z' := by
      have : front ++ '.' :: (frac ++ ['Z']) = (front ++ '.' :: frac) ++ ['Z'] := by simp
      have hl : 20 + frac.length = (front ++ '.' :: frac).length := by
        simp [hfront]
        omega
      rw [this, hl, List.getElem?_concat_length]
    rw [htext]
    refine ⟨20 + frac.length, ?_, ?_, by simp [hfront]; omega⟩
    · have hparse : Str.parseUInt 32 (Str.padded 9 nanos) = some nanos := Str.parseUInt_padded (by omega)
      simp only [parseFraction, hdot, hdrop, htake, true_or, if_true, if_neg hne, List.take_of_length_le hle, hback,
        hparse, Option.map_some]
    · simp [parseOffset, hz']

/-- **A timestamp whose year has four digits is read back from its text.** -/
theorem parse_format {ts : Timestamp} (hyear : 0 ≤ ts.year ∧ ts.year ≤ 9999) (hnanos : ts.nanos < 10 ^ 9) :
    parseIso8601Timestamp (formatIso8601Timestamp ts) = some ts := by
  obtain ⟨hdays, ⟨hm1, hm12⟩, hd1, hd31⟩ := daysFromCivil_civilFromDays (ts.unixSeconds / 86400)
  rw [year] at hyear
  unfold formatIso8601Timestamp
  obtain ⟨⟨y, m, d⟩, hcivil⟩ : ∃ date, civilFromDays (ts.unixSeconds / 86400) = date := ⟨_, rfl⟩
  rw [hcivil] at hdays hm1 hm12 hd1 hd31 hyear ⊢
  dsimp only at hdays hm1 hm12 hd1 hd31 hyear ⊢
  obtain ⟨sod, hsod⟩ : ∃ sod, ts.unixSeconds % 86400 = sod := ⟨_, rfl⟩
  have hhour : sod.tdiv 3600 = sod / 3600 := Int.tdiv_eq_ediv_of_nonneg (by omega)
  have hmod : sod.tmod 3600 = sod % 3600 := Int.tmod_eq_emod_of_nonneg (by omega)
  have hmin : (sod % 3600).tdiv 60 = sod % 3600 / 60 := Int.tdiv_eq_ediv_of_nonneg (by omega)
  have hsec : sod.tmod 60 = sod % 60 := Int.tmod_eq_emod_of_nonneg (by omega)
  rw [hsod, hhour, hmod, hmin, hsec]
  obtain ⟨y1, y2, y3, y4, hy, hyd, hyv⟩ := exists_paddedInt_four hyear.1 hyear.2
  obtain ⟨m1, m2, hm, hmd1, hmd2, hmv⟩ := exists_paddedInt_two (k := m) (by omega) (by omega)
  obtain ⟨d1, d2, hd, hdd1, hdd2, hdv⟩ := exists_paddedInt_two (k := d) (by omega) (by omega)
  obtain ⟨h1, h2, hh, hhd1, hhd2, hhv⟩ := exists_paddedInt_two (k := sod / 3600) (by omega) (by omega)
  obtain ⟨n1, n2, hn, hnd1, hnd2, hnv⟩ := exists_paddedInt_two (k := sod % 3600 / 60) (by omega) (by omega)
  obtain ⟨s1, s2, hs, hsd1, hsd2, hsv⟩ := exists_paddedInt_two (k := sod % 60) (by omega) (by omega)
  have htext : paddedInt 4 y ++ ('-' :: (paddedInt 2 m ++ ('-' :: (paddedInt 2 d ++ ('T' :: (paddedInt 2 (sod / 3600) ++
      (':' :: (paddedInt 2 (sod % 3600 / 60) ++ (':' :: (paddedInt 2 (sod % 60) ++ formatFraction ts.nanos)))))))))) =
      [y1, y2, y3, y4, '-', m1, m2, '-', d1, d2, 'T', h1, h2, ':', n1, n2, ':', s1, s2] ++ formatFraction ts.nanos := by
    simp [hy, hm, hd, hh, hn, hs]
  rw [htext]
  obtain ⟨idx, hfrac, hoff, hidx⟩ := @parseFraction_format
    [y1, y2, y3, y4, '-', m1, m2, '-', d1, d2, 'T', h1, h2, ':', n1, n2, ':', s1, s2] rfl _ hnanos
  set raw := [y1, y2, y3, y4, '-', m1, m2, '-', d1, d2, 'T', h1, h2, ':', n1, n2, ':', s1, s2] ++
    formatFraction ts.nanos with hraw
  have hlen : 19 ≤ raw.length := by
    rw [hraw, List.length_append]
    simp
  have hyear4 : fourAt raw 0 = some y := hyv ▸ fourAt_eq rfl rfl rfl rfl hyd
  have hmonth2 : twoAt raw 5 = some m := hmv ▸ twoAt_eq rfl rfl hmd1 hmd2
  have hday2 : twoAt raw 8 = some d := hdv ▸ twoAt_eq rfl rfl hdd1 hdd2
  have hhour2 : twoAt raw 11 = some (sod / 3600) := hhv ▸ twoAt_eq rfl rfl hhd1 hhd2
  have hmin2 : twoAt raw 14 = some (sod % 3600 / 60) := hnv ▸ twoAt_eq rfl rfl hnd1 hnd2
  have hsec2 : twoAt raw 17 = some (sod % 60) := hsv ▸ twoAt_eq rfl rfl hsd1 hsd2
  have hseps : raw[4]? = some '-' ∧ raw[7]? = some '-' ∧ raw[10]? = some 'T' ∧ raw[13]? = some ':' ∧
      raw[16]? = some ':' := ⟨rfl, rfl, rfl, rfl, rfl⟩
  have hranges : 1 ≤ m ∧ m ≤ 12 ∧ 1 ≤ d ∧ d ≤ 31 ∧ 0 ≤ sod / 3600 ∧ sod / 3600 ≤ 23 ∧ 0 ≤ sod % 3600 / 60 ∧
      sod % 3600 / 60 ≤ 59 ∧ 0 ≤ sod % 60 ∧ sod % 60 ≤ 60 := by omega
  have hseconds : daysFromCivil y m d * 86400 + sod / 3600 * 3600 + sod % 3600 / 60 * 60 + sod % 60 =
      ts.unixSeconds := by
    rw [hdays]
    omega
  simp only [parseIso8601Timestamp, guard, hlen, hyear4, hmonth2, hday2, hhour2, hmin2, hsec2, hseps, hranges, hfrac,
    hoff, hidx, hseconds, if_true, true_or, and_self, Option.bind_eq_bind, Option.pure_def, Option.bind_some, sub_zero]

/-- The nanoseconds that are read are less than a second. -/
theorem nanos_lt_of_parseFraction {raw : Str} {nanos idx : ℕ} (h : parseFraction raw = some (nanos, idx)) :
    nanos < 10 ^ 9 := by
  unfold parseFraction at h
  dsimp only at h
  split_ifs at h
  · simp only [Option.map_eq_some_iff, Prod.mk.injEq] at h
    obtain ⟨n, hn, rfl, -⟩ := h
    have hlen := Str.length_ofNat_le hn
    rw [List.length_append, List.length_replicate, List.length_take] at hlen
    exact (Nat.length_toDigits_le_iff (by decide) (by decide)).mp (hlen.trans (by omega))
  · obtain ⟨rfl, -⟩ := Prod.mk.inj (Option.some.inj h)
    decide

theorem nanos_lt_of_parse {raw : Str} {ts : Timestamp} (h : parseIso8601Timestamp raw = some ts) :
    ts.nanos < 10 ^ 9 := by
  simp only [parseIso8601Timestamp, Option.bind_eq_bind, Option.bind_eq_some_iff, Option.pure_def,
    Option.some.injEq] at h
  obtain ⟨-, -, year, -, -, -, month, -, -, -, day, -, -, -, hour, -, -, -, minute, -, -, -, second, -, -, -,
    ⟨nanos, idx⟩, hfrac, ⟨offset, idx'⟩, -, -, -, rfl⟩ := h
  exact nanos_lt_of_parseFraction hfrac

theorem parse_eq_none_of_front {raw : Str} (h : fourAt raw 0 = none ∨ raw[4]? ≠ some '-') :
    parseIso8601Timestamp raw = none := by
  rw [parseIso8601Timestamp, Option.bind_eq_bind, Option.bind_eq_none_iff]
  intro _ _
  rw [Option.bind_eq_bind, Option.bind_eq_none_iff]
  intro year hfour
  rcases h with h | h
  · rw [h] at hfour
    exact absurd hfour (by simp)
  · rw [Option.bind_eq_bind, guard, if_neg h]
    rfl

/-- **A timestamp whose year does not have four digits is not read back.** -/
theorem parse_format_of_year {ts : Timestamp} (hyear : ts.year < 0 ∨ 9999 < ts.year) :
    parseIso8601Timestamp (formatIso8601Timestamp ts) = none := by
  apply parse_eq_none_of_front
  unfold formatIso8601Timestamp
  rw [year] at hyear
  obtain ⟨⟨y, m, d⟩, hcivil⟩ : ∃ date, civilFromDays (ts.unixSeconds / 86400) = date := ⟨_, rfl⟩
  rw [hcivil] at hyear ⊢
  dsimp only at hyear ⊢
  rcases hyear with hneg | hbig
  · left
    have hpad : paddedInt 4 y = '-' :: Str.padded 3 y.natAbs := if_pos hneg
    rw [hpad, fourAt, digitAt]
    rfl
  · right
    have hpad : paddedInt 4 y = Str.padded 4 y.natAbs := if_neg (by omega)
    have hlen : 4 < (Str.ofNat y.natAbs).length := by
      by_contra hle
      have := (Nat.length_toDigits_le_iff (b := 10) (n := y.natAbs) (k := 4) (by decide) (by decide)).mp (by
        rw [Str.ofNat] at hle
        omega)
      omega
    have hlen4 : 4 < (Str.padded 4 y.natAbs).length := by
      rw [Str.padded, List.length_append]
      omega
    rw [hpad, List.getElem?_append_left hlen4, List.getElem?_eq_getElem hlen4]
    intro hdash
    have hmem := List.getElem_mem hlen4
    rw [Option.some.inj hdash] at hmem
    exact absurd (Str.isDigit_of_mem_padded hmem) (by decide)

end Timestamp

end Milpa

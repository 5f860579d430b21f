/-
# Timestamps and dates

`YMDFromTimestamp` and `TimestampFromYMD` of `src/Time.cpp`.  The first estimates the
year as `1970 + (days - 370) / 366`, takes off the days of the years before the
estimate and then walks on year by year and month by month; the second adds the days
of the years and months up.

The estimate is never late and at most three years early, so that both loops end and
the array of months is read inside its bounds.  The two functions are the number of a
date of `Lib.Calendar` and its inverse (`timestampFromYMD_spec`,
`ymdFromTimestamp_spec`); all of `ymdFromTimestamp_exact` follows from that.

Divisions are those of C, which round towards zero; a loop has the number of its turns
as fuel.
-/

import ICon7.Lib.Calendar

namespace ICon7
namespace Time

open Lib

/-- Nanoseconds since 1970. -/
structure Timestamp where
  ns : ℤ
deriving DecidableEq, Repr

structure YMD where
  year : ℤ
  month : ℤ
  day : ℤ
deriving DecidableEq, Repr

def isLeapYear (year : ℤ) : Bool :=
  (year.tmod 4 == 0 && year.tmod 100 != 0) || year.tmod 400 == 0

def leapYearsBefore (year : ℤ) : ℤ := year.tdiv 4 - year.tdiv 100 + year.tdiv 400

/-- `24ll * 3600ll * 1000ll * 1000ll * 1000ll`. -/
def dayNs : ℤ := 24 * 3600 * 1000 * 1000 * 1000

/-- The array `daysPerMonth`, with `feb` by the leap year. -/
def daysPerMonth (leap : Bool) : List ℤ :=
  [31, if leap then 29 else 28, 31, 30, 31, 30, 31, 31, 30, 31, 30, 31]

/-- The loop of `YMDFromTimestamp` over the years. -/
def yearLoop (fuel : ℕ) (year days : ℤ) : Option (ℤ × ℤ) :=
  locate (fun year => some (if isLeapYear year then 366 else 365)) fuel year days

/-- The loop of `YMDFromTimestamp` over the months, which reads `daysPerMonth[month]`. -/
def monthLoop (leap : Bool) (fuel : ℕ) (month days : ℤ) : Option (ℤ × ℤ) :=
  locate (fun month => if 0 ≤ month then (daysPerMonth leap)[month.toNat]? else none) fuel month days

def ymdFromTimestamp (fuel : ℕ) (timestamp : Timestamp) : Option YMD := do
  let days := timestamp.ns.tdiv dayNs
  let year := 1970 + (days - 370).tdiv 366
  let leapYears := leapYearsBefore (year - 1) - leapYearsBefore 1970
  let days := days - ((year - 1970) * 365 + leapYears)
  let (year, days) ← yearLoop fuel year days
  let (month, days) ← monthLoop (isLeapYear year) fuel 0 days
  return ⟨year, month + 1, days + 1⟩

/-- The loop of `TimestampFromYMD` over the months. -/
def addMonths (leap : Bool) (month days : ℤ) : Option ℤ :=
  (List.range month.toNat).foldlM (fun days i => do
    let length ← (daysPerMonth leap)[i]?
    return days + length) days

def timestampFromYMD (ymd : YMD) : Option Timestamp := do
  let leapYears := leapYearsBefore (ymd.year - 1) - leapYearsBefore 1970
  let days := (ymd.year - 1970) * 365 + ymd.day - 1 + leapYears
  let days ← addMonths (isLeapYear ymd.year) (ymd.month - 1) days
  return ⟨days * 24 * 3600 * 1000 * 1000 * 1000⟩

/-- A date as the code has it. -/
def YMD.ofDate (d : Date) : YMD := ⟨d.year, d.month, d.day⟩

/-- 1970-01-01. -/
def epoch : Date := Date.newYear 1970

/-- 2262-04-11, the last day that begins before `2 ^ 63` nanoseconds. -/
def lastDate : Date := ⟨2262, 4, 11, by decide, by decide, by decide, by decide⟩

theorem dayNumber_epoch : epoch.dayNumber = yearStart 1970 := by decide

theorem dayNumber_lastDate : lastDate.dayNumber = epoch.dayNumber + 106751 := by decide

variable {year : ℤ}

theorem isLeapYear_eq (year : ℤ) : isLeapYear year = decide (IsLeap year) := by
  have h4 : (year.tmod 4 = 0) ↔ 4 ∣ year := Int.dvd_iff_tmod_eq_zero.symm
  have h100 : (year.tmod 100 = 0) ↔ 100 ∣ year := Int.dvd_iff_tmod_eq_zero.symm
  have h400 : (year.tmod 400 = 0) ↔ 400 ∣ year := Int.dvd_iff_tmod_eq_zero.symm
  rw [Bool.eq_iff_iff, decide_eq_true_iff]
  simp only [isLeapYear, IsLeap, Bool.or_eq_true, Bool.and_eq_true, beq_iff_eq, bne_iff_ne, ne_eq, h4, h100, h400]
  omega

/-- The days of the whole years since 1970, as both functions count them. -/
theorem yearDays_eq (hyear : 1 ≤ year) :
    (year - 1970) * 365 + (leapYearsBefore (year - 1) - leapYearsBefore 1970) =
      yearStart year - yearStart 1970 := by
  have hpos : 0 ≤ year - 1 := by omega
  have hbefore : leapYearsBefore 1970 = 477 := rfl
  rw [hbefore]
  simp only [leapYearsBefore, yearStart, Int.tdiv_eq_ediv_of_nonneg hpos]
  omega

theorem daysPerMonth_get {i : ℕ} (hi : i < 12) :
    (daysPerMonth (isLeapYear year))[i]? = some (monthLength year (i + 1)) := by
  rw [isLeapYear_eq]
  by_cases hleap : IsLeap year
  · interval_cases i <;> simp [daysPerMonth, monthLength, hleap]
  · interval_cases i <;> simp [daysPerMonth, monthLength, hleap]

theorem daysPerMonth_part {n : ℤ} (h0 : 0 ≤ n) (hn : n < 12) :
    (if 0 ≤ n then (daysPerMonth (isLeapYear year))[n.toNat]? else none) = some (monthLength year (n + 1)) := by
  rw [if_pos h0, daysPerMonth_get (by omega), Int.toNat_of_nonneg h0]

theorem yearLength_eq (year : ℤ) : (if isLeapYear year then 366 else 365) = yearLength year := by
  rw [isLeapYear_eq, yearLength]
  by_cases hleap : IsLeap year <;> simp [hleap]

/-- **The loop over the years** ends in the year of the day. -/
theorem yearLoop_spec {days : ℤ} {fuel : ℕ} (hfuel : 4 ≤ fuel) (hdays : 0 ≤ days)
    (hend : yearStart year + days < yearStart (year + 4)) :
    ∃ y e, yearLoop fuel year days = some (y, e) ∧ year ≤ y ∧ Inside yearLength y e ∧
      yearStart y + e = yearStart year + days := by
  obtain ⟨y, e, hrun, hy, -, hin, hplace⟩ := (yearBlocks year).locate_spec
    (fun year => some (if isLeapYear year then 366 else 365)) fuel year (year + 4)
    (fun y _ _ => by rw [yearLength_eq]) le_rfl (by omega) (by omega) hdays hend
  exact ⟨y, e, hrun, hy, hin, hplace⟩

/-- **The loop over the months** ends in the month of the day. -/
theorem monthLoop_spec {days : ℤ} {fuel : ℕ} (hfuel : 12 ≤ fuel) (hdays : Inside yearLength year days) :
    ∃ d : Date, d.year = year ∧ d.dayOfYear = days ∧
      monthLoop (isLeapYear year) fuel 0 days = some (d.month - 1, d.day - 1) := by
  have hend : monthStart year (0 + 1) + days < monthStart year (12 + 1) := by
    rw [show (12 : ℤ) + 1 = 13 from rfl, monthStart_thirteen, zero_add, monthStart_one, zero_add]
    exact hdays.2
  obtain ⟨m, e, hrun, hm, hm12, hin, hplace⟩ := ((monthBlocks year).shift 1).locate_spec
    (fun month => if 0 ≤ month then (daysPerMonth (isLeapYear year))[month.toNat]? else none) fuel 0 12
    (fun n h0 hn => daysPerMonth_part h0 hn) le_rfl (by decide) (by omega) hdays.1 hend
  rw [zero_add, monthStart_one, zero_add] at hplace
  refine ⟨⟨year, m + 1, e + 1, by omega, by omega, ?_, ?_⟩, rfl, ?_, ?_⟩
  · exact Int.le_add_of_nonneg_left hin.1
  · exact Int.add_one_le_of_lt hin.2
  · simp only [Date.dayOfYear, add_sub_cancel_right]
    exact hplace
  · simp only [add_sub_cancel_right]
    exact hrun

/-- **The estimate of the year** is not late and at most three years early. -/
theorem estimate_spec {days : ℤ} (h0 : 0 ≤ days) (hmax : days ≤ 106751) :
    1 ≤ 1970 + (days - 370).tdiv 366 ∧
    yearStart (1970 + (days - 370).tdiv 366) ≤ yearStart 1970 + days ∧
    yearStart 1970 + days < yearStart (1970 + (days - 370).tdiv 366 + 4) := by
  have hdiv := Int.mul_tdiv_add_tmod (days - 370) 366
  have hlow := Int.lt_tmod_of_pos (days - 370) (show (0 : ℤ) < 366 by decide)
  have hhigh := Int.tmod_lt_of_pos (days - 370) (show (0 : ℤ) < 366 by decide)
  generalize (days - 370).tdiv 366 = q at *
  unfold yearStart
  omega

/-- **`YMDFromTimestamp`** finds the date of the day. -/
theorem ymdFromTimestamp_spec {fuel : ℕ} (hfuel : 12 ≤ fuel) {ns : ℤ} (h0 : 0 ≤ ns) (hmax : ns < 2 ^ 63) :
    ∃ d : Date, ymdFromTimestamp fuel ⟨ns⟩ = some (YMD.ofDate d) ∧ epoch ≤ d ∧ d ≤ lastDate ∧
      d.dayNumber = epoch.dayNumber + ns / dayNs := by
  have hdays : ns.tdiv dayNs = ns / dayNs := Int.tdiv_eq_ediv_of_nonneg h0
  obtain ⟨days, hday⟩ : ∃ days, ns / dayNs = days := ⟨_, rfl⟩
  have hpos : 0 ≤ days := hday ▸ Int.ediv_nonneg h0 (by decide)
  have hle : days ≤ 106751 := by
    unfold dayNs at hday
    omega
  obtain ⟨hyear, hstart, hend⟩ := estimate_spec hpos hle
  have htake := yearDays_eq hyear
  set estimate := 1970 + (days - 370).tdiv 366 with hestimate
  have hrest : 0 ≤ days - (yearStart estimate - yearStart 1970) := by omega
  have hfour : yearStart estimate + (days - (yearStart estimate - yearStart 1970)) < yearStart (estimate + 4) := by
    omega
  obtain ⟨year, rest, hrun, -, hin, hplace⟩ :=
    yearLoop_spec (show 4 ≤ fuel by omega) hrest hfour
  obtain ⟨d, rfl, rfl, hmonth⟩ := monthLoop_spec hfuel hin
  have hnum : d.dayNumber = epoch.dayNumber + days := by
    rw [dayNumber_epoch]
    unfold Date.dayNumber
    omega
  refine ⟨d, ?_, Date.dayNumber_le_iff.mp (by omega), Date.dayNumber_le_iff.mp ?_, by rw [hday, hnum]⟩
  · simp only [ymdFromTimestamp, hdays, hday, ← hestimate, htake, hrun, hmonth, Option.bind_eq_bind,
      Option.bind_some, Option.pure_def, sub_add_cancel]
    rfl
  · rw [dayNumber_lastDate]
    omega

/-- **The loop over the months** of `TimestampFromYMD` adds up their lengths. -/
theorem addMonths_spec (year : ℤ) {month : ℤ} (hmonth : month ≤ 12) (days : ℤ) :
    addMonths (isLeapYear year) month days = some (days + monthStart year (month + 1)) := by
  obtain ⟨k, hk⟩ : ∃ k, month.toNat = k := ⟨_, rfl⟩
  have hle : k ≤ 12 := by omega
  rw [addMonths, monthStart, add_sub_cancel_right, hk]
  clear hk
  induction k with
  | zero => simp
  | succ k ih =>
    rw [List.range_succ, List.foldlM_append, ih (by omega), Finset.sum_range_succ, Option.bind_eq_bind,
      Option.bind_some]
    simp [daysPerMonth_get (show k < 12 by omega), add_assoc]

/-- **`TimestampFromYMD`** is the number of the date. -/
theorem timestampFromYMD_spec {d : Date} (hd : 1 ≤ d.year) :
    timestampFromYMD (YMD.ofDate d) = some ⟨(d.dayNumber - epoch.dayNumber) * dayNs⟩ := by
  have hyear := yearDays_eq hd
  have hmonth := addMonths_spec d.year (Int.le_of_lt (Int.sub_one_lt_of_le d.month_le))
  rw [dayNumber_epoch]
  simp only [timestampFromYMD, YMD.ofDate, hmonth, Option.bind_eq_bind, Option.bind_some, Option.pure_def,
    Option.some.injEq, Timestamp.mk.injEq, sub_add_cancel, dayNs, Date.dayNumber, Date.dayOfYear]
  omega

theorem one_le_year {d : Date} (hd : epoch ≤ d) : 1 ≤ d.year :=
  (by decide : 1 ≤ epoch.year).trans (Date.year_le_of_le hd)

/-- The dates with a timestamp, and their timestamps. -/
theorem midnight_spec {d : Date} (hfirst : epoch ≤ d) (hlast : d ≤ lastDate) :
    ∃ days : ℤ, timestampFromYMD (YMD.ofDate d) = some ⟨days * dayNs⟩ ∧
      d.dayNumber = epoch.dayNumber + days ∧ 0 ≤ days ∧ days ≤ 106751 := by
  have hlow := Date.dayNumber_le_iff.mpr hfirst
  have hhigh := Date.dayNumber_le_iff.mpr hlast
  have hspan := dayNumber_lastDate
  exact ⟨_, timestampFromYMD_spec (one_le_year hfirst), by omega, by omega, by omega⟩

/-- **Calendar conversion is exact.**  Every timestamp has the date that many days after
1970-01-01, and is inside its day; a date has the timestamp of which it is the date, and later
dates have later ones. -/
theorem ymdFromTimestamp_exact {fuel : ℕ} (hfuel : 12 ≤ fuel) :
    (∀ ns : ℤ, 0 ≤ ns → ns < 2 ^ 63 → ∃ (d : Date) (midnight : Timestamp),
      ymdFromTimestamp fuel ⟨ns⟩ = some (YMD.ofDate d) ∧ d = Date.next^[(ns / dayNs).toNat] epoch ∧
      timestampFromYMD (YMD.ofDate d) = some midnight ∧
      midnight.ns ≤ ns ∧ ns < midnight.ns + 86400 * 10 ^ 9) ∧
    (∀ d : Date, epoch ≤ d → d ≤ lastDate → ∃ midnight : Timestamp,
      timestampFromYMD (YMD.ofDate d) = some midnight ∧ 0 ≤ midnight.ns ∧ midnight.ns < 2 ^ 63 ∧
      ymdFromTimestamp fuel midnight = some (YMD.ofDate d)) ∧
    (∀ a b : Date, epoch ≤ a → a < b → b ≤ lastDate → ∃ s t : Timestamp,
      timestampFromYMD (YMD.ofDate a) = some s ∧ timestampFromYMD (YMD.ofDate b) = some t ∧ s.ns < t.ns) := by
  refine ⟨fun ns h0 hmax => ?_, fun d hfirst hlast => ?_, fun a b hfirst hlt hlast => ?_⟩
  · obtain ⟨d, hrun, hfirst, -, hnum⟩ := ymdFromTimestamp_spec hfuel h0 hmax
    have hdays : 0 ≤ ns / dayNs := Int.ediv_nonneg h0 (by decide)
    have hnext : d = Date.next^[(ns / dayNs).toNat] epoch := by
      apply Date.dayNumber_injective
      rw [Date.dayNumber_iterate_next, hnum, Int.toNat_of_nonneg hdays]
    refine ⟨d, _, hrun, hnext, timestampFromYMD_spec (one_le_year hfirst), ?_, ?_⟩
    · rw [hnum, add_sub_cancel_left]
      exact Int.ediv_mul_le ns (by decide)
    · show ns < (d.dayNumber - epoch.dayNumber) * dayNs + 86400 * 10 ^ 9
      rw [hnum, add_sub_cancel_left, dayNs]
      omega
  · obtain ⟨days, hmid, hnum, hlow, hhigh⟩ := midnight_spec hfirst hlast
    have h0 : 0 ≤ days * dayNs := by unfold dayNs; omega
    have hmax : days * dayNs < 2 ^ 63 := by unfold dayNs; omega
    refine ⟨_, hmid, h0, hmax, ?_⟩
    obtain ⟨d', hrun, -, -, hnum'⟩ := ymdFromTimestamp_spec hfuel h0 hmax
    rw [Int.mul_ediv_cancel days (by decide), ← hnum] at hnum'
    rw [hrun, Date.dayNumber_injective hnum']
  · have hnum := Date.dayNumber_lt hlt
    have hlow := Date.dayNumber_le_iff.mpr hfirst
    have hhigh := Date.dayNumber_le_iff.mpr hlast
    obtain ⟨m, hm, hma, -⟩ := midnight_spec hfirst (Date.dayNumber_le_iff.mp (hnum.le.trans hhigh))
    obtain ⟨n, hn, hnb, -⟩ := midnight_spec (Date.dayNumber_le_iff.mp (hlow.trans hnum.le)) hlast
    refine ⟨_, _, hm, hn, ?_⟩
    exact mul_lt_mul_of_pos_right (by omega) (by decide)

/-- The days around the first leap day of a leap century. -/
theorem ymdFromTimestamp_exact_2000 :
    (∃ (d : Date) (midnight : Timestamp), ymdFromTimestamp 12 ⟨951825600000000001⟩ = some (YMD.ofDate d) ∧
      d = Date.next^[(951825600000000001 / dayNs).toNat] epoch ∧
      timestampFromYMD (YMD.ofDate d) = some midnight ∧ midnight.ns ≤ 951825600000000001 ∧
      951825600000000001 < midnight.ns + 86400 * 10 ^ 9) ∧
    ymdFromTimestamp 12 ⟨951825600000000001⟩ = some ⟨2000, 2, 29⟩ := by
  exact ⟨(ymdFromTimestamp_exact le_rfl).1 951825600000000001 (by decide) (by decide), by decide⟩

end Time
end ICon7

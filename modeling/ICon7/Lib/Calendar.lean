/-
# The Gregorian calendar

A date carries the proof that its month and its day exist.  The day after a date is
`Date.next`; counting the days (`Date.dayNumber`) turns it into adding one
(`dayNumber_next`) and the order of dates into that of integers
(`dayNumber_lt_iff`).  Years and months are blocks of days, one after the other.
-/

import ICon7.Lib.Blocks

namespace ICon7
namespace Lib

/-- Every fourth year, of the centuries every fourth. -/
def IsLeap (y : ℤ) : Prop := 4 ∣ y ∧ (¬100 ∣ y ∨ 400 ∣ y)

instance (y : ℤ) : Decidable (IsLeap y) := inferInstanceAs (Decidable (4 ∣ y ∧ (¬100 ∣ y ∨ 400 ∣ y)))

def yearLength (y : ℤ) : ℤ := if IsLeap y then 366 else 365

def monthLength (y m : ℤ) : ℤ :=
  if m = 2 then (if IsLeap y then 29 else 28)
  else if m = 4 ∨ m = 6 ∨ m = 9 ∨ m = 11 then 30
  else 31

/-- A date that exists. -/
@[ext]
structure Date where
  year : ℤ
  month : ℤ
  day : ℤ
  one_le_month : 1 ≤ month
  month_le : month ≤ 12
  one_le_day : 1 ≤ day
  day_le : day ≤ monthLength year month
deriving DecidableEq

namespace Date

/-- The calendar order. -/
instance : LT Date where
  lt a b := a.year < b.year ∨ a.year = b.year ∧ (a.month < b.month ∨ a.month = b.month ∧ a.day < b.day)

instance : LE Date := ⟨fun a b => a = b ∨ a < b⟩

theorem lt_def {a b : Date} : a < b ↔
    a.year < b.year ∨ a.year = b.year ∧ (a.month < b.month ∨ a.month = b.month ∧ a.day < b.day) := Iff.rfl

end Date

/-- The days of the years before, with the leap years counted up from year `1`. -/
def yearStart (y : ℤ) : ℤ := 365 * y + ((y - 1) / 4 - (y - 1) / 100 + (y - 1) / 400)

/-- The days of the months before, in the year. -/
def monthStart (y m : ℤ) : ℤ := ∑ i ∈ Finset.range (m - 1).toNat, monthLength y (i + 1)

theorem le_monthLength (y m : ℤ) : 28 ≤ monthLength y m := by
  unfold monthLength
  split_ifs <;> omega

theorem monthLength_le (y m : ℤ) : monthLength y m ≤ 31 := by
  unfold monthLength
  split_ifs <;> omega

theorem yearBlocks (lo : ℤ) : Blocks lo yearStart yearLength where
  next y _ := by
    unfold yearStart yearLength IsLeap
    split_ifs <;> omega
  len_nonneg y _ := by
    unfold yearLength
    split_ifs <;> omega

theorem monthBlocks (y : ℤ) : Blocks 1 (monthStart y) (monthLength y) where
  next m hm := by
    obtain ⟨k, rfl⟩ : ∃ k : ℕ, m = k + 1 := ⟨(m - 1).toNat, by omega⟩
    have hk : ((k : ℤ) + 1 + 1 - 1).toNat = k + 1 := by omega
    have hk' : ((k : ℤ) + 1 - 1).toNat = k := by omega
    rw [monthStart, monthStart, hk, hk', Finset.sum_range_succ]
  len_nonneg m _ := by
    have := le_monthLength y m
    omega

@[simp] theorem monthStart_one (y : ℤ) : monthStart y 1 = 0 := rfl

/-- The months make up the year. -/
theorem monthStart_thirteen (y : ℤ) : monthStart y 13 = yearLength y := by
  have hrange : (13 - 1 : ℤ).toNat = 12 := rfl
  simp only [monthStart, hrange, Finset.sum_range_succ, Finset.sum_range_zero, monthLength, yearLength]
  by_cases hleap : IsLeap y <;> simp [hleap]

namespace Date

variable {a b : Date}

/-- The offset of a date in its year. -/
def dayOfYear (d : Date) : ℤ := monthStart d.year d.month + (d.day - 1)

/-- The number of a date: one more for every day. -/
def dayNumber (d : Date) : ℤ := yearStart d.year + d.dayOfYear

theorem day_inside (d : Date) : Inside (monthLength d.year) d.month (d.day - 1) :=
  ⟨Int.sub_nonneg_of_le d.one_le_day, Int.sub_one_lt_of_le d.day_le⟩

theorem dayOfYear_inside (d : Date) : Inside yearLength d.year d.dayOfYear := by
  have hstart := (monthBlocks d.year).start_le le_rfl d.one_le_month
  have hend := (monthBlocks d.year).add_lt_add d.one_le_month (Int.lt_add_one_of_le d.month_le) d.day_inside.2 le_rfl
  have hday := d.day_inside.1
  rw [monthStart_one] at hstart
  rw [show (12 : ℤ) + 1 = 13 from rfl, monthStart_thirteen] at hend
  constructor
  · unfold dayOfYear
    omega
  · unfold dayOfYear
    omega

/-- **Later dates have larger numbers.** -/
theorem dayNumber_lt (hlt : a < b) : a.dayNumber < b.dayNumber := by
  rcases lt_def.mp hlt with hy | ⟨hy, hm | ⟨hm, hd⟩⟩
  · exact (yearBlocks a.year).add_lt_add le_rfl hy a.dayOfYear_inside.2 b.dayOfYear_inside.1
  · have hlt := (monthBlocks a.year).add_lt_add a.one_le_month hm a.day_inside.2 b.day_inside.1
    simp only [dayNumber, dayOfYear, ← hy]
    omega
  · simp only [dayNumber, dayOfYear, ← hy, ← hm]
    omega

theorem year_le_of_le (hle : a ≤ b) : a.year ≤ b.year := by
  rcases hle with rfl | hlt
  · exact le_rfl
  · rcases lt_def.mp hlt with hy | ⟨hy, -⟩
    · exact hy.le
    · exact hy.le

theorem lt_trichotomy (a b : Date) : a < b ∨ a = b ∨ b < a := by
  simp only [lt_def, Date.ext_iff]
  omega

/-- **The numbers have the order of the dates.** -/
theorem dayNumber_lt_iff : a.dayNumber < b.dayNumber ↔ a < b := by
  refine ⟨fun hlt => ?_, dayNumber_lt⟩
  rcases lt_trichotomy a b with hab | rfl | hba
  · exact hab
  · exact absurd hlt (lt_irrefl _)
  · exact absurd hlt (dayNumber_lt hba).not_gt

theorem dayNumber_injective : Function.Injective dayNumber := by
  intro a b heq
  rcases lt_trichotomy a b with hab | hab | hba
  · exact absurd heq (dayNumber_lt hab).ne
  · exact hab
  · exact absurd heq (dayNumber_lt hba).ne'

theorem dayNumber_le_iff : a.dayNumber ≤ b.dayNumber ↔ a ≤ b := by
  rw [le_iff_lt_or_eq, dayNumber_lt_iff, dayNumber_injective.eq_iff]
  exact or_comm

/-- The first day of a month. -/
def first (year month : ℤ) (hpos : 1 ≤ month) (hle : month ≤ 12) : Date :=
  ⟨year, month, 1, hpos, hle, le_rfl, (by decide : (1 : ℤ) ≤ 28).trans (le_monthLength year month)⟩

/-- The first day of a year. -/
def newYear (year : ℤ) : Date := first year 1 le_rfl (by decide)

/-- The day after. -/
def next (d : Date) : Date :=
  if hday : d.day < monthLength d.year d.month then
    ⟨d.year, d.month, d.day + 1, d.one_le_month, d.month_le, d.one_le_day.trans (Int.le_add_one le_rfl), hday⟩
  else if hmonth : d.month < 12 then
    first d.year (d.month + 1) (d.one_le_month.trans (Int.le_add_one le_rfl)) hmonth
  else newYear (d.year + 1)

/-- **The day after has the next number.** -/
theorem dayNumber_next (d : Date) : d.next.dayNumber = d.dayNumber + 1 := by
  unfold next
  split_ifs with hday hmonth
  · simp only [dayNumber, dayOfYear]
    omega
  · have hnext := (monthBlocks d.year).next d.month d.one_le_month
    have hlast := d.day_le
    simp only [dayNumber, dayOfYear, first]
    omega
  · have hdec : d.month = 12 := le_antisymm d.month_le (not_lt.mp hmonth)
    have hlast := le_antisymm d.day_le (not_lt.mp hday)
    have hyear := (yearBlocks d.year).next d.year le_rfl
    have hend := (monthBlocks d.year).next 12 (by decide)
    rw [show (12 : ℤ) + 1 = 13 from rfl, monthStart_thirteen] at hend
    simp only [dayNumber, dayOfYear, newYear, first, monthStart_one]
    rw [hdec] at hlast ⊢
    omega

/-- The date a number of days later. -/
theorem dayNumber_iterate_next (d : Date) (n : ℕ) : (next^[n] d).dayNumber = d.dayNumber + n := by
  induction n with
  | zero => simp
  | succ n ih =>
    rw [Function.iterate_succ_apply', dayNumber_next, ih]
    push_cast
    ring

end Date
end Lib
end ICon7

import Mathlib.Tactic.IntervalCases
import Mathlib.Algebra.Order.Ring.Int

/-!
# The proleptic Gregorian calendar

Dates of any year, before and after the epoch, and the number of days from
1970-01-01 to each.  The numbering gives the epoch zero and every next date one
more, so it is the count of days.
-/

namespace SabiRuby.Library

/-- Every fourth year is leap, but for the hundreds that are not a multiple of
four hundred. -/
def IsLeap (year : Int) : Prop :=
  year % 4 = 0 ∧ (year % 100 ≠ 0 ∨ year % 400 = 0)

instance (year : Int) : Decidable (IsLeap year) :=
  inferInstanceAs (Decidable (_ ∧ _))

/-- Number of days of a month. -/
def monthLength (year month : Int) : Int :=
  if month = 2 then
    if IsLeap year then 29 else 28
  else if month = 4 ∨ month = 6 ∨ month = 9 ∨ month = 11 then 30
  else 31

/-- Number of days of a year before a month of it. -/
def daysBeforeMonth (year month : Int) : Int :=
  ((List.range (month - 1).toNat).map fun earlier : Nat =>
    monthLength year (earlier + 1)).sum

/-- Days from the first of January of 1970 to the one of a year. -/
def yearStart (year : Int) : Int :=
  365 * (year - 1970) + (year - 1) / 4 - (year - 1) / 100 +
    (year - 1) / 400 - 477

/-- Days from 1970-01-01 to a day of a month; a day past the month's end counts
on into the next. -/
def dayCount (year month day : Int) : Int :=
  yearStart year + daysBeforeMonth year month + (day - 1)

theorem yearStart_succ (year : Int) :
    yearStart (year + 1) =
      yearStart year + if IsLeap year then 366 else 365 := by
  unfold yearStart
  by_cases leap : IsLeap year
  · rw [if_pos leap]
    unfold IsLeap at leap
    omega
  · rw [if_neg leap]
    unfold IsLeap at leap
    omega

/-- The floor of a quotient moves up at the multiples of the divisor. -/
theorem ediv_pred (number : Int) {divisor : Int} (pos : 0 < divisor) :
    (number - 1) / divisor =
      number / divisor - if number % divisor = 0 then 1 else 0 := by
  have split := Int.mul_ediv_add_emod number divisor
  have nonneg := Int.emod_nonneg number pos.ne'
  have lt := Int.emod_lt_of_pos number pos
  split_ifs with multiple
  · refine ((Int.ediv_emod_unique (r := divisor - 1) pos).mpr
      ⟨?_, by omega, by omega⟩).1
    rw [Int.mul_sub]
    omega
  · refine ((Int.ediv_emod_unique (r := number % divisor - 1) pos).mpr
      ⟨?_, by omega, by omega⟩).1
    rw [Int.mul_sub]
    omega

/-- Days from the epoch to the first of March of a year. -/
theorem yearStart_add_march (year : Int) :
    yearStart year + (if IsLeap year then 60 else 59) =
      365 * year + year / 4 - year / 100 + year / 400 - 719468 := by
  have fours := @ediv_pred year 4 (by omega)
  have hundreds := @ediv_pred year 100 (by omega)
  have cycles := @ediv_pred year 400 (by omega)
  unfold yearStart IsLeap
  rw [fours, hundreds, cycles]
  split_ifs <;> omega

theorem yearStart_mono {early late : Int} (le : early ≤ late) :
    yearStart early ≤ yearStart late := by
  unfold yearStart
  omega

theorem monthLength_bounds (year month : Int) :
    28 ≤ monthLength year month ∧ monthLength year month ≤ 31 := by
  unfold monthLength
  split_ifs <;> omega

/-- The table of days before each month. -/
theorem daysBeforeMonth_eq
    (year : Int)
    (pos : 1 ≤ month)
    (le : month ≤ 12) :
    daysBeforeMonth year month =
      (if month ≤ 2 then 31 * (month - 1)
      else (153 * (month - 3) + 2) / 5 +
        if IsLeap year then 60 else 59) := by
  interval_cases month <;>
    by_cases leap : IsLeap year <;>
      simp [daysBeforeMonth, monthLength, List.range_succ, leap]

/-! ## Dates -/

/-- A year, a month of it and a day of that month. -/
@[ext]
structure Date where
  year : Int
  month : Int
  day : Int
  month_pos : 1 ≤ month
  month_le : month ≤ 12
  day_pos : 1 ≤ day
  day_le : day ≤ monthLength year month

namespace Date

/-- Days from the epoch to a date. -/
def dayNumber (date : Date) : Int :=
  dayCount date.year date.month date.day

/-- A date lies in its year. -/
theorem dayNumber_mem_year (date : Date) :
    yearStart date.year ≤ date.dayNumber ∧
      date.dayNumber < yearStart (date.year + 1) := by
  have dayPos := date.day_pos
  have dayLe := date.day_le
  have monthPos := date.month_pos
  have monthLe := date.month_le
  have before := daysBeforeMonth_eq date.year monthPos monthLe
  rw [yearStart_succ]
  simp only [dayNumber, dayCount, before]
  simp only [monthLength] at dayLe
  split_ifs at dayLe ⊢ <;> omega

/-- A later day is in no earlier year. -/
theorem year_le_of_dayNumber_le
    {early late : Date}
    (le : early.dayNumber ≤ late.dayNumber) :
    early.year ≤ late.year := by
  by_contra later
  have earlyStart := early.dayNumber_mem_year.1
  have lateEnd := late.dayNumber_mem_year.2
  have order : yearStart (late.year + 1) ≤ yearStart early.year :=
    yearStart_mono (by omega)
  omega

end Date

/-! ## The cycle of four hundred years -/

/-- A day of the four hundred years from the first of March of a year that is a
multiple of four hundred: the hundred, the four years of it, the year of these
and the day of the year.  A leap day is the last of its year. -/
structure CycleDay where
  hundred : Int
  four : Int
  one : Int
  day : Int
  hundred_mem : 0 ≤ hundred ∧ hundred ≤ 3
  four_mem : 0 ≤ four ∧ four ≤ 24
  one_mem : 0 ≤ one ∧ one ≤ 3
  day_mem : 0 ≤ day ∧ day ≤ 365
  leap_day : day = 365 → one = 3 ∧ (four = 24 → hundred = 3)

namespace CycleDay

/-- Days from the beginning of the cycle. -/
def number (point : CycleDay) : Int :=
  36524 * point.hundred + 1461 * point.four + 365 * point.one + point.day

/-- The year of the cycle. -/
def year (point : CycleDay) : Int :=
  100 * point.hundred + 4 * point.four + point.one

/-- Every day of the cycle has its place. -/
theorem exists_number
    {number : Int}
    (nonneg : 0 ≤ number)
    (lt : number < 146097) :
    ∃ point : CycleDay, point.number = number := by
  obtain ⟨hundred, isHundred⟩ : ∃ n, n = min (number / 36524) 3 := ⟨_, rfl⟩
  obtain ⟨four, isFour⟩ :
      ∃ n, n = min ((number - 36524 * hundred) / 1461) 24 := ⟨_, rfl⟩
  obtain ⟨one, isOne⟩ :
      ∃ n, n = min ((number - 36524 * hundred - 1461 * four) / 365) 3 :=
    ⟨_, rfl⟩
  refine ⟨⟨hundred, four, one,
    number - 36524 * hundred - 1461 * four - 365 * one,
    by omega, by omega, by omega, by omega, by omega⟩, ?_⟩
  simp only [CycleDay.number]
  omega

theorem number_mem (point : CycleDay) :
    0 ≤ point.number ∧ point.number ≤ 146096 := by
  have leapDay := point.leap_day
  have hundredMem := point.hundred_mem
  have fourMem := point.four_mem
  have oneMem := point.one_mem
  have dayMem := point.day_mem
  simp only [number]
  omega

theorem year_mem (point : CycleDay) :
    0 ≤ point.year ∧ point.year ≤ 399 := by
  have hundredMem := point.hundred_mem
  have fourMem := point.four_mem
  have oneMem := point.one_mem
  simp only [year]
  omega

/-- The days before the year of a day. -/
theorem number_sub_day (point : CycleDay) :
    365 * point.year + point.year / 4 - point.year / 100 =
      point.number - point.day := by
  have hundredMem := point.hundred_mem
  have fourMem := point.four_mem
  have oneMem := point.one_mem
  simp only [number, year]
  omega

/-- Each quotient takes one leap day back or puts one forth, so that every year
is left with 365 days. -/
theorem year_of_number (point : CycleDay) :
    (point.number - point.number / 1460 + point.number / 36524 -
      point.number / 146096) / 365 = point.year := by
  have leapDay := point.leap_day
  have hundredMem := point.hundred_mem
  have fourMem := point.four_mem
  have oneMem := point.one_mem
  have dayMem := point.day_mem
  obtain ⟨rest, isRest⟩ :
      ∃ n, n = 24 * point.hundred + point.four + 365 * point.one + point.day :=
    ⟨_, rfl⟩
  have ofHundreds :
      point.number / 36524 - point.number / 146096 = point.hundred := by
    have place : point.number = 146096 ∨
        1461 * point.four + 365 * point.one + point.day ≤ 36523 := by
      simp only [number]
      omega
    cases place with
    | inl last =>
        simp only [number] at last ⊢
        omega
    | inr inside =>
        have quotient : point.number / 36524 = point.hundred := by
          simp only [number]
          omega
        have whole : point.number / 146096 = 0 := by
          simp only [number]
          omega
        omega
  have ofFours :
      point.number / 1460 = 25 * point.hundred + point.four + rest / 1460 := by
    simp only [number, isRest]
    omega
  have carry : rest / 1460 = 0 ∨ rest / 1460 = 1 := by omega
  simp only [year]
  simp only [number] at ofHundreds ofFours ⊢
  omega

/-- A leap day falls in the year before a leap year. -/
theorem isLeap_of_day (point : CycleDay) (era : Int) (leap : point.day = 365) :
    IsLeap (point.year + 400 * era + 1) := by
  have hundredMem := point.hundred_mem
  have fourMem := point.four_mem
  have ⟨one, last⟩ := point.leap_day leap
  simp only [IsLeap, year, one]
  omega

end CycleDay

end SabiRuby.Library

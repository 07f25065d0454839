import SabiRuby.Library.CheckedWord
import SabiRuby.Library.Gregorian

/-!
# The calendar of Time

`civil_from_days`, `days_from_civil` and `gmtime`, with every operation on `i64`
checked.  Both conversions count from the first of March of the year 0, in eras
of four hundred years, so that a leap day is the last of its year.
-/

namespace SabiRuby.Times

open Library

/-- The era a number is in and its place there, eras beginning at the multiples
of `length`. -/
def splitEra (length z : Int) : Option (Int × Int) := do
  let shifted ← if z ≥ 0 then some z else i64 (z - (length - 1))
  let era := shifted.tdiv length
  let start ← i64 (era * length)
  let place ← i64 (z - start)
  some (era, place)

theorem splitEra_eq
    (pos : 0 < length)
    (le : length ≤ 146097)
    (lower : -9223372036854000000 ≤ z)
    (upper : z ≤ 9223372036854000000) :
    splitEra length z = some (z / length, z % length) := by
  have split := Int.mul_ediv_add_emod z length
  have placeNonneg := Int.emod_nonneg z pos.ne'
  have placeLt := Int.emod_lt_of_pos z pos
  have comm : z / length * length = length * (z / length) := Int.mul_comm _ _
  have shifted := tdiv_of_shifted z pos
  unfold splitEra
  by_cases nonneg : z ≥ 0
  · rw [if_pos nonneg] at shifted ⊢
    simp only [Option.bind_eq_bind, Option.bind_some, shifted]
    refine i64_bind ?_
    exact i64_bind_of_eq (by omega) (by unfold IsI64; omega) rfl
  · rw [if_neg nonneg] at shifted ⊢
    refine i64_bind ?_
    simp only [shifted]
    refine i64_bind ?_
    exact i64_bind_of_eq (by omega) (by unfold IsI64; omega) rfl

/-- What a split says where no operation of it overflows. -/
theorem splitEra_exact
    (pos : 0 < length)
    (answers : splitEra length z = some split) :
    split = (z / length, z % length) := by
  have shifted := tdiv_of_shifted z pos
  have place := Int.mul_ediv_add_emod z length
  have comm : z / length * length = length * (z / length) := Int.mul_comm _ _
  unfold splitEra at answers
  by_cases nonneg : z ≥ 0
  · rw [if_pos nonneg] at shifted answers
    simp only [Option.bind_eq_bind, Option.bind_some, shifted] at answers
    simp only [← Option.bind_eq_bind, i64_bind_eq_some_iff] at answers
    rw [← Option.some_inj.mp answers.2.2]
    congr 1
    omega
  · rw [if_neg nonneg] at shifted answers
    simp only [i64_bind_eq_some_iff, shifted] at answers
    rw [← Option.some_inj.mp answers.2.2.2]
    congr 1
    omega

/-! ## From days to a date -/

/-- The year of an era a day of it is in. -/
def yearOfEra (doe : Int) : Option Int := do
  let quadrennia ← i64 (doe - doe.tdiv 1460)
  let centuries ← i64 (quadrennia + doe.tdiv 36524)
  let days ← i64 (centuries - doe.tdiv 146096)
  some (days.tdiv 365)

/-- The day of a year of an era. -/
def dayOfYear (doe yoe : Int) : Option Int := do
  let plain ← i64 (365 * yoe)
  let withLeap ← i64 (plain + yoe.tdiv 4)
  let before ← i64 (withLeap - yoe.tdiv 100)
  i64 (doe - before)

/-- The month, counted from March, and the day of it. -/
def monthAndDay (doy : Int) : Option (Int × Int) := do
  let fifths ← i64 (5 * doy)
  let shifted ← i64 (fifths + 2)
  let mp := shifted.tdiv 153
  let days ← i64 (153 * mp)
  let rounded ← i64 (days + 2)
  let rest ← i64 (doy - rounded.tdiv 5)
  let d ← i64 (rest + 1)
  some (mp, asU32 d)

/-- `civil_from_days`. -/
def civilFromDays (days : Int) : Option (Int × Int × Int) := do
  let z ← i64 (days + 719468)
  let (era, doe) ← splitEra 146097 z
  let yoe ← yearOfEra doe
  let start ← i64 (era * 400)
  let y ← i64 (yoe + start)
  let doy ← dayOfYear doe yoe
  let (mp, d) ← monthAndDay doy
  let month ← if mp < 10 then i64 (mp + 3) else i64 (mp - 9)
  let m := asU32 month
  let year ← if m ≤ 2 then i64 (y + 1) else some y
  some (year, m, d)

section Spec

variable (point : CycleDay)

theorem yearOfEra_eq : yearOfEra point.number = some point.year := by
  have numberMem := point.number_mem
  have yearOf := point.year_of_number
  have divides (divisor : Int) :
      point.number.tdiv divisor = point.number / divisor :=
    Int.tdiv_eq_ediv_of_nonneg numberMem.1
  unfold yearOfEra
  simp only [divides]
  refine i64_bind ?_
  refine i64_bind ?_
  refine i64_bind ?_
  rw [Int.tdiv_eq_ediv_of_nonneg (by omega), yearOf]

theorem dayOfYear_eq :
    dayOfYear point.number point.year = some point.day := by
  have numberMem := point.number_mem
  have yearMem := point.year_mem
  have dayMem := point.day_mem
  have before := point.number_sub_day
  have divides (divisor : Int) :
      point.year.tdiv divisor = point.year / divisor :=
    Int.tdiv_eq_ediv_of_nonneg yearMem.1
  unfold dayOfYear
  simp only [divides]
  refine i64_bind ?_
  refine i64_bind ?_
  refine i64_bind ?_
  exact i64_eq_some_iff.mpr ⟨by unfold IsI64; omega, by omega⟩

/-- The months from March on have 31, 30, 31, 30, 31 days and again, which
153 days in five months give. -/
theorem monthAndDay_eq
    (nonneg : 0 ≤ doy)
    (le : doy ≤ 365) :
    monthAndDay doy =
      some ((5 * doy + 2) / 153,
        doy - (153 * ((5 * doy + 2) / 153) + 2) / 5 + 1) := by
  have quotient : (5 * doy + 2).tdiv 153 = (5 * doy + 2) / 153 :=
    Int.tdiv_eq_ediv_of_nonneg (by omega)
  unfold monthAndDay
  refine i64_bind ?_
  refine i64_bind ?_
  simp only [quotient]
  generalize isMonth : (5 * doy + 2) / 153 = mp
  have starts : (153 * mp + 2).tdiv 5 = (153 * mp + 2) / 5 :=
    Int.tdiv_eq_ediv_of_nonneg (by omega)
  refine i64_bind ?_
  refine i64_bind ?_
  simp only [starts]
  refine i64_bind ?_
  refine i64_bind ?_
  rw [asU32_of_mem (by omega) (by omega)]

/-- Days from the epoch to the first of March of a year of an era. -/
theorem yearStart_march (era : Int) :
    yearStart (point.year + era * 400) +
        (if IsLeap (point.year + era * 400) then 60 else 59) =
      era * 146097 + (point.number - point.day) - 719468 := by
  have before := point.number_sub_day
  have yearMem := point.year_mem
  rw [yearStart_add_march]
  omega

/-- The date the month and the day counted from March are. -/
theorem exists_date
    (era mp : Int)
    (isMonth : mp = (5 * point.day + 2) / 153) :
    ∃ date : Date,
      date.year =
          (if mp < 10 then point.year + era * 400
          else point.year + era * 400 + 1) ∧
        date.month = (if mp < 10 then mp + 3 else mp - 9) ∧
        date.day = point.day - (153 * mp + 2) / 5 + 1 ∧
        date.dayNumber = era * 146097 + point.number - 719468 := by
  have dayMem := point.day_mem
  have march := yearStart_march point era
  have mpMem : 0 ≤ mp ∧ mp ≤ 11 := by omega
  by_cases inYear : mp < 10
  · have length : point.day - (153 * mp + 2) / 5 + 1 ≤
        monthLength (point.year + era * 400) (mp + 3) := by
      obtain ⟨mpNonneg, -⟩ := mpMem
      unfold monthLength
      interval_cases mp <;> simp <;> omega
    refine ⟨⟨point.year + era * 400, mp + 3, _, by omega, by omega,
      by omega, length⟩, ?_⟩
    simp only [if_pos inYear, Date.dayNumber, dayCount, true_and]
    rw [daysBeforeMonth_eq _ (by omega) (by omega), if_neg (by omega)]
    simp only [add_sub_cancel_right]
    omega
  · have length : point.day - (153 * mp + 2) / 5 + 1 ≤
        monthLength (point.year + era * 400 + 1) (mp - 9) := by
      have leap := point.isLeap_of_day era
      rw [show point.year + 400 * era + 1 = point.year + era * 400 + 1 by
        omega] at leap
      have last : mp = 10 ∨ mp = 11 := by omega
      unfold monthLength
      cases last with
      | inl january =>
          simp only [january]
          simp
          omega
      | inr february =>
          simp only [february]
          simp
          split_ifs with isLeap
          · omega
          · have : point.day ≠ 365 := fun day => isLeap (leap day)
            omega
    refine ⟨⟨point.year + era * 400 + 1, mp - 9, _, by omega, by omega,
      by omega, length⟩, ?_⟩
    simp only [if_neg inYear, Date.dayNumber, dayCount, true_and]
    rw [daysBeforeMonth_eq _ (by omega) (by omega), if_pos (by omega),
      yearStart_succ]
    split_ifs at march ⊢ <;> omega

end Spec

/-- The date of a day. -/
theorem civilFromDays_eq
    (lower : -1000000000000000 ≤ days)
    (upper : days ≤ 1000000000000000) :
    ∃ date : Date,
      date.dayNumber = days ∧
        civilFromDays days = some (date.year, date.month, date.day) := by
  have split := Int.mul_ediv_add_emod (days + 719468) 146097
  obtain ⟨point, isPlace⟩ :
      ∃ point : CycleDay, point.number = (days + 719468) % 146097 :=
    CycleDay.exists_number (by omega) (by omega)
  generalize isEra : (days + 719468) / 146097 = era at split
  obtain ⟨mp, isMonth⟩ : ∃ mp, mp = (5 * point.day + 2) / 153 := ⟨_, rfl⟩
  obtain ⟨date, year, month, day, number⟩ :=
    exists_date point era mp isMonth
  have dayMem := point.day_mem
  have yearMem := point.year_mem
  refine ⟨date, by omega, ?_⟩
  unfold civilFromDays
  refine i64_bind ?_
  rw [splitEra_eq (by omega) (by omega) (by omega) (by omega), isEra,
    ← isPlace]
  simp only [Option.bind_eq_bind, Option.bind_some, yearOfEra_eq]
  simp only [← Option.bind_eq_bind]
  refine i64_bind ?_
  refine i64_bind ?_
  simp only [dayOfYear_eq, monthAndDay_eq dayMem.1 dayMem.2, ← isMonth, ← day,
    Option.bind_eq_bind, Option.bind_some]
  simp only [← Option.bind_eq_bind]
  by_cases inYear : mp < 10
  · rw [if_pos inYear] at year month ⊢
    refine i64_bind_of_eq month.symm (by unfold IsI64; omega) ?_
    rw [asU32_of_mem (by omega) (by omega), if_neg (by omega), year]
  · rw [if_neg inYear] at year month ⊢
    refine i64_bind_of_eq month.symm (by unfold IsI64; omega) ?_
    rw [asU32_of_mem (by omega) (by omega), if_pos (by omega)]
    exact i64_bind_of_eq year.symm (by unfold IsI64; omega) rfl

/-! ## From a date to days -/

/-- The year, beginning in March, that a month of a year is in. -/
def marchYear (y m : Int) : Option Int :=
  if m ≤ 2 then i64 (y - 1) else some y

/-- The day of a year that begins in March, from its month and the day of the
month. -/
def dayOfMarchYear (mp d : Int) : Option Int := do
  let days ← i64 (153 * mp)
  let rounded ← i64 (days + 2)
  let counted ← i64 (rounded.tdiv 5 + d)
  i64 (counted - 1)

/-- The day of an era, from its year and the day of the year. -/
def dayOfEra (yoe doy : Int) : Option Int := do
  let plain ← i64 (yoe * 365)
  let withLeap ← i64 (plain + yoe.tdiv 4)
  let before ← i64 (withLeap - yoe.tdiv 100)
  i64 (before + doy)

/-- `days_from_civil`. -/
def daysFromCivil (y m d : Int) : Option Int := do
  let year ← marchYear y m
  let (era, yoe) ← splitEra 400 year
  let mp := if m > 2 then m - 3 else m + 9
  let doy ← dayOfMarchYear mp d
  let doe ← dayOfEra yoe doy
  let start ← i64 (era * 146097)
  let days ← i64 (start + doe)
  i64 (days - 719468)

section Spec

variable {y m d : Int}

/-- The days to the first of March, the days from there to the month and the
day of the month make up the count. -/
theorem dayCount_of_march
    (pos : 1 ≤ m)
    (le : m ≤ 12)
    (isYear : year = if m ≤ 2 then y - 1 else y)
    (isMonth : mp = if m > 2 then m - 3 else m + 9) :
    year / 400 * 146097 +
          (year % 400 * 365 + year % 400 / 4 - year % 400 / 100 +
            ((153 * mp + 2) / 5 + d - 1)) - 719468 =
      dayCount y m d := by
  rw [dayCount, daysBeforeMonth_eq y pos le]
  by_cases early : m ≤ 2
  · have last : m = 1 ∨ m = 2 := by omega
    have march := yearStart_add_march year
    have next := yearStart_succ year
    rw [if_pos early] at isYear ⊢
    rw [if_neg (by omega)] at isMonth
    rw [show year + 1 = y by omega] at next
    split_ifs at march next <;> omega
  · have march := yearStart_add_march y
    rw [if_neg early] at isYear ⊢
    rw [if_pos (by omega)] at isMonth
    subst isYear isMonth
    omega

theorem dayOfMarchYear_exact
    (nonneg : 0 ≤ mp)
    (answers : dayOfMarchYear mp d = some days) :
    days = (153 * mp + 2) / 5 + d - 1 := by
  unfold dayOfMarchYear at answers
  simp only [i64_bind_eq_some_iff, i64_eq_some_iff] at answers
  rw [← answers.2.2.2.2, Int.tdiv_eq_ediv_of_nonneg (by omega)]

theorem dayOfEra_exact
    (nonneg : 0 ≤ yoe)
    (answers : dayOfEra yoe doy = some days) :
    days = yoe * 365 + yoe / 4 - yoe / 100 + doy := by
  unfold dayOfEra at answers
  simp only [i64_bind_eq_some_iff, i64_eq_some_iff] at answers
  rw [← answers.2.2.2.2, Int.tdiv_eq_ediv_of_nonneg nonneg,
    Int.tdiv_eq_ediv_of_nonneg nonneg]

theorem daysFromCivil_exact
    (pos : 1 ≤ m)
    (le : m ≤ 12)
    (answers : daysFromCivil y m d = some days) :
    days = dayCount y m d := by
  obtain ⟨mp, isMonth⟩ : ∃ mp, mp = if m > 2 then m - 3 else m + 9 :=
    ⟨_, rfl⟩
  have mpNonneg : 0 ≤ mp := by
    rw [isMonth]
    split_ifs <;> omega
  unfold daysFromCivil at answers
  simp only [Option.bind_eq_bind, Option.bind_eq_some_iff, ← isMonth]
    at answers
  obtain ⟨year, yearAnswers, split, splitAnswers, doy, doyAnswers, doe,
    doeAnswers, start, startAnswers, sum, sumAnswers, answers⟩ := answers
  rw [i64_eq_some_iff] at startAnswers sumAnswers answers
  have isYear : year = if m ≤ 2 then y - 1 else y := by
    unfold marchYear at yearAnswers
    split_ifs at yearAnswers ⊢
    · exact (i64_eq_some_iff.mp yearAnswers).2.symm
    · exact (Option.some_inj.mp yearAnswers).symm
  have isSplit := splitEra_exact (by omega) splitAnswers
  have isDay := dayOfMarchYear_exact mpNonneg doyAnswers
  have isEra := dayOfEra_exact (by rw [isSplit]; omega) doeAnswers
  rw [← dayCount_of_march pos le isYear isMonth, ← answers.2, ← sumAnswers.2,
    ← startAnswers.2, isEra, isDay, isSplit]

/-- No operation overflows for a count of days that seconds can tell. -/
theorem daysFromCivil_eq
    (pos : 1 ≤ m)
    (le : m ≤ 12)
    (dayPos : 1 ≤ d)
    (dayLe : d ≤ 31)
    (lower : -1000000000000000 ≤ dayCount y m d)
    (upper : dayCount y m d ≤ 1000000000000000) :
    daysFromCivil y m d = some (dayCount y m d) := by
  obtain ⟨year, isYear⟩ : ∃ year, year = if m ≤ 2 then y - 1 else y :=
    ⟨_, rfl⟩
  obtain ⟨mp, isMonth⟩ : ∃ mp, mp = if m > 2 then m - 3 else m + 9 :=
    ⟨_, rfl⟩
  have count := dayCount_of_march (d := d) pos le isYear isMonth
  have mpMem : 0 ≤ mp ∧ mp ≤ 11 := by
    rw [isMonth]
    split_ifs <;> omega
  have yearAnswers : marchYear y m = some year := by
    rw [isYear, marchYear]
    split_ifs with early
    · rw [if_pos early] at isYear
      exact i64_eq_some_iff.mpr ⟨by unfold IsI64; omega, rfl⟩
    · rfl
  have doyAnswers :
      dayOfMarchYear mp d = some ((153 * mp + 2) / 5 + d - 1) := by
    unfold dayOfMarchYear
    refine i64_bind ?_
    refine i64_bind ?_
    rw [Int.tdiv_eq_ediv_of_nonneg (by omega)]
    refine i64_bind ?_
    exact i64_eq_some_iff.mpr ⟨by unfold IsI64; omega, rfl⟩
  generalize isDay : (153 * mp + 2) / 5 + d - 1 = doy at doyAnswers count
  have doyMem : 0 ≤ doy ∧ doy ≤ 400 := by omega
  have yoeMem : 0 ≤ year % 400 ∧ year % 400 < 400 := by omega
  generalize isYoe : year % 400 = yoe at count yoeMem
  generalize isEra : year / 400 = era at count
  have doeAnswers :
      dayOfEra yoe doy = some (yoe * 365 + yoe / 4 - yoe / 100 + doy) := by
    unfold dayOfEra
    rw [Int.tdiv_eq_ediv_of_nonneg yoeMem.1,
      Int.tdiv_eq_ediv_of_nonneg yoeMem.1]
    refine i64_bind ?_
    refine i64_bind ?_
    refine i64_bind ?_
    exact i64_eq_some_iff.mpr ⟨by unfold IsI64; omega, rfl⟩
  have splitAnswers : splitEra 400 year = some (era, yoe) := by
    rw [splitEra_eq (by omega) (by omega) (by omega) (by omega), isEra, isYoe]
  unfold daysFromCivil
  simp only [yearAnswers, Option.bind_eq_bind, Option.bind_some, ← isMonth,
    splitAnswers, doyAnswers, doeAnswers]
  simp only [← Option.bind_eq_bind]
  refine i64_bind ?_
  refine i64_bind ?_
  exact i64_eq_some_iff.mpr ⟨by unfold IsI64; omega, count⟩

end Spec

/-! ## Broken-down time -/

/-- `struct tm`. -/
structure DateTime where
  year : Int
  mon : Int
  mday : Int
  hour : Int
  min : Int
  sec : Int
  wday : Int
  yday : Int
  deriving DecidableEq, Repr

/-- `gmtime`, `none` where an operation overflows. -/
def gmtime (sec : Int) : Option DateTime := do
  let days := sec / 86400
  let rem := sec % 86400
  let (year, mon, mday) ← civilFromDays days
  let jan1 ← daysFromCivil year 1 1
  let weekday ← i64 (days + 4)
  let since ← i64 (days - jan1)
  let yday ← i64 (since + 1)
  some
    { year, mon, mday
      hour := asU32 (rem.tdiv 3600)
      min := asU32 ((rem.tmod 3600).tdiv 60)
      sec := asU32 (rem.tmod 60)
      wday := asU32 (weekday % 7)
      yday := asU32 yday }

namespace DateTime

/-- The broken-down time is the one of a count of seconds: its date exists, the
time of day is one, the day and the seconds of it make up the count, the week
goes on from the Thursday of the epoch and the day of the year from the first
of January. -/
structure Shows (time : DateTime) (sec : Int) : Prop where
  mon_mem : 1 ≤ time.mon ∧ time.mon ≤ 12
  mday_mem : 1 ≤ time.mday ∧ time.mday ≤ monthLength time.year time.mon
  hour_mem : 0 ≤ time.hour ∧ time.hour ≤ 23
  min_mem : 0 ≤ time.min ∧ time.min ≤ 59
  sec_mem : 0 ≤ time.sec ∧ time.sec ≤ 59
  count : dayCount time.year time.mon time.mday * 86400 +
    time.hour * 3600 + time.min * 60 + time.sec = sec
  wday_eq : time.wday = (dayCount time.year time.mon time.mday + 4) % 7
  yday_eq : time.yday =
    dayCount time.year time.mon time.mday - yearStart time.year + 1

/-- The fields that order broken-down times. -/
def key (time : DateTime) : List Int :=
  [time.year, time.yday, time.hour, time.min, time.sec]

namespace Shows

variable {time early late : DateTime} {sec before after : Int}

/-- The date of a broken-down time. -/
def date (shows_ : time.Shows sec) : Date where
  year := time.year
  month := time.mon
  day := time.mday
  month_pos := shows_.mon_mem.1
  month_le := shows_.mon_mem.2
  day_pos := shows_.mday_mem.1
  day_le := shows_.mday_mem.2

/-- The day a count of seconds is in. -/
theorem dayCount_eq (shows_ : time.Shows sec) :
    dayCount time.year time.mon time.mday = sec / 86400 := by
  have count := shows_.count
  have hourMem := shows_.hour_mem
  have minMem := shows_.min_mem
  have secMem := shows_.sec_mem
  omega

theorem date_dayNumber (shows_ : time.Shows sec) :
    shows_.date.dayNumber = sec / 86400 :=
  shows_.dayCount_eq

/-- A later second has a greater key. -/
theorem key_lt
    (showsEarly : early.Shows before)
    (showsLate : late.Shows after)
    (lt : before < after) :
    early.key < late.key := by
  have earlyDay := showsEarly.dayCount_eq
  have lateDay := showsLate.dayCount_eq
  have year : early.year ≤ late.year := by
    apply @Date.year_le_of_dayNumber_le showsEarly.date showsLate.date
    rw [showsEarly.date_dayNumber, showsLate.date_dayNumber]
    omega
  have earlyYday := showsEarly.yday_eq
  have lateYday := showsLate.yday_eq
  have earlyCount := showsEarly.count
  have lateCount := showsLate.count
  have earlyMin := showsEarly.min_mem
  have lateMin := showsLate.min_mem
  have earlySec := showsEarly.sec_mem
  have lateSec := showsLate.sec_mem
  simp only [key, List.cons_lt_cons_iff, List.lt_irrefl, and_false, or_false]
  rcases year.lt_or_eq with less | equal
  · exact .inl less
  · refine .inr ⟨equal, ?_⟩
    rw [earlyDay, equal] at earlyYday
    rw [lateDay] at lateYday
    omega

end Shows
end DateTime

theorem gmtime_shows {sec : Int} (held : IsI64 sec) :
    ∃ time : DateTime, gmtime sec = some time ∧ time.Shows sec := by
  unfold IsI64 at held
  obtain ⟨date, number, civil⟩ :
      ∃ date : Date,
        date.dayNumber = sec / 86400 ∧
          civilFromDays (sec / 86400) =
            some (date.year, date.month, date.day) :=
    civilFromDays_eq (by omega) (by omega)
  have inYear := date.dayNumber_mem_year
  have first : dayCount date.year 1 1 = yearStart date.year := by
    simp [dayCount, daysBeforeMonth]
  have length : yearStart (date.year + 1) ≤ yearStart date.year + 366 := by
    rw [yearStart_succ]
    split_ifs <;> omega
  have jan1 : daysFromCivil date.year 1 1 = some (yearStart date.year) := by
    rw [← first]
    apply daysFromCivil_eq <;> omega
  have hours : (sec % 86400).tdiv 3600 = sec % 86400 / 3600 :=
    Int.tdiv_eq_ediv_of_nonneg (by omega)
  have minutes : ((sec % 86400).tmod 3600).tdiv 60 =
      sec % 86400 % 3600 / 60 := by
    rw [Int.tmod_eq_emod_of_nonneg (by omega),
      Int.tdiv_eq_ediv_of_nonneg (by omega)]
  have seconds : (sec % 86400).tmod 60 = sec % 86400 % 60 :=
    Int.tmod_eq_emod_of_nonneg (by omega)
  refine ⟨
    { year := date.year
      mon := date.month
      mday := date.day
      hour := sec % 86400 / 3600
      min := sec % 86400 % 3600 / 60
      sec := sec % 86400 % 60
      wday := (sec / 86400 + 4) % 7
      yday := sec / 86400 - yearStart date.year + 1 }, ?_, ?_⟩
  · unfold gmtime
    simp only [civil, jan1, Option.bind_eq_bind, Option.bind_some]
    simp only [← Option.bind_eq_bind]
    refine i64_bind ?_
    refine i64_bind ?_
    refine i64_bind ?_
    rw [hours, minutes, seconds, asU32_of_mem (by omega) (by omega),
      asU32_of_mem (by omega) (by omega), asU32_of_mem (by omega) (by omega),
      asU32_of_mem (by omega) (by omega), asU32_of_mem (by omega) (by omega)]
  · have count : dayCount date.year date.month date.day = sec / 86400 := number
    exact
      { mon_mem := ⟨date.month_pos, date.month_le⟩
        mday_mem := ⟨date.day_pos, date.day_le⟩
        hour_mem := by dsimp only; omega
        min_mem := by dsimp only; omega
        sec_mem := by dsimp only; omega
        count := by dsimp only; omega
        wday_eq := by rw [count]
        yday_eq := by rw [count] }

end SabiRuby.Times

import Mathlib.Tactic.IntervalCases
import Mathlib.Tactic.NormNum

/-! # The Gregorian calendar

Dates of the calendar extended to all years, counted in days from the first of January 1970. A year
that starts in March has its leap day at its end, and 400 such years always have the same length;
this turns a date into a day and back without tables.
-/

namespace Gregorian

def Leap (year : Int) : Prop := year % 4 = 0 ∧ (year % 100 ≠ 0 ∨ year % 400 = 0)

instance (year : Int) : Decidable (Leap year) := inferInstanceAs (Decidable (_ ∧ _))

def monthLength (year month : Int) : Int :=
  if month = 2 then (if Leap year then 29 else 28)
  else if month = 4 ∨ month = 6 ∨ month = 9 ∨ month = 11 then 30
  else 31

/-- A date of the calendar. -/
structure Valid (year month day : Int) : Prop where
  firstMonth : 1 ≤ month
  lastMonth : month ≤ 12
  firstDay : 1 ≤ day
  lastDay : day ≤ monthLength year month

/-- The days of a common year before a month. -/
def daysBefore (month : Int) : Int :=
  if month ≤ 1 then 0 else if month = 2 then 31 else if month = 3 then 59 else if month = 4 then 90
  else if month = 5 then 120 else if month = 6 then 151 else if month = 7 then 181 else if month =
    8 then 212
  else if month = 9 then 243 else if month = 10 then 273 else if month = 11 then 304 else 334

/-- The number of a date, counting days from the first of January 1970. -/
def dayNumber (year month day : Int) : Int :=
  365 * (year - 1970) + ((year - 1) / 4 - (year - 1) / 100 + (year - 1) / 400) - 477 +
    daysBefore month + (if 2 < month ∧ Leap year then 1 else 0) + (day - 1)

example : dayNumber 1970 1 1 = 0 := by decide

/-- Days before a month of a year that starts in March. -/
def monthStart (month : Int) : Int := (153 * month + 2) / 5

/-- Days before a year of an era; years start in March. -/
def yearStart (year : Int) : Int := 365 * year + year / 4 - year / 100

/-- The year of an era a day falls in. -/
def yearOfEra (day : Int) : Int := (day - day / 1460 + day / 36524 - day / 146096) / 365

/-- The days of a year of an era. -/
def yearLength (year : Int) : Int :=
  if Leap (year + 1) then 366 else 365

variable {year day month number : Int}

/-- A year of an era from its first day to its last; the next year starts behind it. -/
theorem year_ends : ∀ year : Nat, year < 400 → yearOfEra (yearStart year) = year ∧
    yearOfEra (yearStart year + yearLength year - 1) = year ∧ 0 ≤ yearStart year ∧
    yearStart year + yearLength year ≤ 146097 ∧
    yearStart year + yearLength year = if year = 399 then 146097 else yearStart ↑(year + 1) := by
  decide +kernel

theorem yearOfEra_mono {later : Int} (before : day ≤ later) : yearOfEra day ≤ yearOfEra later := by
  apply Int.ediv_le_ediv (by decide)
  omega

/-- A day is found in its year. -/
theorem yearOfEra_eq (low : 0 ≤ year) (high : year ≤ 399) (first : 0 ≤ day)
    (last : day < yearLength year) :
    yearOfEra (yearStart year + day) = year ∧ 0 ≤ yearStart year + day ∧
      yearStart year + day ≤ 146096 := by
  obtain ⟨index, rfl⟩ := Int.eq_ofNat_of_zero_le low
  obtain ⟨atFirst, atLast, _, _, _⟩ := year_ends index (by omega)
  have lower := yearOfEra_mono (show yearStart index ≤ yearStart index + day by omega)
  have upper :=
    yearOfEra_mono (show yearStart index + day ≤ yearStart index + yearLength index - 1 by omega)
  omega

theorem exists_year {number : Int} (low : 0 ≤ number) (high : number ≤ 146096) :
    ∃ year day, 0 ≤ year ∧ year ≤ 399 ∧ 0 ≤ day ∧ day < yearLength year ∧
      number = yearStart year + day := by
  have years : 0 ≤ yearOfEra number ∧ yearOfEra number ≤ 399 := by
    unfold yearOfEra
    omega
  obtain ⟨index, isIndex⟩ := Int.eq_ofNat_of_zero_le years.1
  refine ⟨index, number - yearStart index, by omega, by omega, ?_, ?_, by omega⟩
  · by_contra before
    cases index with
    | zero => exact before (by simpa [yearStart] using low)
    | succ index =>
      obtain ⟨_, atLast, _, _, next⟩ := year_ends index (by omega)
      rw [if_neg (by omega)] at next
      have earlier := yearOfEra_mono (show number ≤ yearStart index + yearLength index - 1 by omega)
      omega
  · by_contra behind
    obtain ⟨_, _, _, _, next⟩ := year_ends index (by omega)
    split_ifs at next with final
    · omega
    · have later := yearOfEra_mono (show yearStart ↑(index + 1) ≤ number by omega)
      rw [(year_ends (index + 1) (by omega)).1] at later
      omega

/-- The month of a year a day falls in; months are counted from March. -/
def monthOfYear (day : Int) : Int := (5 * day + 2) / 153

/-- The days of a month counted from March. -/
def marchMonthLength (year month : Int) : Int :=
  if month = 11 then yearLength year - 337
  else if month = 1 ∨ month = 3 ∨ month = 6 ∨ month = 8 then 30
  else 31

theorem yearLength_cases (year : Int) : yearLength year = 365 ∨ yearLength year = 366 := by
  unfold yearLength
  split_ifs <;> omega

theorem yearLength_le (year : Int) : yearLength year ≤ 365 + 1 := by
  rcases yearLength_cases year with common | leap <;> omega

/-- A day is found in its month. -/
theorem monthOfYear_eq (low : 0 ≤ month) (high : month ≤ 11) (first : 1 ≤ day)
    (last : day ≤ marchMonthLength year month) : monthOfYear (monthStart month + day - 1) = month ∧
      0 ≤ monthStart month + day - 1 ∧ monthStart month + day - 1 < yearLength year := by
  have length := yearLength_cases year
  unfold marchMonthLength at last
  unfold monthOfYear monthStart
  interval_cases month <;> norm_num at last ⊢ <;> omega

theorem monthOfYear_spec (low : 0 ≤ number) (high : number < yearLength year) :
    0 ≤ monthOfYear number ∧ monthOfYear number ≤ 11 ∧
      1 ≤ number - monthStart (monthOfYear number) + 1 ∧
      number - monthStart (monthOfYear number) + 1 ≤ marchMonthLength year
        (monthOfYear number) := by
  have length := yearLength_cases year
  have bounds : 0 ≤ monthOfYear number ∧ monthOfYear number ≤ 11 := by
    unfold monthOfYear
    omega
  refine ⟨bounds.1, bounds.2, ?_⟩
  generalize shape : monthOfYear number = month at bounds
  obtain ⟨low, high⟩ := bounds
  unfold monthOfYear at shape
  unfold monthStart marchMonthLength
  interval_cases month <;> norm_num <;> omega

/-- The date read with years that start in March. -/
def marchYear (year month : Int) : Int :=
  if month ≤ 2 then year - 1 else year

def marchMonth (month : Int) : Int :=
  if 2 < month then month - 3 else month + 9

/-- The number of a date by eras of 400 years. -/
def eraNumber (year month day : Int) : Int :=
  marchYear year month / 400 * 146097 +
    (yearStart (marchYear year month % 400) + (monthStart (marchMonth month) + day - 1)) - 719468

/-- The date of a number by eras of 400 years. -/
def ofNumber (number : Int) : Int × Int × Int :=
  let era := (number + 719468) / 146097
  let dayOfEra := (number + 719468) % 146097
  let year := yearOfEra dayOfEra
  let dayOfYear := dayOfEra - yearStart year
  let month := monthOfYear dayOfYear
  let calendarMonth := if month < 10 then month + 3 else month - 9
  (year + era * 400 + (if calendarMonth ≤ 2 then 1 else 0), calendarMonth,
    dayOfYear - monthStart month + 1)

theorem leap_mod (year : Int) : Leap (year % 400 + 1) ↔ Leap (year + 1) := by
  unfold Leap
  omega

/-- Whole eras are taken out of the days before a year. -/
theorem era_yearStart (year : Int) :
    year / 400 * 146097 + yearStart (year % 400) = 365 * year +
      (year / 4 - year / 100 + year / 400) := by
  unfold yearStart
  omega

theorem leapDays_succ (year : Int) : year / 4 - year / 100 + year / 400 =
    (year - 1) / 4 - (year - 1) / 100 + (year - 1) / 400 + if Leap year then 1 else 0 := by
  unfold Leap
  split_ifs <;> omega

theorem yearStart_bounds {year : Int} (low : 0 ≤ year) (high : year ≤ 399) :
    0 ≤ yearStart year ∧ yearStart year ≤ 145731 := by
  unfold yearStart
  omega

theorem monthStart_bounds (low : 0 ≤ month) (high : month ≤ 11) : 0 ≤ monthStart month ∧
    monthStart month ≤ 337 := by
  unfold monthStart
  omega

theorem Valid.day_le (valid : Valid year month day) : day ≤ 31 := by
  have last := valid.lastDay
  unfold monthLength at last
  split_ifs at last <;> omega

/-- The calendar month counted from January. -/
def calendarMonth (month : Int) : Int :=
  if month < 10 then month + 3 else month - 9

theorem ofNumber_eq {number era year day : Int} (low : 0 ≤ year) (high : year ≤ 399)
    (first : 0 ≤ day)
    (last : day < yearLength year)
      (split : number + 719468 = era * 146097 + (yearStart year + day)) :
    ofNumber number = (year + era * 400 + (if calendarMonth (monthOfYear day) ≤ 2 then 1 else 0),
      calendarMonth (monthOfYear day), day - monthStart (monthOfYear day) + 1) := by
  obtain ⟨inYear, nonneg, inside⟩ := yearOfEra_eq low high first last
  have eras : (number + 719468) / 146097 = era := by omega
  have dayOfEra : (number + 719468) % 146097 = yearStart year + day := by omega
  unfold ofNumber calendarMonth
  simp only [eras, dayOfEra, inYear, add_sub_cancel_left]

section
variable (low : 1 ≤ month) (high : month ≤ 12)
include low high

theorem marchMonth_bounds : 0 ≤ marchMonth month ∧ marchMonth month ≤ 11 := by
  unfold marchMonth
  split_ifs <;> omega

theorem monthLength_eq : monthLength year month = marchMonthLength (marchYear year month % 400)
    (marchMonth month) := by
  unfold monthLength marchMonthLength yearLength
  rw [if_congr (leap_mod _) rfl rfl]
  rcases (show month = 2 ∨ month ≠ 2 from em _) with rfl | other
  · have shifted : marchYear year 2 + 1 = year := by
      rw [marchYear, if_pos (le_refl _)]
      omega
    rw [shifted, if_pos rfl, if_pos (show marchMonth 2 = 11 by decide)]
    split_ifs <;> rfl
  · have shifted : marchMonth month ≠ 11 := by
      unfold marchMonth
      split_ifs <;> omega
    rw [if_neg other, if_neg shifted]
    refine if_congr ?_ rfl rfl
    unfold marchMonth
    split_ifs <;> omega

/-- The number of a date is found by eras. -/
theorem dayNumber_eq (day : Int) : dayNumber year month day = eraNumber year month day := by
  have years := era_yearStart (marchYear year month)
  have months : (month ≤ 2 → monthStart (marchMonth month) = daysBefore month + 306) ∧
      (2 < month → monthStart (marchMonth month) = daysBefore month - 59) := by
    unfold monthStart marchMonth daysBefore
    interval_cases month <;> norm_num
  unfold dayNumber eraNumber
  unfold marchYear at years ⊢
  rcases (show month ≤ 2 ∨ 2 < month by omega) with early | late
  · rw [if_pos early] at years ⊢
    rw [if_neg (by omega), months.1 early]
    omega
  · have leapDays := leapDays_succ year
    rw [if_neg (show ¬ month ≤ 2 by omega)] at years ⊢
    rw [months.2 late, if_congr (and_iff_right late) rfl rfl]
    omega

theorem calendarMonth_marchMonth : calendarMonth (marchMonth month) = month := by
  unfold calendarMonth marchMonth
  split_ifs <;> omega

end

/-- Dates of years of at most four digits. -/
theorem dayNumber_bounds (valid : Valid year month day) (low : 0 ≤ year) (high : year ≤ 9999) :
    -1000000 ≤ dayNumber year month day ∧ dayNumber year month day ≤ 4000000 := by
  have first := valid.firstDay
  have last := valid.day_le
  have months := marchMonth_bounds valid.firstMonth valid.lastMonth
  have inYear := monthStart_bounds months.1 months.2
  have inEra := @yearStart_bounds (marchYear year month % 400) (by omega) (by omega)
  have years : -1 ≤ marchYear year month ∧ marchYear year month ≤ 9999 := by
    unfold marchYear
    split_ifs <;> omega
  rw [dayNumber_eq valid.firstMonth valid.lastMonth, eraNumber]
  omega

theorem ofNumber_eraNumber (valid : Valid year month day) :
    ofNumber (eraNumber year month day) = (year, month, day) := by
  obtain ⟨low, high, first, last⟩ := valid
  have bounds := marchMonth_bounds low high
  rw [monthLength_eq low high] at last
  obtain ⟨found, nonneg, inside⟩ := monthOfYear_eq bounds.1 bounds.2 first last
  rw [eraNumber, ofNumber_eq (by omega) (by omega) nonneg inside (sub_add_cancel _ _), found,
    calendarMonth_marchMonth low high]
  have shifted : marchYear year month % 400 + marchYear year month / 400 * 400 +
    (if month ≤ 2 then 1 else 0) = year := by
    unfold marchYear
    split_ifs <;> omega
  have dayOfMonth : monthStart (marchMonth month) + day - 1 - monthStart (marchMonth month) + 1 =
    day := by omega
  rw [shifted, dayOfMonth]

/-- The date of a number is a date of the calendar with that number. -/
theorem eraNumber_ofNumber (date : ofNumber number = (year, month, day)) :
    Valid year month day ∧ eraNumber year month day = number := by
  obtain ⟨marchYears, dayOfYear, year_nonneg, year_le, day_nonneg, day_lt, split⟩ :=
    @exists_year ((number + 719468) % 146097) (by omega) (by omega)
  obtain ⟨month_nonneg, month_le, first, last⟩ := monthOfYear_spec day_nonneg day_lt
  rw [@ofNumber_eq number ((number + 719468) / 146097) _ _ year_nonneg year_le day_nonneg day_lt
    (by omega)] at date
  obtain ⟨rfl, rfl, rfl⟩ : _ = year ∧ _ = month ∧ _ = day := by
    simpa only [Prod.mk.injEq] using date
  generalize monthOfYear dayOfYear = months at *
  have bounds : 1 ≤ calendarMonth months ∧ calendarMonth months ≤ 12 := by
    unfold calendarMonth
    split_ifs <;> omega
  have back : marchMonth (calendarMonth months) = months := by
    unfold calendarMonth marchMonth
    split_ifs <;> omega
  generalize calendarMonth months = month at *
  have shifted :
    marchYear (marchYears + (number + 719468) / 146097 * 400 + (if month ≤ 2 then 1 else 0)) month =
      marchYears + (number + 719468) / 146097 * 400 := by
    unfold marchYear
    split_ifs <;> omega
  have inEra : (marchYears + (number + 719468) / 146097 * 400) % 400 = marchYears := by omega
  refine ⟨⟨bounds.1, bounds.2, first, ?_⟩, ?_⟩
  · rwa [monthLength_eq bounds.1 bounds.2, shifted, back, inEra]
  · rw [eraNumber, shifted, back, inEra]
    omega

/-- Days and dates of the calendar correspond. -/
theorem ofNumber_eq_iff :
    ofNumber number = (year, month, day) ↔ Valid year month day ∧
      dayNumber year month day = number := by
  constructor
  · intro date
    obtain ⟨valid, same⟩ := eraNumber_ofNumber date
    exact ⟨valid, by rw [dayNumber_eq valid.firstMonth valid.lastMonth, same]⟩
  · rintro ⟨valid, rfl⟩
    rw [dayNumber_eq valid.firstMonth valid.lastMonth, ofNumber_eraNumber valid]

end Gregorian

import SpectraLang.Lib.Decimal
import SpectraLang.Lib.Gregorian
import SpectraLang.Lib.Int64Range
import SpectraLang.Stdlib.Text

/-! # Calendar dates

`std.calendar` computes days from dates, the runtime's `time` module computes dates from days, and
the ISO text of a date goes through both. Numbers are 64-bit integers, whose division rounds towards
zero.
-/

namespace SpectraLang.Stdlib.Calendar

open List Utf8 Gregorian Int64Range Decimal
open Int64 (lt_iff_toInt_lt ofInt_add ofInt_sub ofInt_mul ofInt_toInt toInt_inj)

/-- `i64::div_euclid`. -/
def divEuclid (value divisor : Int64) : Int64 :=
  let quotient := value / divisor
  if value % divisor < 0 then (if 0 < divisor then quotient - 1 else quotient + 1) else quotient

def civilFromDays (days : Int64) : Int64 × Int64 × Int64 :=
  let z := days + 719468
  let era := (if 0 ≤ z then z else z - 146096) / 146097
  let doe := z - era * 146097
  let yoe := (doe - doe / 1460 + doe / 36524 - doe / 146096) / 365
  let y := yoe + era * 400
  let doy := doe - (365 * yoe + yoe / 4 - yoe / 100)
  let mp := (5 * doy + 2) / 153
  let d := doy - (153 * mp + 2) / 5 + 1
  let m := mp + (if mp < 10 then 3 else -9)
  (y + (if m ≤ 2 then 1 else 0), m, d)

/-- The date fields of `utc_from_unix_seconds`. -/
def utcFromUnixSeconds (secs : Int64) : Int64 × Int64 × Int64 :=
  civilFromDays (divEuclid secs 86400)

/-- `int_to_string`. -/
def intToString (value : Int64) : Text :=
  if value < 0 then '-' :: Nat.toDigits 10 value.toInt.natAbs else Nat.toDigits 10
    value.toInt.natAbs

/-- `pad_left` with a narrow character. -/
def padLeft (text : Text) (width : Nat) (pad : Char) : Text :=
  if width ≤ len text then text else List.replicate (width - len text) pad ++ text

def isLeapYear (year : Int64) : Bool :=
  if year % 4 ≠ 0 then false
  else if year % 100 ≠ 0 then true
  else year % 400 = 0

def daysInMonth (year month : Int64) : Option Int64 :=
  if month < 1 ∨ 12 < month then none
  else if month = 2 then (if isLeapYear year then some 29 else some 28)
  else if month = 4 ∨ month = 6 ∨ month = 9 ∨ month = 11 then some 30
  else some 31

def floorDiv (value divisor : Int64) : Int64 :=
  let quotient := value / divisor
  if value % divisor ≠ 0 then
    if decide (value < 0) ≠ decide (divisor < 0) then quotient - 1 else quotient
  else quotient

def daysFromCivil (year month day : Int64) : Int64 :=
  let shiftedYear := if month ≤ 2 then year - 1 else year
  let era := floorDiv shiftedYear 400
  let yearOfEra := shiftedYear - era * 400
  let monthTerm := if 2 < month then month - 3 else month + 9
  let dayOfYear := (153 * monthTerm + 2) / 5 + day - 1
  let dayOfEra := yearOfEra * 365 + yearOfEra / 4 - yearOfEra / 100 + dayOfYear
  era * 146097 + dayOfEra - 719468

/-- `padded`: the sign of a negative number stays outside the digits. -/
def padded (value : Int64) (width : Nat) : Text :=
  if value < 0 then '-' :: padLeft (intToString (0 - value)) (if width < 4 then 4 else width) '0'
  else padLeft (intToString value) width '0'

def formatIsoDate (unixSecs : Int64) : Text :=
  let (year, month, day) := utcFromUnixSeconds unixSecs
  padded year 4 ++ '-' :: padded month 2 ++ '-' :: padded day 2

/-- The loop of `read_digits`, -1 at anything but a digit. -/
def readLoop (text : Text) (offset : Nat) : Nat → Nat → Int → Int
  | 0, _, value => value
  | count + 1, index, value =>
    let code := charAt text (offset + index)
    if code < 48 ∨ 57 < code then -1 else readLoop text offset count (index + 1)
      (value * 10 + (code - 48))

/-- `read_digits`; the source reads at most four digits. -/
def readDigits (text : Text) (offset count : Nat) : Int := readLoop text offset count 0 0

def parseIsoDate (text : Text) : Option Int64 :=
  if len text ≠ 10 then none
  else if charAt text 4 ≠ 45 ∨ charAt text 7 ≠ 45 then none
  else
    let year := Int64.ofInt (readDigits text 0 4)
    let month := Int64.ofInt (readDigits text 5 2)
    let day := Int64.ofInt (readDigits text 8 2)
    if year < 0 ∨ month < 1 ∨ 12 < month ∨ day < 0 then none
    else
      let limit := (daysInMonth year month).getD 0
      if day < 1 ∨ limit < day then none else some (daysFromCivil year month day * 86400)

section
variable {a b : Int64} {x y : Int} (left : a.toInt = x) (right : b.toInt = y) (positive : 0 < y)
include left right positive

/-- The quotient is corrected by one when it was rounded up. -/
theorem toInt_rounded {up : Prop} [Decidable up] (rounds : up ↔ x < 0 ∧ ¬ y ∣ x) :
    (if up then a / b - 1 else a / b).toInt = x / y := by
  have quotient := toInt_div left right positive
  split_ifs with isUp
  · have corrected := tdiv_of_neg positive (rounds.mp isUp).1 (rounds.mp isUp).2
    rw [toInt_sub quotient (show (1 : Int64).toInt = 1 from rfl)
      (corrected ▸ fits_ediv (left ▸ fits_toInt a) positive), corrected]
  · rw [quotient, tdiv_of_dvd]
    by_contra neither
    exact isUp (rounds.mpr ⟨by omega, by omega⟩)

theorem toInt_floorDiv : (floorDiv a b).toInt = x / y := by
  have divisor : ¬ b < 0 := by
    rw [lt_iff_toInt_lt, right, Int64.toInt_zero]
    omega
  unfold floorDiv
  simp only [← ite_and]
  refine toInt_rounded left right positive ?_
  rw [ne_eq, mod_eq_zero_iff left right, and_comm, decide_eq_false divisor, ne_eq,
    decide_eq_false_iff_not, not_not, lt_iff_toInt_lt, left, Int64.toInt_zero]

theorem toInt_divEuclid : (divEuclid a b).toInt = x / y := by
  have divisor : 0 < b := by rwa [lt_iff_toInt_lt, right, Int64.toInt_zero]
  unfold divEuclid
  simp only [if_pos divisor]
  exact toInt_rounded left right positive (mod_neg_iff left right positive)

end

/-- Days whose count from the start of the first era fits; the day of every timestamp does. -/
def Representable (number : Int) : Prop := -2 ^ 63 ≤ number ∧ number + 719468 < 2 ^ 63

variable {day year month days : Int64} {number : Int} {text : Text}

section
variable (low : 0 ≤ number)
include low

theorem ofInt_yearOfEra (high : number ≤ 146096) : .ofInt (yearOfEra number) =
    (.ofInt number - .ofInt number / 1460 + .ofInt number / 36524 - .ofInt number / 146096 :
      Int64) / 365 := by
  unfold yearOfEra
  simp (disch := omega) only [ofInt_add, ofInt_sub, ofInt_ediv]
  rfl

theorem ofInt_yearStart (high : number ≤ 399) :
    .ofInt (yearStart number) = (365 * .ofInt number + .ofInt number / 4 - .ofInt number / 100 :
      Int64) := by
  unfold yearStart
  simp (disch := omega) only [ofInt_add, ofInt_sub, ofInt_mul, ofInt_ediv]
  rfl

theorem ofInt_monthOfYear (high : number ≤ 365) :
    .ofInt (monthOfYear number) = (5 * .ofInt number + 2 : Int64) / 153 := by
  unfold monthOfYear
  simp (disch := omega) only [ofInt_add, ofInt_mul, ofInt_ediv]
  rfl

theorem ofInt_monthStart (high : number ≤ 11) :
    .ofInt (monthStart number) = (153 * .ofInt number + 2 : Int64) / 5 := by
  unfold monthStart
  simp (disch := omega) only [ofInt_add, ofInt_mul, ofInt_ediv]
  rfl

theorem ofInt_calendarMonth (high : number ≤ 11) :
    .ofInt (calendarMonth number) = Int64.ofInt number +
      (if Int64.ofInt number < 10 then 3 else -9) := by
  have isEarly : Int64.ofInt number < 10 ↔ number < 10 := by
    rw [lt_iff_toInt_lt, toInt_ofInt ⟨by omega, by omega⟩]
    rfl
  rw [calendarMonth, if_congr isEarly rfl rfl]
  split_ifs
  · exact ofInt_add ..
  · exact ofInt_add number (-9)

end

theorem toInt_daysFromCivil (valid : Valid year.toInt month.toInt day.toInt)
    (representable : Representable (dayNumber year.toInt month.toInt day.toInt)) :
    (daysFromCivil year month day).toInt = dayNumber year.toInt month.toInt day.toInt := by
  have days := valid.day_le
  obtain ⟨low, high, first, last⟩ := valid
  rw [dayNumber_eq low high, eraNumber] at representable
  obtain ⟨below, above⟩ := representable
  obtain ⟨firstMonth, lastMonth⟩ := marchMonth_bounds low high
  have inYear := monthStart_bounds firstMonth lastMonth
  have inEra := @yearStart_bounds (marchYear year.toInt month.toInt % 400) (by omega) (by omega)
  have isEarly : month ≤ 2 ↔ month.toInt ≤ 2 := Int64.le_iff_toInt_le
  have isLate : 2 < month ↔ 2 < month.toInt := lt_iff_toInt_lt
  have shifted : (if month ≤ 2 then year - 1 else year) = .ofInt
    (marchYear year.toInt month.toInt) := by
    rw [marchYear, if_congr isEarly rfl rfl, apply_ite Int64.ofInt, ofInt_sub, ofInt_toInt]
    rfl
  have term : (if 2 < month then month - 3 else month + 9) = .ofInt (marchMonth month.toInt) := by
    rw [marchMonth, if_congr isLate rfl rfl, apply_ite Int64.ofInt, ofInt_sub, ofInt_add,
      ofInt_toInt]
    rfl
  rw [dayNumber_eq low high, eraNumber, daysFromCivil, shifted, term]
  generalize marchYear year.toInt month.toInt = years at *
  have eras : floorDiv (.ofInt years) 400 = .ofInt (years / 400) := by
    rw [← toInt_inj, toInt_floorDiv (toInt_ofInt ⟨by omega, by omega⟩)
      (show (400 : Int64).toInt = 400 from rfl) (by decide),
      toInt_ofInt ⟨by omega, by omega⟩]
  have yearNumber : .ofInt years - .ofInt (years / 400) * 400 = Int64.ofInt (years % 400) := by
    rw [show years % 400 = years - years / 400 * 400 by omega, ofInt_sub, ofInt_mul]
    rfl
  refine Eq.trans ?_ (toInt_ofInt ⟨below, Int.lt_of_le_of_lt (by omega) above⟩)
  simp only [eras, yearNumber, ofInt_add, ofInt_sub, ofInt_mul, ofInt_toInt,
    ofInt_monthStart firstMonth lastMonth,
    ofInt_yearStart (show 0 ≤ years % 400 by omega) (by omega), Int64.mul_comm 365]
  rfl

theorem tdiv_era (negative : number < 0) : (number - 146096).tdiv 146097 = number / 146097 := by
  rw [Int.tdiv_eq_ediv]
  split_ifs with even
  · omega
  · rw [show Int.sign 146097 = 1 from rfl]
    omega

/-- The era of a day: below zero the quotient is rounded down by hand. -/
theorem toInt_era {z : Int64} (count : z.toInt = number) (fits : Fits (number - 146096)) :
    ((if 0 ≤ z then z else z - 146096) / 146097).toInt = number / 146097 := by
  have nonneg : 0 ≤ z ↔ 0 ≤ number := by
    rw [Int64.le_iff_toInt_le, count]
    rfl
  split_ifs with positive
  · exact toInt_div_of_nonneg count (show (146097 : Int64).toInt = 146097 from rfl)
      (nonneg.mp positive) (by decide)
  · have shifted := toInt_sub count (show (146096 : Int64).toInt = 146096 from rfl) fits
    rw [toInt_div shifted (show (146097 : Int64).toInt = 146097 from rfl) (by decide),
      tdiv_era (Int.not_le.mp (mt nonneg.mpr positive))]

/-- The runtime's date of a day is the date of the calendar. -/
theorem toInt_civilFromDays (representable : Representable days.toInt) :
    ofNumber days.toInt =
      ((civilFromDays days).1.toInt, (civilFromDays days).2.1.toInt,
        (civilFromDays days).2.2.toInt) := by
  obtain ⟨below, above⟩ := representable
  have z := toInt_add (@rfl _ days.toInt) (show (719468 : Int64).toInt = 719468 from rfl)
    ⟨by omega, by omega⟩
  have era := toInt_era z ⟨by omega, by omega⟩
  obtain ⟨year, day, year_nonneg, year_le, day_nonneg, day_lt, split⟩ :=
    @exists_year ((days.toInt + 719468) % 146097) (by omega) (by omega)
  have day_le := Int.le_of_lt_add_one (Int.lt_of_lt_of_le day_lt (yearLength_le year))
  obtain ⟨month_nonneg, month_le, first, last⟩ := monthOfYear_spec day_nonneg day_lt
  have doe : days + 719468 - .ofInt ((days.toInt + 719468) / 146097) * 146097 = .ofInt
    (yearStart year + day) := by
    rw [← split, Int.emod_def, Int.mul_comm, ofInt_sub, ofInt_mul, ofInt_add, ofInt_toInt]
    rfl
  have doy : .ofInt (yearStart year + day) - .ofInt (yearStart year) = Int64.ofInt day := by
    rw [← ofInt_sub, add_sub_cancel_left]
  rw [ofNumber_eq year_nonneg year_le day_nonneg day_lt
    (show _ = (days.toInt + 719468) / 146097 * 146097 + _ by omega)]
  obtain ⟨yoe, _, _⟩ := yearOfEra_eq year_nonneg year_le day_nonneg day_lt
  rw [← @toInt_ofInt (_ / 146097) ⟨by omega, by omega⟩, toInt_inj] at era
  unfold civilFromDays
  simp only [era, doe, ← ofInt_yearOfEra (show 0 ≤ yearStart year + day by omega) (by omega), yoe,
    ← ofInt_yearStart year_nonneg year_le, doy, ← ofInt_monthOfYear day_nonneg day_le,
    ← ofInt_monthStart month_nonneg month_le, ← ofInt_calendarMonth month_nonneg month_le]
  generalize monthOfYear day = months at *
  have bounds : 1 ≤ calendarMonth months ∧ calendarMonth months ≤ 12 := by
    unfold calendarMonth
    split_ifs <;> omega
  have monthIs := @toInt_ofInt (calendarMonth months) ⟨by omega, by omega⟩
  have isEarly : Int64.ofInt (calendarMonth months) ≤ 2 ↔ calendarMonth months ≤ 2 := by
    rw [Int64.le_iff_toInt_le, monthIs]
    rfl
  have y : .ofInt year + .ofInt ((days.toInt + 719468) / 146097) * 400 +
    (if calendarMonth months ≤ 2 then 1 else 0) =
      Int64.ofInt (year + (days.toInt + 719468) / 146097 * 400 + if calendarMonth months ≤
        2 then 1 else 0) := by
    rw [ofInt_add, ofInt_add, ofInt_mul, apply_ite Int64.ofInt]
    rfl
  have d : .ofInt day - .ofInt (monthStart months) + 1 = Int64.ofInt
    (day - monthStart months + 1) := by
    rw [ofInt_add, ofInt_sub]
    rfl
  have dayInMonth := (monthStart_bounds month_nonneg month_le).1
  rw [if_congr isEarly rfl rfl, monthIs, y, d, toInt_ofInt ⟨by omega, by omega⟩,
    toInt_ofInt ⟨by omega, by omega⟩]

/-- A year of four digits, a month and a day of two. -/
structure Fields (year month day : Text) : Prop where
  yearLength : year.length = 4
  monthLength : month.length = 2
  dayLength : day.length = 2
  yearDigits : Digits year
  monthDigits : Digits month
  dayDigits : Digits day

/-- The text of a date. -/
def isoText (year month day : Text) : Text := year ++ '-' :: month ++ '-' :: day

theorem narrow_of_digits (digits : Digits text) : ∀ c ∈ text, c.toNat < 128 := fun c member => by
  have := (digits c member).2
  omega

theorem Fields.read {year month day : Text} (fields : Fields year month day) :
    len (isoText year month day) = 10 ∧ charAt (isoText year month day) 4 = 45 ∧
      charAt (isoText year month day) 7 = 45 ∧
      readDigits (isoText year month day) 0 4 = Nat.ofDigitChars 10 year 0 ∧
      readDigits (isoText year month day) 5 2 = Nat.ofDigitChars 10 month 0 ∧
      readDigits (isoText year month day) 8 2 = Nat.ofDigitChars 10 day 0 := by
  obtain ⟨yearLength, monthLength, dayLength, yearDigits, monthDigits, dayDigits⟩ := fields
  rcases year with _ | ⟨y0, _ | ⟨y1, _ | ⟨y2, _ | ⟨y3, _ | ⟨_, _⟩⟩⟩⟩⟩ <;> simp at yearLength
  obtain ⟨m0, m1, rfl⟩ := length_eq_two.mp monthLength
  obtain ⟨d0, d1, rfl⟩ := length_eq_two.mp dayLength
  simp only [Digits, forall_mem_cons, ↓forall_mem_singleton] at yearDigits monthDigits dayDigits
  have narrow : ∀ c ∈ isoText [y0, y1, y2, y3] [m0, m1] [d0, d1], c.toNat < 128 := by
    simp [isoText]
    omega
  have zero : '0'.toNat = 48 := rfl
  rw [len_narrow narrow]
  generalize whole : isoText [y0, y1, y2, y3] [m0, m1] [d0, d1] = text at narrow
  have codes : charAt text 0 = y0.toNat ∧ charAt text 1 = y1.toNat ∧ charAt text 2 = y2.toNat ∧
      charAt text 3 = y3.toNat ∧ charAt text 4 = 45 ∧ charAt text 5 = m0.toNat ∧
        charAt text 6 = m1.toNat ∧
      charAt text 7 = 45 ∧ charAt text 8 = d0.toNat ∧ charAt text 9 = d1.toNat := by
    simp only [charAt, bytes_narrow narrow]
    subst whole
    and_intros <;> rfl
  simp (disch := omega) only [readDigits, readLoop, Nat.reduceAdd, codes, if_neg,
    Nat.ofDigitChars_cons, Nat.ofDigitChars_nil]
  refine ⟨by simp [← whole, isoText], trivial, trivial, ?_⟩
  omega

/-- A field with a sign or anything but digits reads as -1. -/
theorem readLoop_cases {text : Text} {offset count index : Nat} {value : Int} (nonneg : 0 ≤ value) :
    readLoop text offset count index value = -1 ∨ (0 ≤ readLoop text offset count index value ∧
      ∀ place < count, 48 ≤ charAt text (offset + (index + place)) ∧
        charAt text (offset + (index + place)) ≤ 57) := by
  induction count generalizing index value with
  | zero => exact .inr ⟨nonneg, fun place inside => absurd inside (Nat.not_lt_zero place)⟩
  | succ count ih =>
    rw [readLoop]
    split_ifs with other
    · exact .inl rfl
    · rcases @ih (index + 1) (value * 10 + (charAt text (offset + index) - 48))
        (by omega) with failed | ⟨read, digits⟩
      · exact .inl failed
      · refine .inr ⟨read, fun place inside => ?_⟩
        cases place with
        | zero =>
          rw [Nat.add_zero]
          omega
        | succ place =>
          have next := digits place (Nat.lt_of_succ_lt_succ inside)
          rwa [Nat.add_right_comm, Nat.add_assoc] at next

theorem isLeapYear_iff (year : Int64) : isLeapYear year = true ↔ Leap year.toInt := by
  have fours := @mod_eq_zero_iff year 4 _ _ rfl (show (4 : Int64).toInt = 4 from rfl)
  have hundreds := @mod_eq_zero_iff year 100 _ _ rfl (show (100 : Int64).toInt = 100 from rfl)
  have cycles := @mod_eq_zero_iff year 400 _ _ rfl (show (400 : Int64).toInt = 400 from rfl)
  unfold isLeapYear
  split_ifs with uneven common
  · have := mt fours.mpr uneven
    rw [Leap, false_iff]
    omega
  · have := fours.mp (not_not.mp uneven)
    have := mt hundreds.mpr common
    rw [Leap, eq_self_iff_true, true_iff]
    omega
  · have := fours.mp (not_not.mp uneven)
    have := hundreds.mp (not_not.mp common)
    rw [Leap, decide_eq_true_iff, cycles]
    omega

theorem toInt_daysInMonth {year month : Int64} (low : 1 ≤ month.toInt) (high : month.toInt ≤ 12) :
    ∃ limit, daysInMonth year month = some limit ∧
      limit.toInt = Gregorian.monthLength year.toInt month.toInt := by
  have inside : ¬ (month < 1 ∨ 12 < month) := by
    simp only [lt_iff_toInt_lt, Int64.reduceToInt]
    omega
  unfold daysInMonth Gregorian.monthLength
  simp only [if_neg inside, isLeapYear_iff, ← toInt_inj, Int64.reduceToInt]
  split_ifs
  · exact ⟨29, rfl, rfl⟩
  · exact ⟨28, rfl, rfl⟩
  · exact ⟨30, rfl, rfl⟩
  · exact ⟨31, rfl, rfl⟩

/-- A text with digits and dashes in their places is the text of a date. -/
theorem exists_fields (length : len text = 10) (dash : charAt text 4 = 45)
    (dash' : charAt text 7 = 45)
    (year : ∀ place < 4, 48 ≤ charAt text (0 + (0 + place)) ∧ charAt text (0 + (0 + place)) ≤ 57)
    (month : ∀ place < 2, 48 ≤ charAt text (5 + (0 + place)) ∧ charAt text (5 + (0 + place)) ≤ 57)
    (day : ∀ place < 2, 48 ≤ charAt text (8 + (0 + place)) ∧ charAt text (8 + (0 + place)) ≤ 57) :
    ∃ year month day, Fields year month day ∧ text = isoText year month day := by
  simp only [Nat.forall_lt_succ_left, Nat.zero_add, Nat.reduceAdd, Nat.not_lt_zero, false_imp_iff,
    implies_true, and_true] at year month day
  have known (index : Nat) (inside : index < 10) : charAt text index ≤ 57 := by
    interval_cases index <;> omega
  have narrow : ∀ c ∈ text, c.toNat < 128 := by
    refine narrow_of_bytes fun byte member => ?_
    obtain ⟨index, inside, rfl⟩ := mem_iff_getElem.mp member
    have here : charAt text index = (bytes text)[index] := by
      rw [charAt, getElem?_eq_getElem inside]
    have := known index (length ▸ inside)
    omega
  rw [len_narrow narrow] at length
  simp only [charAt, bytes_narrow narrow] at dash dash' year month day
  obtain ⟨y0, y1, y2, y3, first, m0, m1, second, d0, d1, rfl⟩ :
    ∃ y0 y1 y2 y3 first m0 m1 second d0 d1,
      text = [y0, y1, y2, y3, first, m0, m1, second, d0, d1] := by
    rcases text with _ |
      ⟨y0, _ | ⟨y1, _ | ⟨y2, _ | ⟨y3, _ | ⟨first, _ | ⟨m0, _ | ⟨m1, _ | ⟨second, _ | ⟨d0, _ | ⟨d1,
      _ | ⟨more, rest⟩⟩⟩⟩⟩⟩⟩⟩⟩⟩⟩ <;> simp at length
    exact ⟨y0, y1, y2, y3, first, m0, m1, second, d0, d1, rfl⟩
  obtain rfl : first = '-' := Char.toNat_inj.mp (Int.natCast_inj.mp dash)
  obtain rfl : second = '-' := Char.toNat_inj.mp (Int.natCast_inj.mp dash')
  refine ⟨[y0, y1, y2, y3], [m0, m1], [d0, d1], ⟨rfl, rfl, rfl, ?_, ?_, ?_⟩, rfl⟩
  · simpa [Digits] using year
  · simpa [Digits] using month
  · simpa [Digits] using day

/-- A number of a few digits is padded to all of them. -/
theorem padded_fields {value : Int64} {number : Nat} (exact : value.toInt = number) {width : Nat}
    (positive : 0 < width) (fits : number < 10 ^ width) :
    (padded value width).length = width ∧ Digits (padded value width) ∧
      Nat.ofDigitChars 10 (padded value width) 0 = number := by
  have nonneg : ¬ value < 0 := by
    rw [lt_iff_toInt_lt, exact, Int64.toInt_zero]
    omega
  have text : padded value width =
      List.replicate (width - (Nat.toDigits 10 number).length) '0' ++ Nat.toDigits 10 number := by
    rw [padded, if_neg nonneg, intToString, if_neg nonneg, exact, Int.natAbs_natCast, padLeft,
      len_narrow (narrow_of_digits (digits_toDigits number))]
    split_ifs with long
    · rw [Nat.sub_eq_zero_of_le long, replicate_zero, nil_append]
    · rfl
  rw [text]
  exact ⟨length_padded positive fits, digits_padded number width, ofDigitChars_padded number width⟩

theorem representable_day (secs : Int64) : Representable (divEuclid secs 86400).toInt := by
  obtain ⟨low, high⟩ := fits_toInt secs
  rw [toInt_divEuclid rfl (show (86400 : Int64).toInt = 86400 from rfl) (by decide)]
  constructor <;> omega

theorem daysFromCivil_civilFromDays (representable : Representable days.toInt)
    (civil : civilFromDays days = (year, month, day)) :
    Valid year.toInt month.toInt day.toInt ∧ daysFromCivil year month day = days := by
  have date := toInt_civilFromDays representable
  rw [civil] at date
  obtain ⟨valid, number⟩ := ofNumber_eq_iff.mp date
  refine ⟨valid, toInt_inj.mp ?_⟩
  rw [toInt_daysFromCivil valid (number ▸ representable), number]

theorem parseIsoDate_fields {year month day : Text} (fields : Fields year month day)
    {years months : Int64}
    (yearRead : years.toInt = Nat.ofDigitChars 10 year 0)
      (monthRead : months.toInt = Nat.ofDigitChars 10 month 0)
    (dayRead : days.toInt = Nat.ofDigitChars 10 day 0)
      (valid : Valid years.toInt months.toInt days.toInt) :
    parseIsoDate (isoText year month day) = some (daysFromCivil years months days * 86400) := by
  obtain ⟨length, dash, dash', readYear, readMonth, readDay⟩ := fields.read
  obtain ⟨limit, found, exactLimit⟩ :=
    @toInt_daysInMonth years months valid.firstMonth valid.lastMonth
  obtain ⟨firstMonth, lastMonth, first, last⟩ := valid
  rw [parseIsoDate, if_neg (not_not.mpr length), if_neg (by rw [dash, dash']; decide)]
  simp only [readYear, readMonth, readDay, ← yearRead, ← monthRead, ← dayRead, ofInt_toInt, found,
    Option.getD_some]
  rw [if_neg, if_neg]
  · simp only [lt_iff_toInt_lt, exactLimit, Int64.reduceToInt]
    omega
  · simp only [lt_iff_toInt_lt, Int64.reduceToInt]
    omega

/-- The number of a field of a few digits. -/
theorem toInt_field {digits : Text} (isDigits : Digits digits) {width : Nat}
    (length : digits.length = width) (short : width ≤ 4) :
    (Int64.ofInt (Nat.ofDigitChars 10 digits 0)).toInt = Nat.ofDigitChars 10 digits 0 ∧
      Nat.ofDigitChars 10 digits 0 < 10 ^ width := by
  have bound := ofDigitChars_lt isDigits Nat.zero_lt_one
  rw [length, Nat.one_mul] at bound
  have limit : 10 ^ width ≤ 10 ^ 4 := Nat.pow_le_pow_right (by decide) short
  exact ⟨toInt_ofInt ⟨by omega, by omega⟩, bound⟩

/-- A date that is read has fields, and they are those of a valid date. -/
theorem fields_of_parseIsoDate {stamp : Int64} (parsed : parseIsoDate text = some stamp) :
    ∃ year month day, Fields year month day ∧ text = isoText year month day ∧
      Valid (Nat.ofDigitChars 10 year 0) (Nat.ofDigitChars 10 month 0) (Nat.ofDigitChars 10 day 0) ∧
      stamp = daysFromCivil (Int64.ofInt (Nat.ofDigitChars 10 year 0))
        (Int64.ofInt (Nat.ofDigitChars 10 month 0))
        (Int64.ofInt (Nat.ofDigitChars 10 day 0)) * 86400 := by
  unfold parseIsoDate at parsed
  simp only at parsed
  split_ifs at parsed with length dashes outside limit
  have digits {offset count : Nat} (read : readDigits text offset count ≠ -1) :
      ∀ place < count, 48 ≤ charAt text (offset + (0 + place)) ∧
        charAt text (offset + (0 + place)) ≤ 57 := by
    rcases @readLoop_cases text offset count 0 0 (Int.le_refl 0) with failed | ⟨-, known⟩
    · exact absurd failed read
    · exact known
  obtain ⟨dash, dash'⟩ := not_or.mp dashes
  obtain ⟨year, month, day, fields, rfl⟩ := exists_fields (not_not.mp length) (not_not.mp dash)
    (not_not.mp dash') (digits fun failed => outside (.inl (by rw [failed]; decide)))
    (digits fun failed => outside (.inr (.inl (by rw [failed]; decide))))
    (digits fun failed => outside (.inr (.inr (.inr (by rw [failed]; decide)))))
  obtain ⟨-, -, -, readYear, readMonth, readDay⟩ := fields.read
  rw [readYear, readMonth, readDay] at parsed outside limit
  have months := toInt_field fields.monthDigits fields.monthLength (by decide)
  have days := toInt_field fields.dayDigits fields.dayLength (by decide)
  simp only [lt_iff_toInt_lt, months.1, Int64.reduceToInt] at outside
  obtain ⟨bound, found, exactBound⟩ := @toInt_daysInMonth (Int64.ofInt (Nat.ofDigitChars 10 year 0))
    (Int64.ofInt (Nat.ofDigitChars 10 month 0)) (by rw [months.1]; omega) (by rw [months.1]; omega)
  have years := toInt_field fields.yearDigits fields.yearLength (by decide)
  rw [months.1, years.1] at exactBound
  simp only [found, Option.getD_some, lt_iff_toInt_lt, exactBound, days.1, Int64.reduceToInt]
    at limit
  exact ⟨year, month, day, fields, rfl, ⟨by omega, by omega, by omega, by omega⟩,
    (Option.some.inj parsed).symm⟩

section
variable (valid : Valid year.toInt month.toInt day.toInt)
include valid

theorem civilFromDays_daysFromCivil
    (representable : Representable (dayNumber year.toInt month.toInt day.toInt)) :
    civilFromDays (daysFromCivil year month day) = (year, month, day) := by
  have days := toInt_daysFromCivil valid representable
  have date := toInt_civilFromDays (days ▸ representable)
  rw [days, ofNumber_eq_iff.mpr ⟨valid, rfl⟩] at date
  simp only [Prod.mk.injEq, toInt_inj] at date
  exact Prod.ext date.1.symm (Prod.ext date.2.1.symm date.2.2.symm)

/-- The day and the midnight of a date of a year of at most four digits. -/
theorem toInt_midnight (low : 0 ≤ year.toInt) (high : year.toInt ≤ 9999) :
    Representable (dayNumber year.toInt month.toInt day.toInt) ∧
      (daysFromCivil year month day * 86400).toInt = dayNumber year.toInt month.toInt day.toInt *
        86400 := by
  have bounds := dayNumber_bounds valid low high
  have representable : Representable (dayNumber year.toInt month.toInt day.toInt) :=
    ⟨by omega, by omega⟩
  refine ⟨representable, ?_⟩
  exact toInt_mul (toInt_daysFromCivil valid representable)
    (show (86400 : Int64).toInt = 86400 from rfl)
    ⟨by omega, by omega⟩

theorem utcFromUnixSeconds_midnight (low : 0 ≤ year.toInt)
    (high : year.toInt ≤ 9999) : utcFromUnixSeconds (daysFromCivil year month day * 86400) =
      (year, month, day) := by
  obtain ⟨representable, midnight⟩ := toInt_midnight valid low high
  have sameDay : divEuclid (daysFromCivil year month day * 86400) 86400 = daysFromCivil year month
    day := by
    apply toInt_inj.mp
    rw [toInt_divEuclid midnight (show (86400 : Int64).toInt = 86400 from rfl) (by decide),
      Int.mul_ediv_cancel _ (by decide), toInt_daysFromCivil valid representable]
  rw [utcFromUnixSeconds, sameDay, civilFromDays_daysFromCivil valid representable]

end

theorem parseIsoDate_formatIsoDate {secs : Int64} (low : 0 ≤ (utcFromUnixSeconds secs).1.toInt)
    (high : (utcFromUnixSeconds secs).1.toInt ≤ 9999) :
    ∃ midnight, parseIsoDate (formatIsoDate secs) = some midnight ∧
      midnight.toInt = secs.toInt / 86400 * 86400 := by
  rcases shape : utcFromUnixSeconds secs with ⟨year, month, day⟩
  rw [shape] at low high
  simp only at low high
  have days := toInt_divEuclid (@rfl _ secs.toInt) (show (86400 : Int64).toInt = 86400 from rfl)
    (by decide)
  obtain ⟨valid, back⟩ := daysFromCivil_civilFromDays (representable_day secs) shape
  obtain ⟨representable, midnight⟩ := toInt_midnight valid low high
  have number : dayNumber year.toInt month.toInt day.toInt = secs.toInt / 86400 := by
    rw [← toInt_daysFromCivil valid representable, back, days]
  obtain ⟨yearNumber, years⟩ := Int.eq_ofNat_of_zero_le low
  obtain ⟨monthNumber, months⟩ :=
    Int.eq_ofNat_of_zero_le (Int.le_trans (by decide) valid.firstMonth)
  obtain ⟨dayOfMonth, dates⟩ := Int.eq_ofNat_of_zero_le (Int.le_trans (by decide) valid.firstDay)
  have lastMonth := valid.lastMonth
  have lastDay := valid.day_le
  obtain ⟨yearLength, yearDigits, yearRead⟩ := @padded_fields year yearNumber years 4 (by decide)
    (by omega)
  obtain ⟨monthLength, monthDigits, monthRead⟩ :=
    @padded_fields month monthNumber months 2 (by decide) (by omega)
  obtain ⟨dayLength, dayDigits, dayRead⟩ := @padded_fields day dayOfMonth dates 2 (by decide)
    (by omega)
  have text : formatIsoDate secs = isoText (padded year 4) (padded month 2) (padded day 2) := by
    rw [formatIsoDate, shape]
    rfl
  refine ⟨_, ?_, by rw [midnight, number]⟩
  rw [text, parseIsoDate_fields ⟨yearLength, monthLength, dayLength, yearDigits, monthDigits,
    dayDigits⟩ (by rw [years, yearRead]) (by rw [months, monthRead]) (by rw [dates, dayRead]) valid]

/-- A field is written back as it was read. -/
theorem padded_field {digits : Text} (isDigits : Digits digits) {width : Nat}
    (length : digits.length = width)
    (positive : 0 < width) (short : width ≤ 4) :
      padded (Int64.ofInt (Nat.ofDigitChars 10 digits 0)) width = digits := by
  obtain ⟨exact, bound⟩ := toInt_field isDigits length short
  obtain ⟨paddedLength, paddedDigits, paddedRead⟩ := padded_fields exact positive bound
  exact (ofDigitChars_inj paddedDigits isDigits (paddedLength.trans length.symm) paddedRead).2

theorem formatIsoDate_parseIsoDate {stamp : Int64} (parsed : parseIsoDate text = some stamp) :
    formatIsoDate stamp = text := by
  obtain ⟨year, month, day, fields, rfl, valid, rfl⟩ := fields_of_parseIsoDate parsed
  have years := toInt_field fields.yearDigits fields.yearLength (by decide)
  have months := toInt_field fields.monthDigits fields.monthLength (by decide)
  have days := toInt_field fields.dayDigits fields.dayLength (by decide)
  rw [← years.1, ← months.1, ← days.1] at valid
  rw [formatIsoDate, utcFromUnixSeconds_midnight valid (by rw [years.1]; omega)
    (by rw [years.1]; omega)]
  simp only
  rw [padded_field fields.yearDigits fields.yearLength (by decide) (by decide),
    padded_field fields.monthDigits fields.monthLength (by decide) (by decide),
    padded_field fields.dayDigits fields.dayLength (by decide) (by decide), isoText]

/-- Dates and days correspond, and the text of a date is read back. -/
theorem calendar_round_trips :
    (∀ days year month day, Representable days.toInt → civilFromDays days = (year, month, day) →
      Valid year.toInt month.toInt day.toInt ∧ daysFromCivil year month day = days) ∧
    (∀ year month day : Int64, Valid year.toInt month.toInt day.toInt →
      Representable (dayNumber year.toInt month.toInt day.toInt) →
      civilFromDays (daysFromCivil year month day) = (year, month, day)) ∧
    (∀ secs, 0 ≤ (utcFromUnixSeconds secs).1.toInt → (utcFromUnixSeconds secs).1.toInt ≤ 9999 →
      ∃ midnight, parseIsoDate (formatIsoDate secs) = some midnight ∧
        midnight.toInt = secs.toInt / 86400 * 86400) ∧
    ∀ text stamp, parseIsoDate text = some stamp → formatIsoDate stamp = text :=
  ⟨fun _ _ _ _ => daysFromCivil_civilFromDays, fun _ _ _ => civilFromDays_daysFromCivil,
    fun _ => parseIsoDate_formatIsoDate, fun _ _ => formatIsoDate_parseIsoDate⟩

theorem calendar_round_trips_leap_day :
    civilFromDays (daysFromCivil 2024 2 29) = (2024, 2, 29) ∧
      formatIsoDate 1709164800 = "2024-02-29".toList :=
  ⟨calendar_round_trips.2.1 2024 2 29 ⟨by decide, by decide, by decide, by decide⟩
    ⟨by decide, by decide⟩, calendar_round_trips.2.2.2 "2024-02-29".toList 1709164800 (by decide)⟩

end SpectraLang.Stdlib.Calendar

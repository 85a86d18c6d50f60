import Mathlib.Algebra.Group.Nat.Defs
import Mathlib.Algebra.Group.Int.Defs
import Mathlib.Tactic.Common

/-! # 64-bit arithmetic within its range

An operation whose exact result fits in 64 bits gives that result. Every rule takes the exact values
of the operands, so that a computation is followed step by step.
-/

namespace Int64Range

/-- The numbers of 64 bits. -/
def Fits (number : Int) : Prop := -2 ^ 63 ≤ number ∧ number < 2 ^ 63

theorem fits_toInt (a : Int64) : Fits a.toInt := ⟨a.le_toInt, a.toInt_lt⟩

theorem Fits.bmod_eq {number : Int} (fits : Fits number) : number.bmod (2 ^ 64) = number :=
  Int.bmod_eq_of_le fits.1 fits.2

variable {a b : Int64} {x y : Int}

theorem toInt_ofInt (fits : Fits x) : (Int64.ofInt x).toInt = x :=
  Int64.toInt_ofInt_of_le fits.1 fits.2

section
variable (left : a.toInt = x) (right : b.toInt = y)
include left right

theorem toInt_add (fits : Fits (x + y)) : (a + b).toInt = x + y := by
  rw [Int64.toInt_add, left, right, fits.bmod_eq]

theorem toInt_sub (fits : Fits (x - y)) : (a - b).toInt = x - y := by
  rw [Int64.toInt_sub, left, right, fits.bmod_eq]

theorem toInt_mul (fits : Fits (x * y)) : (a * b).toInt = x * y := by
  rw [Int64.toInt_mul, left, right, fits.bmod_eq]

/-- Division rounds towards zero. -/
theorem toInt_div (positive : 0 < y) : (a / b).toInt = x.tdiv y := by
  have other : b ≠ -1 := by
    rintro rfl
    rw [show (-1 : Int64).toInt = -1 by decide] at right
    omega
  rw [Int64.toInt_div_of_ne_right a b other, left, right]

theorem toInt_div_of_nonneg (nonneg : 0 ≤ x) (positive : 0 < y) : (a / b).toInt = x / y := by
  rw [toInt_div left right positive, Int.tdiv_eq_ediv_of_nonneg nonneg]

theorem mod_eq_zero_iff : a % b = 0 ↔ y ∣ x := by
  rw [← Int64.toInt_inj, Int64.toInt_mod, Int64.toInt_zero, left, right, Int.dvd_iff_tmod_eq_zero]

theorem mod_neg_iff (positive : 0 < y) : a % b < 0 ↔ x < 0 ∧ ¬ y ∣ x := by
  have remainder := Int.emod_nonneg x (Int.ne_of_gt positive)
  have small := Int.emod_lt_of_pos x positive
  rw [Int64.lt_iff_toInt_lt, Int64.toInt_mod, Int64.toInt_zero, left, right, Int.tmod_eq_emod]
  split_ifs <;> omega

end

theorem tdiv_of_neg (positive : 0 < y) (negative : x < 0) (uneven : ¬ y ∣ x) :
    x.tdiv y - 1 = x / y := by
  rw [Int.tdiv_eq_ediv, if_neg (by omega), Int.sign_eq_one_of_pos positive]
  omega

theorem tdiv_of_dvd (even : 0 ≤ x ∨ y ∣ x) : x.tdiv y = x / y := by
  rw [Int.tdiv_eq_ediv, if_pos even]
  omega

theorem fits_ediv (fits : Fits x) (positive : 0 < y) : Fits (x / y) := by
  obtain ⟨low, high⟩ := fits
  constructor
  · exact Int.le_ediv_of_mul_le positive (by omega)
  · exact Int.ediv_lt_of_lt_mul positive (by omega)

theorem ofInt_ediv (nonneg : 0 ≤ x) (fits : x < 2 ^ 63) (positive : 0 < y) (small : y < 2 ^ 63) :
    Int64.ofInt (x / y) = Int64.ofInt x / Int64.ofInt y := by
  rw [← Int64.toInt_inj, toInt_div_of_nonneg (toInt_ofInt ⟨by omega, fits⟩)
    (toInt_ofInt ⟨by omega, small⟩) nonneg positive,
    toInt_ofInt (fits_ediv ⟨by omega, fits⟩ positive)]

end Int64Range

import Mathlib.Data.Nat.Choose.Basic
import Mathlib.Tactic.Linarith
import Mathlib.Tactic.Positivity
import Mathlib.Data.Nat.Sqrt
import Mathlib.Order.Bounds.Defs
import SpectraLang.Lib.Int64Range

/-! # Integer algorithms

`binomial` and `integer_sqrt` of `std.algorithms`. Every operation on `i64` gives its exact result,
or nothing when it does not fit; a computation that ends with a value has not overflowed. The
`Option` of the source is the inner one.
-/

namespace SpectraLang.Stdlib.Algorithms

open Int64Range

/-- The result of an `i64` operation. -/
def checked (number : Int) : Option Int :=
  if -2 ^ 63 ≤ number ∧ number < 2 ^ 63 then some number else none

/-- Division rounds towards zero. -/
def divide (x y : Int) : Option Int :=
  if y = 0 then none else checked (x.tdiv y)

def maxInt : Int := 9223372036854775807

/-- The loop of `binomial`. -/
def binomialLoop (n steps : Int) : Nat → Int → Int → Option (Option Int)
  | 0, _, _ => none
  | turns + 1, step, result =>
    if step ≤ steps then do
      let factor ← checked ((← checked (n - steps)) + step)
      if result > (← divide maxInt factor) then return none
      let quotient ← divide (← checked (result * factor)) step
      binomialLoop n steps turns (← checked (step + 1)) quotient
    else some (some result)

def binomial (n k : Int) : Option (Option Int) :=
  if n < 0 ∨ k < 0 ∨ k > n then some none
  else do
    let other ← checked (n - k)
    let steps := if other < k then other else k
    binomialLoop n steps (steps.toNat + 1) 1 1

/-- The loop of `integer_sqrt`. -/
def sqrtLoop (value : Int) : Nat → Int → Int → Int → Option Int
  | 0, _, _, _ => none
  | turns + 1, low, high, root =>
    if low ≤ high then do
      let middle ← checked (low + (← divide (← checked (high - low)) 2))
      if middle ≤ (← divide value middle) then
        sqrtLoop value turns (← checked (middle + 1)) high middle
      else sqrtLoop value turns low (← checked (middle - 1)) root
    else some root

def integerSqrt (value : Int) : Option (Option Int) :=
  if value < 0 then some none
  else (sqrtLoop value (value.toNat + 1) 1 value 0).map some

theorem checked_eq {number : Int} (low : -2 ^ 63 ≤ number) (high : number < 2 ^ 63) :
    checked number = some number :=
  if_pos ⟨low, high⟩

theorem divide_eq {x y : Int} (nonneg : 0 ≤ x) (fits : x < 2 ^ 63) (positive : 0 < y) :
    divide x y = some (x / y) := by
  have := Int.ediv_le_self y nonneg
  have := Int.ediv_nonneg nonneg (Int.le_of_lt positive)
  rw [divide, if_neg (Int.ne_of_gt positive), Int.tdiv_eq_ediv_of_nonneg nonneg,
    checked_eq (by omega) (by omega)]

/-- Before a step the running product is a binomial coefficient. -/
theorem binomialLoop_exact {lower steps : Nat} (half : steps ≤ lower)
    (fits : lower + steps < 2 ^ 63) (turns done : Nat)
    (enough : done + turns = steps + 1) (early : done ≤ steps) :
    ∃ outcome, binomialLoop (lower + steps : Nat) steps turns (done + 1)
      ((lower + done).choose done : Nat) = some outcome ∧
      ∀ r ∈ outcome, r = (lower + steps).choose steps := by
  induction turns generalizing done with
  | zero => omega
  | succ turns ih =>
    rw [binomialLoop]
    rcases early.eq_or_lt with rfl | more
    · rw [if_neg (by omega)]
      exact ⟨_, rfl, fun r member => (Option.mem_some.mp member).symm⟩
    have next := ih (done + 1) (by omega) more
    rw [if_pos (by omega)]
    simp (disch := omega) only [checked_eq, divide_eq, Option.bind_eq_bind, Option.bind_some,
      maxInt]
    split_ifs with large
    · exact ⟨none, rfl, by simp⟩
    · have factor : ((lower + steps : Nat) : Int) - steps + (done + 1) =
        (lower + done + 1 : Nat) := by omega
      rw [factor] at large ⊢
      have product : ((lower + done).choose done : Int) * (lower + done + 1 : Nat) =
          (lower + (done + 1)).choose (done + 1) * (done + 1) := by
        have := Nat.add_one_mul_choose_eq (lower + done) done
        rw [mul_comm]
        exact_mod_cast this
      have small := Int.mul_le_of_le_ediv (Int.natCast_pos.mpr (Nat.succ_pos _)) (not_lt.mp large)
      rw [product] at small ⊢
      have nonneg : (0 : Int) ≤ (lower + (done + 1)).choose (done + 1) * (done + 1) := by positivity
      have fits := Int.lt_add_one_of_le small
      rw [checked_eq (le_trans (by decide) nonneg) fits, Option.bind_some, divide_eq nonneg fits
        (by omega), Option.bind_some, Int.mul_ediv_cancel _ (by omega)]
      exact_mod_cast next

theorem binomial_exact (n k : Int64) : ∃ outcome, binomial n.toInt k.toInt = some outcome ∧
    ∀ r ∈ outcome, r = n.toInt.toNat.choose k.toInt.toNat := by
  obtain ⟨-, high⟩ := fits_toInt n
  generalize n.toInt = n, k.toInt = k at high
  rw [binomial]
  split_ifs with outside
  · exact ⟨none, rfl, by simp⟩
  · obtain ⟨n, rfl⟩ := Int.eq_ofNat_of_zero_le (show 0 ≤ n by omega)
    obtain ⟨k, rfl⟩ := Int.eq_ofNat_of_zero_le (show 0 ≤ k by omega)
    simp (disch := omega) only [checked_eq, Option.bind_eq_bind, Option.bind_some]
    have exact (steps : Nat) (half : 2 * steps ≤ n) (same : n.choose steps = n.choose k) :
        ∃ outcome, binomialLoop n steps (steps + 1) 1 1 = some outcome ∧ ∀ r ∈ outcome,
          r = n.choose k := by
      have loop := @binomialLoop_exact (n - steps) steps (by omega) (by omega) (steps + 1) 0
        (Nat.zero_add _) (Nat.zero_le _)
      simpa [Nat.sub_add_cancel (show steps ≤ n by omega), same] using loop
    split_ifs with less
    · have steps : (n : Int) - k = (n - k : Nat) := by omega
      rw [steps]
      exact exact (n - k) (by omega) (Nat.choose_symm (by omega))
    · exact exact k (by omega) rfl

/-- The search keeps a root below its range and a number that is too large above it. -/
theorem sqrtLoop_exact {value : Nat} (fits : value < 2 ^ 63) (turns : Nat) {low high : Nat}
    (enough : high < low + turns)
    (ordered : low ≤ high) (inside : high ≤ value) (below : low * low ≤ value)
      (above : value < (high + 1) * (high + 1)) :
    ∃ root : Nat, sqrtLoop value turns (low + 1) high low = some (root : Int) ∧
      root * root ≤ value ∧ value < (root + 1) * (root + 1) := by
  induction turns generalizing low high with
  | zero => omega
  | succ turns ih =>
    rw [sqrtLoop]
    split_ifs with more
    · simp (disch := omega) only [checked_eq, divide_eq, Option.bind_eq_bind, Option.bind_some]
      obtain ⟨middle, isMiddle⟩ :=
        Int.eq_ofNat_of_zero_le (show 0 ≤ (low + 1 : Int) + (high - (low + 1)) / 2 by omega)
      simp only [isMiddle]
      have test : (middle : Int) ≤ value / middle ↔ middle * middle ≤ value := by
        rw [Int.le_ediv_iff_mul_le (by omega)]
        norm_cast
      split_ifs with holds
      · have square := test.mp holds
        have : middle < 2 ^ 32 := Nat.mul_self_lt_mul_self_iff.mp (by omega)
        rw [checked_eq (by omega) (by omega), Option.bind_some]
        exact ih (by omega) (by omega) inside square above
      · have pred : (middle : Int) - 1 = (middle - 1 : Nat) := by omega
        rw [pred]
        refine ih (by omega) (by omega) (by omega) below ?_
        rw [Nat.sub_add_cancel (by omega)]
        exact not_le.mp fun small => holds (test.mpr small)
    · obtain rfl : low = high := by omega
      exact ⟨low, rfl, below, above⟩

theorem integerSqrt_exact {n : Int64} (nonneg : 0 ≤ n.toInt) :
    ∃ root, integerSqrt n.toInt = some (some root) ∧ IsGreatest {r | r * r ≤ n.toInt} root := by
  obtain ⟨-, high⟩ := fits_toInt n
  obtain ⟨value, is⟩ := Int.eq_ofNat_of_zero_le nonneg
  rw [is] at high ⊢
  obtain ⟨root, found, below, above⟩ := @sqrtLoop_exact value (by omega) (value + 1) 0 value
    (by omega) (Nat.zero_le _) le_rfl (Nat.zero_le _) (by nlinarith)
  refine ⟨root, ?_, ?_, ?_⟩
  · rw [integerSqrt, if_neg (by omega), Int.toNat_natCast]
    simp_all
  · show (root * root : Int) ≤ value
    exact_mod_cast below
  · intro other small
    have above : (value : Int) < (root + 1) * (root + 1) := by exact_mod_cast above
    have small : other * other ≤ value := small
    by_contra larger
    nlinarith

/-- A binomial coefficient that is returned is exact, the integer square root always is, and neither
computation overflows. -/
theorem binomial_and_integerSqrt_exact :
    (∀ n k : Int64, ∃ outcome, binomial n.toInt k.toInt = some outcome ∧
      ∀ r ∈ outcome, r = n.toInt.toNat.choose k.toInt.toNat) ∧
    ∀ n : Int64, 0 ≤ n.toInt → ∃ root, integerSqrt n.toInt = some (some root) ∧
      IsGreatest {r | r * r ≤ n.toInt} root :=
  ⟨binomial_exact, fun _ => integerSqrt_exact⟩

theorem integerSqrt_seventeen : ∃ root, integerSqrt 17 = some (some root) ∧
    IsGreatest {r | r * r ≤ 17} root :=
  binomial_and_integerSqrt_exact.2 17 (by decide)

end SpectraLang.Stdlib.Algorithms

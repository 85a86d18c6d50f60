import Mathlib.Data.Nat.Digits.Lemmas

/-! # Conversion between radices

A number given by its digits in one base is written in another by repeated long division, and read
back by multiplying and adding with carry. Both work on the digits `Nat.digits` has, without leading
zeros.
-/

namespace Radix

open List

/-- The number with the given digits, the highest first. -/
def value (base : Nat) (digits : List Nat) : Nat :=
  digits.foldl (fun value digit => value * base + digit) 0

/-- Long division of digits, the highest first; leading zeros of the quotient are left out. -/
def divide (base divisor : Nat) : List Nat → Nat → List Nat → List Nat × Nat
  | [], remainder, quotient => (quotient, remainder)
  | digit :: digits, remainder, quotient =>
    let scaled := remainder * base + digit
    let next := scaled / divisor
    divide base divisor digits (scaled % divisor)
      (if 0 < quotient.length ∨ next ≠ 0 then quotient ++ [next] else quotient)

/-- Repeated division until nothing is left; the digits come lowest first. -/
def convert (base divisor : Nat) : Nat → List Nat → List Nat → List Nat
  | _, [], digits => digits
  | 0, _ :: _, digits => digits
  | turns + 1, first :: work, digits =>
    let (quotient, remainder) := divide base divisor (first :: work) 0 []
    convert base divisor turns quotient (digits ++ [remainder])

/-- The digits of a carry, the lowest first. -/
def pushCarry (base : Nat) : Nat → Nat → List Nat
  | 0, _ => []
  | turns + 1, carry =>
    if 0 < carry then carry % base :: pushCarry base turns (carry / base) else []

/-- Multiplication of digits, the lowest first, with a carry from below. -/
def multiply (base factor : Nat) : List Nat → Nat → List Nat
  | [], carry => pushCarry base carry carry
  | digit :: digits, carry =>
    let scaled := digit * factor + carry
    scaled % base :: multiply base factor digits (scaled / base)

variable {base divisor : Nat}

theorem value_eq_ofDigits (digits : List Nat) :
    value base digits = Nat.ofDigits base digits.reverse := by
  rw [value, ← foldr_reverse, Nat.ofDigits_eq_foldr]
  apply congrArg (fun step => List.foldr step 0 digits.reverse)
  funext digit value
  rw [Nat.cast_id, Nat.add_comm, Nat.mul_comm]

theorem value_reverse_digits (number : Nat) : value base (Nat.digits base number).reverse =
    number := by
  rw [value_eq_ofDigits, reverse_reverse, Nat.ofDigits_digits]

section
variable (large : 1 < base)
include large

/-- Digits without a leading zero are those of their number. -/
theorem reverse_digits_value {digits : List Nat} (small : ∀ digit ∈ digits, digit < base)
    (leading : digits.head? ≠ some 0) : (Nat.digits base (value base digits)).reverse = digits := by
  rw [value_eq_ofDigits, Nat.digits_ofDigits base large, reverse_reverse]
  · exact fun digit member => small digit (mem_reverse.mp member)
  · intro nonempty zero
    apply leading
    rw [← getLast?_reverse, getLast?_eq_some_getLast nonempty, zero]

theorem digits_mul_add {number digit : Nat} (small : digit < base)
    (nonzero : 0 < number ∨ digit ≠ 0) :
    Nat.digits base (number * base + digit) = digit :: Nat.digits base number := by
  rw [Nat.mul_comm, Nat.add_comm]
  exact Nat.digits_add base large digit number small (by omega)

/-- A digit pushed on those of a number, leading zeros left out. -/
theorem push_digits {number digit : Nat} (small : digit < base) :
    let digits := (Nat.digits base number).reverse
    (if 0 < digits.length ∨ digit ≠ 0 then digits ++ [digit] else digits) =
      (Nat.digits base (number * base + digit)).reverse := by
  have some : 0 < (Nat.digits base number).reverse.length ↔ 0 < number := by
    rw [length_reverse, length_pos_iff, Nat.digits_ne_nil_iff_ne_zero, Nat.pos_iff_ne_zero]
  dsimp only
  split_ifs with nonzero
  · rw [digits_mul_add large small (nonzero.imp_left some.mp), reverse_cons]
  · obtain ⟨noNumber, noDigit⟩ := not_or.mp nonzero
    rw [Nat.eq_zero_of_not_pos (mt some.mpr noNumber), not_not.mp noDigit, Nat.zero_mul]

/-- Division goes on from the number of the digits passed. -/
theorem divide_eq (positive : 0 < divisor) {digits : List Nat}
    (small : ∀ digit ∈ digits, digit < base)
    (passed : Nat) :
    divide base divisor digits (passed % divisor) (Nat.digits base (passed / divisor)).reverse =
      let number := digits.foldl (fun value digit => value * base + digit) passed
      ((Nat.digits base (number / divisor)).reverse, number % divisor) := by
  induction digits generalizing passed with
  | nil => rfl
  | cons digit digits ih =>
    obtain ⟨digitSmall, others⟩ := forall_mem_cons.mp small
    have split : passed * base + digit = divisor * (passed / divisor * base) +
      (passed % divisor * base + digit) := by
      conv_lhs => rw [← Nat.div_add_mod passed divisor]
      ring
    have remainder : (passed % divisor * base + digit) % divisor = (passed * base + digit) %
      divisor := by
      rw [split, Nat.mul_add_mod]
    have quotient : (passed * base + digit) / divisor =
        passed / divisor * base + (passed % divisor * base + digit) / divisor := by
      rw [split, Nat.mul_add_div positive]
    have nextSmall : (passed % divisor * base + digit) / divisor < base := by
      have below := Nat.mod_lt passed positive
      rw [Nat.div_lt_iff_lt_mul positive]
      calc passed % divisor * base + digit < passed % divisor * base + base := by omega
        _ = (passed % divisor + 1) * base := by ring
        _ ≤ divisor * base := Nat.mul_le_mul_right base below
        _ = base * divisor := Nat.mul_comm ..
    rw [divide]
    simp only [remainder, push_digits large nextSmall, ← quotient]
    rw [ih others, foldl_cons]

/-- Repeated division writes the digits in the other base. -/
theorem convert_eq (largeDivisor : 1 < divisor) {turns number : Nat}
    (enough : number < divisor ^ turns) (written : List Nat) :
    convert base divisor turns (Nat.digits base number).reverse written = written ++
      Nat.digits divisor number := by
  induction turns generalizing number written with
  | zero =>
    obtain rfl : number = 0 := by simpa using enough
    simp [convert]
  | succ turns ih =>
    rcases Nat.eq_zero_or_pos number with rfl | positive
    · simp [convert]
    · obtain ⟨first, work, shape⟩ := exists_cons_of_ne_nil
        (reverse_ne_nil_iff.mpr (Nat.digits_ne_nil_iff_ne_zero.mpr positive.ne'))
      have divided := @divide_eq base divisor large (by omega) (first :: work) ?_ 0
      · rw [Nat.zero_mod, Nat.zero_div, Nat.digits_zero, reverse_nil] at divided
        have whole : (first :: work).foldl (fun value digit => value * base + digit) 0 =
          number := by
          rw [← shape]
          exact value_reverse_digits number
        simp only [whole] at divided
        rw [shape, convert, divided]
        simp only
        rw [ih (by rw [Nat.div_lt_iff_lt_mul (by omega), ← pow_succ]; exact enough), append_assoc,
          singleton_append, ← Nat.digits_def' largeDivisor positive]
      · intro digit member
        rw [← shape, mem_reverse] at member
        exact Nat.digits_lt_base large member

theorem pushCarry_eq {turns carry : Nat} (enough : carry ≤ turns) :
    pushCarry base turns carry = Nat.digits base carry := by
  induction turns generalizing carry with
  | zero =>
    obtain rfl := Nat.le_zero.mp enough
    simp [pushCarry]
  | succ turns ih =>
    rw [pushCarry]
    split_ifs with positive
    · have less := Nat.div_lt_self positive large
      rw [ih (by omega), ← Nat.digits_def' large positive]
    · obtain rfl : carry = 0 := by omega
      rw [Nat.digits_zero]

/-- Multiplication keeps the digits those of a number. -/
theorem multiply_eq {factor : Nat} (positive : 0 < factor) (number carry : Nat) :
    multiply base factor (Nat.digits base number) carry = Nat.digits base
      (number * factor + carry) := by
  induction number using Nat.strongRecOn generalizing carry with
  | ind number ih =>
    rcases Nat.eq_zero_or_pos number with rfl | nonzero
    · rw [Nat.digits_zero, multiply, pushCarry_eq large (Nat.le_refl _), Nat.zero_mul, Nat.zero_add]
    · have more : 0 < number * factor + carry :=
        Nat.add_pos_left (Nat.mul_pos nonzero positive) carry
      have split : number * factor + carry = base * (number / base * factor) +
        (number % base * factor + carry) := by
        conv_lhs => rw [← Nat.div_add_mod number base]
        ring
      rw [Nat.digits_def' large nonzero, multiply, ih _ (Nat.div_lt_self nonzero large),
        Nat.digits_def' large more, split, Nat.mul_add_mod,
        Nat.mul_add_div (by omega)]

end

end Radix

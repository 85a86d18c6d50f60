import Mathlib.Algebra.Group.Nat.Defs
import Mathlib.Data.List.Basic

/-! # Decimal text

Digits of a fixed width are determined by their number, and a number is written with leading zeros
by filling its shortest text up from the left.
-/

namespace Decimal

open List

/-- Decimal digits only. -/
def Digits (text : List Char) : Prop := ∀ c ∈ text, 48 ≤ c.toNat ∧ c.toNat ≤ 57

theorem isDigit_iff {c : Char} : c.isDigit = true ↔ 48 ≤ c.toNat ∧ c.toNat ≤ 57 := by
  rw [Char.isDigit, Bool.and_eq_true, decide_eq_true_iff, decide_eq_true_iff]
  exact Iff.rfl

theorem digits_toDigits (number : Nat) : Digits (Nat.toDigits 10 number) := fun _ member =>
  isDigit_iff.mp (Nat.isDigit_of_mem_toDigits (by decide) (by decide) member)

variable {text : List Char}

theorem digits_padded (number width : Nat) :
    Digits (List.replicate (width - (Nat.toDigits 10 number).length) '0' ++
      Nat.toDigits 10 number) := by
  intro c member
  rcases mem_append.mp member with zero | digit
  · rw [eq_of_mem_replicate zero]
    decide
  · exact digits_toDigits number c digit

theorem length_padded {number width : Nat} (positive : 0 < width) (fits : number < 10 ^ width) :
    (List.replicate (width - (Nat.toDigits 10 number).length) '0' ++ Nat.toDigits 10 number).length
      = width := by
  have short := (Nat.length_toDigits_le_iff (by decide) positive).mpr fits
  rw [length_append, length_replicate]
  omega

theorem ofDigitChars_padded (number width : Nat) :
    Nat.ofDigitChars 10
      (List.replicate (width - (Nat.toDigits 10 number).length) '0' ++ Nat.toDigits 10 number) 0 =
      number := by
  rw [Nat.ofDigitChars_append, Nat.ofDigitChars_replicate_zero, Nat.mul_zero,
    Nat.ofDigitChars_ten_toDigits]

theorem digitChar_toNat {c : Char} (digit : 48 ≤ c.toNat ∧ c.toNat ≤ 57) :
    Nat.digitChar (c.toNat - '0'.toNat) = c := by
  have zero : '0'.toNat = 48 := rfl
  apply Char.toNat_inj.mp
  rw [Nat.toNat_digitChar_of_lt_ten (by omega)]
  omega

section
variable (digits : Digits text)
include digits

theorem ofDigitChars_inj {other : List Char} (otherDigits : Digits other)
    (length : text.length = other.length) {start otherStart : Nat}
    (same : Nat.ofDigitChars 10 text start = Nat.ofDigitChars 10 other otherStart) :
      start = otherStart ∧ text = other := by
  induction text generalizing other start otherStart with
  | nil =>
    obtain rfl := length_eq_zero_iff.mp length.symm
    exact ⟨by simpa using same, rfl⟩
  | cons c text ih =>
    obtain ⟨d, other, rfl⟩ := exists_cons_of_length_eq_add_one length.symm
    obtain ⟨digit, more⟩ := forall_mem_cons.mp digits
    obtain ⟨otherDigit, otherMore⟩ := forall_mem_cons.mp otherDigits
    rw [Nat.ofDigitChars_cons, Nat.ofDigitChars_cons] at same
    obtain ⟨starts, rfl⟩ := ih more otherMore (Nat.succ.inj length) same
    have zero : '0'.toNat = 48 := rfl
    obtain rfl : c = d := Char.toNat_inj.mp (by omega)
    exact ⟨by omega, rfl⟩

theorem ofDigitChars_lt {start bound : Nat} (small : start < bound) :
    Nat.ofDigitChars 10 text start < bound * 10 ^ text.length := by
  induction text generalizing start bound with
  | nil => simpa using small
  | cons c text ih =>
    obtain ⟨digit, more⟩ := forall_mem_cons.mp digits
    have zero : '0'.toNat = 48 := rfl
    rw [Nat.ofDigitChars_cons, length_cons, Nat.pow_succ, Nat.mul_comm (10 ^ text.length),
      ← Nat.mul_assoc]
    exact ih more (by omega)

theorem toDigits_ofDigitChars_of_pos {start : Nat} (positive : 0 < start) :
    Nat.toDigits 10 (Nat.ofDigitChars 10 text start) = Nat.toDigits 10 start ++ text := by
  induction text generalizing start with
  | nil => simp
  | cons c text ih =>
    obtain ⟨digit, more⟩ := forall_mem_cons.mp digits
    have zero : '0'.toNat = 48 := rfl
    have small : c.toNat - '0'.toNat < 10 := by omega
    rw [Nat.ofDigitChars_cons, ih more (by omega), ← Nat.toDigits_append_toDigits
      (by decide) positive small,
      Nat.toDigits_of_lt_base small, digitChar_toNat digit, append_assoc, singleton_append]

/-- Digits without a leading zero are the shortest text of their number. -/
theorem toDigits_ofDigitChars (nonempty : text ≠ [])
    (shortest : text.head? = some '0' → text.length = 1) :
      Nat.toDigits 10 (Nat.ofDigitChars 10 text 0) = text := by
  obtain ⟨c, text, rfl⟩ := exists_cons_of_ne_nil nonempty
  obtain ⟨digit, more⟩ := forall_mem_cons.mp digits
  have zero : '0'.toNat = 48 := rfl
  by_cases leading : c = '0'
  · obtain rfl := eq_nil_of_length_eq_zero (Nat.succ.inj (shortest (by rw [leading]; rfl)))
    rw [leading]
    rfl
  · have positive : 0 < c.toNat - '0'.toNat := by
      have different : c.toNat ≠ '0'.toNat := fun same => leading (Char.toNat_inj.mp same)
      omega
    have small : c.toNat - '0'.toNat < 10 := by omega
    rw [Nat.ofDigitChars_cons, Nat.mul_zero, Nat.zero_add,
      toDigits_ofDigitChars_of_pos more positive,
      Nat.toDigits_of_lt_base small, digitChar_toNat digit, singleton_append]

end

theorem eq_zero_of_head {number : Nat} (leading : (Nat.toDigits 10 number).head? = some '0') :
    number = 0 := by
  induction number using Nat.strongRecOn with
  | ind number ih =>
    rw [Nat.toDigits_eq_if (by decide)] at leading
    split at leading
    · have digit : Nat.digitChar number = '0' := Option.some.inj leading
      have code := congrArg Char.toNat digit
      rw [Nat.toNat_digitChar_of_lt_ten (by assumption)] at code
      have zero : '0'.toNat = 48 := rfl
      omega
    · rw [head?_append_of_ne_nil _ Nat.toDigits_ne_nil] at leading
      have := ih (number / 10) (by omega) leading
      omega

theorem le_ofDigitChars (text : List Char) (start : Nat) :
    start * 10 ^ text.length ≤ Nat.ofDigitChars 10 text start := by
  induction text generalizing start with
  | nil => simp
  | cons c text ih =>
    rw [Nat.ofDigitChars_cons, length_cons, Nat.pow_succ, Nat.mul_comm (10 ^ text.length),
      ← Nat.mul_assoc]
    exact Nat.le_trans (Nat.mul_le_mul_right _ (by omega)) (ih _)

end Decimal

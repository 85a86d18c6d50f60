import SpectraLang.Syntax.Ast
import Mathlib.Data.Int.ModEq
import Mathlib.Data.Nat.Bitwise

/-! # The two evaluators of integer constants

Semantic analysis evaluates constant expressions in checked 128-bit arithmetic; lowering evaluates
them again in 64-bit arithmetic, with comparisons through `f64`. Both build a table of the named
constants, declaration by declaration. Floats, characters and strings are left out: values are
integers and, from comparisons, booleans.
-/

open Function

namespace SpectraLang

abbrev I128 := BitVec 128

/-- `char::to_digit`. -/
def toDigit (radix : Nat) (c : Char) : Option Nat :=
  let value? :=
    if '0' ≤ c ∧ c ≤ '9' then some (c.toNat - '0'.toNat)
    else if 'a' ≤ c ∧ c ≤ 'z' then some (c.toNat - 'a'.toNat + 10)
    else if 'A' ≤ c ∧ c ≤ 'Z' then some (c.toNat - 'A'.toNat + 10)
    else none
  value?.filter (· < radix)

/-- `i128::from_str_radix`: an optional sign, at least one digit, and no overflow. -/
def i128FromStrRadix (radix : Nat) (text : List Char) : Option I128 :=
  let parts : Bool × List Char :=
    match text with
    | '-' :: digits => (true, digits)
    | '+' :: digits => (false, digits)
    | digits => (false, digits)
  if parts.2.isEmpty then none
  else do
    let magnitude ← parts.2.foldlM (fun total c => (toDigit radix c).map (total * radix + ·)) 0
    let value : Int := if parts.1 then -magnitude else magnitude
    if -2 ^ 127 ≤ value ∧ value < 2 ^ 127 then some (.ofInt 128 value) else none

/-- `parse_number_literal_as_i128`. -/
def parseNumberLiteralAsI128 (text : List Char) : Option I128 :=
  let cleaned := text.filter (· != '_')
  match cleaned.map Char.toLower with
  | '0' :: 'x' :: digits => i128FromStrRadix 16 digits
  | '0' :: 'o' :: digits => i128FromStrRadix 8 digits
  | '0' :: 'b' :: digits => i128FromStrRadix 2 digits
  | _ => i128FromStrRadix 10 cleaned

/-- `number_literal_is_float`. -/
def numberLiteralIsFloat (text : List Char) : Bool :=
  let cleaned := text.filter (· != '_')
  match cleaned.map Char.toLower with
  | '0' :: 'x' :: _ | '0' :: 'o' :: _ | '0' :: 'b' :: _ => false
  | lower => cleaned.contains '.' || lower.contains 'e'

/-- The text of a literal that is not a float. -/
structure IntegerLiteral where
  text : List Char
  integral : numberLiteralIsFloat text = false

/-- The integer types of declarations and casts. -/
inductive IntegerType where
  | int
  | exactInt (signed : Bool) (width : IntWidth)

/-- Constant expressions of integers; a unary operator carries the type recorded for its operand's
span. -/
inductive ConstExpression where
  | numberLiteral (literal : IntegerLiteral)
  | identifier (name : String)
  | grouping (inner : ConstExpression)
  | unary (operator : UnaryOperator) (operand : ConstExpression) (operandType : Option Ty)
  | binary (left : ConstExpression) (operator : BinaryOperator) (right : ConstExpression)
  | cast (inner : ConstExpression) (target : IntegerType)

/-- `const name: declared = value`, for an integer constant. -/
structure ConstDecl where
  name : String
  declared : Option IntegerType
  value : ConstExpression

/-- The bits of an integer of the width. -/
def IntWidth.bits : IntWidth → Nat
  | .i8 => 8
  | .i16 => 16
  | .i32 => 32
  | .i64 | .isize | .usize => 64

inductive ConstValue where
  | int (value : I128)
  | bool (value : Bool)
deriving DecidableEq

abbrev ConstTable := String → Option ConstValue

/-- The bounds of `const_value_fits_type` and of the casts of semantic analysis. -/
def IntegerType.fits (value : I128) : IntegerType → Bool
  | .int => decide (-2 ^ 63 ≤ value.toInt ∧ value.toInt ≤ 2 ^ 63 - 1)
  | .exactInt true width =>
    decide (-2 ^ (width.bits - 1) ≤ value.toInt ∧ value.toInt ≤ 2 ^ (width.bits - 1) - 1)
  | .exactInt false width => decide (0 ≤ value.toInt ∧ value.toInt ≤ 2 ^ width.bits - 1)

/-- `fold_bit_not`: the complement in the operand's own width. -/
def foldBitNot (value : I128) (operandType : Option Ty) : I128 :=
  let complemented : I128 := (~~~(value.setWidth 64)).signExtend 128
  match operandType with
  | some (.exactInt signed width) =>
    if width.bits = 64 then
      if signed then complemented else complemented &&& (1#128 <<< 64 - 1)
    else
      let masked := complemented &&& (1#128 <<< width.bits - 1)
      if signed ∧ masked &&& (1#128 <<< (width.bits - 1)) ≠ 0 then masked - 1#128 <<<
        width.bits else masked
  | _ => complemented

/-- `eval_const_binary`; operands of other kinds have no value. -/
def ConstValue.binary : ConstValue → BinaryOperator → ConstValue → Option ConstValue
  | .int a, .add, .int b => if a.saddOverflow b then none else some (.int (a + b))
  | .int a, .subtract, .int b => if a.ssubOverflow b then none else some (.int (a - b))
  | .int a, .multiply, .int b => if a.smulOverflow b then none else some (.int (a * b))
  | .int a, .divide, .int b =>
    if b = 0 ∨ a = .intMin 128 ∧ b = -1 then none else some (.int (a.sdiv b))
  | .int a, .modulo, .int b =>
    if b = 0 ∨ a = .intMin 128 ∧ b = -1 then none else some (.int (a.srem b))
  | .int a, .bitAnd, .int b => some (.int (a &&& b))
  | .int a, .bitOr, .int b => some (.int (a ||| b))
  | .int a, .bitXor, .int b => some (.int (a ^^^ b))
  | .int a, .shl, .int b =>
    some (.int ((a.setWidth 64 <<< ((b.setWidth 32).toNat % 64)).signExtend 128))
  | .int a, .shr, .int b =>
    some (.int (((a.setWidth 64).sshiftRight ((b.setWidth 32).toNat % 64)).signExtend 128))
  | a, .equal, b => some (.bool (decide (a = b)))
  | a, .notEqual, b => some (.bool (!decide (a = b)))
  | .int a, .less, .int b => some (.bool (decide (a.toInt < b.toInt)))
  | .int a, .lessEqual, .int b => some (.bool (decide (a.toInt ≤ b.toInt)))
  | .int a, .greater, .int b => some (.bool (decide (b.toInt < a.toInt)))
  | .int a, .greaterEqual, .int b => some (.bool (decide (b.toInt ≤ a.toInt)))
  | .bool a, .and, .bool b => some (.bool (a && b))
  | .bool a, .or, .bool b => some (.bool (a || b))
  | _, _, _ => none

/-- The unary cases of `eval_const_expression`. -/
def ConstValue.unary : UnaryOperator → ConstValue → Option Ty → Option ConstValue
  | .negate, .int v, _ => if v.negOverflow then none else some (.int (-v))
  | .not, .bool v, _ => some (.bool !v)
  | .bitNot, .int v, operandType => some (.int (foldBitNot v operandType))
  | _, _, _ => none

/-- `cast_const_value` of semantic analysis. -/
def ConstValue.cast : ConstValue → IntegerType → Option ConstValue
  | .int v, target => if target.fits v then some (.int v) else none
  | .bool _, _ => none

/-- `eval_const_expression` of semantic analysis. -/
def ConstExpression.analyze (table : ConstTable) : ConstExpression → Option ConstValue
  | .numberLiteral literal => (parseNumberLiteralAsI128 literal.text).map .int
  | .identifier name => table name
  | .grouping inner => inner.analyze table
  | .unary operator operand operandType =>
    (operand.analyze table).bind fun value => value.unary operator operandType
  | .binary left operator right =>
    (left.analyze table).bind fun a => (right.analyze table).bind fun b => a.binary operator b
  | .cast inner target => (inner.analyze table).bind fun value => value.cast target

/-- The table of named constants; `none` when a declaration is rejected. -/
def analyzeConsts (table : ConstTable) : List ConstDecl → Option ConstTable
  | [] => some table
  | decl :: rest =>
    match decl.value.analyze table with
    | some (.int value) =>
      if (decl.declared.getD .int).fits value then
        analyzeConsts (update table decl.name (some (.int value))) rest
      else none
    | _ => none

inductive LoweredConstValue where
  | int (value : I64)
  | bool (value : Bool)
deriving DecidableEq

abbrev LoweredTable := String → Option LoweredConstValue

/-- An arithmetic overflow, which panics or wraps silently depending on the build. -/
inductive ConstFault where
  | overflow
deriving DecidableEq

/-- `as f64` of an `i64`: the nearest number with 53 significant bits, the even one of two. -/
def asF64 (value : Int) : Int :=
  let magnitude := value.natAbs
  let shift := magnitude.log2 + 1 - 53
  let quotient := magnitude / 2 ^ shift
  let remainder := magnitude % 2 ^ shift
  let up := 2 ^ shift < 2 * remainder ∨ 2 ^ shift = 2 * remainder ∧ quotient % 2 = 1
  value.sign * (((if up then quotient + 1 else quotient) * 2 ^ shift : Nat) : Int)

/-- `exact_int_bounds`: the largest unsigned 64-bit value is that of `i64`. -/
def exactIntBounds (signed : Bool) (width : IntWidth) : Int × Int :=
  if signed then (-2 ^ (width.bits - 1), 2 ^ (width.bits - 1) - 1)
  else if width.bits = 64 then (0, 2 ^ 63 - 1)
  else (0, 2 ^ width.bits - 1)

/-- An operation on `i64` that must not overflow. -/
private def checked (overflows : Bool) (value : I64) :
    Except ConstFault (Option LoweredConstValue) :=
  if overflows then .error .overflow else .ok (some (.int value))

/-- `eval_const_binary` of lowering. -/
def LoweredConstValue.binary :
    LoweredConstValue → BinaryOperator → LoweredConstValue →
      Except ConstFault (Option LoweredConstValue)
  | .int a, .add, .int b => checked (a.saddOverflow b) (a + b)
  | .int a, .subtract, .int b => checked (a.ssubOverflow b) (a - b)
  | .int a, .multiply, .int b => checked (a.smulOverflow b) (a * b)
  | .int a, .divide, .int b =>
    if b = 0 then .ok none else checked (decide (a = .intMin 64 ∧ b = -1)) (a.sdiv b)
  | .int a, .modulo, .int b =>
    if b = 0 then .ok none else checked (decide (a = .intMin 64 ∧ b = -1)) (a.srem b)
  | .int a, .bitAnd, .int b => .ok (some (.int (a &&& b)))
  | .int a, .bitOr, .int b => .ok (some (.int (a ||| b)))
  | .int a, .bitXor, .int b => .ok (some (.int (a ^^^ b)))
  | .int a, .shl, .int b => .ok (some (.int (a <<< ((b.setWidth 32).toNat % 64))))
  | .int a, .shr, .int b => .ok (some (.int (a.sshiftRight ((b.setWidth 32).toNat % 64))))
  | a, .equal, b => .ok (some (.bool (decide (a = b))))
  | a, .notEqual, b => .ok (some (.bool (!decide (a = b))))
  | .int a, .less, .int b => .ok (some (.bool (decide (asF64 a.toInt < asF64 b.toInt))))
  | .int a, .lessEqual, .int b => .ok (some (.bool (decide (asF64 a.toInt ≤ asF64 b.toInt))))
  | .int a, .greater, .int b => .ok (some (.bool (decide (asF64 b.toInt < asF64 a.toInt))))
  | .int a, .greaterEqual, .int b => .ok (some (.bool (decide (asF64 b.toInt ≤ asF64 a.toInt))))
  | .bool a, .and, .bool b => .ok (some (.bool (a && b)))
  | .bool a, .or, .bool b => .ok (some (.bool (a || b)))
  | _, _, _ => .ok none

/-- The unary cases of lowering's `eval_const_expression`. -/
def LoweredConstValue.unary : UnaryOperator → LoweredConstValue →
    Except ConstFault (Option LoweredConstValue)
  | .negate, .int v => checked v.negOverflow (-v)
  | .bitNot, .int v => .ok (some (.int (~~~v)))
  | .not, .bool v => .ok (some (.bool !v))
  | _, _ => .ok none

/-- `cast_const_value` of lowering. -/
def LoweredConstValue.cast : LoweredConstValue → IntegerType → Option LoweredConstValue
  | .int v, .int => some (.int v)
  | .int v, .exactInt signed width =>
    let bounds := exactIntBounds signed width
    if bounds.1 ≤ v.toInt ∧ v.toInt ≤ bounds.2 then some (.int v) else none
  | .bool _, _ => none

/-- `direct_integer_literal`. -/
def ConstExpression.directIntegerLiteral : ConstExpression → Option IntegerLiteral
  | .numberLiteral literal => some literal
  | .grouping inner => inner.directIntegerLiteral
  | _ => none

/-- A literal in the range of `i64` or of `u64`. -/
def lowerLiteral (value : I128) : Option LoweredConstValue :=
  if -2 ^ 63 ≤ value.toInt ∧ value.toInt ≤ 2 ^ 64 - 1 then some (.int (value.setWidth 64)) else none

/-- A directly negated literal, in the range of `i64`. -/
def lowerNegatedLiteral (value : I128) : Option LoweredConstValue :=
  if value.negOverflow then none
  else if -2 ^ 63 ≤ (-value).toInt ∧ (-value).toInt ≤ 2 ^ 63 - 1 then some
    (.int ((-value).setWidth 64))
  else none

/-- `eval_const_expression` of lowering. -/
def ConstExpression.lower (table : LoweredTable) : ConstExpression →
    Except ConstFault (Option LoweredConstValue)
  | .numberLiteral literal => .ok ((parseNumberLiteralAsI128 literal.text).bind lowerLiteral)
  | .identifier name => .ok (table name)
  | .grouping inner => inner.lower table
  | .unary operator operand _ =>
    match operator, operand.directIntegerLiteral with
    | .negate, some literal =>
      .ok ((parseNumberLiteralAsI128 literal.text).bind lowerNegatedLiteral)
    | _, _ =>
      match operand.lower table with
      | .error fault => .error fault
      | .ok none => .ok none
      | .ok (some value) => value.unary operator
  | .binary left operator right =>
    match left.lower table with
    | .error fault => .error fault
    | .ok none => .ok none
    | .ok (some a) =>
      match right.lower table with
      | .error fault => .error fault
      | .ok none => .ok none
      | .ok (some b) => a.binary operator b
  | .cast inner target =>
    match inner.lower table with
    | .error fault => .error fault
    | .ok none => .ok none
    | .ok (some value) => .ok (value.cast target)

/-- The table lowering builds; a declaration without a value is left out. -/
def lowerConsts (table : LoweredTable) : List ConstDecl → Except ConstFault LoweredTable
  | [] => .ok table
  | decl :: rest =>
    match decl.value.lower table with
    | .error fault => .error fault
    | .ok none => lowerConsts table rest
    | .ok (some value) => lowerConsts (update table decl.name (some value)) rest

/-- The value lowering should reach: the integer as an `i64`, the same boolean. -/
def ConstValue.narrow : ConstValue → LoweredConstValue
  | .int value => .int (value.setWidth 64)
  | .bool value => .bool value

/-- 64-bit arithmetic and `f64` comparisons do to these operands what 128-bit arithmetic does. -/
def BinaryOperator.Survives (operator : BinaryOperator) (a b : I128) : Prop :=
  let a64 := a.setWidth 64
  let b64 := b.setWidth 64
  match operator with
  | .add => a64.saddOverflow b64 = false
  | .subtract => a64.ssubOverflow b64 = false
  | .multiply => a64.smulOverflow b64 = false
  | .divide => b64 ≠ 0 ∧ ¬ (a64 = .intMin 64 ∧ b64 = -1) ∧ a64.sdiv b64 = (a.sdiv b).setWidth 64
  | .modulo => b64 ≠ 0 ∧ ¬ (a64 = .intMin 64 ∧ b64 = -1) ∧ a64.srem b64 = (a.srem b).setWidth 64
  | .equal | .notEqual => a64 = b64 → a = b
  | .less | .greaterEqual => asF64 a64.toInt < asF64 b64.toInt ↔ a.toInt < b.toInt
  | .greater | .lessEqual => asF64 b64.toInt < asF64 a64.toInt ↔ b.toInt < a.toInt
  | .bitAnd | .bitOr | .bitXor | .shl | .shr | .and | .or => True

theorem setWidth_signExtend (v : I64) : (v.signExtend 128).setWidth 64 = v := by
  ext i bound
  rw [BitVec.getElem_setWidth, BitVec.getLsbD_signExtend]
  simp [bound, show i < 128 by omega]

theorem setWidth_sub (a b : I128) : (a - b).setWidth 64 = a.setWidth 64 - b.setWidth 64 := by
  rw [BitVec.sub_eq_add_neg, BitVec.setWidth_add _ _ (by decide), BitVec.setWidth_neg_of_le
    (by decide), ← BitVec.sub_eq_add_neg]

theorem checked_eq_iff {overflows : Bool} {value expected : I64} (same : value = expected) :
    checked overflows value = .ok (some (.int expected)) ↔ overflows = false := by
  cases overflows <;> simp [checked, same]

variable {value : ConstValue} {operator : BinaryOperator}

attribute [local simp] ConstValue.narrow LoweredConstValue.binary BinaryOperator.Survives

/-- With operands carried over, lowering's operator yields the narrowed value exactly when they
survive. -/
theorem binary_narrow_iff {a b : I128}
    (defined : (ConstValue.int a).binary operator (.int b) = some value) :
    (LoweredConstValue.int (a.setWidth 64)).binary operator (.int (b.setWidth 64)) = .ok
      (some value.narrow) ↔ operator.Survives a b := by
  cases operator with
  | add =>
    obtain ⟨-, rfl⟩ : _ ∧ ConstValue.int (a + b) = value := by
      simpa [ConstValue.binary] using defined
    exact checked_eq_iff (BitVec.setWidth_add _ _ (by decide)).symm
  | subtract =>
    obtain ⟨-, rfl⟩ : _ ∧ ConstValue.int (a - b) = value := by
      simpa [ConstValue.binary] using defined
    exact checked_eq_iff (setWidth_sub a b).symm
  | multiply =>
    obtain ⟨-, rfl⟩ : _ ∧ ConstValue.int (a * b) = value := by
      simpa [ConstValue.binary] using defined
    exact checked_eq_iff (BitVec.setWidth_mul _ _ (by decide)).symm
  | divide | modulo =>
    simp only [ConstValue.binary, Option.ite_none_left_eq_some, Option.some.injEq] at defined
    obtain ⟨-, rfl⟩ := defined
    simp only [LoweredConstValue.binary, checked, BinaryOperator.Survives, ConstValue.narrow]
    split_ifs <;> simp_all
  | bitAnd | bitOr | bitXor =>
    simp only [ConstValue.binary, Option.some.injEq] at defined
    subst defined
    simp
  | shl | shr =>
    simp only [ConstValue.binary, Option.some.injEq] at defined
    subst defined
    simp [setWidth_signExtend]
  | equal | notEqual =>
    simp only [ConstValue.binary, Option.some.injEq] at defined
    subst defined
    by_cases same : a = b
    · simp [same]
    · simp [same]
  | less | greater | lessEqual | greaterEqual =>
    simp only [ConstValue.binary, Option.some.injEq] at defined
    subst defined
    simp only [LoweredConstValue.binary, BinaryOperator.Survives, ConstValue.narrow]
    grind
  | and | or => simp [ConstValue.binary] at defined

theorem toInt_setWidth_eq_bmod (v : I128) : (v.setWidth 64).toInt = v.toInt.bmod (2 ^ 64) := by
  rw [BitVec.toInt_setWidth, BitVec.toInt_eq_toNat_bmod, Int.bmod_bmod_of_dvd (by decide)]

/-- A value in the range of `i64` is kept by narrowing. -/
theorem toInt_setWidth_of_fits {v : I128} (low : -2 ^ 63 ≤ v.toInt) (high : v.toInt ≤ 2 ^ 63 - 1) :
    (v.setWidth 64).toInt = v.toInt := by
  rw [toInt_setWidth_eq_bmod]
  exact Int.bmod_eq_of_le (by omega) (by omega)

/-- An unsigned value beyond `i64` becomes negative. -/
theorem toInt_setWidth_of_large {v : I128} (low : 2 ^ 63 ≤ v.toInt) (high : v.toInt ≤ 2 ^ 64 - 1) :
    (v.setWidth 64).toInt < 0 := by
  rw [toInt_setWidth_eq_bmod, Int.bmod_def]
  split_ifs <;> omega

/-- The complement taken in 64 bits is a value of the operand's type. -/
def ComplementSurvives (value : I128) : Option Ty → Prop
  | some (.exactInt signed width) =>
    width.bits = 64 ∨ (IntegerType.exactInt signed width).fits
      ((~~~(value.setWidth 64)).signExtend 128) = true
  | _ => True

/-- The value is in the range lowering checks for the target. -/
def CastSurvives (value : I128) : IntegerType → Prop
  | .exactInt false width => width.bits = 64 → value.toInt < 2 ^ 63
  | _ => True

theorem bits_cases (width : IntWidth) : width.bits = 8 ∨ width.bits = 16 ∨ width.bits = 32 ∨
    width.bits = 64 := by
  cases width <;> simp [IntWidth.bits]

variable {target : IntegerType}

theorem cast_narrow_iff {a : I128} (defined : (ConstValue.int a).cast target = some value) :
    (LoweredConstValue.int (a.setWidth 64)).cast target = some value.narrow ↔
      CastSurvives a target := by
  obtain ⟨fits, rfl⟩ : target.fits a = true ∧ ConstValue.int a = value := by
    simpa [ConstValue.cast] using defined
  cases target with
  | int => simp [LoweredConstValue.cast, CastSurvives]
  | exactInt signed width =>
    have bits := bits_cases width
    cases signed with
    | true =>
      simp only [IntegerType.fits, decide_eq_true_eq] at fits
      have kept : (a.setWidth 64).toInt = a.toInt := by
        refine toInt_setWidth_of_fits ?_ ?_ <;> rcases bits with eq | eq | eq |
          eq <;> rw [eq] at fits <;> omega
      simp only [LoweredConstValue.cast, exactIntBounds, if_true, kept, if_pos fits, CastSurvives,
        ConstValue.narrow]
    | false =>
      simp only [IntegerType.fits, decide_eq_true_eq] at fits
      by_cases wide : width.bits = 64
      · rw [wide] at fits
        simp only [LoweredConstValue.cast, exactIntBounds, Bool.false_eq_true, if_false, wide,
          if_true, CastSurvives, forall_const, ConstValue.narrow]
        by_cases small : a.toInt < 2 ^ 63
        · rw [toInt_setWidth_of_fits (by omega) (by omega), if_pos (by omega)]
          exact iff_of_true rfl small
        · have negative := toInt_setWidth_of_large (by omega) fits.2
          rw [if_neg (by omega)]
          exact iff_of_false (by simp) small
      · have kept : (a.setWidth 64).toInt = a.toInt := by
          refine toInt_setWidth_of_fits ?_ ?_ <;> rcases bits with eq | eq | eq |
            eq <;> rw [eq] at fits <;> omega
        simp only [LoweredConstValue.cast, exactIntBounds, Bool.false_eq_true, if_false, wide, kept,
          if_pos fits, CastSurvives, false_imp_iff, ConstValue.narrow]

theorem toNat_masked (c : I64) {bits : Nat} (narrow : bits = 8 ∨ bits = 16 ∨ bits = 32) :
    ((c.signExtend 128 &&& (1#128 <<< bits - 1)).toNat : Int) = c.toInt % 2 ^ bits := by
  have mask : (1#128 <<< bits - 1).toNat = 2 ^ bits - 1 := by
    rcases narrow with rfl | rfl | rfl <;> decide
  have extended : (c.signExtend 128).toInt = c.toInt := BitVec.toInt_signExtend_of_le (by decide)
  rw [BitVec.toNat_and, mask, Nat.and_two_pow_sub_one_eq_mod, ← extended,
    BitVec.toInt_eq_toNat_cond]
  rcases narrow with rfl | rfl | rfl <;> split_ifs <;> omega

/-- The sign bit of a number below `2 ^ bits`. -/
theorem signBit_ne_zero {m : I128} {bits : Nat} (narrow : bits = 8 ∨ bits = 16 ∨ bits = 32)
    (small : m.toNat < 2 ^ bits) : m &&& (1#128 <<< (bits - 1)) ≠ 0 ↔ 2 ^ (bits - 1) ≤ m.toNat := by
  have bit : (1#128 <<< (bits - 1)).toNat = 2 ^ (bits - 1) := by
    rcases narrow with rfl | rfl | rfl <;> decide
  rw [ne_eq, BitVec.toNat_eq, BitVec.toNat_and, bit, Nat.and_two_pow,
    Nat.testBit_eq_decide_div_mod_eq]
  rcases narrow with rfl | rfl | rfl <;> simp <;> omega

/-- The integer `fold_bit_not` reaches in a narrow type: the complement reduced to the range of the
type. -/
theorem toInt_foldBitNot (a : I128) (signed : Bool) {width : IntWidth} (narrow : width.bits ≠ 64) :
    (foldBitNot a (some (.exactInt signed width))).toInt =
      if signed then (~~~(a.setWidth 64)).toInt.bmod (2 ^ width.bits) else
        (~~~(a.setWidth 64)).toInt % 2 ^ width.bits := by
  have cases' : width.bits = 8 ∨ width.bits = 16 ∨ width.bits = 32 := by
    have := bits_cases width
    omega
  simp only [foldBitNot, narrow, if_false]
  generalize width.bits = bits at cases'
  have value := toNat_masked (~~~(a.setWidth 64)) cases'
  generalize (~~~(a.setWidth 64)).signExtend 128 &&& (1#128 <<< bits - 1) = m at value
  have small : m.toNat < 2 ^ bits := by rcases cases' with rfl | rfl | rfl <;> omega
  have toInt : m.toInt = m.toNat := by
    rw [BitVec.toInt_eq_toNat_cond, if_pos]
    rcases cases' with rfl | rfl | rfl <;> omega
  cases signed with
  | false => simp only [Bool.false_eq_true, false_and, if_false, toInt, value]
  | true =>
    have power : (1#128 <<< bits).toInt = 2 ^ bits := by
      rcases cases' with rfl | rfl | rfl <;> decide
    have shifted : (m - 1#128 <<< bits).toInt = m.toNat - 2 ^ bits := by
      rw [BitVec.toInt_sub, toInt, power]
      refine Int.bmod_eq_of_le ?_ ?_ <;> rcases cases' with rfl | rfl | rfl <;> omega
    simp only [true_and, if_true, signBit_ne_zero cases' small, Int.bmod_def, Nat.cast_pow,
      Nat.cast_ofNat, ← value]
    rw [apply_ite BitVec.toInt, shifted, toInt]
    rcases cases' with rfl | rfl | rfl <;> split_ifs <;> omega

theorem complement_narrow_iff (a : I128) (operandType : Option Ty) :
    (foldBitNot a operandType).setWidth 64 = ~~~(a.setWidth 64) ↔
      ComplementSurvives a operandType := by
  have plain : ((~~~(a.setWidth 64)).signExtend 128).setWidth 64 = ~~~(a.setWidth 64) :=
    setWidth_signExtend _
  rcases operandType with - | type
  · simp only [foldBitNot, plain, ComplementSurvives]
  cases type with
  | exactInt signed width =>
    by_cases wide : width.bits = 64
    · have mask : (1#128 <<< 64 - 1).setWidth 64 = BitVec.allOnes 64 := by decide
      cases signed <;>
        simp only [foldBitNot, wide, if_true, Bool.false_eq_true, if_false, BitVec.setWidth_and,
        mask, BitVec.and_allOnes, plain, ComplementSurvives, true_or]
    · have reduced := toInt_foldBitNot a signed wide
      have extended : ((~~~(a.setWidth 64)).signExtend 128).toInt = (~~~(a.setWidth 64)).toInt :=
        BitVec.toInt_signExtend_of_le (by decide)
      have kept : ((foldBitNot a (some (.exactInt signed width))).setWidth 64).toInt =
          (foldBitNot a (some (.exactInt signed width))).toInt := by
        refine toInt_setWidth_of_fits ?_ ?_ <;> rw [reduced, Int.bmod_def] <;>
          rcases bits_cases width with eq | eq | eq | eq <;> rw [eq] <;> split_ifs <;> omega
      rw [← BitVec.toInt_inj, kept, reduced]
      simp only [ComplementSurvives, wide, false_or]
      cases signed with
      | true =>
        simp only [if_true, IntegerType.fits, extended, decide_eq_true_eq, Int.bmod_def]
        rcases bits_cases width with eq | eq | eq | eq <;> rw [eq] <;> split_ifs <;> omega
      | false =>
        simp only [Bool.false_eq_true, if_false, IntegerType.fits, extended, decide_eq_true_eq]
        rcases bits_cases width with eq | eq | eq | eq <;> rw [eq] <;> omega
  | _ => simp only [foldBitNot, plain, ComplementSurvives]

namespace ConstExpression

/-- The expression and its parts. -/
def subexpressions : ConstExpression → List ConstExpression
  | numberLiteral literal => [numberLiteral literal]
  | identifier name => [identifier name]
  | grouping inner => grouping inner :: inner.subexpressions
  | unary operator operand operandType =>
    unary operator operand operandType :: operand.subexpressions
  | binary left operator right =>
    binary left operator right :: (left.subexpressions ++ right.subexpressions)
  | cast inner target => cast inner target :: inner.subexpressions

/-- Lowering reaches the narrowed value whenever semantic analysis has one. -/
def Follows (table : ConstTable) (lowered : LoweredTable) (expression : ConstExpression) : Prop :=
  ∀ value, expression.analyze table = some value →
    expression.lower lowered = .ok (some value.narrow)

/-- A unary operator does in 64 bits what it does in 128 bits; a negated literal is checked as a
whole. -/
def UnarySurvives (operand : ConstExpression) (operandType : Option Ty) (value : I128) :
    UnaryOperator → Prop
  | .negate =>
    if operand.directIntegerLiteral.isSome then -2 ^ 63 ≤ (-value).toInt ∧
      (-value).toInt ≤ 2 ^ 63 - 1
    else (value.setWidth 64).negOverflow = false
  | .bitNot => ComplementSurvives value operandType
  | .not => True

/-- No literal leaves 64 bits, and the operands of every operator survive it. -/
def Harmless (table : ConstTable) : ConstExpression → Prop
  | numberLiteral literal => ∀ value, parseNumberLiteralAsI128 literal.text = some value →
    -2 ^ 63 ≤ value.toInt ∧ value.toInt ≤ 2 ^ 64 - 1
  | identifier _ => True
  | grouping inner => inner.Harmless table
  | unary operator operand operandType =>
    operand.Harmless table ∧ ∀ value, operand.analyze table = some (.int value) →
    ((ConstValue.int value).unary operator operandType).isSome →
      operand.UnarySurvives operandType value operator
  | binary left operator right =>
    (left.Harmless table ∧ right.Harmless table) ∧ ∀ a b, left.analyze table = some (.int a) →
    right.analyze table = some (.int b) → ((ConstValue.int a).binary operator (.int b)).isSome →
      operator.Survives a b
  | cast inner target => inner.Harmless table ∧ ∀ value, inner.analyze table = some (.int value) →
    target.fits value = true → CastSurvives value target

variable {table : ConstTable} {lowered : LoweredTable} {expression operand : ConstExpression}
  {operandType : Option Ty}

variable {literal : IntegerLiteral}

/-- A direct literal has the value of its text. -/
theorem analyze_of_directIntegerLiteral (direct : expression.directIntegerLiteral = some literal) :
    expression.analyze table = (parseNumberLiteralAsI128 literal.text).map .int := by
  induction expression with
  | numberLiteral other =>
    obtain rfl : other = literal := by simpa [directIntegerLiteral] using direct
    rfl
  | grouping inner ih => exact ih direct
  | _ => simp [directIntegerLiteral] at direct

theorem follows_iff (analyzed : expression.analyze table = some value) :
    Follows table lowered expression ↔ expression.lower lowered = .ok (some value.narrow) := by
  simp [Follows, analyzed]

theorem follows_of_none (analyzed : expression.analyze table = none) :
    Follows table lowered expression := by
  simp [Follows, analyzed]

theorem follows_numberLiteral_iff (literal : IntegerLiteral) :
    Follows table lowered (numberLiteral literal) ↔ (numberLiteral literal).Harmless table := by
  cases parsed : parseNumberLiteralAsI128 literal.text with
  | none =>
    exact iff_of_true (follows_of_none (by simp [analyze, parsed])) (by simp [Harmless, parsed])
  | some value =>
    rw [follows_iff (by simp [analyze, parsed] : _ = some (.int value))]
    simp only [lower, parsed, Option.bind_some, lowerLiteral, Harmless, Option.some.injEq,
      forall_eq']
    split_ifs with range
    · exact iff_of_true rfl range
    · exact iff_of_false (by simp) range

theorem lower_negate_of_direct (direct : operand.directIntegerLiteral = some literal) :
    (unary .negate operand operandType).lower lowered =
      .ok ((parseNumberLiteralAsI128 literal.text).bind lowerNegatedLiteral) := by
  simp only [lower, direct]

theorem lower_unary_of_reached {operator : UnaryOperator} {value : LoweredConstValue}
    (reached : operand.lower lowered = .ok (some value))
    (indirect : operator = .negate → operand.directIntegerLiteral = none) :
    (unary operator operand operandType).lower lowered = value.unary operator := by
  cases operator with
  | negate => simp only [lower, indirect rfl, reached]
  | not | bitNot => simp only [lower, reached]

attribute [local simp] ConstValue.unary

theorem follows_negate_iff {value : I128} (analyzed : operand.analyze table = some (.int value))
    (reached : operand.lower lowered = .ok (some (.int (value.setWidth 64))))
      (defined : value.negOverflow = false) :
    Follows table lowered (unary .negate operand operandType) ↔
      operand.UnarySurvives operandType value .negate := by
  have negated : (unary .negate operand operandType).analyze table = some (.int (-value)) := by
    simp [analyze, analyzed, defined]
  rw [follows_iff negated]
  cases direct : operand.directIntegerLiteral with
  | none =>
    rw [lower_unary_of_reached reached fun _ => direct]
    simp only [LoweredConstValue.unary, ConstValue.narrow, UnarySurvives, direct,
      Option.isSome_none, Bool.false_eq_true, if_false]
    exact checked_eq_iff (BitVec.setWidth_neg_of_le (by decide)).symm
  | some literal =>
    obtain ⟨parsed, text, same⟩ : ∃ parsed, parseNumberLiteralAsI128 literal.text = some parsed ∧
      parsed = value := by
      simpa [analyze_of_directIntegerLiteral direct] using analyzed
    subst same
    rw [lower_negate_of_direct direct, text]
    simp only [Option.bind_some, lowerNegatedLiteral, defined, Bool.false_eq_true, if_false,
      UnarySurvives, direct, Option.isSome_some, if_true]
    split_ifs with range
    · exact iff_of_true rfl range
    · exact iff_of_false (by simp) range

theorem follows_unary_iff {operator : UnaryOperator} (follows : Follows table lowered operand) :
    Follows table lowered (unary operator operand operandType) ↔
      ∀ value, operand.analyze table = some (.int value) →
        ((ConstValue.int value).unary operator operandType).isSome →
          operand.UnarySurvives operandType value operator := by
  cases analyzed : operand.analyze table with
  | none => exact iff_of_true (follows_of_none (by simp [analyze, analyzed])) (by simp)
  | some value =>
    have reached := follows value analyzed
    cases value with
    | bool value =>
      refine iff_of_true (fun result defined => ?_) (by simp)
      cases operator with
      | not =>
        obtain rfl : ConstValue.bool (!value) = result := by simpa [analyze, analyzed] using defined
        rw [lower_unary_of_reached reached (by simp)]
        rfl
      | negate | bitNot => simp [analyze, analyzed] at defined
    | int value =>
      simp only [Option.some.injEq, ConstValue.int.injEq, forall_eq']
      cases operator with
      | not => exact iff_of_true (follows_of_none (by simp [analyze, analyzed])) fun _ => trivial
      | bitNot =>
        rw [follows_iff
          (by simp [analyze, analyzed] : _ = some (.int (foldBitNot value operandType))),
          lower_unary_of_reached reached (by simp)]
        simp only [UnarySurvives, ← complement_narrow_iff, ConstValue.unary, Option.isSome_some,
          forall_const,
          LoweredConstValue.unary, ConstValue.narrow, Except.ok.injEq, Option.some.injEq,
            LoweredConstValue.int.injEq]
        exact eq_comm
      | negate =>
        cases defined : value.negOverflow with
        | true =>
          exact iff_of_true (follows_of_none (by simp [analyze, analyzed, defined]))
            (by simp [defined])
        | false =>
          rw [follows_negate_iff analyzed reached defined]
          simp [defined]

theorem follows_binary_iff {left right : ConstExpression}
    (followsLeft : Follows table lowered left) (followsRight : Follows table lowered right) :
    Follows table lowered (binary left operator right) ↔ ∀ a b, left.analyze table = some (.int a) →
      right.analyze table = some (.int b) → ((ConstValue.int a).binary operator (.int b)).isSome →
        operator.Survives a b := by
  cases analyzedLeft : left.analyze table with
  | none => exact iff_of_true (follows_of_none (by simp [analyze, analyzedLeft])) (by simp)
  | some a =>
    cases analyzedRight : right.analyze table with
    | none => exact iff_of_true (follows_of_none (by simp [analyze, analyzedRight])) (by simp)
    | some b =>
      have reached : (binary left operator right).lower lowered = a.narrow.binary operator
        b.narrow := by
        simp only [lower, followsLeft a analyzedLeft, followsRight b analyzedRight]
      have analyzed : (binary left operator right).analyze table = a.binary operator b := by
        simp [analyze, analyzedLeft, analyzedRight]
      rcases a with a | a <;> rcases b with b | b
      case int.int =>
        cases defined : (ConstValue.int a).binary operator (.int b) with
        | none =>
          refine iff_of_true (follows_of_none (analyzed.trans defined)) ?_
          rintro _ _ ⟨⟩ ⟨⟩
          simp [defined]
        | some value =>
          rw [follows_iff (analyzed.trans defined), reached]
          refine (binary_narrow_iff defined).trans
            ⟨?_, fun survives => survives a b rfl rfl (by rw [defined]; rfl)⟩
          rintro survives _ _ ⟨⟩ ⟨⟩ _
          exact survives
      all_goals
        refine iff_of_true (fun value defined => ?_) (by simp)
        rw [reached]
        rw [analyzed] at defined
        cases operator <;> simp_all [ConstValue.binary] <;>
          (subst defined; rfl)

theorem follows_cast_iff {inner : ConstExpression} (follows : Follows table lowered inner) :
    Follows table lowered (cast inner target) ↔ ∀ value, inner.analyze table = some (.int value) →
      target.fits value = true → CastSurvives value target := by
  cases analyzed : inner.analyze table with
  | none => exact iff_of_true (follows_of_none (by simp [analyze, analyzed])) (by simp)
  | some value =>
    have reached := follows value analyzed
    cases value with
    | bool value =>
      exact iff_of_true (follows_of_none (by simp [analyze, analyzed, ConstValue.cast])) (by simp)
    | int value =>
      simp only [Option.some.injEq, ConstValue.int.injEq, forall_eq']
      by_cases fits : target.fits value = true
      · have defined : (ConstValue.int value).cast target = some (.int value) := by
          simp [ConstValue.cast, fits]
        rw [follows_iff (by simp [analyze, analyzed, defined] : _ = some (.int value))]
        simpa [lower, reached, fits] using cast_narrow_iff defined
      · exact iff_of_true (follows_of_none (by simp [analyze, analyzed, ConstValue.cast, fits]))
          (by simp [fits])

/-- Lowering follows at every subexpression exactly when the expression is harmless. -/
theorem forall_follows_iff_harmless (tables : ∀ name value, table name = some value →
    lowered name = some value.narrow) (expression : ConstExpression) :
    (∀ part ∈ expression.subexpressions, Follows table lowered part) ↔
      expression.Harmless table := by
  have self_mem : ∀ expression : ConstExpression, expression ∈ expression.subexpressions := by
    intro expression
    cases expression <;> simp [subexpressions]
  induction expression with
  | numberLiteral literal => simpa [subexpressions] using follows_numberLiteral_iff literal
  | identifier name =>
    simp only [subexpressions, List.mem_singleton, forall_eq, Harmless, iff_true]
    intro value found
    simp only [lower, tables name value found]
  | grouping inner ih =>
    refine Iff.trans ?_ ih
    rw [subexpressions, List.forall_mem_cons]
    exact and_iff_right_of_imp fun parts => parts inner (self_mem inner)
  | unary operator operand operandType ih =>
    refine Iff.trans ?_ (and_congr_left' ih)
    rw [subexpressions, List.forall_mem_cons, and_comm]
    exact and_congr_right fun parts => follows_unary_iff (parts operand (self_mem operand))
  | binary left operator right ihLeft ihRight =>
    refine Iff.trans ?_ (and_congr_left' (and_congr ihLeft ihRight))
    rw [subexpressions, List.forall_mem_cons, List.forall_mem_append, and_comm]
    exact and_congr_right fun parts =>
      follows_binary_iff (parts.1 left (self_mem left)) (parts.2 right (self_mem right))
  | cast inner target ih =>
    refine Iff.trans ?_ (and_congr_left' ih)
    rw [subexpressions, List.forall_mem_cons, and_comm]
    exact and_congr_right fun parts => follows_cast_iff (parts inner (self_mem inner))

end ConstExpression

/-- Every declared value and the expression are harmless, each with the constants before it. -/
def HarmlessConsts (table : ConstTable) : List ConstDecl → ConstExpression → Prop
  | [], expression => expression.Harmless table
  | decl :: rest, expression =>
    decl.value.Harmless table ∧ ∀ value, decl.value.analyze table = some value →
    HarmlessConsts (update table decl.name (some value)) rest expression

/-- Lowering follows at every subexpression of the declared values and of the expression. -/
def FollowsConsts (table : ConstTable) (lowered : LoweredTable) : List ConstDecl → ConstExpression →
    Prop
  | [], expression => ∀ part ∈ expression.subexpressions, part.Follows table lowered
  | decl :: rest, expression => (∀ part ∈ decl.value.subexpressions, part.Follows table lowered) ∧
    ∀ value, decl.value.analyze table = some value →
      FollowsConsts (update table decl.name (some value))
        (update lowered decl.name (some value.narrow))
        rest expression

/-- With the declarations accepted, lowering evaluates them and the expression without overflow and
to the same boolean, or to the same integer modulo `2 ^ 64` when it fits a type. -/
def EvaluatorsAgree (decls : List ConstDecl) (table : ConstTable) (expression : ConstExpression) :
    Prop :=
  ∃ lowered, lowerConsts (fun _ => none) decls = .ok lowered ∧
    (∀ value declared, expression.analyze table = some (.int value) →
      IntegerType.fits value declared = true →
      ∃ result, expression.lower lowered = .ok (some (.int result)) ∧
        result.toInt ≡ value.toInt [ZMOD 2 ^ 64]) ∧
    ∀ value, expression.analyze table = some (.bool value) →
      expression.lower lowered = .ok (some (.bool value))

section Declarations
variable {table : ConstTable} {lowered : LoweredTable}

section
variable (tables : ∀ name value, table name = some value → lowered name = some value.narrow)
include tables

theorem update_narrow
    (declared : String) (value : ConstValue) :
      ∀ name other, update table declared (some value) name = some other →
      update lowered declared (some value.narrow) name = some other.narrow := by
  intro name other found
  by_cases same : name = declared
  · subst same
    obtain rfl : value = other := by simpa using found
    simp
  · rw [update_of_ne same] at found ⊢
    exact tables name other found

variable {decls : List ConstDecl}

theorem followsConsts_iff_harmlessConsts (expression : ConstExpression) :
    FollowsConsts table lowered decls expression ↔ HarmlessConsts table decls expression := by
  induction decls generalizing table lowered with
  | nil => exact ConstExpression.forall_follows_iff_harmless tables expression
  | cons decl rest ih =>
    refine and_congr (ConstExpression.forall_follows_iff_harmless tables decl.value)
      (forall₂_congr fun value _ => ?_)
    exact ih (update_narrow tables decl.name value)

/-- Lowering builds the narrowed table. -/
theorem lowerConsts_of_harmless {expression : ConstExpression} {final : ConstTable}
    (accepted : analyzeConsts table decls = some final)
      (harmless : HarmlessConsts table decls expression) :
    ∃ final', lowerConsts lowered decls = .ok final' ∧ expression.Harmless final ∧
      ∀ name value, final name = some value → final' name = some value.narrow := by
  induction decls generalizing table lowered with
  | nil =>
    obtain rfl : table = final := by simpa [analyzeConsts] using accepted
    exact ⟨lowered, rfl, harmless, tables⟩
  | cons decl rest ih =>
    obtain ⟨harmlessValue, harmlessRest⟩ := harmless
    rw [analyzeConsts] at accepted
    cases analyzed : decl.value.analyze table with
    | none => simp [analyzed] at accepted
    | some value =>
      have follows := (ConstExpression.forall_follows_iff_harmless tables decl.value).mpr
        harmlessValue
      have reached :=
        follows decl.value (by cases decl.value <;> simp [ConstExpression.subexpressions]) value
          analyzed
      cases value with
      | bool value => simp [analyzed] at accepted
      | int value =>
        simp only [analyzed] at accepted
        split_ifs at accepted with fits
        rw [lowerConsts, reached]
        exact ih (update_narrow tables decl.name (.int value)) accepted (harmlessRest _ analyzed)

end

end Declarations

/-- For accepted declarations: lowering follows semantic analysis at every subexpression exactly
when the expressions are harmless, and then the evaluators agree. -/
theorem evaluatorsAgree_of_harmlessConsts {decls : List ConstDecl} {table : ConstTable}
    (accepted : analyzeConsts (fun _ => none) decls = some table) (expression : ConstExpression) :
    (FollowsConsts (fun _ => none) (fun _ => none) decls expression ↔
      HarmlessConsts (fun _ => none) decls expression) ∧
      (HarmlessConsts (fun _ => none) decls expression →
        EvaluatorsAgree decls table expression) := by
  have empty : ∀ name value, (fun _ => none : ConstTable) name = some value →
      (fun _ => none : LoweredTable) name = some value.narrow := by simp
  refine ⟨followsConsts_iff_harmlessConsts empty expression, fun harmless => ?_⟩
  obtain ⟨lowered, built, harmless', tables⟩ := lowerConsts_of_harmless empty accepted harmless
  have follows := (ConstExpression.forall_follows_iff_harmless tables expression).mpr harmless'
    expression (by cases expression <;> simp [ConstExpression.subexpressions])
  refine ⟨lowered, built, fun value declared analyzed _ =>
    ⟨value.setWidth 64, follows _ analyzed, ?_⟩,
    fun value analyzed => follows _ analyzed⟩
  rw [toInt_setWidth_eq_bmod]
  exact Int.bmod_emod

/-- The literal with the text. -/
private def literalOf (text : String) (integral : numberLiteralIsFloat text.toList = false) :
    ConstExpression :=
  .numberLiteral ⟨text.toList, integral⟩

theorem evaluatorsAgree_two : analyzeConsts (fun _ => none) [] = some (fun _ => none) ∧
    EvaluatorsAgree [] (fun _ => none)
      (.binary (literalOf "1" (by decide)) .add (literalOf "1" (by decide))) := by
  have accepted : analyzeConsts (fun _ => none) [] = some (fun _ => none) := rfl
  have one : parseNumberLiteralAsI128 "1".toList = some 1 := by decide
  have inRange : (literalOf "1" (by decide)).Harmless (fun _ => none) := by
    intro value parsed
    obtain rfl := Option.some.inj (one.symm.trans parsed)
    decide
  have isOne : ∀ a, (literalOf "1" (by decide)).analyze (fun _ => none) = some (.int a) →
    1 = a := by
    intro a analyzed
    change (parseNumberLiteralAsI128 "1".toList).map ConstValue.int = some (.int a) at analyzed
    rw [one] at analyzed
    simpa using analyzed
  refine ⟨accepted, (evaluatorsAgree_of_harmlessConsts accepted _).2
    ⟨⟨inRange, inRange⟩, fun a b left right _ => ?_⟩⟩
  obtain rfl := isOne a left
  obtain rfl := isOne b right
  exact (by decide : ((1#128).setWidth 64).saddOverflow ((1#128).setWidth 64) = false)

/-- `9223372036854775807 + 1 - 1` is an `int` for semantic analysis, and overflows in lowering. -/
theorem not_evaluatorsAgree_overflow : ¬ EvaluatorsAgree [] (fun _ => none)
    (.binary
      (.binary (literalOf "9223372036854775807" (by decide)) .add (literalOf "1" (by decide)))
      .subtract (literalOf "1" (by decide))) := by
  rintro ⟨lowered, built, integers, -⟩
  obtain rfl : (fun _ => none) = lowered := by simpa [lowerConsts] using built
  obtain ⟨result, reached, -⟩ := integers 9223372036854775807 .int (by decide) (by decide)
  cases reached

end SpectraLang

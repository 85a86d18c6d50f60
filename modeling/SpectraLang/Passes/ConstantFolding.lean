import SpectraLang.Semantics.Integers
import SpectraLang.Passes.VerificationSound

/-! # Constant folding

Integer and boolean operations over known constants are replaced by their result until no round
finds one. Untyped integers fold with checked 64-bit arithmetic; typed ones only when both operands
share the type and operands and result lie in its range. The checks are on 64-bit values, whereas
the backend divides at the width of the type.
-/

namespace SpectraLang

namespace ConstantFolding

open Saturate

/-- A constant the rules recognise; `ty` is absent for the untyped encoding. -/
inductive KnownConstant where
  | int (value : I64) (ty : Option IRType)
  | bool (value : Bool)
  deriving DecidableEq

/-- The constant an instruction defines. -/
def constantOf : InstructionKind → Option (Value × KnownConstant)
  | .constInt result value => some (result, .int value none)
  | .constIntTyped result value ty => some (result, .int value (some ty))
  | .constBool result value => some (result, .bool value)
  | _ => none

/-- The constants of the function by value. -/
abbrev Constants := Value → Option KnownConstant

def recordConstant (constants : Constants) (kind : InstructionKind) : Constants :=
  match constantOf kind with
  | some (result, constant) => Function.update constants result (some constant)
  | none => constants

def collectConstants (function : Function) : Constants :=
  function.kinds.foldl recordConstant fun _ => none

/-- The inclusive range of 64-bit values of an integer-like type. -/
def intTypeRange : IRType → Option (Int × Int)
  | .int => some (-2 ^ 63, 2 ^ 63 - 1)
  | .exactInt signed width => some <|
    match width with
    | .i8 => if signed then (-2 ^ 7, 2 ^ 7 - 1) else (0, 2 ^ 8 - 1)
    | .i16 => if signed then (-2 ^ 15, 2 ^ 15 - 1) else (0, 2 ^ 16 - 1)
    | .i32 => if signed then (-2 ^ 31, 2 ^ 31 - 1) else (0, 2 ^ 32 - 1)
    | .i64 => if signed then (-2 ^ 63, 2 ^ 63 - 1) else (0, 2 ^ 63 - 1)
    | .isize => if signed then (-2 ^ 63, 2 ^ 63 - 1) else (0, 2 ^ 63 - 1)
    | .usize => (0, 2 ^ 63 - 1)
  | .char => some (0, 0x10FFFF)
  | .bool => some (0, 1)
  | _ => none

/-- `value_fits_int_type`. -/
def valueFitsIntType (value : I64) (ty : IRType) : Bool :=
  match intTypeRange ty with
  | some (min, max) => min ≤ value.toInt ∧ value.toInt ≤ max
  | none => false

/-- The 64-bit value of an integer, unless it overflows. -/
def checked (value : Int) : Option I64 :=
  if -2 ^ 63 ≤ value ∧ value ≤ 2 ^ 63 - 1 then some (BitVec.ofInt 64 value) else none

/-- The checked 64-bit operation of the five foldable integer opcodes. -/
def checkedOperation (op : BinaryOp) (lhs rhs : I64) : Option I64 :=
  match op with
  | .add => checked (lhs.toInt + rhs.toInt)
  | .sub => checked (lhs.toInt - rhs.toInt)
  | .mul => checked (lhs.toInt * rhs.toInt)
  | .div _ => if rhs = 0 then none else checked (lhs.toInt.tdiv rhs.toInt)
  | .rem _ =>
    if rhs = 0 ∨ lhs = BitVec.intMin 64 ∧ rhs = -1 then none else checked (lhs.toInt.tmod rhs.toInt)
  | _ => none

/-- The flag of a division or remainder; other opcodes pass `false`. -/
def isUnsigned : BinaryOp → Bool
  | .div unsigned | .rem unsigned => unsigned
  | _ => false

/-- `fold_int_binop`. -/
def foldIntBinop (constants : Constants) (lhs rhs : Value) (op : BinaryOp) : Option KnownConstant :=
  match constants lhs, constants rhs with
  | some (.int lhsValue lhsTy), some (.int rhsValue rhsTy) =>
    if lhsTy ≠ rhsTy then none
    else if isUnsigned op ∧ (lhsValue.toInt < 0 ∨ rhsValue.toInt < 0) then none
    else
      match checkedOperation op lhsValue rhsValue with
      | none => none
      | some value =>
        match lhsTy with
        | none => some (.int value none)
        | some ty =>
          if valueFitsIntType lhsValue ty && valueFitsIntType rhsValue ty && valueFitsIntType value
            ty then
            some (.int value (some ty))
          else none
  | _, _ => none

/-- `fold_bool_binop`. -/
def foldBoolBinop (constants : Constants) (lhs rhs : Value) (and : Bool) : Option KnownConstant :=
  match constants lhs, constants rhs with
  | some (.bool lhs), some (.bool rhs) => some (.bool (if and then lhs && rhs else lhs || rhs))
  | _, _ => none

/-- The constant an instruction folds to. -/
def foldedValue (constants : Constants) : InstructionKind → Option KnownConstant
  | .binary op _ lhs rhs =>
    match op with
    | .add | .sub | .mul | .div _ | .rem _ => foldIntBinop constants lhs rhs op
    | .and => foldBoolBinop constants lhs rhs true
    | .or => foldBoolBinop constants lhs rhs false
    | _ => none
  | .not _ operand =>
    match constants operand with
    | some (.bool value) => some (.bool !value)
    | _ => none
  | _ => none

/-- `get_result`. -/
def getResult : InstructionKind → Option Value
  | .binary op result _ _ => if op.isComparison then none else some result
  | .not result _ => some result
  | _ => none

/-- The instruction that defines a constant. -/
def constantKind (result : Value) : KnownConstant → InstructionKind
  | .int value none => .constInt result value
  | .int value (some ty) => .constIntTyped result value ty
  | .bool value => .constBool result value

def foldKind (constants : Constants) (kind : InstructionKind) : InstructionKind :=
  match foldedValue constants kind, getResult kind with
  | some constant, some result => constantKind result constant
  | _, _ => kind

def foldInstruction (constants : Constants) (instruction : Instruction) : Instruction :=
  { instruction with kind := foldKind constants instruction.kind }

def foldBlock (constants : Constants) (block : BasicBlock) : BasicBlock :=
  { block with instructions := block.instructions.map (foldInstruction constants) }

def foldBlocks (constants : Constants) (function : Function) : Function :=
  { function with blocks := function.blocks.map (foldBlock constants) }

/-- One round: nothing when no instruction folds, else every replacement. -/
def foldRound (function : Function) : Option Function :=
  let constants := collectConstants function
  if function.kinds.any fun kind => (foldedValue constants kind).isSome then some
    (foldBlocks constants function)
  else none

/-- The rounds of one function; poll and drop functions are left alone. -/
def foldFunction (function : Function) : Function :=
  if function.suspensionBarrier then function
  else saturate foldRound function.kinds.length function

/-- `ConstantFolding::run`, with the flag that reports a modification. -/
def run (module : Module) : Module × Bool :=
  ({ module with functions := module.functions.map foldFunction },
    module.functions.any fun function => !function.suspensionBarrier && (foldRound function).isSome)

end ConstantFolding

end SpectraLang

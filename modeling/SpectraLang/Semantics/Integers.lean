import SpectraLang.TypeRules
import SpectraLang.Semantics.Machine

/-! # Integer instructions as the backend emits them

Two-operand integer instructions work at the width of their operands: arithmetic wraps, shift counts
are masked, and division and remainder trap on a zero divisor and, when signed, on the smallest
value by minus one. Comparisons and logical negation produce one byte.
-/

namespace SpectraLang

section Arithmetic
variable {w : Nat}

/-- The result of a two-operand instruction other than a comparison. -/
def arithmetic (op : BinaryOp) (lhs rhs : BitVec w) : BitVec w :=
  match op with
  | .add => lhs + rhs
  | .sub => lhs - rhs
  | .mul => lhs * rhs
  | .div unsigned => if unsigned then lhs / rhs else lhs.sdiv rhs
  | .rem unsigned => if unsigned then lhs % rhs else lhs.srem rhs
  | .bitAnd | .and => lhs &&& rhs
  | .bitOr | .or => lhs ||| rhs
  | .bitXor => lhs ^^^ rhs
  | .shl => lhs <<< (rhs.toNat % w)
  | .shr unsigned => if unsigned then lhs >>> (rhs.toNat % w) else lhs.sshiftRight (rhs.toNat % w)
  | .eq | .ne | .lt _ | .le _ | .gt _ | .ge _ => lhs

/-- The truth value of a comparison. -/
def comparison (op : BinaryOp) (lhs rhs : BitVec w) : Bool :=
  match op with
  | .eq => lhs == rhs
  | .ne => lhs != rhs
  | .lt unsigned => if unsigned then lhs.ult rhs else lhs.slt rhs
  | .le unsigned => if unsigned then lhs.ule rhs else lhs.sle rhs
  | .gt unsigned => if unsigned then rhs.ult lhs else rhs.slt lhs
  | .ge unsigned => if unsigned then rhs.ule lhs else rhs.sle lhs
  | _ => false

/-- The checks before a division or remainder. -/
def divisionCheck (unsigned : Bool) (lhs rhs : BitVec w) : Option Trap :=
  if rhs = 0 then some .divisionByZero
  else if unsigned = false ∧ rhs = -1 ∧ lhs = BitVec.intMin w then some .divisionOverflow
  else none

def divisionTrap (op : BinaryOp) (lhs rhs : BitVec w) : Option Trap :=
  match op with
  | .div unsigned | .rem unsigned => divisionCheck unsigned lhs rhs
  | _ => none

end Arithmetic

/-- The bits of the integer register a type is represented in. -/
def MachineClass.intBits : MachineClass → Option Nat
  | i8 => some 8
  | i16 => some 16
  | i32 => some 32
  | i64 => some 64
  | f32 | f64 => none

def intBits (ty : IRType) : Option Nat := (machineClass ty).bind MachineClass.intBits

/-- An integer register of some width, or any other value. -/
inductive MachineValue (X : Type*) where
  | int (width : Nat) (bits : BitVec width)
  | other (value : X)
  deriving DecidableEq

variable {X W : Type*}

def MachineValue.ofBool (value : Bool) : MachineValue X := .int 8 (if value then 1 else 0)

/-- A two-operand instruction on integers of one width. -/
def integerBinary (op : BinaryOp) (w : Nat) (lhs rhs : BitVec w) : MachineValue X :=
  if op.isComparison then .ofBool (comparison op lhs rhs) else .int w (arithmetic op lhs rhs)

/-- Integer arithmetic, logic and constants over a machine that gives meaning to everything else. -/
def integerMachine (rest : Machine (MachineValue X) W) : Machine (MachineValue X) W where
  compute kind count args world :=
    match kind, args with
    | .binary op .., [.int w lhs, .int w' rhs] =>
      if w' = w then integerBinary op w lhs (rhs.setWidth w) else rest.compute kind count args world
    | .not .., [.int _ operand] => .ofBool (operand == 0)
    | .constInt _ value, _ => .int 64 value
    | .constIntTyped _ value ty, _ =>
      match intBits ty with
      | some w => .int w (value.signExtend w)
      | none => rest.compute kind count args world
    | .constBool _ value, _ => .ofBool value
    | _, _ => rest.compute kind count args world
  trap kind args :=
    match kind, args with
    | .binary op .., [.int w lhs, .int w' rhs] =>
      if w' = w then divisionTrap op lhs (rhs.setWidth w) else rest.trap kind args
    | _, _ => rest.trap kind args
  perform := rest.perform
  isTrue := rest.isTrue
  matchesCase := rest.matchesCase

end SpectraLang

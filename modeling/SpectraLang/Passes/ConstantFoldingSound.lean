import SpectraLang.Passes.ConstantFolding
import SpectraLang.Semantics.Paths

/-! # Folded constants are what the machine computes

A folded operation has the value the backend computes for it, except for two kinds of signed
division below 64 bits: a remainder of the smallest value by minus one, which the machine refuses,
and operands of an unsigned type that are negative when read as signed. Away from these the original
and the folded function run in lockstep.
-/

namespace SpectraLang

open List Machine InstructionKind

namespace ConstantFolding

open Saturate Simulation FlowGraph

section Arithmetic
variable {w : Nat}

theorem ofInt_sub (x y : Int) : BitVec.ofInt w (x - y) = BitVec.ofInt w x - BitVec.ofInt w y := by
  apply BitVec.eq_of_toInt_eq
  simp

theorem neg_one_eq_ofInt : (-1 : BitVec w) = BitVec.ofInt w (-1) := by
  rw [BitVec.ofInt_neg]
  rfl

variable {value x y : Int}

theorem toInt_of_checked {result : I64} (success : checked value = some result) :
    result.toInt = value ∧ -2 ^ 63 ≤ value ∧ value ≤ 2 ^ 63 - 1 := by
  unfold checked at success
  split_ifs at success with range
  cases success
  exact ⟨BitVec.toInt_ofInt_eq_self (by omega) range.1 (by omega), range⟩

/-- The operands as signed numbers of the width. -/
private def SignedRange (w : Nat) (value : Int) : Prop := -2 ^ (w - 1) ≤ value ∧ value < 2 ^ (w - 1)

theorem toInt_of_signedRange (positive : 0 < w) (range : SignedRange w value) :
    (BitVec.ofInt w value).toInt = value :=
  BitVec.toInt_ofInt_eq_self positive range.1 range.2

theorem toNat_of_unsignedRange (nonneg : 0 ≤ value) (range : value < 2 ^ w) :
    ((BitVec.ofInt w value).toNat : Int) = value := by
  have positive := Nat.two_pow_pos w
  rw [BitVec.toNat_ofInt, Int.toNat_of_nonneg (Int.emod_nonneg _ (by omega))]
  exact Int.emod_eq_of_lt nonneg (by exact_mod_cast range)

/-- The number a division of the given signedness takes a register for. -/
private def reading (unsigned : Bool) (value : BitVec w) : Int :=
  if unsigned then value.toNat else value.toInt

variable (unsigned : Bool) (a b : BitVec w)

theorem quotient_eq :
    arithmetic (.div unsigned) a b = BitVec.ofInt w
      ((reading unsigned a).tdiv (reading unsigned b)) := by
  cases unsigned with
  | true =>
    change a / b = BitVec.ofInt w ((a.toNat : Int).tdiv b.toNat)
    rw [← Int.ofNat_tdiv, BitVec.ofInt_natCast, BitVec.udiv_def]
  | false =>
    apply BitVec.eq_of_toInt_eq
    rw [BitVec.toInt_ofInt]
    exact BitVec.toInt_sdiv ..

theorem remainder_eq :
    arithmetic (.rem unsigned) a b = BitVec.ofInt w
      ((reading unsigned a).tmod (reading unsigned b)) := by
  cases unsigned with
  | true =>
    change a % b = BitVec.ofInt w ((a.toNat : Int).tmod b.toNat)
    rw [← Int.ofNat_tmod, BitVec.ofInt_natCast, BitVec.umod_def]
  | false =>
    change a.srem b = BitVec.ofInt w (a.toInt.tmod b.toInt)
    rw [← BitVec.toInt_srem, BitVec.ofInt_toInt]

end Arithmetic

/-- The unsigned types whose values may have the top bit of their register set. -/
def unsignedNarrow : IRType → Bool
  | .exactInt false .i8 | .exactInt false .i16 | .exactInt false .i32 => true
  | _ => false

/-- A signed division or remainder of typed constants that the machine does as the folding does:
unsigned operands are nonnegative as signed numbers, and no remainder below 64 bits is that of the
smallest value by minus one. -/
def SafeOperands (op : BinaryOp) (ty : IRType) {w : Nat} (lhs rhs : BitVec w) : Prop :=
  match op with
  | .div false => unsignedNarrow ty = true → lhs.msb = false ∧ rhs.msb = false
  | .rem false => (unsignedNarrow ty = true → lhs.msb = false ∧ rhs.msb = false) ∧
      (w < 64 → ¬(lhs = BitVec.intMin w ∧ rhs = -1))
  | _ => True

/-- An integer-like type keeps its values in signed range, or is a narrow unsigned one. -/
theorem intTypeRange_bits {ty : IRType} {min max : Int}
    (range : intTypeRange ty = some (min, max)) :
    ∃ w, intBits ty = some w ∧ 0 < w ∧ w ≤ 64 ∧
      ((SignedRange w min ∧ SignedRange w max) ∨
        (unsignedNarrow ty = true ∧ w < 64 ∧ min = 0 ∧ max = 2 ^ w - 1)) := by
  cases ty with
  | exactInt signed width =>
    cases signed <;> cases width <;>
      simp only [intTypeRange, if_true, Bool.false_eq_true, if_false, Option.some.injEq,
      Prod.mk.injEq] at range <;> obtain ⟨rfl, rfl⟩ := range <;> refine ⟨_, rfl, by decide, by
        decide, ?_⟩ <;>
      simp [SignedRange, unsignedNarrow]
  | int | char | bool =>
    simp only [intTypeRange, Option.some.injEq, Prod.mk.injEq] at range
    obtain ⟨rfl, rfl⟩ := range
    exact ⟨_, rfl, by decide, by decide, .inl (by simp [SignedRange])⟩
  | _ => simp [intTypeRange] at range

variable {op : BinaryOp} {x y z : I64} {w : Nat}

/-- The operands a division of the given signedness does at this width as it does at 64 bits. -/
private structure DivisionRange (unsigned : Bool) (w : Nat) (x y : Int) : Prop where
  left : reading unsigned (BitVec.ofInt w x) = x
  right : reading unsigned (BitVec.ofInt w y) = y
  overflow : unsigned = false → 0 < w ∧ ¬(x = -2 ^ (w - 1) ∧ y = -1)

theorem divisionCheck_none {unsigned : Bool} {x y : Int} (nonzero : y ≠ 0)
    (range : DivisionRange unsigned w x y) :
    divisionCheck unsigned (BitVec.ofInt w x) (BitVec.ofInt w y) = none := by
  obtain ⟨left, right, overflow⟩ := range
  have divisor : BitVec.ofInt w y ≠ 0 := by
    intro zero
    rw [zero] at right
    cases unsigned <;> exact nonzero (by simpa [reading] using right.symm)
  rw [divisionCheck, if_neg divisor, if_neg]
  rintro ⟨rfl, minusOne, smallest⟩
  obtain ⟨positive, overflow⟩ := overflow rfl
  apply overflow
  rw [smallest, reading, BitVec.toInt_intMin_of_pos positive] at left
  have half : (0 : Int) < 2 ^ (w - 1) := by exact_mod_cast Nat.two_pow_pos (w - 1)
  rw [minusOne, neg_one_eq_ofInt, reading, toInt_of_signedRange positive ⟨by omega, by omega⟩]
    at right
  exact ⟨left.symm, right.symm⟩

/-- The register contents of a constant. -/
def KnownConstant.value {X : Type*} : KnownConstant → Option (MachineValue X)
  | .int value none => some (.int 64 value)
  | .int value (some ty) => (intBits ty).map fun w => .int w (value.signExtend w)
  | .bool value => some (.ofBool value)

theorem msb_ofInt {x : Int} (positive : 0 < w) (range : 0 ≤ x ∧ x < 2 ^ w)
    (low : (BitVec.ofInt w x).msb = false) : SignedRange w x := by
  have value := toNat_of_unsignedRange range.1 range.2
  have half := mul_pow_sub_one positive.ne' (2 : Int)
  have bound := BitVec.msb_eq_false_iff_two_mul_lt.mp low
  have bound : (2 : Int) * x < 2 ^ w := by
    rw [← value]
    exact_mod_cast bound
  exact ⟨by omega, by omega⟩

variable {constants : Constants}

theorem foldIntBinop_cases {lhs rhs : Value} {result : KnownConstant}
    (folded : foldIntBinop constants lhs rhs op = some result) :
    ∃ x y z ty, constants lhs = some (.int x ty) ∧ constants rhs = some (.int y ty) ∧
      result = .int z ty ∧
      checkedOperation op x y = some z ∧ (isUnsigned op = true → 0 ≤ x.toInt ∧ 0 ≤ y.toInt) ∧
      ∀ known ∈ ty, valueFitsIntType x known = true ∧ valueFitsIntType y known = true ∧
        valueFitsIntType z known = true := by
  unfold foldIntBinop at folded
  split at folded
  case h_2 => simp at folded
  case h_1 x ty y rhsTy lhsKnown rhsKnown =>
    split_ifs at folded with different negative
    obtain rfl : ty = rhsTy := not_not.mp different
    have unsigned : isUnsigned op = true → 0 ≤ x.toInt ∧ 0 ≤ y.toInt := by
      intro flag
      by_contra bad
      exact negative ⟨flag, by omega⟩
    cases success : checkedOperation op x y with
    | none => simp [success] at folded
    | some z =>
      simp only [success] at folded
      cases ty with
      | none =>
        exact ⟨x, y, z, none, lhsKnown, rhsKnown, (Option.some.inj folded).symm, success,
          unsigned, by simp⟩
      | some ty =>
        simp only at folded
        split_ifs at folded with fits
        refine ⟨x, y, z, some ty, lhsKnown, rhsKnown, (Option.some.inj folded).symm, success,
          unsigned, ?_⟩
        simpa [and_assoc] using fits

section
variable (success : checkedOperation op x y = some z)
include success

theorem checkedOperation_cases :
    (op = .add ∧ z.toInt = x.toInt + y.toInt) ∨ (op = .sub ∧ z.toInt = x.toInt - y.toInt) ∨
    (op = .mul ∧ z.toInt = x.toInt * y.toInt) ∨
    (∃ unsigned, op = .div unsigned ∧ y.toInt ≠ 0 ∧ z.toInt = x.toInt.tdiv y.toInt ∧
      z.toInt ≤ 2 ^ 63 - 1) ∨
    ∃ unsigned, op = .rem unsigned ∧ y.toInt ≠ 0 ∧ ¬(x.toInt = -2 ^ 63 ∧ y.toInt = -1) ∧
      z.toInt = x.toInt.tmod y.toInt := by
  have nonzero (rhs : y ≠ 0) : y.toInt ≠ 0 :=
    fun zero => rhs (BitVec.eq_of_toInt_eq (by simpa using zero))
  cases op with
  | add => exact .inl ⟨rfl, (toInt_of_checked success).1⟩
  | sub => exact .inr (.inl ⟨rfl, (toInt_of_checked success).1⟩)
  | mul => exact .inr (.inr (.inl ⟨rfl, (toInt_of_checked success).1⟩))
  | div unsigned =>
    simp only [checkedOperation] at success
    split_ifs at success with zero
    have value := toInt_of_checked success
    exact .inr (.inr (.inr (.inl ⟨unsigned, rfl, nonzero zero, value.1, by omega⟩)))
  | rem unsigned =>
    simp only [checkedOperation] at success
    split_ifs at success with refused
    have value := toInt_of_checked success
    rw [not_or] at refused
    refine .inr
      (.inr (.inr
      (.inr ⟨unsigned, rfl, nonzero refused.1, fun overflow => refused.2 ⟨?_, ?_⟩, value.1⟩)))
    · exact BitVec.eq_of_toInt_eq (overflow.1.trans (by decide))
    · exact BitVec.eq_of_toInt_eq (overflow.2.trans (by decide))
  | _ => simp [checkedOperation] at success

/-- The machine does not trap on a folded operation and computes the folded value. -/
theorem exec_folded
    (range : ∀ unsigned, op = .div unsigned ∨ op = .rem unsigned →
      DivisionRange unsigned w x.toInt y.toInt) :
    divisionTrap op (BitVec.ofInt w x.toInt) (BitVec.ofInt w y.toInt) = none ∧
      arithmetic op (BitVec.ofInt w x.toInt) (BitVec.ofInt w y.toInt) = BitVec.ofInt w z.toInt := by
  rcases checkedOperation_cases success with ⟨rfl, value⟩ | ⟨rfl, value⟩ | ⟨rfl, value⟩ |
    ⟨unsigned, rfl, nonzero, value, _⟩ | ⟨unsigned, rfl, nonzero, _, value⟩
  · exact ⟨rfl, by rw [value, BitVec.ofInt_add]; rfl⟩
  · exact ⟨rfl, by rw [value, ofInt_sub]; rfl⟩
  · exact ⟨rfl, by rw [value, BitVec.ofInt_mul]; rfl⟩
  · have range := range unsigned (.inl rfl)
    exact ⟨divisionCheck_none nonzero range, by rw [quotient_eq, range.left, range.right, value]⟩
  · have range := range unsigned (.inr rfl)
    exact ⟨divisionCheck_none nonzero range, by rw [remainder_eq, range.left, range.right, value]⟩

section
variable (unsigned : isUnsigned op = true → 0 ≤ x.toInt ∧ 0 ≤ y.toInt)
include unsigned

/-- The operands of a typed fold are in range for the machine's division when they are safe. -/
theorem divisionRange_of_safe {ty : IRType} {flag : Bool} (fitsX : valueFitsIntType x ty = true)
    (fitsY : valueFitsIntType y ty = true) (fitsZ : valueFitsIntType z ty = true)
      (bits : intBits ty = some w)
    (safe : SafeOperands op ty (BitVec.ofInt w x.toInt) (BitVec.ofInt w y.toInt)) :
    op = .div flag ∨ op = .rem flag → DivisionRange flag w x.toInt y.toInt := by
  intro division
  cases range : intTypeRange ty with
  | none => simp [valueFitsIntType, range] at fitsX
  | some bounds =>
    obtain ⟨min, max⟩ := bounds
    simp only [valueFitsIntType, range, decide_eq_true_eq] at fitsX fitsY fitsZ
    obtain ⟨width, same, positive, atMost, shape⟩ := intTypeRange_bits range
    obtain rfl : width = w := Option.some.inj (same.symm.trans bits)
    have half := mul_pow_sub_one positive.ne' (2 : Int)
    have top : (0 : Int) < 2 ^ (width - 1) := by exact_mod_cast Nat.two_pow_pos (width - 1)
    have below (value : Int) (inside : min ≤ value ∧ value ≤ max) : value < 2 ^ width := by
      rcases shape with ⟨_, high⟩ | ⟨_, _, _, high⟩
      · have := high.2
        omega
      · omega
    cases flag with
    | true =>
      obtain ⟨left, right⟩ := unsigned (by rcases division with rfl | rfl <;> rfl)
      exact ⟨toNat_of_unsignedRange left (below _ fitsX), toNat_of_unsignedRange right
        (below _ fitsY), nofun⟩
    | false =>
      -- The signed reading of an operand is itself in both shapes of the type.
      have low (narrow : unsignedNarrow ty = true) :
          (BitVec.ofInt width x.toInt).msb = false ∧ (BitVec.ofInt width y.toInt).msb = false := by
        rcases division with rfl | rfl
        · exact safe narrow
        · exact safe.1 narrow
      have signed : SignedRange width x.toInt ∧ SignedRange width y.toInt := by
        rcases shape with ⟨⟨minLow, _⟩, ⟨_, maxHigh⟩⟩ | ⟨narrow, _, rfl, _⟩
        · exact ⟨⟨by omega, by omega⟩, ⟨by omega, by omega⟩⟩
        · exact ⟨msb_ofInt positive ⟨fitsX.1, below _ fitsX⟩ (low narrow).1,
            msb_ofInt positive ⟨fitsY.1, below _ fitsY⟩ (low narrow).2⟩
      refine ⟨toInt_of_signedRange positive signed.1, toInt_of_signedRange positive signed.2,
        fun _ => ⟨positive, ?_⟩⟩
      rintro ⟨smallest, minusOne⟩
      rcases checkedOperation_cases success with ⟨rfl, _⟩ | ⟨rfl, _⟩ | ⟨rfl, _⟩ |
        ⟨_, rfl, _, value, _⟩ | ⟨_, rfl, _, refused, _⟩
      all_goals simp at division
      · rw [smallest, minusOne, Int.tdiv_neg, Int.neg_tdiv, Int.tdiv_one, neg_neg] at value
        rcases shape with ⟨_, maxHigh⟩ | ⟨_, _, rfl, _⟩
        · have := maxHigh.2
          omega
        · omega
      · subst division
        rcases Nat.lt_or_ge width 64 with narrow | wide
        · apply safe.2 narrow
          rw [smallest, minusOne, BitVec.intMin_eq_neg_two_pow, neg_one_eq_ofInt]
          exact ⟨rfl, rfl⟩
        · obtain rfl : width = 64 := by omega
          exact refused ⟨smallest, minusOne⟩

/-- A folded integer operation runs without a trap on its operands' registers and yields that of its
result. -/
theorem exec_checked {X : Type*} {ty : Option IRType}
    (fits : ∀ known ∈ ty, valueFitsIntType x known = true ∧ valueFitsIntType y known = true ∧
      valueFitsIntType z known = true) :
    ∃ w a b, (KnownConstant.int x ty).value = some (.int w a : MachineValue X) ∧
      (KnownConstant.int y ty).value = some (.int w b : MachineValue X) ∧
      ((∀ known, ty = some known → SafeOperands op known a b) → divisionTrap op a b = none ∧
          (KnownConstant.int z ty).value = some (.int w (arithmetic op a b) : MachineValue X)) := by
  have typed (ty : IRType) (fits : valueFitsIntType x ty = true ∧ valueFitsIntType y ty = true ∧
    valueFitsIntType z ty = true) :
      ∃ w, intBits ty = some w ∧ (SafeOperands op ty (x.signExtend w) (y.signExtend w) →
        divisionTrap op (x.signExtend w) (y.signExtend w) = none ∧
          z.signExtend w = arithmetic op (x.signExtend w) (y.signExtend w)) := by
    cases range : intTypeRange ty with
    | none => simp [valueFitsIntType, range] at fits
    | some bounds =>
      obtain ⟨w, bits, _⟩ := intTypeRange_bits range
      refine ⟨w, bits, fun safe => ?_⟩
      have exec := exec_folded success fun _ => divisionRange_of_safe success unsigned fits.1
        fits.2.1 fits.2.2 bits safe
      exact ⟨exec.1, exec.2.symm⟩
  cases ty with
  | none =>
    -- an untyped constant is one of type `int`
    have inside (value : I64) : valueFitsIntType value .int = true :=
      decide_eq_true ⟨BitVec.le_toInt value, Int.le_sub_one_of_lt BitVec.toInt_lt⟩
    obtain ⟨_, ⟨⟩, exec⟩ := typed .int ⟨inside x, inside y, inside z⟩
    simp only [BitVec.signExtend_eq] at exec
    obtain ⟨noTrap, value⟩ := exec (by unfold SafeOperands; split <;> simp [unsignedNarrow])
    exact ⟨64, x, y, rfl, rfl, fun _ => ⟨noTrap, by rw [← value]; rfl⟩⟩
  | some ty =>
    obtain ⟨w, bits, exec⟩ := typed ty (fits ty rfl)
    refine ⟨w, x.signExtend w, y.signExtend w, by simp [KnownConstant.value, bits],
      by simp [KnownConstant.value, bits], fun safe => ?_⟩
    obtain ⟨noTrap, value⟩ := exec (safe ty rfl)
    exact ⟨noTrap, by simp [KnownConstant.value, bits, value]⟩

end

end

variable {constant : KnownConstant}

section Execution
variable {X W : Type*} (rest : Machine (MachineValue X) W)

theorem constantKind_pure (result : Value) (constant : KnownConstant) :
    (constantKind result constant).isPhi = false ∧ (constantKind result constant).changesWorld =
      false ∧
      (constantKind result constant).mayTrap = false ∧ (constantKind result constant).defines =
        [result] ∧
      (constantKind result constant).isFrameLoad = false := by
  rcases constant with ⟨value, _ | ty⟩ | value <;> exact ⟨rfl, rfl, rfl, rfl, rfl⟩

variable {result : Value}

theorem exec_constantKind {value : MachineValue X} (known : constant.value = some value)
    (count : Nat) (args : List (MachineValue X)) (world : W) :
    (integerMachine rest).exec (constantKind result constant) count args world = .ok
      (world, [value]) := by
  obtain ⟨_, pure, total, _, _⟩ := constantKind_pure result constant
  simp only [exec, pure, total, Bool.false_eq_true, if_false]
  rcases constant with ⟨number, _ | ty⟩ | truth
  · cases known
    rfl
  · simp only [KnownConstant.value] at known
    cases bits : intBits ty with
    | none => simp [bits] at known
    | some w =>
      simp only [bits, Option.map_some, Option.some.injEq] at known
      simp only [constantKind, integerMachine, bits, known]
  · cases known
    rfl

/-- The operands of a typed division are safe in these registers. -/
def SafeRegisters (typed : Value → IRType → Prop) (env : Value → MachineValue X)
    (kind : InstructionKind) : Prop :=
  ∀ op result lhs rhs, kind = .binary op result lhs rhs → ∀ ty, typed lhs ty → typed rhs ty →
    ∀ w a b, env lhs = .int w a → env rhs = .int w b → SafeOperands op ty a b

section
variable {constants : Constants} {kind : InstructionKind} {constant : KnownConstant}
  (folded : foldedValue constants kind = some constant)
include folded

theorem foldedValue_cases :
    (∃ op result lhs rhs, kind = .binary op result lhs rhs ∧ op.isComparison = false ∧
      foldIntBinop constants lhs rhs op = some constant) ∨
    (∃ (and : Bool) (result lhs rhs : Value) (a b : Bool),
      kind = .binary (if and then .and else .or) result lhs rhs ∧
      constants lhs = some (.bool a) ∧ constants rhs = some (.bool b) ∧
      constant = .bool (if and then a && b else a || b)) ∨
    ∃ result operand a, kind = .not result operand ∧ constants operand = some (.bool a) ∧
      constant = .bool !a := by
  have boolean {lhs rhs : Value} {and : Bool}
    (folded : foldBoolBinop constants lhs rhs and = some constant) :
      ∃ a b, constants lhs = some (.bool a) ∧ constants rhs = some (.bool b) ∧
        constant = .bool (if and then a && b else a || b) := by
    unfold foldBoolBinop at folded
    split at folded
    case h_1 a b left right => exact ⟨a, b, left, right, (Option.some.inj folded).symm⟩
    case h_2 => simp at folded
  cases kind with
  | binary op result lhs rhs =>
    cases op with
    | add | sub | mul | div | rem => exact .inl ⟨_, result, lhs, rhs, rfl, rfl, folded⟩
    | and =>
      exact .inr
        (.inl ⟨true, result, lhs, rhs, (boolean folded).imp fun _ => .imp fun _ known =>
        ⟨rfl, known⟩⟩)
    | or => exact .inr (.inl ⟨false, result, lhs, rhs, (boolean folded).imp fun _ =>
      .imp fun _ known => ⟨rfl, known⟩⟩)
    | _ => simp [foldedValue] at folded
  | not result operand =>
    simp only [foldedValue] at folded
    split at folded
    case h_1 a known =>
      exact .inr (.inr ⟨result, operand, a, rfl, known, (Option.some.inj folded).symm⟩)
    case h_2 => simp at folded
  | _ => simp [foldedValue] at folded

/-- A folded instruction computes the register of its constant and cannot trap. -/
theorem exec_foldedValue {env : Value → MachineValue X}
    (known : ∀ operand ∈ kind.reads, ∀ other, constants operand = some other →
      ∀ value, other.value = some value → env operand = value)
    (safe : SafeRegisters
      (fun operand ty => ∃ value, constants operand = some (.int value (some ty))) env kind)
    (count : Nat) (world : W) :
    ∃ value, constant.value = some value ∧
      (integerMachine rest).exec kind count (kind.reads.map env) world = .ok (world, [value]) := by
  rcases foldedValue_cases folded with ⟨op, result, lhs, rhs, rfl, foldable, folded⟩ |
    ⟨and, result, lhs, rhs, a, b, rfl, left, right, rfl⟩ | ⟨result, operand, a, rfl, isBool, rfl⟩
  · obtain ⟨x, y, z, ty, left, right, rfl, success, unsigned, fits⟩ := foldIntBinop_cases folded
    obtain ⟨w, a, b, leftValue, rightValue, runs⟩ := exec_checked success unsigned fits
    have leftEnv := known lhs (by simp [reads]) _ left _ leftValue
    have rightEnv := known rhs (by simp [reads]) _ right _ rightValue
    obtain ⟨noTrap, value⟩ := runs fun known typed =>
      safe op result lhs rhs rfl known ⟨x, typed ▸ left⟩ ⟨y, typed ▸ right⟩ w a b leftEnv rightEnv
    refine ⟨_, value, ?_⟩
    simp only [reads, map_cons, map_nil, leftEnv, rightEnv, exec, changesWorld, Bool.false_eq_true,
      if_false, integerMachine,
      if_true, BitVec.setWidth_eq, noTrap, ite_self, integerBinary, foldable]
  · refine ⟨_, rfl, ?_⟩
    simp only [reads, map_cons, map_nil, known lhs (by simp [reads]) _ left _ rfl,
      known rhs (by simp [reads]) _ right _ rfl]
    cases and <;> cases a <;> cases b <;> rfl
  · refine ⟨_, rfl, ?_⟩
    simp only [reads, map_cons, map_nil, known operand (by simp [reads]) _ isBool _ rfl]
    cases a <;> rfl

end

end Execution

section Rounds

/-- The constant expressions of a function: its constants, and what the folding rules derive from
them. -/
inductive Evaluates (function : Function) : Value → KnownConstant → Prop where
  | constant {kind : InstructionKind} {value : Value} {constant : KnownConstant}
      (member : kind ∈ function.kinds)
      (defines : constantOf kind = some (value, constant)) : Evaluates function value constant
  | folded {kind : InstructionKind} {value : Value} {constant : KnownConstant}
      (constants : Constants)
      (member : kind ∈ function.kinds) (operands : ∀ operand known, constants operand = some known →
        Evaluates function operand known)
      (folds : foldedValue constants kind = some constant) (result : getResult kind = some value) :
      Evaluates function value constant

/-- The values that typed constants and arithmetic over them define, with their type. -/
inductive TypedConstant (function : Function) : Value → IRType → Prop where
  | constant {value : Value} {number : I64} {ty : IRType}
      (member : .constIntTyped value number ty ∈ function.kinds) :
      TypedConstant function value ty
  | arithmetic {op : BinaryOp} {value lhs rhs : Value} {ty : IRType}
      (member : .binary op value lhs rhs ∈ function.kinds)
      (left : TypedConstant function lhs ty) (right : TypedConstant function rhs ty) :
        TypedConstant function value ty

/-- An instruction is kept or replaced by the constant it evaluates to. -/
inductive FoldsTo (function : Function) : InstructionKind → InstructionKind → Prop where
  | same (kind : InstructionKind) : FoldsTo function kind kind
  | folded {kind : InstructionKind} {result : Value} {constant : KnownConstant}
      (constants : Constants)
      (operands : ∀ operand known, constants operand = some known →
        Evaluates function operand known)
      (folds : foldedValue constants kind = some constant) (target : getResult kind = some result) :
      FoldsTo function kind (constantKind result constant)

/-- Two blocks that differ in folded instructions only. -/
structure FoldedBlock (function : Function) (block folded : BasicBlock) : Prop where
  id : folded.id = block.id
  terminator : folded.terminator = block.terminator
  instructions :
    List.Forall₂ (fun instruction folded => FoldsTo function instruction.kind folded.kind)
    block.instructions folded.instructions

/-- Two functions that differ in folded instructions only. -/
def Folded (function folded : Function) : Prop :=
  List.Forall₂ (FoldedBlock function) function.blocks folded.blocks

variable {function : Function}

theorem folded_refl (function : Function) : Folded function function :=
  forall₂_same.mpr fun _ _ => ⟨rfl, rfl, forall₂_same.mpr fun _ _ => .same _⟩

variable {constants : Constants} {value : Value} {constant : KnownConstant} {folded : Function}

theorem collectConstants_mem (known : collectConstants function value = some constant) :
    ∃ kind ∈ function.kinds, constantOf kind = some (value, constant) := by
  refine foldlRecOn (motive := fun constants => constants value = some constant → _) _
    recordConstant (by simp) ?_ known
  intro constants before kind member found
  unfold recordConstant at found
  cases defines : constantOf kind with
  | none =>
    rw [defines] at found
    exact before found
  | some entry =>
    simp only [defines, Function.update_apply] at found
    split_ifs at found with same
    · exact ⟨kind, member, by rw [defines, same, ← Option.some.inj found]⟩
    · exact before found

theorem forall₂_mem_right {α β : Type*} {relation : α → β → Prop} {left : List α} {right : List β}
    (all : List.Forall₂ relation left right) {b : β} (member : b ∈ right) :
      ∃ a ∈ left, relation a b := by
  obtain ⟨⟨index, bound⟩, rfl⟩ := get_of_mem member
  exact ⟨_, get_mem _ _, all.get (all.length_eq ▸ bound) bound⟩

theorem constantOf_constantKind (result : Value) (constant : KnownConstant) :
    constantOf (constantKind result constant) = some (result, constant) := by
  rcases constant with ⟨value, _ | ty⟩ | value <;> rfl

theorem foldedValue_constantKind (constants : Constants) (result : Value)
    (constant : KnownConstant) : foldedValue constants (constantKind result constant) = none := by
  rcases constant with ⟨value, _ | ty⟩ | value <;> rfl

theorem foldKind_foldsTo (sound : ∀ operand known, constants operand = some known →
    Evaluates function operand known)
    {original kind : InstructionKind} (folds : FoldsTo function original kind) :
    FoldsTo function original (foldKind constants kind) := by
  cases folds with
  | same =>
    unfold foldKind
    cases value : foldedValue constants original with
    | none => exact .same _
    | some constant =>
      cases target : getResult original with
      | none => exact .same _
      | some result => exact .folded constants sound value target
  | folded earlier operands folds target =>
    simp only [foldKind, foldedValue_constantKind]
    exact .folded earlier operands folds target

section
variable (related : Folded function folded)
include related

theorem folded_kind {kind : InstructionKind} (member : kind ∈ folded.kinds) :
    ∃ original ∈ function.kinds, FoldsTo function original kind := by
  obtain ⟨block, blockMember, instruction, inside, rfl⟩ := Function.mem_kinds.mp member
  obtain ⟨source, sourceMember, blocks⟩ := forall₂_mem_right related blockMember
  obtain ⟨original, originalInside, folds⟩ := forall₂_mem_right blocks.instructions inside
  exact ⟨original.kind, Function.mem_kinds.mpr
    ⟨source, sourceMember, original, originalInside, rfl⟩, folds⟩

/-- The constants a round collects evaluate in the original function. -/
theorem evaluates_of_collected
    (known : collectConstants folded value = some constant) :
      Evaluates function value constant := by
  obtain ⟨kind, member, defines⟩ := collectConstants_mem known
  obtain ⟨original, inside, folds⟩ := folded_kind related member
  cases folds with
  | same => exact .constant inside defines
  | folded constants operands folds target =>
    rw [constantOf_constantKind] at defines
    obtain ⟨rfl, rfl⟩ := Prod.mk.inj (Option.some.inj defines)
    exact .folded constants inside operands folds target

theorem folded_foldBlocks : Folded function (foldBlocks (collectConstants folded) folded) := by
  have sound : ∀ operand known, collectConstants folded operand = some known →
    Evaluates function operand known :=
    fun _ _ => evaluates_of_collected related
  unfold Folded foldBlocks
  rw [forall₂_map_right_iff]
  refine related.imp fun block other blocks => ⟨blocks.id, blocks.terminator, ?_⟩
  simp only [foldBlock, forall₂_map_right_iff]
  exact blocks.instructions.imp fun _ _ folds => foldKind_foldsTo sound folds

end

/-- A typed constant expression has the type of the constants it is built from. -/
theorem typed_of_evaluates (evaluates : Evaluates function value constant) :
    ∀ number ty, constant = .int number (some ty) → TypedConstant function value ty := by
  induction evaluates with
  | @constant kind value constant member defines =>
    rintro number ty rfl
    have shape : kind = .constIntTyped value number ty := by
      cases kind <;> simp_all [constantOf]
    exact .constant (shape ▸ member)
  | @folded kind value constant constants member operands folds result ih =>
    rintro number ty rfl
    rcases foldedValue_cases folds with ⟨op, target, lhs, rhs, rfl, foldable, folds⟩ |
      ⟨_, _, _, _, _, _, _, _, _, same⟩ | ⟨_, _, _, _, _, same⟩
    · obtain ⟨x, y, z, _, left, right, same, _⟩ := foldIntBinop_cases folds
      obtain ⟨-, rfl⟩ := KnownConstant.int.inj same
      obtain rfl : target = value := by simpa [getResult, foldable] using result
      exact .arithmetic member (ih lhs _ left _ _ rfl) (ih rhs _ right _ _ rfl)
    · cases same
    · cases same

end Rounds

section Lockstep
variable {X W : Type*} {module : Module} {function folded : Function} {first : BasicBlock}

/-- The constant expressions available here are in their registers. -/
def KnownRegisters (function : Function) (earlier : List BasicBlock) (executed : List Instruction)
    (env : Value → MachineValue X) : Prop :=
  ∀ value constant, Evaluates function value constant → function.Available earlier executed value →
    ∀ register, constant.value = some register → env value = register

/-- The instruction about to run does no unsafe division of typed constants. -/
def SafeStep (function : Function) (state : State (MachineValue X) W) : Prop :=
  ∀ activation instruction rest, state = .running activation → activation.rest = instruction ::
    rest → SafeRegisters (TypedConstant function) activation.env instruction.kind

variable {kind other : InstructionKind} {value : Value} {constant : KnownConstant}
  {block : BasicBlock}
  {earlier : List BasicBlock} {instruction : Instruction}
    {activation : Activation (MachineValue X) W}

theorem defines_of_constantOf (defines : constantOf kind = some (value, constant)) :
    kind = constantKind value constant := by
  cases kind with
  | constInt | constIntTyped | constBool =>
    obtain ⟨rfl, rfl⟩ := Prod.mk.inj (Option.some.inj defines)
    rfl
  | _ => simp [constantOf] at defines

theorem getResult_defines (result : getResult kind = some value) :
    kind.defines = [value] ∧ kind.isPhi = false ∧ kind.isFrameLoad = false := by
  cases kind with
  | binary op target lhs rhs =>
    simp only [getResult] at result
    split_ifs at result
    cases result
    exact ⟨rfl, rfl, rfl⟩
  | not target operand =>
    cases result
    exact ⟨rfl, rfl, rfl⟩
  | _ => simp [getResult] at result

/-- A constant expression is defined by an instruction that is neither a phi nor a reload. -/
theorem Evaluates.computes (evaluates : Evaluates function value constant) :
    function.Computes value := by
  cases evaluates with
  | constant member defines =>
    obtain rfl := defines_of_constantOf defines
    obtain ⟨ordinary, _, _, defined, load⟩ := constantKind_pure value constant
    exact ⟨_, member, by simp [defined], ordinary, load⟩
  | folded constants member operands folds result =>
    obtain ⟨defined, ordinary, load⟩ := getResult_defines result
    exact ⟨_, member, by simp [defined], ordinary, load⟩

theorem reads_of_folded (folds : foldedValue constants instruction.kind = some constant) :
    instructionOperands instruction = instruction.kind.reads := by
  apply instructionOperands_eq_reads
  cases kind : instruction.kind <;> simp_all [foldedValue, isStateLoad]

variable {executed later : List Instruction}

section
variable (verified : Verified module function first)
include verified

theorem soundState_start (env : Value → MachineValue X) (world : W) :
    (start function env world).OnPath function first (KnownRegisters function) := by
  intro activation start
  refine ⟨first, [], [], (start_at verified.first_eq start).1, ?_⟩
  intro value constant evaluates available
  exact absurd available (evaluates.computes.not_available_first verified)

variable {moved : Activation (MachineValue X) W}

section
variable (rest : Machine (MachineValue X) W)
include rest

/-- A foldable instruction at its place in the run: without unsafe division it has the folded
value. -/
theorem exec_at_folded (walk : Trail function.Edge first (block :: earlier)) {index : Nat}
    (found : block.instructions[index]? = some instruction) {env : Value → MachineValue X}
    (known : KnownRegisters function earlier (block.instructions.take index) env)
    (safe : SafeRegisters (TypedConstant function) env instruction.kind)
    (operands : ∀ operand known, constants operand = some known → Evaluates function operand known)
    (folds : foldedValue constants instruction.kind = some constant) {result : Value}
    (target : getResult instruction.kind = some result) (count : Nat) (world : W) :
    ∃ value, constant.value = some value ∧ (integerMachine rest).exec instruction.kind count
      (instruction.kind.reads.map env) world = .ok (world, [value]) := by
  have ordinary := (getResult_defines target).2.1
  have registers : ∀ operand ∈ instruction.kind.reads, ∀ other, constants operand = some other →
      ∀ value, other.value = some value → env operand = value := by
    intro operand read other isConstant value register
    have evaluates := operands operand other isConstant
    have available := evaluates.computes.available verified walk found ordinary
      (by rwa [reads_of_folded folds])
    exact known operand other evaluates available value register
  have narrowed :
    SafeRegisters (fun operand ty => ∃ value, constants operand = some (.int value (some ty))) env
      instruction.kind := by
    rintro op result lhs rhs shape ty ⟨left, leftKnown⟩ ⟨right, rightKnown⟩
    exact safe op result lhs rhs shape ty (typed_of_evaluates (operands _ _ leftKnown) _ _ rfl)
      (typed_of_evaluates (operands _ _ rightKnown) _ _ rfl)
  exact exec_foldedValue rest folds registers narrowed count world

/-- The registers after an instruction, for the constant expressions it defines and the others. -/
theorem known_after_execute (place : activation.At function first block earlier executed)
    (known : KnownRegisters function earlier executed activation.env)
    (next : activation.rest = instruction :: later) (listed : instruction.kind ∈ function.kinds)
    (safe : SafeRegisters (TypedConstant function) activation.env instruction.kind)
    (step : (integerMachine rest).execute activation instruction.kind later = .running moved) :
    KnownRegisters function earlier (executed ++ [instruction]) moved.env := by
  obtain ⟨found, prior⟩ := place.next next
  intro value constant evaluates available register isRegister
  by_cases defined : value ∈ instruction.kind.defines
  · rcases (execute_at place next step).2 with ⟨phi, _⟩ | ⟨_, world, results, exec, env⟩
    · exact absurd defined (evaluates.computes.not_phi verified listed phi)
    · have computed : instruction.kind.defines = [value] ∧
        ∃ world, (integerMachine rest).exec instruction.kind
          (siteCount activation.count instruction.kind) (instruction.kind.reads.map activation.env)
          activation.world = .ok (world, [register]) := by
        cases evaluates with
        | constant constMember isConstant =>
          obtain rfl := defines_of_constantOf isConstant
          obtain ⟨_, _, _, defines, load⟩ := constantKind_pure value constant
          rw [← verified.kind_unique constMember listed (by simp [defines]) defined load]
          exact ⟨defines, _, exec_constantKind rest isRegister _ _ _⟩
        | folded constants foldMember operands folds result =>
          obtain ⟨defines, _, load⟩ := getResult_defines result
          obtain rfl := verified.kind_unique foldMember listed (by simp [defines]) defined load
          rw [← prior] at known
          obtain ⟨other, isOther, outcome⟩ :=
            exec_at_folded verified rest place.walk found known safe operands
            folds result (siteCount activation.count instruction.kind) activation.world
          rw [Option.some.inj (isRegister.symm.trans isOther)]
          exact ⟨defines, _, outcome⟩
      obtain ⟨defines, world', outcome⟩ := computed
      rw [exec] at outcome
      obtain ⟨-, rfl⟩ := Prod.mk.inj (Except.ok.inj outcome)
      rw [env, defines]
      simp [assign]
  · have before := (Function.available_append available).resolve_right defined
    rw [← known value constant evaluates before register isRegister,
      execute_env place next step defined]

/-- A safe step keeps the constant expressions in their registers. -/
theorem soundState_step {state next : State (MachineValue X) W}
    (sound : state.OnPath function first (KnownRegisters function)) (safe : SafeStep function state)
    (step : (integerMachine rest).step function state = some next) :
    next.OnPath function first (KnownRegisters function) := by
  refine sound.step verified step (fun running place known remaining listed step => ?_) fun _ _ _
    known inside _ => ?_
  · exact known_after_execute verified rest place known remaining listed
      (safe _ _ _ running remaining) step
  · -- The phis of the next block are no constant expressions.
    intro value constant evaluates available register isRegister
    rw [← known value constant evaluates (Function.available_completed available) register
      isRegister, evaluates.computes.assign_phis verified inside]

end

end

/-- Both runs are at the same point with the same registers; only instructions to come may differ,
as constants folded in one. -/
inductive Lockstep (function : Function) : State (MachineValue X) W → State (MachineValue X) W →
    Prop where
  | running {activation : Activation (MachineValue X) W} {rest : List Instruction}
      (remaining :
        List.Forall₂ (fun instruction folded => FoldsTo function instruction.kind folded.kind)
        activation.rest rest) : Lockstep function (.running activation)
          (.running { activation with rest })
  | returned (value : Option (MachineValue X)) (world : W) (trace : List (Event (MachineValue X))) :
      Lockstep function (.returned value world trace) (.returned value world trace)
  | trapped (trap : Trap) (trace : List (Event (MachineValue X))) :
      Lockstep function (.trapped trap trace) (.trapped trap trace)
  | stuck (trace : List (Event (MachineValue X))) : Lockstep function (.stuck trace) (.stuck trace)

theorem foldsTo_phi (folds : FoldsTo function kind other) :
    other.isPhi = kind.isPhi ∧ ∀ (pred : BlockId) (env : Value → MachineValue X),
      phiValue pred env other = phiValue pred env kind := by
  cases folds with
  | same => exact ⟨rfl, fun _ _ => rfl⟩
  | @folded result constant constants operands folds target =>
    have ordinary := (getResult_defines target).2.1
    have constant := (constantKind_pure result constant).1
    exact ⟨constant.trans ordinary.symm,
      fun _ _ => by rw [phiValue_of_not_phi constant, phiValue_of_not_phi ordinary]⟩

theorem phiValues_folded {instructions rest : List Instruction}
    (remaining :
      List.Forall₂ (fun instruction folded => FoldsTo function instruction.kind folded.kind)
      instructions rest) (pred : BlockId) (env : Value → MachineValue X) :
    phiValues rest pred env = phiValues instructions pred env := by
  induction remaining with
  | nil => rfl
  | cons folds _ ih => rw [phiValues_cons, phiValues_cons, ih, (foldsTo_phi folds).2]

section
variable (related : Folded function folded)
include related

theorem getBlock_folded (id : BlockId) :
    (function.getBlock id = none ∧ folded.getBlock id = none) ∨
      ∃ block other, function.getBlock id = some block ∧ folded.getBlock id = some other ∧
        FoldedBlock function block other := by
  unfold Function.getBlock
  unfold Folded at related
  generalize function.blocks = blocks, folded.blocks = others at related
  induction related with
  | nil => exact .inl ⟨rfl, rfl⟩
  | @cons block other _ _ same _ ih =>
    by_cases here : block.id = id
    · exact .inr ⟨block, other, by simp [here], by simp [same.id, here], same⟩
    · simpa [find?_cons, same.id, here] using ih

theorem lockstep_enter (rest : List Instruction) (target : BlockId) :
    Lockstep function (enter function activation target)
      (enter folded { activation with rest } target) := by
  unfold enter
  rcases getBlock_folded related target with ⟨missing, alsoMissing⟩ |
    ⟨block, other, found, alsoFound, same⟩
  · simp only [missing, alsoMissing]
    exact .stuck _
  · simp only [found, alsoFound, same.id, same.terminator, phiValues_folded same.instructions]
    exact .running same.instructions

theorem lockstep_start (env : Value → MachineValue X) (world : W) :
    Lockstep function (start function env world) (start folded env world) := by
  unfold start
  unfold Folded at related
  cases shape : function.blocks with
  | nil =>
    rw [shape] at related
    rw [forall₂_nil_left_iff.mp related]
    exact .stuck _
  | cons block rest =>
    rw [shape] at related
    obtain ⟨other, tail, same, _, split⟩ := forall₂_cons_left_iff.mp related
    simp only [split, same.id, same.terminator]
    exact .running same.instructions

end

theorem lockstep_terminate (machine : Machine (MachineValue X) W) (related : Folded function folded)
    (activation : Activation (MachineValue X) W) (rest : List Instruction) :
    Lockstep function (machine.terminate function activation)
      (machine.terminate folded { activation with rest }) := by
  unfold terminate
  rcases ends : activation.terminator with _ | terminator
  · exact .stuck _
  · cases terminator with
    | ret value => exact .returned ..
    | unreachable => exact .trapped ..
    | branch | condBranch | switch => exact lockstep_enter related rest _

section
variable (rest : Machine (MachineValue X) W) (verified : Verified module function first)
include rest verified

theorem lockstep_execute (place : activation.At function first block earlier executed)
    (known : KnownRegisters function earlier executed activation.env)
      (next : activation.rest = instruction :: later)
    (safe : SafeRegisters (TypedConstant function) activation.env instruction.kind)
    (folds : FoldsTo function instruction.kind other) (before : List Instruction)
      {remaining : List Instruction}
    (tail : List.Forall₂ (fun instruction folded => FoldsTo function instruction.kind folded.kind)
      later remaining) :
    Lockstep function ((integerMachine rest).execute activation instruction.kind later)
      ((integerMachine rest).execute { activation with rest := before } other remaining) := by
  obtain ⟨found, prior⟩ := place.next next
  cases folds with
  | same =>
    unfold execute
    split_ifs
    · refine .running ?_
      exact tail
    · cases outcome :
        (integerMachine rest).exec instruction.kind (siteCount activation.count instruction.kind)
        (instruction.kind.reads.map activation.env) activation.world with
      | error trap =>
        simp only [outcome]
        exact .trapped ..
      | ok results =>
        simp only [outcome]
        refine .running ?_
        exact tail
  | @folded result constant constants operands folds target =>
    rw [← prior] at known
    obtain ⟨register, isRegister, exec⟩ :=
      exec_at_folded verified rest place.walk found known safe operands
      folds target (siteCount activation.count instruction.kind) activation.world
    obtain ⟨defines, ordinary, _⟩ := getResult_defines target
    obtain ⟨constOrdinary, constPure, _, constDefines, _⟩ := constantKind_pure result constant
    have pure : instruction.kind.changesWorld = false := by
      cases kind : instruction.kind <;> simp_all [foldedValue, changesWorld]
    simp only [execute, ordinary, constOrdinary, Bool.false_eq_true, if_false, exec,
      exec_constantKind rest isRegister, defines, constDefines, record, pure, constPure]
    refine .running ?_
    exact tail

theorem lockstep_step
    (related : Folded function folded) {state other : State (MachineValue X) W}
      (lockstep : Lockstep function state other)
    (sound : state.OnPath function first (KnownRegisters function))
      (safe : SafeStep function state) :
    Option.Rel (Lockstep function) ((integerMachine rest).step function state)
      ((integerMachine rest).step folded other) := by
  cases lockstep with
  | @running activation remaining same =>
    obtain ⟨block, earlier, executed, place, known⟩ := sound activation rfl
    cases next : activation.rest with
    | nil =>
      rw [next] at same
      cases same
      simp only [Machine.step, next]
      exact .some (lockstep_terminate _ related activation [])
    | cons instruction later =>
      rw [next] at same
      obtain ⟨replaced, tail, folds, rests, rfl⟩ := forall₂_cons_left_iff.mp same
      simp only [Machine.step, next]
      exact .some
        (lockstep_execute rest verified place known next
        (safe activation instruction later rfl next) folds _ rests)
  | returned | trapped | stuck => exact .none

/-- As long as the original run does no unsafe division, the folded function is in lockstep with
it. -/
theorem lockstep_run (related : Folded function folded) (env : Value → MachineValue X) (world : W)
    (n : Nat)
    (safe : ∀ i < n, SafeStep function (Simulation.run ((integerMachine rest).step function) i
      (start function env world))) :
    (Simulation.run ((integerMachine rest).step function) n (start function env world)).OnPath
      function first (KnownRegisters function) ∧
    Lockstep function
      (Simulation.run ((integerMachine rest).step function) n (start function env world))
      (Simulation.run ((integerMachine rest).step folded) n (start folded env world)) := by
  induction n with
  | zero => exact ⟨soundState_start verified env world, lockstep_start related env world⟩
  | succ n ih =>
    obtain ⟨sound, lockstep⟩ := ih fun i before => safe i (by omega)
    have steps := lockstep_step rest verified related lockstep sound (safe n (by omega))
    rw [run_succ, run_succ]
    cases move :
      (integerMachine rest).step function (Simulation.run ((integerMachine rest).step function) n
      (start function env world)) with
    | none =>
      rw [move] at steps
      generalize (integerMachine rest).step folded _ = outcome at steps
      cases steps
      exact ⟨sound, lockstep⟩
    | some next =>
      rw [move] at steps
      generalize (integerMachine rest).step folded _ = outcome at steps
      cases steps with
      | some related =>
        exact ⟨soundState_step verified rest sound (safe n (by omega)) move, related⟩

end

end Lockstep

/-- The instructions the rules look at. -/
def candidates (function : Function) : Nat :=
  function.kinds.countP fun kind => (getResult kind).isSome

theorem kinds_foldBlocks (constants : Constants) (function : Function) :
    (foldBlocks constants function).kinds = function.kinds.map (foldKind constants) := by
  simp only [Function.kinds, foldBlocks, foldBlock, flatMap_map, map_flatMap, map_map]
  rfl

theorem getResult_of_folded {kind : InstructionKind}
    (folds : foldedValue constants kind = some constant) :
      ∃ result, getResult kind = some result := by
  rcases foldedValue_cases folds with ⟨op, result, _, _, rfl, foldable, _⟩ |
    ⟨and, result, _, _, _, _, rfl, _⟩ | ⟨result, _, _, rfl, _⟩
  · exact ⟨result, by simp [getResult, foldable]⟩
  · exact ⟨result, by cases and <;> rfl⟩
  · exact ⟨result, rfl⟩

/-- Folding removes the instruction from the candidates and adds none. -/
theorem getResult_foldKind (constants : Constants) (kind : InstructionKind) :
    getResult (foldKind constants kind) = if (foldedValue constants kind).isSome then none else
      getResult kind := by
  unfold foldKind
  cases folds : foldedValue constants kind with
  | none => rfl
  | some constant =>
    obtain ⟨result, target⟩ := getResult_of_folded folds
    simp only [target, Option.isSome_some, if_true]
    rcases constant with ⟨number, _ | ty⟩ | truth <;> rfl

theorem countP_foldKind (constants : Constants) (kinds : List InstructionKind) :
    (kinds.map (foldKind constants)).countP (fun kind => (getResult kind).isSome) +
      kinds.countP (fun kind => (foldedValue constants kind).isSome) =
    kinds.countP fun kind => (getResult kind).isSome := by
  induction kinds with
  | nil => rfl
  | cons kind rest ih =>
    simp only [map_cons, countP_cons, getResult_foldKind]
    cases folds : foldedValue constants kind with
    | none =>
      simp only [Option.isSome_none, Bool.false_eq_true, if_false]
      omega
    | some constant =>
      obtain ⟨result, target⟩ := getResult_of_folded folds
      simp only [Option.isSome_some, if_true, target, Option.isSome_none, Bool.false_eq_true,
        if_false]
      omega

theorem foldRound_eq {function next : Function} (round : foldRound function = some next) :
    next = foldBlocks (collectConstants function) function ∧
      candidates next < candidates function := by
  simp only [foldRound] at round
  split_ifs at round with found
  cases round
  obtain ⟨kind, member, folds⟩ := any_eq_true.mp found
  refine ⟨rfl, ?_⟩
  have positive : 0 < function.kinds.countP fun kind =>
    (foldedValue (collectConstants function) kind).isSome :=
    countP_pos_iff.mpr ⟨kind, member, folds⟩
  have count := countP_foldKind (collectConstants function) function.kinds
  unfold candidates
  rw [kinds_foldBlocks]
  omega

/-- The rounds end: nothing is left to fold. -/
theorem foldFunction_stable {function : Function} (ordinary : function.suspensionBarrier = false) :
    foldRound (foldFunction function) = none := by
  simp only [foldFunction, ordinary, Bool.false_eq_true, if_false]
  exact saturate_stable (fun _ => True) candidates (fun _ _ _ _ => trivial)
    (fun _ _ _ round => (foldRound_eq round).2) trivial countP_le_length

theorem folded_foldFunction (function : Function) : Folded function (foldFunction function) := by
  unfold foldFunction
  split_ifs
  · exact folded_refl function
  · refine saturate_invariant (Folded function) ?_ (folded_refl function)
    intro before after related round
    rw [(foldRound_eq round).1]
    exact folded_foldBlocks related

section Results
variable {X W : Type*}

/-- On accepted functions the pass ends, and a run without an unsafe signed division of typed
constants stays in lockstep with the folded function, with the same registers and the same end. -/
theorem folded_in_lockstep {module : Module} (accepted : verifyModule module = .ok ())
    {function : Function}
    (member : function ∈ module.functions) (rest : Machine (MachineValue X) W) :
    foldFunction function ∈ (run module).1.functions ∧
    (function.suspensionBarrier = false → foldRound (foldFunction function) = none) ∧
    ∀ env world n,
      (∀ i < n, SafeStep function (Simulation.run ((integerMachine rest).step function) i
        (start function env world))) →
      Lockstep function
        (Simulation.run ((integerMachine rest).step function) n (start function env world))
        (Simulation.run ((integerMachine rest).step (foldFunction function)) n
          (start (foldFunction function) env world)) := by
  obtain ⟨first, verified⟩ := verified_of_accepted accepted member
  refine ⟨mem_map_of_mem member, foldFunction_stable, fun env world n safe => ?_⟩
  exact (lockstep_run rest verified (folded_foldFunction function) env world n safe).2

/-- A remainder of two constants of the 8-bit signed type. -/
def constantRemainder (lhs rhs : I64) : Function where
  name := "main"
  params := []
  returnType := .exactInt true .i8
  blocks :=
    [⟨0, "entry",
      [⟨0, .constIntTyped 0 lhs (.exactInt true .i8)⟩,
      ⟨1, .constIntTyped 1 rhs (.exactInt true .i8)⟩,
    ⟨2, .binary (.rem false) 2 0 1⟩], some (.ret (some 2))⟩]
  nextValueId := 3
  nextBlockId := 1

def constantRemainderModule (lhs rhs : I64) : Module where
  name := "sample"
  functions := [constantRemainder lhs rhs]

theorem folded_in_lockstep_seven_rem_two :
    verifyModule (constantRemainderModule 7 2) = .ok () ∧
    ∀ (rest : Machine (MachineValue Unit) Unit) env, Lockstep (constantRemainder 7 2)
        (Simulation.run ((integerMachine rest).step (constantRemainder 7 2)) 4
          (start (constantRemainder 7 2) env ()))
        (Simulation.run ((integerMachine rest).step (foldFunction (constantRemainder 7 2))) 4
          (start (foldFunction (constantRemainder 7 2)) env ())) := by
  have accepted : verifyModule (constantRemainderModule 7 2) = .ok () := by decide +kernel
  refine ⟨accepted, fun rest env => ?_⟩
  refine (folded_in_lockstep accepted (mem_singleton_self _) rest).2.2 env () 4 fun i before => ?_
  rintro activation instruction later state next
  obtain rfl | rfl | rfl | rfl : i = 0 ∨ i = 1 ∨ i = 2 ∨ i = 3 := by omega
  all_goals
    cases state
    cases next
  all_goals
    intro op result lhs rhs shape
    cases shape
  intro ty _ _ w a b left right
  cases left
  cases right
  exact ⟨fun _ => by decide, fun _ => by decide⟩

theorem foldFunction_smallest_rem_minus_one :
    (foldFunction (constantRemainder (-128) (-1))).blocks =
      [⟨0, "entry",
        [⟨0, .constIntTyped 0 (-128) (.exactInt true .i8)⟩,
        ⟨1, .constIntTyped 1 (-1) (.exactInt true .i8)⟩,
        ⟨2, .constIntTyped 2 0 (.exactInt true .i8)⟩], some (.ret (some 2))⟩] := by
  with_unfolding_all rfl

/-- The smallest 8-bit value by minus one: the machine refuses the remainder, the folded function
returns zero. -/
theorem folded_remainder_loses_trap :
    verifyModule (constantRemainderModule (-128) (-1)) = .ok () ∧
    (∀ result value ty, .constIntTyped result value ty ∈ (constantRemainder (-128) (-1)).kinds →
      valueFitsIntType value ty = true) ∧
    ∀ (rest : Machine (MachineValue Unit) Unit) env,
      Simulation.run ((integerMachine rest).step (constantRemainder (-128) (-1))) 3
        (start (constantRemainder (-128) (-1)) env ()) = .trapped .divisionOverflow [] ∧
      Simulation.run ((integerMachine rest).step (foldFunction (constantRemainder (-128) (-1)))) 4
        (start (foldFunction (constantRemainder (-128) (-1))) env ()) = .returned (some (.int 8 0))
          () [] := by
  refine ⟨by decide +kernel, ?_, fun rest env => ⟨rfl, ?_⟩⟩
  · intro result value ty member
    simp only [constantRemainder, Function.kinds, flatMap_cons, flatMap_nil, append_nil, map_cons,
      map_nil, mem_cons, not_mem_nil, or_false, constIntTyped.injEq, reduceCtorEq] at member
    rcases member with ⟨rfl, rfl, rfl⟩ | ⟨rfl, rfl, rfl⟩ <;> decide
  · simp only [start, foldFunction_smallest_rem_minus_one]
    rfl

end Results

end ConstantFolding

end SpectraLang

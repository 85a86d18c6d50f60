import Mathlib.Data.BitVec

/-! # The Spectra intermediate representation

An SSA representation with explicit control flow: modules of functions, functions of basic blocks,
blocks of instructions with an optional terminator. The eighteen two-operand opcodes share the
constructor `InstructionKind.binary`; the opcode carries its signedness. Floating constants are IEEE
bit patterns, and source spans are not represented.
-/

namespace SpectraLang

/-- An SSA value, named by its identifier. -/
abbrev Value := Nat

/-- The identifier of a basic block. -/
abbrev BlockId := Nat
abbrev I64 := BitVec 64

instance : LawfulBEq I64 := inferInstance

/-- The recovery identifier `usize::MAX`, which no valid value carries. -/
def Value.INVALID_ID : Value := 2 ^ 64 - 1

/-- `strip_prefix`. -/
def stripPrefix (marker text : String) : Option String :=
  if marker.toList.isPrefixOf text.toList then some
    (String.ofList (text.toList.drop marker.toList.length)) else none

/-- `contains`. -/
def textContains (text pattern : String) : Bool := decide (pattern.toList <:+: text.toList)

/-- `starts_with`. -/
def textStartsWith (text start : String) : Bool := start.toList.isPrefixOf text.toList

inductive IntWidth where
  | i8 | i16 | i32 | i64 | isize | usize
  deriving DecidableEq

inductive FloatWidth where
  | f32 | f64
  deriving DecidableEq

/-- The IR type system. -/
inductive IRType where
  | unknown
  | void
  | int
  | float
  | exactInt (signed : Bool) (width : IntWidth)
  | exactFloat (width : FloatWidth)
  | bool
  | string
  | char
  | pointer (inner : IRType)
  | array (elementType : IRType) (size : Nat)
  | tuple (elements : List IRType)
  | struct (name : String) (fields : List (String × IRType))
  | enum (name : String) (variants : List (String × Option (List IRType)))
  | generic (name : String) (args : List IRType) (representation : IRType)
  | function (params : List IRType) (returnType : IRType)
  | task (output : IRType)
  | range
  | tensor (dtype : IRType) (rank : Option Nat) (dims : Option (List (Option Nat)))
      (layout device : Option String)
  | dynTrait (traitName : String) (autoTraits : List String)
  deriving Inhabited

namespace IRType

mutual

/-- The structural comparison the source derives. -/
def beq : IRType → IRType → Bool
  | unknown, unknown => true
  | void, void => true
  | int, int => true
  | float, float => true
  | exactInt s w, exactInt s' w' => s == s' && w == w'
  | exactFloat w, exactFloat w' => w == w'
  | bool, bool => true
  | string, string => true
  | char, char => true
  | pointer t, pointer t' => beq t t'
  | array t n, array t' n' => beq t t' && n == n'
  | tuple ts, tuple ts' => beqList ts ts'
  | struct name fields, struct name' fields' => name == name' && beqFields fields fields'
  | enum name variants, enum name' variants' => name == name' && beqVariants variants variants'
  | generic name args rep, generic name' args' rep' =>
    name == name' && beqList args args' && beq rep rep'
  | function params ret, function params' ret' => beqList params params' && beq ret ret'
  | task t, task t' => beq t t'
  | range, range => true
  | tensor t rank dims layout device, tensor t' rank' dims' layout' device' =>
    beq t t' && rank == rank' && dims == dims' && layout == layout' && device == device'
  | dynTrait name autos, dynTrait name' autos' => name == name' && autos == autos'
  | _, _ => false

def beqList : List IRType → List IRType → Bool
  | [], [] => true
  | t :: ts, t' :: ts' => beq t t' && beqList ts ts'
  | _, _ => false

def beqFields : List (String × IRType) → List (String × IRType) → Bool
  | [], [] => true
  | (name, t) :: rest, (name', t') :: rest' => name == name' && beq t t' && beqFields rest rest'
  | _, _ => false

def beqVariants : List (String × Option (List IRType)) → List (String × Option (List IRType)) → Bool
  | [], [] => true
  | (name, none) :: rest, (name', none) :: rest' => name == name' && beqVariants rest rest'
  | (name, some ts) :: rest, (name', some ts') :: rest' =>
    name == name' && beqList ts ts' && beqVariants rest rest'
  | _, _ => false

end

mutual

theorem beq_iff : ∀ a b : IRType, beq a b = true ↔ a = b
  | unknown, b | void, b | int, b | float, b | exactInt .., b | exactFloat .., b | bool, b |
      string, b
  | char, b | range, b | dynTrait .., b => by cases b <;> simp [beq]
  | pointer t, b => by cases b <;> simp [beq, beq_iff t]
  | array t n, b => by cases b <;> simp [beq, beq_iff t]
  | tuple ts, b => by cases b <;> simp [beq, beqList_iff ts]
  | struct name fields, b => by cases b <;> simp [beq, beqFields_iff fields]
  | enum name variants, b => by cases b <;> simp [beq, beqVariants_iff variants]
  | generic name args rep, b => by cases b <;> simp [beq, beqList_iff args, beq_iff rep, and_assoc]
  | function params ret, b => by cases b <;> simp [beq, beqList_iff params, beq_iff ret]
  | task t, b => by cases b <;> simp [beq, beq_iff t]
  | tensor t .., b => by cases b <;> simp [beq, beq_iff t, and_assoc]

theorem beqList_iff : ∀ a b : List IRType, beqList a b = true ↔ a = b
  | [], b => by cases b <;> simp [beqList]
  | t :: ts, b => by cases b <;> simp [beqList, beq_iff t, beqList_iff ts]

theorem beqFields_iff : ∀ a b : List (String × IRType), beqFields a b = true ↔ a = b
  | [], b => by cases b <;> simp [beqFields]
  | (name, t) :: rest, [] => by simp [beqFields]
  | (name, t) :: rest, (name', t') :: rest' => by
    simp [beqFields, beq_iff t, beqFields_iff rest]

theorem beqVariants_iff : ∀ a b : List (String × Option (List IRType)), beqVariants a b = true ↔
    a = b
  | [], b => by cases b <;> simp [beqVariants]
  | (name, none) :: rest, [] => by simp [beqVariants]
  | (name, some ts) :: rest, [] => by simp [beqVariants]
  | (name, none) :: rest, (name', none) :: rest' => by simp [beqVariants, beqVariants_iff rest]
  | (name, none) :: rest, (name', some ts') :: rest' => by simp [beqVariants]
  | (name, some ts) :: rest, (name', none) :: rest' => by simp [beqVariants]
  | (name, some ts) :: rest, (name', some ts') :: rest' => by
    simp [beqVariants, beqList_iff ts, beqVariants_iff rest]

end

instance : DecidableEq IRType := fun a b => decidable_of_iff (beq a b = true) (beq_iff a b)

end IRType

/-- The runtime length backing a user array index. -/
inductive ArrayBound where
  | static (len : Nat)
  | dynamic (len : Value)
  deriving DecidableEq

/-- The opcodes with two operands of one machine class. -/
inductive BinaryOp where
  | add | sub | mul
  | div (unsigned : Bool)
  | rem (unsigned : Bool)
  | bitAnd | bitOr | bitXor | shl
  | shr (unsigned : Bool)
  | eq | ne
  | lt (unsigned : Bool)
  | le (unsigned : Bool)
  | gt (unsigned : Bool)
  | ge (unsigned : Bool)
  | and | or
  deriving DecidableEq

inductive InstructionKind where
  | binary (op : BinaryOp) (result lhs rhs : Value)
  | not (result operand : Value)
  | alloca (result : Value) (ty : IRType)
  | globalAddr (result : Value) (name : String) (ty : IRType)
  | manualAlloc (result : Value) (size : I64)
  | escapeManualAlloc (ptr : Value)
  | load (result ptr : Value) (ty : IRType)
  | store (ptr value : Value)
  | getElementPtr (result ptr index : Value) (elementType : IRType) (bound : Option ArrayBound)
  | fieldPtr (result ptr : Value) (offset : I64)
  | call (result : Option Value) (function : String) (args : List Value) (isTail : Bool)
  | hostCall (result : Option Value) (host : String) (args : List Value)
      (resultType : Option IRType)
  | autodiffStep (result : Option Value) (operation : String) (output : Value)
      (upstream : Option Value) (inputs targets : List Value)
  | funcAddr (result : Value) (function : String)
  | callIndirect (result : Option Value) (fnPtr : Value) (args : List Value)
      (signatureParams : List IRType) (signatureReturn : IRType)
  | await (result task : Value) (outputType : IRType)
  | frameAlloc (result : Value) (layout : String) (slotCount : Nat)
  | frameStore (frame : Value) (slot : Nat) (value : Value) (escapeValue : Bool)
  | frameLoad (result frame : Value) (slot : Nat) (ty : IRType)
  | stateLoad (result frame : Value)
  | stateStore (frame : Value) (state : Nat)
  | coroutineCreate (result frame : Value) (poll drop : String) (outputType : IRType)
  | coroutinePollChild (status : Value) (result : Option Value) (task : Value) (outputType : IRType)
  | coroutineSubscribe (task parent : Value)
  | coroutineWake (task : Value)
  | coroutineSuspend (task : Value) (state : Nat)
  | coroutineComplete (task : Value) (value : Option Value)
  | coroutineError (task : Value) (error : Option Value)
  | coroutineCancelled (task : Value)
  | coroutinePollReturn (status : Value)
  | asyncReady (result : Value) (value : Option Value) (outputType : IRType)
  | phi (result : Value) (incoming : List (Value × BlockId))
  | copy (result source : Value)
  | constInt (result : Value) (value : I64)
  | constIntTyped (result : Value) (value : I64) (ty : IRType)
  | constFloat (result : Value) (bits : I64)
  | constFloatTyped (result : Value) (bits : I64) (ty : IRType)
  | constBool (result : Value) (value : Bool)
  | constString (result : Value) (value : String)
  | cast (result operand : Value) (fromTy toTy : IRType)
  | makeDynFatPtr (result dataPtr vtablePtr : Value)
  | loadDynDataPtr (result fatPtr : Value)
  | loadDynVtablePtr (result fatPtr : Value)
  | loadVtableSlot (result vtablePtr : Value) (slotIndex : Nat)

inductive Terminator where
  | ret (value : Option Value)
  | branch (target : BlockId)
  | condBranch (condition : Value) (trueBlock falseBlock : BlockId)
  | switch (value : Value) (cases : List (I64 × BlockId)) (default : BlockId)
  | unreachable

structure Instruction where
  id : Nat
  kind : InstructionKind

structure BasicBlock where
  id : BlockId
  label : String
  instructions : List Instruction
  terminator : Option Terminator

structure Parameter where
  id : Value
  name : String
  ty : IRType

/-- A named local of the source program, as debug generation records it. -/
structure LocalDebugInfo where
  name : String
  ty : IRType

structure AsyncFrameSlot where
  id : Nat
  name : String
  ty : IRType

/-- A resume point; state zero is the entry state. -/
structure AsyncState where
  id : Nat
  resumeBlock : BlockId
  awaitSlot : Option Nat

structure AsyncCoroutineLayout where
  pollName : String
  dropName : String
  outputType : IRType
  frameSlots : List AsyncFrameSlot
  sourceSlots : List AsyncFrameSlot
  states : List AsyncState
  pollParams : List IRType

structure Function where
  name : String
  params : List Parameter
  returnType : IRType
  blocks : List BasicBlock
  nextValueId : Nat
  nextBlockId : Nat
  locals : List LocalDebugInfo := []
  asyncLayout : Option AsyncCoroutineLayout := none
  suspensionBarrier : Bool := false

structure ExternalFunction where
  name : String
  params : List IRType
  returnType : IRType

structure Global where
  name : String
  ty : IRType

structure Module where
  name : String
  functions : List Function
  externalFunctions : List ExternalFunction := []
  globals : List Global := []

/-- The first block with that identifier. -/
def Function.getBlock (function : Function) (id : BlockId) : Option BasicBlock :=
  function.blocks.find? (·.id == id)

end SpectraLang

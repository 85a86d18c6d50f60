import SpectraLang.IR

/-! # What instructions read and define

`InstructionKind.reads` and `InstructionKind.defines` say which value fields of an instruction are
uses and which are definitions. The verifier's own `instructionOperands` and `instructionResult`
differ at `stateLoad`, whose frame it does not list, and at `coroutinePollChild`, whose status it
registers separately.
-/

namespace SpectraLang

namespace ArrayBound

/-- The value a bound compares the index with, when that length is only known at run time. -/
def reads : Option ArrayBound → List Value
  | some (dynamic len) => [len]
  | _ => []

end ArrayBound

namespace InstructionKind

/-- Every value field of the instruction that is not a definition. -/
def reads : InstructionKind → List Value
  | binary _ _ lhs rhs => [lhs, rhs]
  | not _ operand => [operand]
  | alloca .. => []
  | globalAddr .. => []
  | manualAlloc .. => []
  | escapeManualAlloc ptr => [ptr]
  | load _ ptr _ => [ptr]
  | store ptr value => [ptr, value]
  | getElementPtr _ ptr index _ bound => [ptr, index] ++ ArrayBound.reads bound
  | fieldPtr _ ptr _ => [ptr]
  | call _ _ args _ => args
  | hostCall _ _ args _ => args
  | autodiffStep _ _ output upstream inputs targets =>
    output :: (upstream.toList ++ inputs ++ targets)
  | funcAddr .. => []
  | callIndirect _ fnPtr args _ _ => fnPtr :: args
  | await _ task _ => [task]
  | frameAlloc .. => []
  | frameStore frame _ value _ => [frame, value]
  | frameLoad _ frame _ _ => [frame]
  | stateLoad _ frame => [frame]
  | stateStore frame _ => [frame]
  | coroutineCreate _ frame _ _ _ => [frame]
  | coroutinePollChild _ _ task _ => [task]
  | coroutineSubscribe task parent => [task, parent]
  | coroutineWake task => [task]
  | coroutineSuspend task _ => [task]
  | coroutineComplete task value => task :: value.toList
  | coroutineError task error => task :: error.toList
  | coroutineCancelled task => [task]
  | coroutinePollReturn status => [status]
  | asyncReady _ value _ => value.toList
  | phi _ incoming => incoming.map Prod.fst
  | copy _ source => [source]
  | constInt .. => []
  | constIntTyped .. => []
  | constFloat .. => []
  | constFloatTyped .. => []
  | constBool .. => []
  | constString .. => []
  | cast _ operand _ _ => [operand]
  | makeDynFatPtr _ dataPtr vtablePtr => [dataPtr, vtablePtr]
  | loadDynDataPtr _ fatPtr => [fatPtr]
  | loadDynVtablePtr _ fatPtr => [fatPtr]
  | loadVtableSlot _ vtablePtr _ => [vtablePtr]

/-- The result field of the instruction. -/
def result? : InstructionKind → Option Value
  | binary _ result _ _ => some result
  | not result _ => some result
  | alloca result _ => some result
  | globalAddr result _ _ => some result
  | manualAlloc result _ => some result
  | escapeManualAlloc _ => none
  | load result _ _ => some result
  | store _ _ => none
  | getElementPtr result _ _ _ _ => some result
  | fieldPtr result _ _ => some result
  | call result _ _ _ => result
  | hostCall result _ _ _ => result
  | autodiffStep result _ _ _ _ _ => result
  | funcAddr result _ => some result
  | callIndirect result _ _ _ _ => result
  | await result _ _ => some result
  | frameAlloc result _ _ => some result
  | frameStore _ _ _ _ => none
  | frameLoad result _ _ _ => some result
  | stateLoad result _ => some result
  | stateStore _ _ => none
  | coroutineCreate result _ _ _ _ => some result
  | coroutinePollChild _ result _ _ => result
  | coroutineSubscribe _ _ => none
  | coroutineWake _ => none
  | coroutineSuspend _ _ => none
  | coroutineComplete _ _ => none
  | coroutineError _ _ => none
  | coroutineCancelled _ => none
  | coroutinePollReturn _ => none
  | asyncReady result _ _ => some result
  | phi result _ => some result
  | copy result _ => some result
  | constInt result _ => some result
  | constIntTyped result _ _ => some result
  | constFloat result _ => some result
  | constFloatTyped result _ _ => some result
  | constBool result _ => some result
  | constString result _ => some result
  | cast result _ _ _ => some result
  | makeDynFatPtr result _ _ => some result
  | loadDynDataPtr result _ => some result
  | loadDynVtablePtr result _ => some result
  | loadVtableSlot result _ _ => some result

/-- The poll status a `coroutinePollChild` defines besides its result. -/
def status? : InstructionKind → Option Value
  | coroutinePollChild status _ _ _ => some status
  | _ => none

/-- Every value the instruction defines. -/
def defines (kind : InstructionKind) : List Value := kind.result?.toList ++ kind.status?.toList

def isPhi : InstructionKind → Bool
  | phi .. => true
  | _ => false

def isFrameLoad : InstructionKind → Bool
  | frameLoad .. => true
  | _ => false

def isAwait : InstructionKind → Bool
  | await .. => true
  | _ => false

def isStateLoad : InstructionKind → Bool
  | stateLoad .. => true
  | _ => false

/-- The coroutine, frame and state instructions that async lowering introduces. -/
def isCoroutine : InstructionKind → Bool
  | frameAlloc .. | frameStore .. | frameLoad .. | stateLoad .. | stateStore ..
  | coroutineCreate .. | coroutinePollChild .. | coroutineSubscribe .. | coroutineWake ..
  | coroutineSuspend .. | coroutineComplete .. | coroutineError .. | coroutineCancelled ..
  | coroutinePollReturn .. => true
  | _ => false

variable {kind : InstructionKind}

theorem mem_defines {value : Value} : value ∈ kind.defines ↔ kind.result? = some value ∨
    kind.status? = some value := by
  simp [defines]

theorem isPhi_iff : kind.isPhi = true ↔ ∃ result incoming, kind = .phi result incoming := by
  cases kind <;> simp [isPhi]

theorem isFrameLoad_iff : kind.isFrameLoad = true ↔ ∃ result frame slot ty,
    kind = .frameLoad result frame slot ty := by
  cases kind <;> simp [isFrameLoad]

theorem isFrameLoad_of_isCoroutine (plain : kind.isCoroutine = false) :
    kind.isFrameLoad = false := by
  cases kind <;> simp_all [isCoroutine, isFrameLoad]

theorem isStateLoad_of_isCoroutine (plain : kind.isCoroutine = false) :
    kind.isStateLoad = false := by
  cases kind <;> simp_all [isCoroutine, isStateLoad]

end InstructionKind

namespace Terminator

/-- The value a terminator reads. -/
def reads : Terminator → List Value
  | ret value => value.toList
  | branch _ => []
  | condBranch condition _ _ => [condition]
  | switch value _ _ => [value]
  | unreachable => []

/-- The blocks control may continue in. -/
def successors : Terminator → List BlockId
  | ret _ => []
  | branch target => [target]
  | condBranch _ trueBlock falseBlock => [trueBlock, falseBlock]
  | switch _ cases default => cases.map Prod.snd ++ [default]
  | unreachable => []

end Terminator

/-- `block_successors`. -/
def blockSuccessors (terminator : Option Terminator) : List BlockId :=
  match terminator with
  | some terminator => terminator.successors
  | none => []

/-- The verifier's `instruction_operands`. -/
def instructionOperands (instruction : Instruction) : List Value :=
  match instruction.kind with
  | .binary _ _ lhs rhs => [lhs, rhs]
  | .not _ operand | .load _ operand _ | .copy _ operand | .cast _ operand _ _ |
      .loadDynDataPtr _ operand
  | .loadDynVtablePtr _ operand | .loadVtableSlot _ operand _ | .escapeManualAlloc operand =>
    [operand]
  | .store ptr value => [ptr, value]
  | .getElementPtr _ ptr index _ (some (.dynamic value)) => [ptr, index, value]
  | .getElementPtr _ ptr index _ _ => [ptr, index]
  | .fieldPtr _ ptr _ => [ptr]
  | .call _ _ args _ | .hostCall _ _ args _ => args
  | .callIndirect _ fnPtr args _ _ => fnPtr :: args
  | .asyncReady _ value _ => value.toList
  | .phi _ incoming => incoming.map Prod.fst
  | .makeDynFatPtr _ dataPtr vtablePtr => [dataPtr, vtablePtr]
  | .await _ task _ => [task]
  | .frameAlloc .. | .stateLoad .. => []
  | .frameStore frame _ value _ => [frame, value]
  | .frameLoad _ frame _ _ => [frame]
  | .stateStore frame _ => [frame]
  | .coroutineCreate _ frame _ _ _ => [frame]
  | .coroutinePollChild _ _ task _ => [task]
  | .coroutineSubscribe task parent => [task, parent]
  | .coroutineWake task | .coroutineSuspend task _ | .coroutineCancelled task => [task]
  | .coroutineComplete task value => task :: value.toList
  | .coroutineError task error => task :: error.toList
  | .coroutinePollReturn status => [status]
  | .alloca .. | .globalAddr .. | .manualAlloc .. | .funcAddr .. | .constInt .. | .constIntTyped ..
  | .constFloat .. | .constFloatTyped .. | .constBool .. | .constString .. => []
  | .autodiffStep _ _ output upstream inputs targets =>
    output :: (upstream.toList ++ inputs ++ targets)

/-- The verifier's `instruction_result`. -/
def instructionResult (instruction : Instruction) : Option Value := instruction.kind.result?

/-- The verifier lists what an instruction reads, except for the frame of a `stateLoad`. -/
theorem instructionOperands_eq_reads {instruction : Instruction}
    (other : instruction.kind.isStateLoad = false) :
    instructionOperands instruction = instruction.kind.reads := by
  obtain ⟨id, kind⟩ := instruction
  cases kind with
  | getElementPtr _ _ _ _ bound => rcases bound with - | - | - <;> rfl
  | stateLoad => cases other
  | _ => rfl

/-- Every identifier defined anywhere in the block. -/
def BasicBlock.defines (block : BasicBlock) : List Value :=
  block.instructions.flatMap (·.kind.defines)

/-- The identifiers of the parameters. -/
def Function.paramIds (function : Function) : List Value := function.params.map (·.id)

end SpectraLang

import SpectraLang.Operands
import SpectraLang.Lib.Saturate
import Mathlib.Algebra.BigOperators.Group.List.Basic

/-! # Inlining of small functions

In up to four rounds every call to a candidate is replaced by a copy of the candidate's blocks. The
front of the call's block branches to the copied entry, the copied returns branch to a continuation
block with the rest, and a stack slot carries the result. Copied values and blocks get fresh
identifiers; the labels of new blocks start with `inline.` and the name of the callee.
-/

namespace SpectraLang.FunctionInlining

open List Saturate

def maxInlineBlocks : Nat := 24
def maxInlineInstructions : Nat := 220

/-- `direct_calls`: the names that the functions of one name call. -/
def directCalls (module : Module) (name : String) : List String :=
  (module.functions.filter (·.name = name)).flatMap fun function =>
    function.blocks.flatMap fun block => block.instructions.filterMap fun instruction =>
      match instruction.kind with
      | .call _ callee _ _ => some callee
      | _ => none

def hasComplexControlLabels (function : Function) : Bool :=
  function.blocks.any fun block =>
    textContains block.label "match" || textContains block.label "unless" || textContains
      block.label "block.result"

/-- `collect_terminator_targets`, for all blocks. -/
def terminatorTargets (function : Function) : List BlockId :=
  function.blocks.flatMap fun block => blockSuccessors block.terminator

def hasUnreachableLoopExit (function : Function) : Bool :=
  function.blocks.any fun block => textContains block.label "loop.exit" && block.id ∉
    terminatorTargets function

def isInlineAllocaType : IRType → Bool
  | .int | .float | .bool | .char => true
  | .array elementType size => size ≤ 4096 && isInlineAllocaType elementType
  | _ => false

/-- Instructions that keep a function from being inlined, direct calls apart. -/
def forbidsInlining : InstructionKind → Bool
  | .alloca _ ty => !isInlineAllocaType ty
  | .hostCall .. | .callIndirect .. | .funcAddr .. | .asyncReady .. | .autodiffStep .. | .await .. |
      .frameAlloc ..
  | .frameStore .. | .frameLoad .. | .stateLoad .. | .stateStore .. | .coroutineCreate .. |
      .coroutinePollChild ..
  | .coroutineSubscribe .. | .coroutineWake .. | .coroutineSuspend .. | .coroutineComplete .. |
      .coroutineError ..
  | .coroutineCancelled .. | .coroutinePollReturn .. | .makeDynFatPtr .. | .loadDynDataPtr .. |
      .loadDynVtablePtr ..
  | .loadVtableSlot .. => true
  | _ => false

def isCall : InstructionKind → Bool
  | .call .. => true
  | _ => false

/-- The part of `is_inline_candidate` that reads neither the direct calls nor the number of
instructions. -/
def isInlineShape (function : Function) : Bool :=
  function.name ≠ "main" && function.params.length ≤ 8 && !function.suspensionBarrier &&
    function.returnType ∈ [.int, .bool, .void] && !function.blocks.isEmpty &&
    function.blocks.length ≤ maxInlineBlocks && !hasComplexControlLabels function &&
      !hasUnreachableLoopExit function &&
    function.blocks.all fun block => block.instructions.all fun instruction =>
      !forbidsInlining instruction.kind

def instructionCount (function : Function) : Nat :=
  (function.blocks.map fun block => block.instructions.length).sum

def isInlineCandidate (module : Module) (function : Function) : Bool :=
  isInlineShape function && function.name ∉ directCalls module function.name &&
    (function.blocks.all fun block => block.instructions.all fun instruction =>
      !isCall instruction.kind) &&
    instructionCount function ≤ maxInlineInstructions

def collectCandidates (module : Module) : List Function :=
  module.functions.filter (isInlineCandidate module)

/-- The candidate of a name; a later function replaces an earlier one. -/
def findCandidate (candidates : List Function) (name : String) : Option Function :=
  candidates.reverse.find? (·.name = name)

/-- `map_value`. -/
def mapValue (values : Value → Option Value) (value : Value) : Value := (values value).getD value

/-- A block reference of the callee; unknown blocks keep their identifier. -/
def mapBlock (blocks : BlockId → Option BlockId) (id : BlockId) : BlockId := (blocks id).getD id

/-- The two-operand opcodes that `remap_instruction` and `instruction_result` list. -/
def listsOpcode : BinaryOp → Bool
  | .bitAnd | .bitOr | .bitXor | .shl | .shr _ => false
  | _ => true

/-- `remap_instruction`; what is not listed is cloned as it is. -/
def remapInstruction (values : Value → Option Value) (blocks : BlockId → Option BlockId)
    (kind : InstructionKind) : InstructionKind :=
  let v := mapValue values
  match kind with
  | .binary op result lhs rhs =>
    if listsOpcode op then .binary op (v result) (v lhs) (v rhs) else kind
  | .not result operand => .not (v result) (v operand)
  | .alloca result ty => .alloca (v result) ty
  | .globalAddr result name ty => .globalAddr (v result) name ty
  | .load result ptr ty => .load (v result) (v ptr) ty
  | .store ptr value => .store (v ptr) (v value)
  | .getElementPtr result ptr index elementType bound =>
    .getElementPtr (v result) (v ptr) (v index) elementType
      (match bound with
      | some (.static len) => some (.static len)
      | some (.dynamic value) => some (.dynamic (v value))
      | none => none)
  | .fieldPtr result ptr offset => .fieldPtr (v result) (v ptr) offset
  | .manualAlloc result size => .manualAlloc (v result) size
  | .escapeManualAlloc ptr => .escapeManualAlloc (v ptr)
  | .copy result source => .copy (v result) (v source)
  | .phi result incoming =>
    .phi (v result) (incoming.map fun entry => (v entry.1, mapBlock blocks entry.2))
  | .constInt result value => .constInt (v result) value
  | .constIntTyped result value ty => .constIntTyped (v result) value ty
  | .constFloat result bits => .constFloat (v result) bits
  | .constFloatTyped result bits ty => .constFloatTyped (v result) bits ty
  | .constBool result value => .constBool (v result) value
  | .constString result value => .constString (v result) value
  | .cast result operand fromTy toTy => .cast (v result) (v operand) fromTy toTy
  | .hostCall result host args resultType => .hostCall (result.map v) host (args.map v) resultType
  | other => other

/-- `clone_instruction`. -/
def cloneInstruction (values : Value → Option Value) (blocks : BlockId → Option BlockId)
    (instruction : Instruction) : Instruction :=
  { instruction with kind := remapInstruction values blocks instruction.kind }

/-- `clone_terminator`: a return continues behind the call. -/
def cloneTerminator (values : Value → Option Value) (blocks : BlockId → Option BlockId)
    (continuation : BlockId) : Option Terminator → Option Terminator
  | some (.ret _) => some (.branch continuation)
  | some (.branch target) => some (.branch (mapBlock blocks target))
  | some (.condBranch condition trueBlock falseBlock) =>
    some (.condBranch (mapValue values condition) (mapBlock blocks trueBlock)
      (mapBlock blocks falseBlock))
  | some (.switch value cases default) =>
    some (.switch (mapValue values value)
      (cases.map fun entry => (entry.1, mapBlock blocks entry.2))
      (mapBlock blocks default))
  | some .unreachable => some .unreachable
  | none => none

/-- The pass's own `instruction_result`. -/
def instructionResult : InstructionKind → Option Value
  | .binary op result _ _ => if listsOpcode op then some result else none
  | .not result _ | .alloca result _ | .globalAddr result _ _ | .manualAlloc result _ |
      .load result _ _
  | .getElementPtr result _ _ _ _ | .fieldPtr result _ _ | .copy result _ | .phi result _ |
      .constInt result _
  | .constIntTyped result _ _ | .constFloat result _ | .constFloatTyped result _ _ |
      .constBool result _
  | .constString result _ | .cast result _ _ _ | .funcAddr result _ | .makeDynFatPtr result _ _
  | .loadDynDataPtr result _ | .loadDynVtablePtr result _ | .loadVtableSlot result _ _ =>
    some result
  | .call result _ _ _ | .hostCall result _ _ _ | .callIndirect result _ _ _ _ => result
  | _ => none

/-- `renumber_instructions`. -/
def renumberInstructions (instructions : List Instruction) : List Instruction :=
  instructions.zipIdx.map fun entry => { entry.1 with id := entry.2 }

/-- `block_id_map`: fresh identifiers in the order of the blocks. -/
def blockIdMap (callee : Function) (first : BlockId) : BlockId → Option BlockId :=
  callee.blocks.zipIdx.foldl
    (fun map entry => Function.update map entry.1.id (some (first + entry.2))) fun _ => none

/-- `value_map`: parameters stand for arguments, results get fresh values. Second is the next free
value. -/
def valueMap (callee : Function) (args : List Value) (next : Value) : (Value → Option Value) ×
    Value :=
  let parameters : Value → Option Value :=
    (callee.params.zip args).foldl (fun map entry => Function.update map entry.1.id (some entry.2))
      fun _ => none
  (callee.blocks.flatMap (·.instructions)).foldl
    (fun state instruction =>
      match instructionResult instruction.kind with
      | some value => (Function.update state.1 value (some state.2), state.2 + 1)
      | none => state)
    (parameters, next)

/-- The merge instructions that name the split block name its continuation. -/
def rewirePhis (split continuation : BlockId) (instruction : Instruction) : Instruction :=
  match instruction.kind with
  | .phi result incoming =>
    { instruction with
      kind := .phi result
        (incoming.map fun entry => (entry.1, if entry.2 = split then continuation else entry.2)) }
  | _ => instruction

/-- A copied block; a returned value is stored to the result slot. -/
def cloneBlock (callee : String) (values : Value → Option Value) (blocks : BlockId → Option BlockId)
    (continuation : BlockId) (slot : Option Value) (block : BasicBlock) : BasicBlock where
  id := mapBlock blocks block.id
  label := "inline." ++ callee ++ "." ++ block.label
  instructions :=
    let copied := block.instructions.map (cloneInstruction values blocks)
    renumberInstructions (copied ++
      match block.terminator, slot with
      | some (.ret (some value)), some slot =>
        [⟨copied.length, .store slot (mapValue values value)⟩]
      | _, _ => [])
  terminator := cloneTerminator values blocks continuation block.terminator

/-- The block of the call up to the call: it makes room for the result and enters the copy. -/
def frontBlock (block : BasicBlock) (head : List Instruction) (slot : Option Value)
    (callee : Function) (blocks : BlockId → Option BlockId) : BasicBlock :=
  { block with
    instructions :=
      head ++ slot.toList.map fun slot => ⟨head.length, .alloca slot callee.returnType⟩
    terminator := callee.blocks.head?.map fun entry => .branch (mapBlock blocks entry.id) }

/-- The block behind the call: it loads the result and goes on as the split block did. -/
def continuationBlock (block : BasicBlock) (tail : List Instruction) (result slot : Option Value)
    (name : String) (callee : Function) (continuation : BlockId) : BasicBlock where
  id := continuation
  label := "inline." ++ name ++ ".cont"
  instructions := renumberInstructions
    ((match result, slot with
    | some result, some slot => [⟨0, .load result slot callee.returnType⟩]
    | _, _ => []) ++ tail)
  terminator := block.terminator

def rewireBlock (split continuation : BlockId) (block : BasicBlock) : BasicBlock :=
  { block with instructions := block.instructions.map (rewirePhis split continuation) }

/-- The caller after its call in a block has been replaced. -/
def spliceCall (caller : Function) (before : List BasicBlock) (block : BasicBlock)
    (after : List BasicBlock)
    (head tail : List Instruction) (result : Option Value) (name : String) (args : List Value)
      (callee : Function) :
    Function :=
  let continuation := caller.nextBlockId
  let blocks := blockIdMap callee (continuation + 1)
  let (values, next) := valueMap callee args caller.nextValueId
  let slot := result.map fun _ => next
  { caller with
    blocks := (before ++ [frontBlock block head slot callee blocks] ++
      callee.blocks.map (cloneBlock name values blocks continuation slot) ++
      [continuationBlock block tail result slot name callee continuation] ++ after).map
        (rewireBlock block.id continuation)
    nextBlockId := continuation + 1 + callee.blocks.length
    nextValueId := next + slot.toList.length }

/-- `inline_call`, for the call at the given places. -/
def inlineCall (caller : Function) (blockIndex instructionIndex : Nat) (callee : Function) :
    Option Function := do
  let block ← caller.blocks[blockIndex]?
  let instruction ← block.instructions[instructionIndex]?
  match instruction.kind with
  | .call result name args _ =>
    some (spliceCall caller (caller.blocks.take blockIndex) block
      (caller.blocks.drop (blockIndex + 1))
      (block.instructions.take instructionIndex) (block.instructions.drop (instructionIndex + 1))
        result name args callee)
  | _ => none

/-- The name of the candidate that an instruction calls with the right number of arguments. -/
def inlinableCall (candidates : List Function) (instruction : Instruction) : Option String :=
  match instruction.kind with
  | .call _ name args _ =>
    match findCandidate candidates name with
    | some candidate => if candidate.params.length = args.length then some name else none
    | none => none
  | _ => none

/-- `find_inline_call`: the first call to a candidate, in the order of blocks and instructions. -/
def findInlineCall (function : Function) (candidates : List Function) :
    Option (Nat × Nat × String) :=
  function.blocks.zipIdx.findSome? fun entry =>
    entry.1.instructions.zipIdx.findSome? fun instruction =>
      (inlinableCall candidates instruction.1).map fun name => (entry.2, instruction.2, name)

/-- One turn of the loop over the calls of a function. -/
def inlineNext (candidates : List Function) (function : Function) : Option Function := do
  let (blockIndex, instructionIndex, name) ← findInlineCall function candidates
  let candidate ← findCandidate candidates name
  inlineCall function blockIndex instructionIndex candidate

/-- The direct calls of a function. -/
def callCount (function : Function) : Nat :=
  (function.blocks.map fun block => block.instructions.countP (isCall ·.kind)).sum

/-- `inline_calls_in_function`; every turn replaces one direct call by code without calls. -/
def inlineCallsInFunction (candidates : List Function) (function : Function) : Function :=
  saturate (inlineNext candidates) (callCount function) function

/-- One round over the module, if it changes anything. -/
def inlineRound (module : Module) : Option Module :=
  let candidates := collectCandidates module
  let changes := fun function :
    Function => !function.suspensionBarrier && (inlineNext candidates function).isSome
  if module.functions.any changes then
    some { module with
      functions := module.functions.map fun function =>
        if function.suspensionBarrier then function else inlineCallsInFunction candidates function }
  else none

/-- `FunctionInlining::run`. -/
def run (module : Module) : Module := saturate inlineRound 4 module

/-- Where the blocks of the callee are copied to. -/
def copyId (caller callee : Function) : BlockId → BlockId :=
  mapBlock (blockIdMap callee (caller.nextBlockId + 1))

/-- A direct call of a function with what stands around it. -/
structure CallSite (caller : Function) where
  before : List BasicBlock
  block : BasicBlock
  after : List BasicBlock
  head : List Instruction
  tail : List Instruction
  call : Instruction
  result : Option Value
  name : String
  args : List Value
  isTail : Bool
  blocks_eq : caller.blocks = before ++ block :: after
  instructions_eq : block.instructions = head ++ call :: tail
  call_eq : call.kind = .call result name args isTail

namespace CallSite

variable {caller : Function} (site : CallSite caller) (callee : Function)

/-- The caller with the call replaced by a copy of the callee. -/
def splice : Function :=
  spliceCall caller site.before site.block site.after site.head site.tail site.result site.name
    site.args callee

def values : Value → Option Value := (valueMap callee site.args caller.nextValueId).1

/-- The stack slot for the result. -/
def slot : Option Value := site.result.map fun _ => (valueMap callee site.args caller.nextValueId).2

def front : BasicBlock :=
  frontBlock site.block site.head (site.slot callee) callee
    (blockIdMap callee (caller.nextBlockId + 1))

def clone (block : BasicBlock) : BasicBlock :=
  cloneBlock site.name (site.values callee) (blockIdMap callee (caller.nextBlockId + 1))
    caller.nextBlockId (site.slot callee) block

def rest : BasicBlock :=
  continuationBlock site.block site.tail site.result (site.slot callee) site.name callee
    caller.nextBlockId

def rewired (block : BasicBlock) : BasicBlock := rewireBlock site.block.id caller.nextBlockId block

theorem splice_blocks : (site.splice callee).blocks =
    (site.before ++ [site.front callee] ++ callee.blocks.map (site.clone callee) ++
      [site.rest callee] ++ site.after).map site.rewired :=
  rfl

theorem mem_splice_blocks {block : BasicBlock} : block ∈ (site.splice callee).blocks ↔
    (∃ old, (old ∈ site.before ∨ old ∈ site.after) ∧ block = site.rewired old) ∨
      block = site.rewired (site.front callee) ∨
      (∃ inner ∈ callee.blocks, block = site.rewired (site.clone callee inner)) ∨
      block = site.rewired (site.rest callee) := by
  simp only [splice_blocks, mem_map, mem_append, mem_singleton]
  grind

end CallSite

theorem eq_take_append_drop {γ : Type*} {elements : List γ} {index : Nat} {element : γ}
    (here : elements[index]? = some element) :
    elements = elements.take index ++ element :: elements.drop (index + 1) := by
  obtain ⟨bound, rfl⟩ := List.getElem?_eq_some_iff.mp here
  rw [← drop_eq_getElem_cons bound, take_append_drop]

variable {candidates : List Function}

theorem inlinableCall_eq_some {instruction : Instruction} {name : String}
    (inlinable : inlinableCall candidates instruction = some name) :
    ∃ result args isTail callee, instruction.kind = .call result name args isTail ∧
      findCandidate candidates name = some callee := by
  unfold inlinableCall at inlinable
  split at inlinable
  · next result name args isTail kind =>
    split at inlinable
    · next callee found =>
      split at inlinable
      · cases inlinable
        exact ⟨result, args, isTail, callee, kind, found⟩
      · cases inlinable
    · cases inlinable
  · cases inlinable

theorem findInlineCall_eq_some {function : Function} {blockIndex position : Nat} {name : String}
    (found : findInlineCall function candidates = some (blockIndex, position, name)) :
    ∃ block instruction, function.blocks[blockIndex]? = some block ∧
      block.instructions[position]? = some instruction ∧
      inlinableCall candidates instruction = some name := by
  obtain ⟨⟨block, index⟩, blockIn, inner⟩ := exists_of_findSome?_eq_some found
  obtain ⟨⟨instruction, place⟩, instructionIn, mapped⟩ := exists_of_findSome?_eq_some inner
  obtain ⟨callee, inlinable, same⟩ := Option.map_eq_some_iff.mp mapped
  cases same
  exact ⟨block, instruction, mem_zipIdx_iff_getElem?.mp blockIn,
    mem_zipIdx_iff_getElem?.mp instructionIn, inlinable⟩

theorem inlineCall_eq_some {caller callee next : Function} {blockIndex position : Nat}
    (replaced : inlineCall caller blockIndex position callee = some next) :
    ∃ site : CallSite caller, next = site.splice callee ∧
      caller.blocks[blockIndex]? = some site.block ∧
      site.block.instructions[position]? = some site.call ∧ site.tail = site.block.instructions.drop
        (position + 1) := by
  simp only [inlineCall, Option.bind_eq_bind, Option.bind_eq_some_iff] at replaced
  obtain ⟨block, blockAt, instruction, instructionAt, replaced⟩ := replaced
  split at replaced
  · next result name args isTail kind =>
    exact ⟨⟨_, block, _, _, _, instruction, result, name, args, isTail, eq_take_append_drop blockAt,
      eq_take_append_drop instructionAt, kind⟩, (Option.some.inj replaced).symm, blockAt,
        instructionAt, rfl⟩
  · cases replaced

/-- A turn replaces one call to a candidate. -/
theorem inlineNext_cases {function next : Function}
    (turn : inlineNext candidates function = some next) :
    ∃ (site : CallSite function) (callee : Function), callee ∈ candidates ∧
      callee.name = site.name ∧ next = site.splice callee := by
  simp only [inlineNext, Option.bind_eq_bind, Option.bind_eq_some_iff] at turn
  obtain ⟨⟨blockIndex, position, name⟩, found, callee, isCandidate, replaced⟩ := turn
  have member := mem_reverse.mp (mem_of_find?_eq_some isCandidate)
  have named : callee.name = name := by simpa using find?_some isCandidate
  obtain ⟨block, instruction, blockAt, instructionAt, inlinable⟩ := findInlineCall_eq_some found
  obtain ⟨result, args, isTail, -, kind, -⟩ := inlinableCall_eq_some inlinable
  obtain ⟨site, spliced, siteAt, callAt, -⟩ := inlineCall_eq_some replaced
  obtain rfl := Option.some.inj (siteAt.symm.trans blockAt)
  have sameCall := site.call_eq
  rw [Option.some.inj (callAt.symm.trans instructionAt), kind] at sameCall
  cases sameCall
  exact ⟨site, callee, member, named, spliced⟩

/-- A function without direct calls. -/
def CallFree (function : Function) : Prop :=
  ∀ block ∈ function.blocks, ∀ instruction ∈ block.instructions, isCall instruction.kind = false

theorem callFree_of_mem_collectCandidates {module : Module} {callee : Function}
    (candidate : callee ∈ collectCandidates module) : CallFree callee := by
  have accepted := (mem_filter.mp candidate).2
  simp only [isInlineCandidate, Bool.and_eq_true, all_eq_true, Bool.not_eq_true'] at accepted
  exact accepted.1.2

@[simp] theorem isCall_remapInstruction (values : Value → Option Value)
    (blocks : BlockId → Option BlockId)
    (kind : InstructionKind) : isCall (remapInstruction values blocks kind) = isCall kind := by
  cases kind with
  | binary op result lhs rhs => cases op <;> rfl
  | _ => rfl

@[simp] theorem isCall_rewirePhis (split continuation : BlockId) (instruction : Instruction) :
    isCall (rewirePhis split continuation instruction).kind = isCall instruction.kind := by
  rcases instruction with ⟨id, kind⟩
  cases kind <;> rfl

/-- The direct calls of a block. -/
def blockCalls (block : BasicBlock) : Nat := block.instructions.countP (isCall ·.kind)

theorem countP_renumberInstructions (instructions : List Instruction) :
    (renumberInstructions instructions).countP (isCall ·.kind) = instructions.countP
      (isCall ·.kind) := by
  rw [renumberInstructions, countP_map]
  change instructions.zipIdx.countP ((fun instruction => isCall instruction.kind) ∘ Prod.fst) = _
  rw [← countP_map, zipIdx_map_fst]

theorem blockCalls_rewireBlock (split continuation : BlockId) (block : BasicBlock) :
    blockCalls (rewireBlock split continuation block) = blockCalls block := by
  rw [blockCalls, rewireBlock, countP_map]
  exact countP_congr fun instruction _ => by simp

namespace CallSite

variable {caller : Function} (site : CallSite caller) {callee : Function}

theorem blockCalls_front : blockCalls (site.front callee) = site.head.countP (isCall ·.kind) := by
  rw [blockCalls, front, frontBlock, countP_append]
  cases site.slot callee <;> simp [isCall]

theorem blockCalls_rest : blockCalls (site.rest callee) = site.tail.countP (isCall ·.kind) := by
  change (renumberInstructions (_ ++ site.tail)).countP _ = _
  rw [countP_renumberInstructions, countP_append]
  split <;> simp [isCall]

theorem blockCalls_clone (free : CallFree callee) {block : BasicBlock}
    (member : block ∈ callee.blocks) : blockCalls (site.clone callee block) = 0 := by
  rw [blockCalls, clone, cloneBlock, countP_renumberInstructions, countP_append,
    Nat.add_eq_zero_iff]
  constructor
  · rw [countP_map, countP_eq_zero]
    intro instruction inside
    simpa [cloneInstruction] using free block member instruction inside
  · split <;> simp [isCall]

theorem blockCalls_block : blockCalls site.block =
    site.head.countP (isCall ·.kind) + site.tail.countP (isCall ·.kind) + 1 := by
  have isTheCall : isCall site.call.kind = true := by rw [site.call_eq]; rfl
  rw [blockCalls, site.instructions_eq, countP_append, countP_cons, if_pos isTheCall, Nat.add_assoc]

/-- Only the replaced call disappears. -/
theorem instructionCount_splice : instructionCount caller ≤ instructionCount (site.splice callee) +
    1 := by
  have size : ∀ function :
    Function, instructionCount function = (function.blocks.map (·.instructions.length)).sum :=
    fun _ => rfl
  have same : ∀ blocks : List BasicBlock, (blocks.map site.rewired).map (·.instructions.length) =
      blocks.map (·.instructions.length) := by
    intro blocks
    rw [map_map]
    exact map_congr_left fun block _ => length_map _
  have front : site.head.length ≤ (site.front callee).instructions.length := by
    simp [CallSite.front, frontBlock]
  have rest : site.tail.length ≤ (site.rest callee).instructions.length := by
    simp [CallSite.rest, continuationBlock, renumberInstructions]
  rw [size, size, splice_blocks, same, site.blocks_eq]
  simp only [map_append, map_cons, map_nil, sum_append, sum_cons, sum_nil, site.instructions_eq,
    length_append, length_cons]
  omega

/-- Replacing a call by code without calls removes it. -/
theorem callCount_splice (free : CallFree callee) :
    callCount (site.splice callee) + 1 = callCount caller := by
  have sameCalls : ∀ blocks : List BasicBlock, (blocks.map site.rewired).map blockCalls =
    blocks.map blockCalls := by
    intro blocks
    rw [map_map]
    exact map_congr_left fun block _ => blockCalls_rewireBlock ..
  have clones : ((callee.blocks.map (site.clone callee)).map blockCalls).sum = 0 := by
    rw [map_map]
    refine sum_eq_zero fun count counted => ?_
    obtain ⟨block, member, rfl⟩ := mem_map.mp counted
    exact site.blockCalls_clone free member
  have before : callCount caller = (caller.blocks.map blockCalls).sum := rfl
  have after : callCount (site.splice callee) = ((site.splice callee).blocks.map blockCalls).sum :=
    rfl
  rw [before, after, splice_blocks, sameCalls, site.blocks_eq]
  simp only [map_append, map_cons, map_nil, sum_append, sum_cons, sum_nil, clones,
    blockCalls_front, blockCalls_rest, blockCalls_block]
  omega

end CallSite

/-- When the loop over a function's calls stops, no call to a candidate is left. -/
theorem findInlineCall_inlineCallsInFunction (free : ∀ callee ∈ candidates, CallFree callee)
    (function : Function) :
    findInlineCall (inlineCallsInFunction candidates function) candidates = none := by
  have stable : inlineNext candidates (inlineCallsInFunction candidates function) = none := by
    refine saturate_stable (fun _ => True) callCount (fun _ _ _ _ => trivial) ?_ trivial le_rfl
    intro before after _ turn
    obtain ⟨site, callee, candidate, -, rfl⟩ := inlineNext_cases turn
    have fewer := site.callCount_splice (free callee candidate)
    omega
  cases found : findInlineCall (inlineCallsInFunction candidates function) candidates with
  | none => rfl
  | some place =>
    obtain ⟨block, instruction, blockAt, instructionAt, inlinable⟩ := findInlineCall_eq_some found
    obtain ⟨result, args, isTail, callee, kind, isCandidate⟩ := inlinableCall_eq_some inlinable
    simp [inlineNext, found, isCandidate, inlineCall, blockAt, instructionAt, kind] at stable

end SpectraLang.FunctionInlining

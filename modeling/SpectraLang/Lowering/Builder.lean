import SpectraLang.Operands

/-! # The IR builder

`IRBuilder` appends instructions to a current block and sets its terminator; blocks are added at the
end and become current explicitly. A builder is kept together with the function it fills.
`Function.Extends` relates a function to what later emission makes of it: blocks only get longer,
new instructions define new values, and a terminated block stays as it is. A block ended by
`unreachable` may still be written to, as lowering does with merge blocks nothing branches to.
-/

namespace SpectraLang

namespace BasicBlock

/-- `add_instruction`: instructions are numbered by their position. -/
def addInstruction (block : BasicBlock) (kind : InstructionKind) : BasicBlock :=
  { block with instructions := block.instructions ++ [⟨block.instructions.length, kind⟩] }

/-- `set_terminator`. -/
def setTerminator (block : BasicBlock) (terminator : Terminator) : BasicBlock :=
  { block with terminator := some terminator }

end BasicBlock

/-- Change the first block with the identifier. -/
def updateFirst (id : BlockId) (change : BasicBlock → BasicBlock) : List BasicBlock →
    List BasicBlock
  | [] => []
  | block :: rest =>
    if block.id == id then change block :: rest else block :: updateFirst id change rest

variable {block : BasicBlock} (function : Function)

namespace Function

/-- Change the block that `get_block_mut` finds. -/
def updateBlock (function : Function) (id : BlockId) (change : BasicBlock → BasicBlock) :
    Function :=
  { function with blocks := updateFirst id change function.blocks }

theorem getBlock_id {function : Function} {id : BlockId}
    (found : function.getBlock id = some block) : block.id = id := by
  simpa using List.find?_some found

variable {change : BasicBlock → BasicBlock}

theorem getBlock_updateBlock_self (id : BlockId) (sameId : ∀ block, (change block).id = block.id) :
    (function.updateBlock id change).getBlock id = (function.getBlock id).map change := by
  unfold getBlock updateBlock
  induction function.blocks with
  | nil => rfl
  | cons block rest ih =>
    by_cases here : block.id = id
    · simp [updateFirst, here, sameId]
    · simpa [updateFirst, here] using ih

theorem getBlock_updateBlock_of_ne {id other : BlockId}
    (sameId : ∀ block, (change block).id = block.id) (different : other ≠ id) :
    (function.updateBlock id change).getBlock other = function.getBlock other := by
  unfold getBlock updateBlock
  induction function.blocks with
  | nil => rfl
  | cons block rest ih =>
    by_cases here : block.id = id
    · simp [updateFirst, here, sameId, different.symm]
    · by_cases there : block.id = other
      · subst there
        simp [updateFirst, here]
      · simpa [updateFirst, here, there] using ih

end Function

/-- The builder with the function under construction. -/
structure Builder where
  function : Function
  current : BlockId

namespace Builder

/-- The block instructions are appended to. -/
def block? (builder : Builder) : Option BasicBlock := builder.function.getBlock builder.current

/-- Change the current block and set the value counter. -/
def revise (builder : Builder) (nextValueId : Nat) (change : BasicBlock → BasicBlock) : Builder :=
  { builder with function :=
    { builder.function.updateBlock builder.current change with nextValueId } }

/-- `try_emit`: the instruction defines the next value. -/
def emit (builder : Builder) (make : Value → InstructionKind) : Value × Builder :=
  match builder.block? with
  | none => (Value.INVALID_ID, builder)
  | some _ =>
    let result := builder.function.nextValueId
    (result, builder.revise (result + 1) (·.addInstruction (make result)))

/-- Append an instruction that defines no value. -/
def push (builder : Builder) (kind : InstructionKind) : Builder :=
  builder.revise builder.function.nextValueId (·.addInstruction kind)

/-- Set the terminator of the current block, whatever it was. -/
def terminate (builder : Builder) (terminator : Terminator) : Builder :=
  builder.revise builder.function.nextValueId (·.setTerminator terminator)

/-- `add_block`. -/
def addBlock (builder : Builder) (label : String) : BlockId × Builder :=
  let id := builder.function.nextBlockId
  (id, { builder with
    function := { builder.function with
      blocks := builder.function.blocks ++ [⟨id, label, [], none⟩]
      nextBlockId := id + 1 } })

/-- `set_current_block`. -/
def setCurrentBlock (builder : Builder) (id : BlockId) : Builder := { builder with current := id }

/-- `current_block_is_terminated`. -/
def isTerminated (builder : Builder) : Bool := builder.block?.any (·.terminator.isSome)

def buildConstInt (builder : Builder) (value : I64) : Value × Builder :=
  builder.emit fun result => .constInt result value

def buildEq (builder : Builder) (lhs rhs : Value) : Value × Builder :=
  builder.emit fun result => .binary .eq result lhs rhs

def buildFieldPtr (builder : Builder) (ptr : Value) (offset : I64) : Value × Builder :=
  builder.emit fun result => .fieldPtr result ptr offset

def buildLoadTyped (builder : Builder) (ptr : Value) (ty : IRType) : Value × Builder :=
  builder.emit fun result => .load result ptr ty

/-- `build_getelementptr`, without a bound. -/
def buildGetElementPtr (builder : Builder) (ptr index : Value) (elementType : IRType) :
    Value × Builder :=
  builder.emit fun result => .getElementPtr result ptr index elementType none

def buildEscapeManualAlloc (builder : Builder) (ptr : Value) : Builder :=
  builder.push (.escapeManualAlloc ptr)
def buildBranch (builder : Builder) (target : BlockId) : Builder :=
  builder.terminate (.branch target)

def buildCondBranch (builder : Builder) (condition : Value) (trueBlock falseBlock : BlockId) :
    Builder :=
  builder.terminate (.condBranch condition trueBlock falseBlock)

end Builder

/-- The block `after` is `before` with more instructions, whose values are new, unless `before` was
ended. -/
structure BasicBlock.Continues (fresh : Value) (before after : BasicBlock) : Prop where
  sameId : after.id = before.id
  added : ∃ more, after.instructions = before.instructions ++ more ∧
    ∀ instruction ∈ more, ∀ value ∈ instruction.kind.defines, fresh ≤ value
  terminated : ∀ terminator, before.terminator = some terminator → terminator ≠ .unreachable →
    after.instructions = before.instructions ∧ after.terminator = some terminator

variable {kind : InstructionKind} (terminator : Terminator)

namespace BasicBlock.Continues

variable {fresh fresh' : Value} {first second third : BasicBlock}

theorem refl (fresh : Value) (block : BasicBlock) : block.Continues fresh block :=
  ⟨rfl, ⟨[], by simp⟩, fun _ ended _ => ⟨rfl, ended⟩⟩

theorem trans (earlier : first.Continues fresh second) (later : second.Continues fresh' third)
    (le : fresh ≤ fresh') : first.Continues fresh third := by
  obtain ⟨added, equal, new⟩ := earlier.added
  obtain ⟨added', equal', new'⟩ := later.added
  refine ⟨later.sameId.trans earlier.sameId,
    ⟨added ++ added', by rw [equal', equal, List.append_assoc], ?_⟩, ?_⟩
  · intro instruction member value defined
    rcases List.mem_append.mp member with old | recent
    · exact new instruction old value defined
    · exact le.trans (new' instruction recent value defined)
  · intro terminator ended live
    obtain ⟨same, still⟩ := earlier.terminated terminator ended live
    obtain ⟨same', still'⟩ := later.terminated terminator still live
    exact ⟨same'.trans same, still'⟩

theorem addInstruction (vacant : block.terminator = none)
    (new : ∀ value ∈ kind.defines, fresh ≤ value) :
      block.Continues fresh (block.addInstruction kind) := by
  refine ⟨rfl, ⟨_, rfl, ?_⟩, fun terminator ended => ?_⟩
  · intro instruction member
    rw [List.mem_singleton] at member
    subst member
    exact new
  · simp [vacant] at ended

theorem setTerminator (vacant : block.terminator = none) :
    block.Continues fresh (block.setTerminator terminator) := by
  refine ⟨rfl, ⟨[], by simp [BasicBlock.setTerminator]⟩, fun terminator ended => ?_⟩
  simp [vacant] at ended

end BasicBlock.Continues

/-- Every block of `before` continues in `after`. -/
structure Function.Extends (before after : Function) : Prop where
  values : before.nextValueId ≤ after.nextValueId
  ids : before.nextBlockId ≤ after.nextBlockId
  block : ∀ ⦃id block⦄, before.getBlock id = some block →
    ∃ next, after.getBlock id = some next ∧ block.Continues before.nextValueId next

namespace Function.Extends

theorem refl : function.Extends function :=
  ⟨le_rfl, le_rfl, fun _ block found => ⟨block, found, .refl _ block⟩⟩

theorem trans {first second third : Function} (earlier : first.Extends second)
    (later : second.Extends third) : first.Extends third := by
  refine ⟨earlier.values.trans later.values, earlier.ids.trans later.ids, fun id block found => ?_⟩
  obtain ⟨next, found', continues⟩ := earlier.block found
  obtain ⟨last, found'', continues'⟩ := later.block found'
  exact ⟨last, found'', continues.trans continues' earlier.values⟩

end Function.Extends

namespace Builder

/-- Block identifiers are below the counter. -/
def Bounded (builder : Builder) : Prop :=
  ∀ ⦃id block⦄, builder.function.getBlock id = some block → id < builder.function.nextBlockId

/-- The current block exists and has no terminator yet. -/
structure Ready (builder : Builder) : Prop where
  bounded : builder.Bounded
  vacant : ∃ block, builder.block? = some block ∧ block.terminator = none

/-- Emission from `before` to `after` touches only the block that was current and new ones. -/
structure Grows (before after : Builder) : Prop where
  extended : before.function.Extends after.function
  keeps : ∀ ⦃id block⦄, id ≠ before.current → before.function.getBlock id = some block →
    after.function.getBlock id = some block
  place : after.current = before.current ∨ before.function.nextBlockId ≤ after.current

variable {builder before middle after : Builder}

theorem Grows.refl (builder : Builder) : builder.Grows builder :=
  ⟨.refl _, fun _ _ _ found => found, .inl rfl⟩

theorem Grows.trans (bounded : before.Bounded) (earlier : before.Grows middle)
    (later : middle.Grows after) : before.Grows after := by
  refine ⟨earlier.extended.trans later.extended, fun id block other found => ?_, ?_⟩
  · refine later.keeps ?_ (earlier.keeps other found)
    rcases earlier.place with same | fresh
    · rwa [same]
    · exact ((bounded found).trans_le fresh).ne
  · rcases later.place with same | fresh
    · rw [same]
      exact earlier.place
    · exact .inr (earlier.extended.ids.trans fresh)

variable {id : BlockId} {block : BasicBlock} {nextValueId : Nat} {change : BasicBlock → BasicBlock}

theorem Grows.setCurrentBlock (grows : before.Grows after)
    (fresh : before.function.nextBlockId ≤ id) :
    before.Grows (after.setCurrentBlock id) :=
  ⟨grows.extended, grows.keeps, .inr fresh⟩

section
variable (found : builder.block? = some block) (sameId : ∀ block, (change block).id = block.id)
include found sameId

theorem grows_revise (le : builder.function.nextValueId ≤ nextValueId)
    (continues : block.Continues builder.function.nextValueId (change block)) :
    builder.Grows (builder.revise nextValueId change) := by
  refine ⟨⟨le, le_rfl, fun id other found' => ?_⟩, fun id other different found' => ?_, .inl rfl⟩
  · by_cases here : id = builder.current
    · subst here
      obtain rfl : block = other := Option.some.inj (found.symm.trans found')
      refine ⟨change block, ?_, continues⟩
      exact (Function.getBlock_updateBlock_self _ _ sameId).trans (by rw [found']; rfl)
    · exact ⟨other, (Function.getBlock_updateBlock_of_ne _ sameId here).trans found', .refl _ other⟩
  · exact (Function.getBlock_updateBlock_of_ne _ sameId different).trans found'

theorem block?_revise : (builder.revise nextValueId change).block? = some (change block) := by
  have located : builder.function.getBlock builder.current = some block := found
  change (builder.function.updateBlock builder.current change).getBlock builder.current = _
  rw [Function.getBlock_updateBlock_self _ _ sameId, located, Option.map_some]

end

theorem Bounded.revise (bounded : builder.Bounded)
    (sameId : ∀ block, (change block).id = block.id) :
    (builder.revise nextValueId change).Bounded := by
  intro id block found
  have found' : (builder.function.updateBlock builder.current change).getBlock id = some block :=
    found
  by_cases here : id = builder.current
  · subst here
    rw [Function.getBlock_updateBlock_self _ _ sameId, Option.map_eq_some_iff] at found'
    obtain ⟨block', old, -⟩ := found'
    exact bounded old
  · rw [Function.getBlock_updateBlock_of_ne _ sameId here] at found'
    exact bounded found'

section
variable (ready : builder.Ready)
include ready

variable (make : Value → InstructionKind)

theorem emit_of_ready :
    builder.emit make = (builder.function.nextValueId,
      builder.revise (builder.function.nextValueId + 1)
        (·.addInstruction (make builder.function.nextValueId))) := by
  obtain ⟨block, found, -⟩ := ready.vacant
  simp [emit, found]

theorem Ready.emit_fst : (builder.emit make).1 = builder.function.nextValueId := by
  rw [emit_of_ready ready]

theorem Ready.emit_lt : (builder.emit make).1 < (builder.emit make).2.function.nextValueId := by
  rw [emit_of_ready ready]
  exact Nat.lt_succ_self _

/-- Emission of an instruction that defines only the new value. -/
theorem Ready.emit {make : Value → InstructionKind}
    (defines : (make builder.function.nextValueId).defines = [builder.function.nextValueId]) :
    builder.Grows (builder.emit make).2 ∧ (builder.emit make).2.Ready := by
  obtain ⟨block, found, vacant⟩ := ready.vacant
  rw [emit_of_ready ready]
  refine ⟨grows_revise found (fun _ => rfl) (Nat.le_succ _) (.addInstruction vacant ?_),
    ready.bounded.revise fun _ => rfl, _, block?_revise found fun _ => rfl, vacant⟩
  simp [defines]

theorem Ready.push (defines : kind.defines = []) : builder.Grows (builder.push kind) ∧
    (builder.push kind).Ready := by
  obtain ⟨block, found, vacant⟩ := ready.vacant
  refine ⟨grows_revise found (fun _ => rfl) le_rfl (.addInstruction vacant ?_),
    ready.bounded.revise fun _ => rfl, _, block?_revise found fun _ => rfl, vacant⟩
  simp [defines]

theorem Ready.terminate : builder.Grows (builder.terminate terminator) ∧
    (builder.terminate terminator).Bounded := by
  obtain ⟨block, found, vacant⟩ := ready.vacant
  exact ⟨grows_revise found (fun _ => rfl) le_rfl (.setTerminator terminator vacant),
    ready.bounded.revise fun _ => rfl⟩

end

theorem getBlock_addBlock_new (bounded : builder.Bounded) (label : String) :
    (builder.addBlock label).2.function.getBlock builder.function.nextBlockId =
      some ⟨builder.function.nextBlockId, label, [], none⟩ := by
  have absent : builder.function.getBlock builder.function.nextBlockId = none := by
    by_contra present
    obtain ⟨block, found⟩ := Option.ne_none_iff_exists'.mp present
    exact (bounded found).ne rfl
  unfold Function.getBlock at absent ⊢
  simp [addBlock, List.find?_append, absent]

theorem getBlock_addBlock_of_some (label : String)
    (found : builder.function.getBlock id = some block) :
    (builder.addBlock label).2.function.getBlock id = some block := by
  unfold Function.getBlock at found ⊢
  simp [addBlock, List.find?_append, found]

theorem grows_addBlock (builder : Builder) (label : String) :
    builder.Grows (builder.addBlock label).2 := by
  refine ⟨⟨le_rfl, Nat.le_succ _, fun id block found => ⟨block, ?_, .refl _ block⟩⟩,
    fun id block _ found => ?_, .inl rfl⟩
  · exact getBlock_addBlock_of_some label found
  · exact getBlock_addBlock_of_some label found

theorem Bounded.addBlock (bounded : builder.Bounded) (label : String) :
    (builder.addBlock label).2.Bounded := by
  intro id block found
  unfold Function.getBlock at found
  simp only [Builder.addBlock, List.find?_append, Option.or_eq_some_iff] at found
  rcases found with old | ⟨-, new⟩
  · exact (bounded old).trans (Nat.lt_succ_self _)
  · rw [List.find?_singleton] at new
    split at new
    case isTrue same =>
      have equal : builder.function.nextBlockId = id := by simpa using same
      subst equal
      exact Nat.lt_succ_self _
    case isFalse => cases new

theorem Ready.addBlock (ready : builder.Ready) (label : String) :
    (builder.addBlock label).2.Ready := by
  obtain ⟨block, found, vacant⟩ := ready.vacant
  exact ⟨ready.bounded.addBlock label, block, getBlock_addBlock_of_some label found, vacant⟩

/-- The block is still empty and waits to become current. -/
structure Awaits (builder : Builder) (id : BlockId) : Prop where
  vacant : ∃ block, builder.function.getBlock id = some block ∧ block.instructions = [] ∧
    block.terminator = none
  apart : id ≠ builder.current

theorem Awaits.grows (awaits : before.Awaits id) (bounded : before.Bounded)
    (grows : before.Grows after) : after.Awaits id := by
  obtain ⟨block, found, empty⟩ := awaits.vacant
  refine ⟨⟨block, grows.keeps awaits.apart found, empty⟩, ?_⟩
  rcases grows.place with same | fresh
  · rw [same]
    exact awaits.apart
  · exact ((bounded found).trans_le fresh).ne

theorem Awaits.setCurrentBlock {other : BlockId} (awaits : builder.Awaits id) (apart : id ≠ other) :
    (builder.setCurrentBlock other).Awaits id :=
  ⟨awaits.vacant, apart⟩

theorem Awaits.ready (awaits : builder.Awaits id) (bounded : builder.Bounded) :
    (builder.setCurrentBlock id).Ready := by
  obtain ⟨block, found, -, vacant⟩ := awaits.vacant
  exact ⟨bounded, block, found, vacant⟩

theorem Ready.awaits_addBlock (ready : builder.Ready) (label : String) :
    (builder.addBlock label).2.Awaits (builder.addBlock label).1 := by
  obtain ⟨block, found, -⟩ := ready.vacant
  exact ⟨⟨_, getBlock_addBlock_new ready.bounded label, rfl, rfl⟩, (ready.bounded found).ne'⟩

theorem Ready.isTerminated (ready : builder.Ready) : builder.isTerminated = false := by
  obtain ⟨block, found, vacant⟩ := ready.vacant
  simp [Builder.isTerminated, found, vacant]

end Builder

end SpectraLang

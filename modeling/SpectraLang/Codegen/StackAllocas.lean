import SpectraLang.Passes.Verification

/-! # Allocas that stay on the stack frame

`collectStackAllocas` keeps the allocas of small scalar and aggregate types whose address, followed
through element and field addresses, does not leave the function. Allocas stored into one that
leaves go with it, and constructions inside a cycle of the control-flow graph are given up last.
-/

namespace SpectraLang

open Saturate

/-- The depth-first search of `blocks_on_cycles`; stacks have their top first. -/
structure CycleSearch where
  indexOf : BlockId → Option Nat
  lowlink : BlockId → Option Nat
  onStack : Finset BlockId
  stack : List BlockId
  nextIndex : Nat
  cyclic : Finset BlockId
  work : List (BlockId × Nat)

namespace CycleSearch

/-- `by_id`; a later block with the same identifier replaces an earlier one. -/
def blockSuccessorsOf (function : Function) (node : BlockId) : List BlockId :=
  match function.blocks.reverse.find? fun block => block.id = node with
  | some block => blockSuccessors block.terminator
  | none => []

/-- Number a node that is met for the first time and put it on both stacks. -/
def discover (search : CycleSearch) (node : BlockId) : CycleSearch :=
  { search with
    indexOf := Function.update search.indexOf node (some search.nextIndex)
    lowlink := Function.update search.lowlink node (some search.nextIndex)
    onStack := insert node search.onStack
    stack := node :: search.stack
    nextIndex := search.nextIndex + 1
    work := (node, 0) :: search.work }

/-- `*entry = (*entry).min(candidate)` on the entry of a node. -/
def lower (search : CycleSearch) (node : BlockId) (candidate : Nat) : CycleSearch :=
  { search with
    lowlink := Function.update search.lowlink node
      (some (min ((search.lowlink node).getD candidate) candidate)) }

/-- Take a component off the stack; it is cyclic unless it is a single block without an edge to
itself. -/
def closeComponent (function : Function) (search : CycleSearch) (node : BlockId) : CycleSearch :=
  let component := search.stack.takeWhile (· ≠ node) ++ (search.stack.dropWhile (· ≠ node)).take 1
  { search with
    stack := (search.stack.dropWhile (· ≠ node)).drop 1
    onStack := search.onStack \ component.toFinset
    cyclic :=
      if component.length > 1 ∨ node ∈ blockSuccessorsOf function node then search.cyclic ∪
        component.toFinset
      else search.cyclic }

/-- One turn of the work loop. -/
def step (function : Function) (search : CycleSearch) : Option CycleSearch :=
  match search.work with
  | [] => none
  | (node, successorIndex) :: below => some <|
    match (blockSuccessorsOf function node)[successorIndex]? with
    | some successor =>
      let search := { search with work := (node, successorIndex + 1) :: below }
      match search.indexOf successor with
      | none => search.discover successor
      | some candidate => if successor ∈ search.onStack then search.lower node candidate else search
    | none =>
      let search := { search with work := below }
      let nodeLow := (search.lowlink node).getD 0
      let search : CycleSearch :=
        match below with
        | (parent, _) :: _ => search.lower parent nodeLow
        | [] => search
      if search.lowlink node = search.indexOf node then search.closeComponent function node else
        search

/-- Turns that a search can take: every node is entered once and each of its edges followed once. -/
def turns (function : Function) : Nat :=
  ((function.blockIds ++ function.blocks.flatMap fun block =>
    blockSuccessors block.terminator).dedup.map fun node =>
    (blockSuccessorsOf function node).length + 1).sum

def searchFrom (function : Function) (search : CycleSearch) (root : BlockId) : CycleSearch :=
  if (search.indexOf root).isSome then search
  else saturate (step function) (turns function) (search.discover root)

end CycleSearch

/-- `blocks_on_cycles`. -/
def blocksOnCycles (function : Function) : Finset BlockId :=
  (function.blockIds.foldl (CycleSearch.searchFrom function)
    ⟨fun _ => none, fun _ => none, ∅, [], 0, ∅, []⟩).cyclic

mutual

/-- `is_stack_alloca_type`. -/
def isStackAllocaType : IRType → Bool
  | .int | .float | .bool | .char => true
  | .array elementType size => size ≤ 4096 && isStackAllocaType elementType
  | .struct _ fields => fields.length ≤ 64 && allStackAllocaTypes fields
  | _ => false

def allStackAllocaTypes : List (String × IRType) → Bool
  | [] => true
  | (_, ty) :: rest => isStackAllocaType ty && allStackAllocaTypes rest

end

namespace StackAllocas

/-- The alloca an address was computed from. -/
abbrev Roots := Value → Option Value

/-- The allocas of a type that may live on the stack, with their blocks. -/
def candidates (function : Function) : List (Value × BlockId) :=
  function.blocks.flatMap fun block => block.instructions.filterMap fun instruction =>
    match instruction.kind with
    | .alloca result ty => if isStackAllocaType ty then some (result, block.id) else none
    | _ => none

/-- `alloca_block`. -/
def allocaBlock (function : Function) (root : Value) : Option BlockId :=
  ((candidates function).reverse.find? fun entry => entry.1 = root).map Prod.snd

def initialRoots (function : Function) : Roots :=
  fun value => if value ∈ (candidates function).map Prod.fst then some value else none

/-- The address an instruction derives from another one. -/
def derivedAddress : InstructionKind → Option (Value × Value)
  | .getElementPtr result ptr _ _ _ => some (result, ptr)
  | .fieldPtr result ptr _ => some (result, ptr)
  | _ => none

/-- One instruction of a round, with the flag that a new address was found. -/
def deriveVisit (state : Roots × Bool) (kind : InstructionKind) : Roots × Bool :=
  match derivedAddress kind with
  | none => state
  | some (result, ptr) =>
    match state.1 ptr with
    | none => state
    | some root => (Function.update state.1 result (some root), state.2 || (state.1 result).isNone)

def deriveRound (function : Function) (roots : Roots) : Option Roots :=
  let round := function.kinds.foldl deriveVisit (roots, false)
  if round.2 then some round.1 else none

/-- `derived_from_alloca`; every round but the last finds a new address. -/
def derivedFromAlloca (function : Function) : Roots :=
  saturate (deriveRound function) function.kinds.length (initialRoots function)

/-- The pairs of a container and an alloca whose address is stored into it. -/
def containedRoots (function : Function) : List (Value × Value) :=
  function.kinds.filterMap fun
    | .store ptr value =>
      match derivedFromAlloca function value, derivedFromAlloca function ptr with
      | some valueRoot, some ptrRoot =>
        if ptrRoot = valueRoot then none else some (ptrRoot, valueRoot)
      | _, _ => none
    | _ => none

/-- The operands through which an address may leave; a store counts when it does not store into an
alloca. -/
def escapingOperands (roots : Roots) : InstructionKind → List Value
  | .store ptr value => if (roots ptr).isSome then [] else [value]
  | .hostCall _ _ args _ => args
  | .callIndirect _ _ args _ _ => args
  | .asyncReady _ value _ => value.toList
  | .makeDynFatPtr _ dataPtr _ => [dataPtr]
  | _ => []

def returnedOperand : Option Terminator → List Value
  | some (.ret value) => value.toList
  | _ => []

/-- The roots whose address leaves directly. -/
def escapedRoots (function : Function) : List Value :=
  function.blocks.flatMap fun block =>
    (returnedOperand block.terminator ++
      block.instructions.flatMap fun instruction => escapingOperands (derivedFromAlloca function)
        instruction.kind).filterMap
      (derivedFromAlloca function)

/-- One round over the containers: what is stored into one that is not kept is not kept either. -/
def containRound (contained : List (Value × Value)) (kept : Finset Value) : Option (Finset Value) :=
  let round :=
    contained.foldl (fun kept entry => if entry.1 ∈ kept then kept else kept.erase entry.2) kept
  if round = kept then none else some round

/-- The roots that a cycle constructs again and whose address is stored. -/
def cyclicRoots (function : Function) : List Value :=
  function.kinds.filterMap fun
    | .store _ value =>
      match derivedFromAlloca function value with
      | some root =>
        match allocaBlock function root with
        | some block => if block ∈ blocksOnCycles function then some root else none
        | none => none
      | none => none
    | _ => none

/-- What is kept before constructions in cycles are given up. -/
def keptRoots (function : Function) : Finset Value :=
  let kept := ((candidates function).map Prod.fst).toFinset \ (escapedRoots function).toFinset
  saturate (containRound (containedRoots function)) kept.card kept

end StackAllocas

/-- `collect_stack_allocas`. -/
def collectStackAllocas (function : Function) : Finset Value :=
  StackAllocas.keptRoots function \ (StackAllocas.cyclicRoots function).toFinset

end SpectraLang

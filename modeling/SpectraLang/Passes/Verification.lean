import SpectraLang.TypeRules
import SpectraLang.Lib.FlowGraph

/-! # Structural verification of modules

`verifyModule` collects every structural problem of a module and accepts it when there is none. The
checks read facts gathered once per function: the blocks and their predecessors, dominator sets,
value and address types, and the location of every definition.
-/

namespace SpectraLang

open Saturate FlowGraph

/-- All instruction kinds of the function in textual order. -/
def Function.kinds (function : Function) : List InstructionKind :=
  function.blocks.flatMap fun block => block.instructions.map (·.kind)

/-- Learn the derived type of one instruction, unless its result already has a type. -/
def learnType (state : TypeMap × Nat) (kind : InstructionKind) : TypeMap × Nat :=
  match derivedValueType state.1 kind with
  | some (result, ty) =>
    if typeUsable ty && (state.1 result).isNone then
      (Function.update state.1 result (some ty), state.2 + 1)
    else state
  | none => state

/-- One round of type propagation over the whole function. -/
def learnRound (kinds : List InstructionKind) (types : TypeMap) : Option TypeMap :=
  let round := kinds.foldl learnType (types, 0)
  if round.2 = 0 then none else some round.1

/-- `collect_value_types`. -/
def collectValueTypes (function : Function) (signatures : Signatures) : TypeMap :=
  let parameters : TypeMap := function.params.foldl
    (fun types parameter =>
      if typeUsable parameter.ty then Function.update types parameter.id (some parameter.ty) else
        types)
    (fun _ => none)
  let definite := function.kinds.foldl (recordDefiniteType signatures) parameters
  saturate (learnRound function.kinds) function.kinds.length definite

/-- The object type of each address whose pointee is positively recorded. -/
def collectAddressTypes (function : Function) : TypeMap :=
  let parameters : TypeMap := function.params.foldl
    (fun types parameter =>
      match parameter.ty with
      | .pointer inner =>
        if !typeContainsUnknown inner && inner ≠ .void then Function.update types parameter.id
          (some inner) else types
      | _ => types)
    (fun _ => none)
  function.kinds.foldl
    (fun types kind =>
      match addressObjectType kind with
      | some (result, ty) =>
        if ty = .void || typeContainsUnknown ty then types
        else
          let pointee :=
            match kind, ty with
            | .load .., .pointer inner => inner
            | .frameLoad .., .pointer inner => inner
            | _, _ => ty
          Function.update types result (some pointee)
      | none => types)
    parameters

/-- Where a value is defined; parameters have no block. -/
structure ValueDefinition where
  blockId : Option BlockId
  instructionIndex : Nat
  isFrameLoad : Bool
  deriving DecidableEq

/-- A value together with the place that defines it. -/
structure Registration where
  blockLabel : String
  value : Value
  definition : ValueDefinition
  deriving DecidableEq

/-- The definitions one instruction registers: its result, then the status of a child poll. -/
def instructionRegistrations (block : BasicBlock) (index : Nat) (instruction : Instruction) :
    List Registration :=
  (instructionResult instruction).toList.map
      (fun result => ⟨block.label, result, ⟨some block.id, index, instruction.kind.isFrameLoad⟩⟩) ++
    instruction.kind.status?.toList.map
      (fun status => ⟨block.label, status, ⟨some block.id, index, false⟩⟩)

def blockRegistrations (block : BasicBlock) : List Registration :=
  block.instructions.zipIdx.flatMap fun entry => instructionRegistrations block entry.2 entry.1

/-- Every definition of the function in the order the verifier registers them. -/
def registrations (function : Function) : List Registration :=
  function.params.map (fun parameter => ⟨"parameter", parameter.id, ⟨none, 0, false⟩⟩) ++
    function.blocks.flatMap blockRegistrations

/-- `register_definition`: the problems of one registration after those already made. -/
def registerDefinition (functionName : String) (existing : List Registration)
    (entry : Registration) : List String :=
  let parameter :=
    if entry.definition.blockId = none ∧ entry.value = Value.INVALID_ID then
      ["Function '" ++ functionName ++ "' has invalid sentinel parameter value " ++
        toString Value.INVALID_ID]
    else []
  let sentinel :=
    if entry.value = Value.INVALID_ID then
      ["Function '" ++ functionName ++ "', block '" ++ entry.blockLabel ++
        "' contains invalid sentinel value " ++ toString Value.INVALID_ID]
    else []
  let same := existing.filter fun other => other.value = entry.value
  let duplicate :=
    if same ≠ [] ∧
      (!entry.definition.isFrameLoad || same.any fun other => !other.definition.isFrameLoad) then
      ["Function '" ++ functionName ++ "' defines value " ++ toString entry.value ++
        " more than once"]
    else []
  parameter ++ sentinel ++ duplicate

def registerAll (functionName : String) : List Registration → List Registration → List String
  | _, [] => []
  | existing, entry :: rest =>
    registerDefinition functionName existing entry ++ registerAll functionName (existing ++ [entry])
      rest

/-- The identifiers of the function's blocks. -/
def Function.blockIds (function : Function) : List BlockId := function.blocks.map (·.id)

/-- The blocks whose terminator may continue in the target, each once. -/
def predecessors (function : Function) (target : BlockId) : List BlockId :=
  ((function.blocks.filter fun block => target ∈ blockSuccessors block.terminator).map (·.id)).dedup

/-- The successors of a block that exist, by identifier. -/
def knownSuccessors (function : Function) (id : BlockId) : List BlockId :=
  match function.getBlock id with
  | some block => (blockSuccessors block.terminator).filter (· ∈ function.blockIds)
  | none => []

/-- `reachable_blocks`. -/
def reachableBlocks (function : Function) (entry : BlockId) : List BlockId :=
  reach function.blockIds (knownSuccessors function) entry

/-- `compute_dominators` on a list of the reachable blocks, visited in that order. -/
def computeDominatorsIn (function : Function) (entry : BlockId) (order : List BlockId) :
    BlockId → Finset BlockId :=
  dominators order (predecessors function) entry

/-- `compute_dominators`, in the order in which the reachable blocks are listed. -/
def computeDominators (function : Function) (entry : BlockId) : BlockId → Finset BlockId :=
  dominators (reachableBlocks function entry) (predecessors function) entry

/-- What the checks of one function read. -/
structure FunctionFacts where
  function : Function
  entry : BlockId
  valueTypes : TypeMap
  addressTypes : TypeMap
  signatures : Signatures
  globalNames : List String
  functionNames : List String

namespace FunctionFacts

variable (facts : FunctionFacts)

/-- The opening of every message about a block. -/
def within (block : BasicBlock) : String :=
  "Function '" ++ facts.function.name ++ "', block '" ++ block.label ++ "'"

/-- A definition reaches the use when it is a parameter, precedes it in its block, or sits in a
dominator. -/
def definitionAvailable (contextBlock : BlockId) (useIndex : Nat) (definition : ValueDefinition) :
    Bool :=
  match definition.blockId with
  | none => true
  | some definitionBlock =>
    if definitionBlock = contextBlock then definition.instructionIndex < useIndex
    else contextBlock ∈ facts.function.blockIds ∧
      definitionBlock ∈ computeDominators facts.function facts.entry contextBlock

/-- `check_value_available`. -/
def checkValueAvailable (block : BasicBlock) (value : Value) (useIndex : Nat)
    (edgePredecessor : Option BlockId) : List String :=
  if value = Value.INVALID_ID then
    [facts.within block ++ " uses invalid sentinel value " ++ toString Value.INVALID_ID]
  else
    let definitions := ((registrations facts.function).filter (·.value = value)).map (·.definition)
    if definitions = [] then [facts.within block ++ " uses undefined value " ++ toString value]
    else if definitions.any (·.isFrameLoad) then []
    else if definitions.any
      (facts.definitionAvailable (edgePredecessor.getD block.id) useIndex) then []
    else [facts.within block ++ " uses value " ++ toString value ++
      " before its definition or outside its defining CFG path"]

/-- The message when a branch target is not a block of the function. -/
def checkTarget (block : BasicBlock) (description : String) (target : BlockId) : List String :=
  if target ∈ facts.function.blockIds then []
  else [facts.within block ++ description ++ toString target]

/-- The structural return rule. -/
def checkReturn (block : BasicBlock) (value : Option Value) : List String :=
  let returnType := facts.function.returnType
  if returnType = .unknown then []
  else
    match value with
    | none =>
      if returnType = .void then []
      else ["Function '" ++ facts.function.name ++ "' returns no value from block '" ++
        block.label ++ "' but its IR return type is " ++ returnType.debug]
    | some value =>
      if returnType = .void then
        ["Function '" ++ facts.function.name ++ "' returns a value from block '" ++ block.label ++
          "' but its IR return type is Void"]
      else
        match facts.valueTypes value with
        | some valueType =>
          if valueTypesCompatible valueType returnType then []
          else ["Function '" ++ facts.function.name ++ "' returns value " ++ toString value ++
            " of type " ++
            valueType.debug ++ " from block '" ++ block.label ++ "' but its IR return type is " ++
              returnType.debug]
        | none => []

/-- Duplicate case values and unknown case targets of a switch. -/
def checkCases (block : BasicBlock) : List I64 → List (I64 × BlockId) → List String
  | _, [] => []
  | seen, (caseValue, target) :: rest =>
    (if caseValue ∈ seen then
      [facts.within block ++ " has duplicate switch case value " ++ toString caseValue.toInt]
    else []) ++
    facts.checkTarget block " has switch with unknown case target " target ++
    checkCases block (caseValue :: seen) rest

def checkTerminator (block : BasicBlock) : List String :=
  let use (value : Value) := facts.checkValueAvailable block value block.instructions.length none
  match block.terminator with
  | none => [facts.within block ++ " is missing a terminator"]
  | some (.branch target) => facts.checkTarget block " branches to unknown block id " target
  | some (.ret value) => value.toList.flatMap use ++ facts.checkReturn block value
  | some (.condBranch condition trueBlock falseBlock) =>
    use condition ++
    (match facts.valueTypes condition with
    | some conditionType =>
      if isBranchConditionLike conditionType then []
      else [facts.within block ++ " has a branch condition of type " ++ conditionType.debug ++
        ", expected a boolean-like value"]
    | none => []) ++
    facts.checkTarget block " has conditional branch with unknown true target " trueBlock ++
    facts.checkTarget block " has conditional branch with unknown false target " falseBlock
  | some (.switch value cases default) =>
    use value ++
    (match facts.valueTypes value with
    | some scrutineeType =>
      if isIntegerLike scrutineeType then []
      else [facts.within block ++ " switches on a value of type " ++ scrutineeType.debug ++
        ", expected an integer-backed type"]
    | none => []) ++
    facts.checkTarget block " has switch with unknown default target " default ++
    facts.checkCases block [] cases
  | some .unreachable => []

/-- Symbols named by an instruction must exist. -/
def checkSymbols (block : BasicBlock) : InstructionKind → List String
  | .globalAddr _ name _ =>
    if name ∈ facts.globalNames then [] else
      [facts.within block ++ " references unknown global '" ++ name ++ "'"]
  | .call _ callee _ _ =>
    if callee ∈ facts.functionNames then [] else
      [facts.within block ++ " calls unknown function '" ++ callee ++ "'"]
  | .funcAddr _ callee =>
    if callee ∈ facts.functionNames then []
    else [facts.within block ++ " takes address of unknown function '" ++ callee ++ "'"]
  | _ => []

/-- Argument types against the callee signature, where both sides are known. -/
def checkArgumentTypes (block : BasicBlock) (callee : String) : Nat → List Value → List IRType →
    List String
  | index, arg :: args, parameterType :: parameters =>
    (if parameterType = .void || typeContainsUnknown parameterType then []
    else
      match facts.valueTypes arg with
      | some argType =>
        if valueTypesCompatible argType parameterType then []
        else [facts.within block ++ " passes a value of type " ++ argType.debug ++
          " as argument " ++
          toString index ++ " of '" ++ callee ++ "', expected " ++ parameterType.debug]
      | none => []) ++
    checkArgumentTypes block callee (index + 1) args parameters
  | _, _, _ => []

def checkCall (block : BasicBlock) : InstructionKind → List String
  | .call result callee args _ =>
    match facts.signatures callee with
    | some (parameters, returnType) =>
      (if args.length ≠ parameters.length then
        [facts.within block ++ " calls '" ++ callee ++ "' with " ++ toString args.length ++
          " arguments, expected " ++ toString parameters.length]
      else []) ++
      facts.checkArgumentTypes block callee 0 args parameters ++
      (if returnType = .void ∧ result.isSome then
        [facts.within block ++ " records a result for void function call '" ++ callee ++ "'"]
      else [])
    | none => []
  | .callIndirect _ _ args signatureParams _ =>
    if args.length ≠ signatureParams.length then
      [facts.within block ++ " performs an indirect call with " ++ toString args.length ++
        " arguments, expected " ++ toString signatureParams.length]
    else []
  | _ => []

/-- `instruction_opcode`. -/
def instructionOpcode : BinaryOp → String
  | .add => "Add"
  | .sub => "Sub"
  | .mul => "Mul"
  | .div _ => "Div"
  | .rem _ => "Rem"
  | .bitAnd => "BitAnd"
  | .bitOr => "BitOr"
  | .bitXor => "BitXor"
  | .shl => "Shl"
  | .shr _ => "Shr"
  | .eq => "Eq"
  | .ne => "Ne"
  | .lt _ => "Lt"
  | .le _ => "Le"
  | .gt _ => "Gt"
  | .ge _ => "Ge"
  | .and => "And"
  | .or => "Or"

/-- Operand type agreement of the two-operand opcodes. -/
def checkOperandTypes (block : BasicBlock) : InstructionKind → List String
  | .binary op _ lhs rhs =>
    match facts.valueTypes lhs, facts.valueTypes rhs with
    | some lhsType, some rhsType =>
      if binaryOperandTypesCompatible lhsType rhsType then []
      else [facts.within block ++ " has " ++ instructionOpcode op ++
        " operands with mismatched IR types (" ++
        lhsType.debug ++ " vs " ++ rhsType.debug ++ ")"]
    | _, _ => []
  | _ => []

/-- Load and store agreement with the recorded object type of the address. -/
def checkAddressTypes (block : BasicBlock) : InstructionKind → List String
  | .load _ ptr ty =>
    match facts.addressTypes ptr with
    | some pointee =>
      if valueTypesCompatible ty pointee then []
      else [facts.within block ++ " loads type " ++ ty.debug ++ " through an address of type " ++
        pointee.debug]
    | none => []
  | .store ptr value =>
    match facts.addressTypes ptr, facts.valueTypes value with
    | some pointee, some valueType =>
      if valueTypesCompatible valueType pointee then []
      else [facts.within block ++ " stores a value of type " ++ valueType.debug ++
        " into an address of type " ++ pointee.debug]
    | _, _ => []
  | _ => []

/-- `instruction_unresolved_type`. -/
def instructionUnresolvedType : InstructionKind → Option String
  | .alloca _ ty | .globalAddr _ _ ty | .load _ _ ty | .getElementPtr _ _ _ ty _ |
      .constIntTyped _ _ ty
  | .constFloatTyped _ _ ty =>
    if typeContainsUnknown ty then some "memory or constant instruction" else none
  | .hostCall _ host _ (some ty) =>
    if typeContainsUnknown ty then some
      ("host call result '" ++ host ++ "' (" ++ ty.debug ++ ")") else none
  | .callIndirect _ _ _ signatureParams signatureReturn =>
    if signatureParams.any typeContainsUnknown || typeContainsUnknown signatureReturn then
      some "indirect call signature"
    else none
  | .asyncReady _ _ outputType =>
    if typeContainsUnknown outputType then some "async result" else none
  | .await _ _ outputType => if typeContainsUnknown outputType then some "await result" else none
  | .frameLoad _ _ _ ty => if typeContainsUnknown ty then some "coroutine frame load" else none
  | .coroutineCreate _ _ _ _ outputType =>
    if typeContainsUnknown outputType then some "coroutine creation result" else none
  | .coroutinePollChild _ _ _ outputType =>
    if typeContainsUnknown outputType then some "child coroutine result" else none
  | .cast _ _ fromTy toTy =>
    if typeContainsUnknown fromTy || typeContainsUnknown toTy then some "cast" else none
  | _ => none

/-- One incoming entry of a phi: a known predecessor whose value is available at its end, listed
once. -/
def checkIncoming (block : BasicBlock) : List (Value × BlockId) → List (Value × BlockId) →
    List String
  | _, [] => []
  | seen, (value, pred) :: rest =>
    (if pred ∉ facts.function.blockIds then
      [facts.within block ++ " contains phi referencing unknown predecessor block " ++
        toString pred]
    else if pred ∉ predecessors facts.function block.id then
      [facts.within block ++ " contains phi incoming from block " ++ toString pred ++
        " which is not a predecessor"]
    else
      match facts.function.getBlock pred with
      | some predecessor =>
        facts.checkValueAvailable block value predecessor.instructions.length (some pred)
      | none => []) ++
    (match (seen.find? fun entry => entry.2 = pred) with
    | some existing =>
      [facts.within block ++ " contains phi with duplicate entries for predecessor block " ++
        toString pred ++ " (values " ++ toString existing.1 ++ " and " ++ toString value ++ ")"]
    | none => []) ++
    checkIncoming block ((value, pred) :: seen) rest

def checkPhi (block : BasicBlock) (incoming : List (Value × BlockId)) : List String :=
  if incoming = [] then [facts.within block ++ " contains phi with no incoming edges"]
  else
    facts.checkIncoming block [] incoming ++
    (predecessors facts.function block.id).flatMap fun pred =>
      if incoming.any fun entry => entry.2 = pred then []
      else [facts.within block ++ " has a phi without an incoming entry for predecessor block " ++
        toString pred]

def checkInstruction (block : BasicBlock) (index : Nat) (instruction : Instruction) : List String :=
  facts.checkSymbols block instruction.kind ++ facts.checkCall block instruction.kind ++
  facts.checkOperandTypes block instruction.kind ++ facts.checkAddressTypes block
    instruction.kind ++
  (instructionUnresolvedType instruction.kind).toList.map
    (fun unresolved => facts.within block ++ " contains unresolved IR type in " ++ unresolved) ++
  match instruction.kind with
  | .phi _ incoming => facts.checkPhi block incoming
  | _ => (instructionOperands instruction).flatMap fun operand => facts.checkValueAvailable block
      operand index none

def checkBlock (block : BasicBlock) : List String :=
  facts.checkTerminator block ++
    block.instructions.zipIdx.flatMap fun entry => facts.checkInstruction block entry.2 entry.1

end FunctionFacts

/-- Names that repeat an earlier one, with the message for each. -/
def duplicateNames (message : String → String) : List String → List String → List String
  | _, [] => []
  | seen, name :: rest =>
    (if name ∈ seen then [message name] else []) ++ duplicateNames message (name :: seen) rest

/-- The later declaration of a name wins, as in a map filled in order. -/
def functionSignatures (module : Module) : Signatures := fun name =>
  let functions := module.functions.map fun function =>
    (function.name, function.params.map (·.ty), function.returnType)
  let externals := module.externalFunctions.map fun function =>
    (function.name, function.params, function.returnType)
  ((functions ++ externals).reverse.find? fun entry => entry.1 = name).map Prod.snd

/-- The unresolved types in the signature and locals of a function. -/
def unresolvedFunctionTypes (function : Function) : List String :=
  (if typeContainsUnknown function.returnType then
    ["return (" ++ function.returnType.debug ++ ")"] else []) ++
  (function.params.filter fun parameter => typeContainsUnknown parameter.ty).map
    (fun parameter => "parameter '" ++ parameter.name ++ "' (" ++ parameter.ty.debug ++ ")") ++
  (function.locals.filter fun local_ => typeContainsUnknown local_.ty).map
    (fun local_ => "local '" ++ local_.name ++ "' (" ++ local_.ty.debug ++ ")")

def Module.globalNames (module : Module) : List String := module.globals.map (·.name)

/-- The names of the functions with and without a body. -/
def Module.functionNames (module : Module) : List String :=
  module.functions.map (·.name) ++ module.externalFunctions.map (·.name)

/-- The facts of a function that starts in the given block. -/
def functionFacts (module : Module) (function : Function) (entry : BlockId) : FunctionFacts where
  function
  entry
  valueTypes := collectValueTypes function (functionSignatures module)
  addressTypes := collectAddressTypes function
  signatures := functionSignatures module
  globalNames := module.globalNames
  functionNames := module.functionNames

/-- The problems of one function. -/
def verifyFunction (module : Module) (function : Function) : List String :=
  let unresolved := unresolvedFunctionTypes function
  (if unresolved = [] then []
  else ["Function '" ++ function.name ++ "' contains an unresolved IR type: " ++ ", ".intercalate
    unresolved]) ++
  match function.blocks with
  | [] => ["Function '" ++ function.name ++ "' has no basic blocks after lowering"]
  | first :: _ =>
    let facts := functionFacts module function first.id
    registerAll function.name [] (registrations function) ++
    (if function.blockIds.Nodup then []
    else ["Function '" ++ function.name ++ "' contains duplicated block identifiers"]) ++
    function.blocks.flatMap facts.checkBlock

/-- All problems of the module in the order the verifier reports them. -/
def verifyErrors (module : Module) : List String :=
  duplicateNames (fun name => "Module contains duplicate global symbol '" ++ name ++ "'")
    [] module.globalNames ++
  duplicateNames (fun name => "Module contains duplicate function symbol '" ++ name ++ "'") []
    (module.functions.map (·.name)) ++
  duplicateNames (fun name => "Module contains duplicate function or external symbol '" ++ name ++
    "'") (module.functions.map (·.name)) (module.externalFunctions.map (·.name)) ++
  (module.externalFunctions.filter fun external =>
      typeContainsUnknown external.returnType || external.params.any typeContainsUnknown).map
    (fun external => "External function '" ++ external.name ++ "' contains an unresolved IR type")
      ++
  (module.globals.filter fun global => typeContainsUnknown global.ty).map
    (fun global => "Global '" ++ global.name ++ "' contains an unresolved IR type") ++
  module.functions.flatMap (verifyFunction module)

/-- `verify_module`. -/
def verifyModule (module : Module) : Except (List String) Unit :=
  let errors := verifyErrors module
  if errors = [] then .ok () else .error errors

end SpectraLang

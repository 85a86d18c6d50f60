import SpectraLang.IR
import SpectraLang.Lib.Separated
import SpectraLang.Lib.Simulation

/-! # Specialisation of generic functions and methods

Calls of generics are bound by name: a request for a specialisation is rendered into a symbol, the
call refers to it, and the request waits in a list unless the symbol has been generated. Module
lowering drains the function requests, then the method requests. Lowering a body is a parameter that
may keep a state of its own, ask for further specialisations and report errors.
-/

namespace SpectraLang

namespace Monomorphization

/-- A needed specialisation of a generic function. -/
structure MonomorphizationRequest where
  genericName : String
  concreteTypes : List IRType
  deriving DecidableEq

/-- A needed specialisation of a generic impl method on an instantiated struct. -/
structure MethodMonomorphizationRequest where
  instantiatedStruct : String
  methodName : String
  concreteTypes : List IRType
  deriving DecidableEq

mutual

/-- `type_to_string`. -/
def typeToString : IRType → String
  | .int => "int"
  | .float => "float"
  | .bool => "bool"
  | .string => "string"
  | .char => "char"
  | .range => "range"
  | .exactInt signed width =>
    match signed, width with
    | true, .i8 => "i8"
    | true, .i16 => "i16"
    | true, .i32 => "i32"
    | true, .i64 => "i64"
    | true, .isize | true, .usize => "isize"
    | false, .i8 => "u8"
    | false, .i16 => "u16"
    | false, .i32 => "u32"
    | false, .i64 => "u64"
    | false, .isize | false, .usize => "usize"
  | .exactFloat width =>
    match width with
    | .f32 => "f32"
    | .f64 => "f64"
  | .pointer inner => "ptr_" ++ typeToString inner
  | .struct name _ | .enum name _ => name
  | .generic name args representation =>
    match representation with
    | .struct instantiated _ => instantiated
    | _ => appendTypes name args
  | .array elementType size => "array_" ++ typeToString elementType ++ "_" ++ toString size
  | .tuple elements => appendTypes "tuple" elements
  | .task output => "task_" ++ typeToString output
  | .dynTrait traitName _ => "dyn_" ++ traitName
  | .void => "void"
  | .unknown | .function .. | .tensor .. => "unknown"

/-- Every type behind an underscore. -/
def appendTypes (rendered : String) : List IRType → String
  | [] => rendered
  | ty :: rest => appendTypes (rendered ++ "_" ++ typeToString ty) rest

end

def MonomorphizationRequest.mangledName (request : MonomorphizationRequest) : String :=
  appendTypes request.genericName request.concreteTypes

def MethodMonomorphizationRequest.mangledName (request : MethodMonomorphizationRequest) : String :=
  request.instantiatedStruct ++ "_" ++ request.methodName

/-- A call that asks for a specialisation. -/
inductive GenericCall where
  | function (request : MonomorphizationRequest)
  | method (request : MethodMonomorphizationRequest)
  deriving DecidableEq

/-- The symbol the emitted call refers to. -/
def GenericCall.callee : GenericCall → String
  | function request => request.mangledName
  | method request => request.mangledName

/-- What lowering a body leaves: its own state, the calls of generics in order, and its errors. -/
structure LoweredBody (σ : Type*) where
  state : σ
  calls : List GenericCall
  errors : List String

/-- The program as the specialisation phase sees it. -/
structure BodyLowering (σ : Type*) where
  /-- The names in `generic_functions`. -/
  genericFunctions : String → Bool
  /-- The name of the method that `generic_impl_methods` stores under a key. -/
  genericImplMethods : String → Option String
  /-- The base name that `instantiated_structs` records. -/
  instantiatedStructs : σ → String → Option String
  lowerFunction : σ → MonomorphizationRequest → LoweredBody σ
  lowerMethod : σ → MethodMonomorphizationRequest → LoweredBody σ

/-- What a function of the module was made from. -/
inductive Origin where
  | declared
  | function (request : MonomorphizationRequest)
  | method (request : MethodMonomorphizationRequest)
  deriving DecidableEq

structure Specialization (σ : Type*) where
  state : σ
  /-- `pending_specializations`, its end first. -/
  pendingFunctions : List MonomorphizationRequest
  pendingMethods : List MethodMonomorphizationRequest
  /-- The method requests taken out for the current round. -/
  batch : List MethodMonomorphizationRequest
  /-- The keys of `generated_specializations`. -/
  generated : List String
  /-- The functions of the module by symbol. -/
  functions : List (String × Origin)
  /-- The calls of generics in the module. -/
  calls : List GenericCall
  errors : List String
  totalProcessed : Nat

section Phases
variable {σ : Type*} (lowering : BodyLowering σ)

/-- A call of a generic is emitted and its specialisation requested unless it has been generated. -/
def emitCall (state : Specialization σ) : GenericCall → Specialization σ
  | .function request =>
    if lowering.genericFunctions request.genericName then
      { state with
        calls := state.calls ++ [.function request]
        pendingFunctions :=
          if request.mangledName ∈ state.generated then state.pendingFunctions else request ::
            state.pendingFunctions }
    else state
  | .method request =>
    { state with
      calls := state.calls ++ [.method request]
      pendingMethods :=
        if request.mangledName ∈ state.generated then state.pendingMethods else
          state.pendingMethods ++ [request] }

/-- The state after a body: its calls are emitted in order. -/
def emitBody (state : Specialization σ) (body : LoweredBody σ) : Specialization σ :=
  body.calls.foldl (emitCall lowering)
    { state with state := body.state, errors := state.errors ++ body.errors }

/-- The specialised function joins the module under its symbol, and the key is marked as
generated. -/
def addSpecialization (state : Specialization σ) (key symbol : String) (origin : Origin) :
    Specialization σ :=
  { state with functions := state.functions ++ [(symbol, origin)], generated :=
    key :: state.generated }

def MAX_SPECIALIZATIONS : Nat := 512

/-- One turn of the loop in `process_monomorphization_requests`. -/
def functionStep (state : Specialization σ) : Option (Specialization σ) :=
  match state.pendingFunctions with
  | [] => none
  | request :: rest => some <|
    if state.totalProcessed ≥ MAX_SPECIALIZATIONS then
      { state with
        errors :=
          state.errors ++ ["E3011: monomorphization limit (" ++ toString MAX_SPECIALIZATIONS ++
          ") exceeded for '" ++ request.genericName ++ "'; remaining specializations rejected"]
        pendingFunctions := [] }
    else if request.mangledName ∈ state.generated then { state with pendingFunctions := rest }
    else if lowering.genericFunctions request.genericName then
      let body := lowering.lowerFunction state.state request
      let lowered := emitBody lowering { state with pendingFunctions := rest } body
      { addSpecialization lowered request.mangledName request.mangledName (.function request) with
        totalProcessed := lowered.totalProcessed + 1 }
    else { state with pendingFunctions := rest }

/-- The key under which `process_method_specialization` looks for the method. -/
def methodKey (state : σ) (request : MethodMonomorphizationRequest) : String :=
  (lowering.instantiatedStructs state request.instantiatedStruct).getD request.instantiatedStruct ++
    "_" ++ request.methodName

/-- `process_method_specialization`. -/
def processMethodSpecialization (state : Specialization σ)
    (request : MethodMonomorphizationRequest) : Specialization σ :=
  if state.generated.length > MAX_SPECIALIZATIONS then
    { state with
      errors :=
        state.errors ++
          ["E3011: generic impl method specialization limit (" ++ toString MAX_SPECIALIZATIONS ++
        ") exceeded for '" ++ request.methodName ++ "' on '" ++ request.instantiatedStruct ++
        "'; remaining specializations rejected"]
      pendingMethods := [] }
  else if request.mangledName ∈ state.generated then state
  else
    match lowering.genericImplMethods (methodKey lowering state.state request) with
    | none =>
      { state with errors := state.errors ++
        ["Generic impl method '" ++ methodKey lowering state.state request ++
        "' not found for specialization '" ++ request.mangledName ++ "'"] }
    | some methodName =>
      let lowered := emitBody lowering state (lowering.lowerMethod state.state request)
      addSpecialization lowered request.mangledName
        (request.instantiatedStruct ++ "_" ++ methodName) (.method request)

/-- One turn of the loop over method requests: the next one of the round, or the next round. -/
def methodStep (state : Specialization σ) : Option (Specialization σ) :=
  match state.batch with
  | request :: rest =>
    some (processMethodSpecialization lowering { state with batch := rest } request)
  | [] =>
    match state.pendingMethods with
    | [] => none
    | requests => some { state with batch := requests, pendingMethods := [] }

/-- The state before the phase: the declared functions have been lowered and made these calls. -/
def initial (state : σ) (declared : List String) (calls : List GenericCall) (errors : List String) :
    Specialization σ :=
  calls.foldl (emitCall lowering)
    ⟨state, [], [], [], [], declared.map fun symbol => (symbol, .declared), [], errors, 0⟩

end Phases

end Monomorphization

end SpectraLang

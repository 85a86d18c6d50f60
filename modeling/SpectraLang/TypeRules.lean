import SpectraLang.Operands

/-! # Type predicates of the verifier

Resolution, machine representation classes and compatibility of IR types, together with the debug
rendering of types that diagnostics quote.
-/

namespace SpectraLang

mutual

/-- `type_contains_unknown`. -/
def typeContainsUnknown : IRType → Bool
  | .unknown => true
  | .pointer inner => typeContainsUnknown inner
  | .task output => typeContainsUnknown output
  | .array elementType _ => typeContainsUnknown elementType
  | .tuple elements => anyContainsUnknown elements
  | .struct _ fields => anyFieldContainsUnknown fields
  | .enum _ variants => anyVariantContainsUnknown variants
  | .generic _ args representation => anyContainsUnknown args || typeContainsUnknown representation
  | .function params returnType => anyContainsUnknown params || typeContainsUnknown returnType
  | .tensor dtype _ _ _ _ => typeContainsUnknown dtype
  | .void | .int | .float | .exactInt .. | .exactFloat .. | .bool | .string | .char | .range
  | .dynTrait .. => false

def anyContainsUnknown : List IRType → Bool
  | [] => false
  | ty :: rest => typeContainsUnknown ty || anyContainsUnknown rest

def anyFieldContainsUnknown : List (String × IRType) → Bool
  | [] => false
  | (_, ty) :: rest => typeContainsUnknown ty || anyFieldContainsUnknown rest

def anyVariantContainsUnknown : List (String × Option (List IRType)) → Bool
  | [] => false
  | (_, none) :: rest => anyVariantContainsUnknown rest
  | (_, some types) :: rest => anyContainsUnknown types || anyVariantContainsUnknown rest

end

/-- The register classes the backend represents types in. -/
inductive MachineClass where
  | i8 | i16 | i32 | i64 | f32 | f64
  deriving DecidableEq

/-- `machine_class`. -/
def machineClass : IRType → Option MachineClass
  | .unknown => none
  | .void | .bool => some .i8
  | .int | .string | .pointer _ | .array .. | .tuple _ | .struct .. | .enum .. | .function ..
  | .tensor .. | .task _ | .range | .dynTrait .. => some .i64
  | .exactInt _ width => some <|
    match width with
    | .i8 => .i8
    | .i16 => .i16
    | .i32 => .i32
    | .i64 | .isize | .usize => .i64
  | .char => some .i32
  | .float => some .f64
  | .exactFloat width => some <|
    match width with
    | .f32 => .f32
    | .f64 => .f64
  -- A type cannot be its own representation here, so the self-reference test never succeeds.
  | .generic _ _ representation => machineClass representation

/-- `is_integer_like`. -/
def isIntegerLike : IRType → Bool
  | .int | .exactInt .. | .char => true
  | _ => false

/-- `is_branch_condition_like`. -/
def isBranchConditionLike (ty : IRType) : Bool :=
  match machineClass ty with
  | some .i8 | some .i16 | some .i32 | some .i64 => true
  | _ => false

/-- `value_types_compatible`. -/
def valueTypesCompatible (lhs rhs : IRType) : Bool :=
  if lhs = rhs then true
  else
    match machineClass lhs, machineClass rhs with
    | some lhsClass, some rhsClass => lhsClass = rhsClass
    | _, _ => false

def isFloatClass (ty : IRType) : Bool :=
  match machineClass ty with
  | some .f32 | some .f64 => true
  | _ => false

/-- `float_widths_mixable`. -/
def floatWidthsMixable (lhs rhs : IRType) : Bool := isFloatClass lhs && isFloatClass rhs

/-- `binary_operand_types_compatible`. -/
def binaryOperandTypesCompatible (lhs rhs : IRType) : Bool :=
  valueTypesCompatible lhs rhs || floatWidthsMixable lhs rhs

/-- `refine_numeric_type`. -/
def refineNumericType (lhs rhs : IRType) : IRType :=
  if lhs = rhs then lhs
  else
    match lhs with
    | .int => rhs
    | _ => lhs

/-- `usable`: neither unit nor unresolved. -/
def typeUsable (ty : IRType) : Bool := ty ≠ .void && !typeContainsUnknown ty

/-- A quoted name, with the escapes the debug format writes. -/
def debugString (text : String) : String :=
  "\"" ++ String.join (text.toList.map fun char =>
    match char with
    | '"' => "\\\""
    | '\\' => "\\\\"
    | '\n' => "\\n"
    | '\t' => "\\t"
    | '\r' => "\\r"
    | other => other.toString) ++ "\""

def debugList (items : List String) : String := "[" ++ ", ".intercalate items ++ "]"

def debugOption : Option String → String
  | none => "None"
  | some text => "Some(" ++ text ++ ")"

/-- A struct-like constructor with its named fields. -/
def debugRecord (name : String) (fields : List (String × String)) : String :=
  name ++ " \x7b " ++ ", ".intercalate (fields.map fun field => field.1 ++ ": " ++ field.2) ++
    " \x7d"

def IntWidth.debug : IntWidth → String
  | i8 => "I8"
  | i16 => "I16"
  | i32 => "I32"
  | i64 => "I64"
  | isize => "Isize"
  | usize => "Usize"

def FloatWidth.debug : FloatWidth → String
  | f32 => "F32"
  | f64 => "F64"

mutual

/-- The debug rendering of a type. -/
def IRType.debug : IRType → String
  | .unknown => "Unknown"
  | .void => "Void"
  | .int => "Int"
  | .float => "Float"
  | .exactInt signed width =>
    debugRecord "ExactInt" [("signed", toString signed), ("width", width.debug)]
  | .exactFloat width => debugRecord "ExactFloat" [("width", width.debug)]
  | .bool => "Bool"
  | .string => "String"
  | .char => "Char"
  | .pointer inner => "Pointer(" ++ inner.debug ++ ")"
  | .array elementType size =>
    debugRecord "Array" [("element_type", elementType.debug), ("size", toString size)]
  | .tuple elements => debugRecord "Tuple" [("elements", debugList (debugTypes elements))]
  | .struct name fields =>
    debugRecord "Struct" [("name", debugString name), ("fields", debugList (debugFields fields))]
  | .enum name variants =>
    debugRecord "Enum"
      [("name", debugString name), ("variants", debugList (debugVariants variants))]
  | .generic name args representation => debugRecord "Generic" [("name", debugString name),
      ("args", debugList (debugTypes args)), ("representation", representation.debug)]
  | .function params returnType =>
    debugRecord "Function"
      [("params", debugList (debugTypes params)), ("return_type", returnType.debug)]
  | .task output => debugRecord "Task" [("output", output.debug)]
  | .range => "Range"
  | .tensor dtype rank dims layout device => debugRecord "Tensor" [("dtype", dtype.debug),
      ("rank", debugOption (rank.map toString)),
      ("dims",
        debugOption
        (dims.map fun sizes => debugList (sizes.map fun size => debugOption (size.map toString)))),
      ("layout", debugOption (layout.map debugString)),
        ("device", debugOption (device.map debugString))]
  | .dynTrait traitName autoTraits => debugRecord "DynTrait" [("trait_name", debugString traitName),
      ("auto_traits", debugList (autoTraits.map debugString))]

def debugTypes : List IRType → List String
  | [] => []
  | ty :: rest => ty.debug :: debugTypes rest

def debugFields : List (String × IRType) → List String
  | [] => []
  | (name, ty) :: rest => ("(" ++ debugString name ++ ", " ++ ty.debug ++ ")") :: debugFields rest

def debugVariants : List (String × Option (List IRType)) → List String
  | [] => []
  | (name, none) :: rest => ("(" ++ debugString name ++ ", None)") :: debugVariants rest
  | (name, some types) :: rest =>
    ("(" ++ debugString name ++ ", Some(" ++ debugList (debugTypes types) ++ "))") ::
      debugVariants rest

end

/-- The types a value is declared with, where the verifier can derive one. -/
abbrev TypeMap := Value → Option IRType

/-- `address_object_type`. -/
def addressObjectType : InstructionKind → Option (Value × IRType)
  | .alloca result ty => some (result, ty)
  | .globalAddr result _ ty => some (result, ty)
  | .load result _ ty => some (result, ty)
  | .frameLoad result _ _ ty => some (result, ty)
  | .getElementPtr result _ _ elementType _ => some (result, elementType)
  | _ => none

def BinaryOp.isComparison : BinaryOp → Bool
  | eq | ne | lt _ | le _ | gt _ | ge _ => true
  | _ => false

/-- `definite_value_type`. -/
def definiteValueType (kind : InstructionKind) : Option (Value × IRType) :=
  match addressObjectType kind with
  | some object => some object
  | none =>
    match kind with
    | .constInt result _ => some (result, .int)
    | .constIntTyped result _ ty => some (result, ty)
    | .constFloat result _ => some (result, .float)
    | .constFloatTyped result _ ty => some (result, ty)
    | .constBool result _ => some (result, .bool)
    | .constString result _ => some (result, .string)
    | .cast result _ _ toTy => some (result, toTy)
    | .binary op result _ _ => if op.isComparison then some (result, .bool) else none
    | .hostCall (some result) _ _ (some ty) => some (result, ty)
    | _ => none

/-- Parameter and return types by function name. -/
abbrev Signatures := String → Option (List IRType × IRType)

/-- The types recorded by definitions alone, for one instruction. -/
def recordDefiniteType (signatures : Signatures) (types : TypeMap) (kind : InstructionKind) :
    TypeMap :=
  let record (result : Value) (ty : IRType) : TypeMap :=
    if typeUsable ty then Function.update types result (some ty) else types
  match definiteValueType kind with
  | some (result, ty) => record result ty
  | none =>
    match kind with
    | .call (some result) callee _ _ =>
      match signatures callee with
      | some (_, returnType) => record result returnType
      | none => types
    | .callIndirect (some result) _ _ _ signatureReturn => record result signatureReturn
    | _ => types

/-- The type shared by the incoming values of a phi, refined pairwise. -/
def phiType (types : TypeMap) : List (Value × BlockId) → Option IRType → Option IRType
  | [], picked => picked
  | (value, _) :: rest, picked =>
    match types value with
    | none => none
    | some valueType =>
      match picked with
      | none => phiType types rest (some valueType)
      | some chosen =>
        if valueTypesCompatible chosen valueType then phiType types rest
          (some (refineNumericType chosen valueType))
        else none

def BinaryOp.propagatesType : BinaryOp → Bool
  | add | sub | mul | div _ | rem _ | and | or => true
  | _ => false

/-- The result type that follows from operand types already known. -/
def derivedValueType (types : TypeMap) : InstructionKind → Option (Value × IRType)
  | .copy result source => (types source).map fun ty => (result, ty)
  | .phi result incoming => (phiType types incoming none).map fun ty => (result, ty)
  | .binary op result lhs rhs =>
    if op.propagatesType then
      match types lhs, types rhs with
      | some lhsType, some rhsType =>
        if binaryOperandTypesCompatible lhsType rhsType then
          some (result,
            if floatWidthsMixable lhsType rhsType && machineClass lhsType ≠
              machineClass rhsType then .float
            else refineNumericType lhsType rhsType)
        else none
      | _, _ => none
    else none
  | .not result operand => (types operand).map fun ty => (result, ty)
  | _ => none

end SpectraLang

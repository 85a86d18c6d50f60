import SpectraLang.Syntax.Ast

/-! # Declared types

The analyzer's tables of structs and enums and the resolution of a type to its declaration. A
generic type is written as an applied type or by its mangled name. Hash maps are association lists
with distinct keys.
-/

namespace SpectraLang

structure StructInfo where
  fields : List (String × TypeAnnotation)
  distinct : (fields.map Prod.fst).Nodup

/-- The payload of a variant: positional, named or absent. -/
structure EnumVariantInfo where
  data : Option (List TypeAnnotation)
  structData : Option (List (String × TypeAnnotation))
  exclusive : data = none ∨ structData = none

structure EnumInfo where
  variants : List (String × EnumVariantInfo)
  distinct : (variants.map Prod.fst).Nodup

/-- The type declarations a `SemanticAnalyzer` knows. Resolving an annotation also consults aliases
and imports, so it is a field. -/
structure TypeTables where
  structInfos : List (String × StructInfo)
  enumInfos : List (String × EnumInfo)
  genericStructs : List (String × List String)
  genericEnums : List (String × List String)
  typeAnnotationToType : TypeAnnotation → Ty

/-- Types for the type parameters of a declaration. -/
abbrev Substitutions := List (String × Ty)

namespace TypeTables

variable (tables : TypeTables)

/-- `type_from_mangle_part`. -/
def typeFromManglePart (part : String) : Ty :=
  match part with
  | "int" => .int
  | "float" => .float
  | "i8" => .exactInt true .i8
  | "i16" => .exactInt true .i16
  | "i32" => .exactInt true .i32
  | "i64" => .exactInt true .i64
  | "isize" => .exactInt true .isize
  | "u8" => .exactInt false .i8
  | "u16" => .exactInt false .i16
  | "u32" => .exactInt false .i32
  | "u64" => .exactInt false .i64
  | "usize" => .exactInt false .usize
  | "f32" => .exactFloat .f32
  | "f64" => .exactFloat .f64
  | "bool" => .bool
  | "string" => .string
  | "char" => .char
  | other => if (tables.structInfos.lookup other).isSome then .struct other else .enum other

/-- The generic declarations whose mangled names `typeName` may be, with type parameters and mangled
arguments, longest base name first. -/
def mangledCandidates (generics : List (String × List String)) (typeName : String) :
    List (String × List String × List String) :=
  let candidates := generics.filterMap fun (base, params) =>
    (stripPrefix (base ++ "_") typeName).map fun suffix => (base, params, suffix)
  (candidates.insertionSort fun left right => right.1.length ≤ left.1.length).map
    fun (base, params, suffix) =>
      (base, params, if params.length = 1 then [suffix] else suffix.splitOn "_")

/-- The search both `specialized_struct_context` and `specialized_enum_context` make. -/
def specializedContext {Info : Type} (generics : List (String × List String))
    (infos : List (String × Info)) (typeName : String) : Option (String × Info × Substitutions) :=
  let specialized := (mangledCandidates generics typeName).findSome? fun (base, params, parts) =>
    if parts.length ≠ params.length then none
    else (infos.lookup base).map fun info =>
      (base, info, params.zip (parts.map tables.typeFromManglePart))
  specialized.or ((infos.lookup typeName).map fun info => (typeName, info, []))

def specializedStructContext (structTypeName : String) :
    Option (String × StructInfo × Substitutions) :=
  tables.specializedContext tables.genericStructs tables.structInfos structTypeName

def specializedEnumContext (enumTypeName : String) : Option (String × EnumInfo × Substitutions) :=
  tables.specializedContext tables.genericEnums tables.enumInfos enumTypeName

/-- The declaration an applied type names. -/
def appliedContext {Info : Type} (generics : List (String × List String))
    (infos : List (String × Info))
    (name : String) (args : List Ty) : Option (String × Info × Substitutions) := do
  let params ← generics.lookup name
  if params.length ≠ args.length then none
  else
    let info ← infos.lookup name
    some (name, info, params.zip args)

def specializedStructContextForType : Ty → Option (String × StructInfo × Substitutions)
  | .struct name => tables.specializedStructContext name
  | .applied name args => appliedContext tables.genericStructs tables.structInfos name args
  | _ => none

def specializedEnumContextForType : Ty → Option (String × EnumInfo × Substitutions)
  | .enum name => tables.specializedEnumContext name
  | .applied name args => appliedContext tables.genericEnums tables.enumInfos name args
  | _ => none

mutual

def typeAnnotationToTypeWithSubstitutions (substitutions : Substitutions) : TypeAnnotation → Ty
  | .simple [segment] =>
    (substitutions.lookup segment).getD (tables.typeAnnotationToType (.simple [segment]))
  | .simple segments => tables.typeAnnotationToType (.simple segments)
  | .tuple elements => .tuple (typeAnnotationsToTypes substitutions elements)
  | .function params returnType =>
    .fn (typeAnnotationsToTypes substitutions params)
      (typeAnnotationToTypeWithSubstitutions substitutions returnType)
  | .generic name typeArgs =>
    let args := typeAnnotationsToTypes substitutions typeArgs
    if name = "array" then .array (args.head?.getD .unknown) none
    else if name = "Task" then .task (args.head?.getD .unknown)
    else if name = "Box" then
      match typeArgs with
      | .dynTrait traitName autoTraits :: _ => .dynTrait traitName autoTraits
      | _ => .unknown
    else if (tables.genericStructs.lookup name).isSome ||
      (tables.genericEnums.lookup name).isSome then
      .applied name args
    else tables.typeAnnotationToType (.generic name typeArgs)
  | .dynTrait traitName autoTraits => tables.typeAnnotationToType (.dynTrait traitName autoTraits)

def typeAnnotationsToTypes (substitutions : Substitutions) : List TypeAnnotation → List Ty
  | [] => []
  | annotated :: rest =>
    typeAnnotationToTypeWithSubstitutions substitutions annotated :: typeAnnotationsToTypes
      substitutions rest

end

end TypeTables

end SpectraLang

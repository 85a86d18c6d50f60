import SpectraLang.Analysis.TypeTables

/-! # The match exhaustiveness check

Three strategies: a catch-all pattern, boolean cubes for tuples of booleans, and the coverage of
every variant with its payload for enums. Open domains are covered by bindings only.
-/

namespace SpectraLang

/-- One constraint for each boolean a value contains; `none` accepts both. -/
abbrev Cube := List (Option Bool)

/-- `usize::checked_add`. -/
def checkedAdd (left right : Nat) : Option Nat :=
  if left + right < 2 ^ 64 then some (left + right) else none

mutual

def boolTupleDimensions : Ty → Option Nat
  | .bool => some 1
  | .tuple elements => boolTupleDimensionsFold 0 elements
  | _ => some 0

def boolTupleDimensionsFold (count : Nat) : List Ty → Option Nat
  | [] => some count
  | element :: rest =>
    match boolTupleDimensions element with
    | none => none
    | some dimensions =>
      match checkedAdd count dimensions with
      | none => none
      | some total => boolTupleDimensionsFold total rest

end

mutual

def hasBoolTupleDimension : Ty → Bool
  | .bool => true
  | .tuple elements => anyHasBoolTupleDimension elements
  | _ => false

def anyHasBoolTupleDimension : List Ty → Bool
  | [] => false
  | element :: rest => hasBoolTupleDimension element || anyHasBoolTupleDimension rest

end

/-- Every cube of the elements before extended by every cube of the next element. -/
def combineCubes (cubes elementCubes : List Cube) : List Cube :=
  cubes.flatMap fun start => elementCubes.map fun suffix => start ++ suffix

mutual

def boolTupleExpressionCubes : Expression → Ty → Option (List Cube)
  | .boolLiteral value, .bool => some [[some value]]
  | .tupleLiteral values, .tuple elements =>
    if elements.length = values.length then expressionCubesFold [[]] values elements else none
  | .grouping inner, ty => boolTupleExpressionCubes inner ty
  | _, _ => none

def expressionCubesFold (cubes : List Cube) : List Expression → List Ty → Option (List Cube)
  | value :: values, element :: elements =>
    match boolTupleExpressionCubes value element with
    | none => none
    | some valueCubes => expressionCubesFold (combineCubes cubes valueCubes) values elements
  | _, _ => some cubes

end

mutual

def boolTuplePatternCubes : Pattern → Ty → Option (List Cube)
  | .wildcard, ty | .identifier _, ty =>
    (boolTupleDimensions ty).map fun dimensions => [List.replicate dimensions none]
  | .literal expression, ty => boolTupleExpressionCubes expression ty
  | .tuple patterns, .tuple elements =>
    if patterns.length = elements.length then patternCubesFold [[]] patterns elements else none
  | .or patterns, ty => alternativeCubes [] patterns ty
  | _, _ => none

def patternCubesFold (cubes : List Cube) : List Pattern → List Ty → Option (List Cube)
  | pattern :: patterns, element :: elements =>
    match boolTuplePatternCubes pattern element with
    | none => none
    | some elementCubes => patternCubesFold (combineCubes cubes elementCubes) patterns elements
  | _, _ => some cubes

def alternativeCubes (cubes : List Cube) : List Pattern → Ty → Option (List Cube)
  | [], _ => some cubes
  | alternative :: rest, ty =>
    match boolTuplePatternCubes alternative ty with
    | none => none
    | some more => alternativeCubes (cubes ++ more) rest ty

end

/-- The recursion of `bool_tuple_cubes_cover_all`, where `remaining` is
`cubes[0].len() - dimension`. -/
def cubesCoverFrom : Nat → List Cube → Nat → Bool
  | remaining, cubes, dimension =>
    if cubes.isEmpty then false
    else if cubes.any fun cube => (cube.drop dimension).all Option.isNone then true
    else match remaining with
      | 0 => true
      | remaining + 1 =>
        if cubes.all fun cube => cube[dimension]?.join.isNone then cubesCoverFrom remaining cubes
          (dimension + 1)
        else [false, true].all fun value =>
          cubesCoverFrom remaining
            (cubes.filter fun cube => cube[dimension]?.join.all (· == value)) (dimension + 1)

def boolTupleCubesCoverAll (cubes : List Cube) : Bool :=
  cubesCoverFrom ((cubes.head?.map List.length).getD 0) cubes 0

mutual

/-- `append_pattern_alternatives`: the alternatives of a pattern with nested or-patterns opened. -/
def patternAlternatives : Pattern → List Pattern
  | .or alternatives => patternsAlternatives alternatives
  | other => [other]

def patternsAlternatives : List Pattern → List Pattern
  | [] => []
  | pattern :: rest => patternAlternatives pattern ++ patternsAlternatives rest

end

/-- The pattern a list of named patterns has for a field, a wildcard when the field is not
listed. -/
def namedPattern (fields : List FieldPattern) (fieldName : String) : Pattern :=
  ((fields.find? fun field => field.name == fieldName).map FieldPattern.pattern).getD .wildcard

namespace EnumVariantInfo

/-- The payload patterns of one constructor pattern as a pattern of the payload type. -/
def payloadPattern? (info : EnumVariantInfo) (data : Option (List Pattern))
    (structData : Option (List FieldPattern)) : Option Pattern :=
  match info.data, info.structData with
  | some payloadTypes, _ =>
    match data with
    | none => none
    | some parts =>
      if parts.length ≠ payloadTypes.length then none
      else match parts with
        | [part] => some part
        | parts => some (.tuple parts)
  | none, some payloadFields => structData.map fun fields =>
      .tuple (payloadFields.map fun field => namedPattern fields field.1)
  | none, none => some .wildcard

def payloadTypes (info : EnumVariantInfo) (tables : TypeTables) (substitutions : Substitutions) :
    List Ty :=
  match info.data with
  | some types => types.map (tables.typeAnnotationToTypeWithSubstitutions substitutions)
  | none => (info.structData.getD []).map fun field =>
      tables.typeAnnotationToTypeWithSubstitutions substitutions field.2

def payloadType (info : EnumVariantInfo) (tables : TypeTables) (substitutions : Substitutions) :
    Ty :=
  if info.structData.isSome then .tuple (info.payloadTypes tables substitutions)
  else match info.payloadTypes tables substitutions with
    | [single] => single
    | types => .tuple types

def isUnit (info : EnumVariantInfo) : Bool := info.data.isNone && info.structData.isNone

def hasPayload (info : EnumVariantInfo) : Bool :=
  info.data.any (fun payload => !payload.isEmpty) || info.structData.any
    (fun payload => !payload.isEmpty)

/-- The payload pattern of a constructor pattern for the given variant of the given enum. -/
def payloadPatternOf? (info : EnumVariantInfo) (enumName variantName : String) :
    Pattern → Option Pattern
  | .enumVariant _ patternEnum _ patternVariant data structData =>
    if patternEnum ≠ enumName ∨ patternVariant ≠ variantName then none else info.payloadPattern?
      data structData
  | _ => none

end EnumVariantInfo

namespace StructInfo

def fieldNames (info : StructInfo) : List String :=
  (info.fields.map Prod.fst).insertionSort fun left right => left ≤ right

def fieldTypes (info : StructInfo) (tables : TypeTables) (substitutions : Substitutions) :
    List Ty :=
  info.fieldNames.filterMap fun name =>
    (info.fields.lookup name).map (tables.typeAnnotationToTypeWithSubstitutions substitutions)

/-- A pattern of the given struct as a tuple pattern over all its fields. -/
def fieldPattern? (info : StructInfo) (structName : String) : Pattern → Option Pattern
  | .struct name fields =>
    if name ≠ structName then none else some (.tuple (info.fieldNames.map (namedPattern fields)))
  | _ => none

end StructInfo

section Coverage
variable (tables : TypeTables)

/-- Wildcards and identifiers bind any value. -/
def Pattern.isBinding : Pattern → Bool
  | .wildcard | .identifier _ => true
  | _ => false

def coveredByCubes (alternatives : List Pattern) (ty : Ty) : Bool :=
  (alternativeCubes [] alternatives ty).any boolTupleCubesCoverAll

/-- The body of `patterns_cover_type`; `covers` is the call one level deeper. -/
def alternativesCoverType (covers : List Pattern → Ty → Bool) (alternatives : List Pattern)
    (ty : Ty) : Bool :=
  if alternatives.any Pattern.isBinding then true
  else
    let nominal := match tables.specializedStructContextForType ty with
      | some (structName, info, substitutions) =>
        let types := info.fieldTypes tables substitutions
        types.length == info.fieldNames.length
          && covers (alternatives.filterMap (info.fieldPattern? structName)) (.tuple types)
      | none => match tables.specializedEnumContextForType ty with
        | some (enumName, info, substitutions) =>
          (info.variants.all fun (variantName, variant) =>
              let payloadPatterns :=
                alternatives.filterMap (variant.payloadPatternOf? enumName variantName)
              !payloadPatterns.isEmpty
                && (variant.isUnit || covers payloadPatterns
                  (variant.payloadType tables substitutions)))
            && !info.variants.isEmpty
        | none => false
    match ty with
    | .bool => coveredByCubes alternatives .bool
    | .tuple elements =>
      if hasBoolTupleDimension (.tuple elements) then coveredByCubes alternatives (.tuple elements)
      else alternatives.any fun
        | .tuple parts =>
          parts.length == elements.length && (elements.zip parts).all fun (element, part) =>
            covers [part] element
        | _ => false
    | .struct _ => nominal
    | .applied _ _ => nominal
    | _ => false

/-- `patterns_cover_type` with the number of levels left; the source gives up below level 64. -/
def patternsCoverType : Nat → List Pattern → Ty → Bool
  | 0, _, _ => false
  | levels + 1, patterns, ty =>
    alternativesCoverType tables (patternsCoverType levels) (patternsAlternatives patterns) ty

end Coverage

section Check

mutual

def patternIsCatchAll : Pattern → Bool
  | .wildcard | .identifier _ => true
  | .tuple patterns => patternsAreCatchAll patterns
  | .struct _ fields => fieldsAreCatchAll fields
  | .or patterns => anyPatternIsCatchAll patterns
  | _ => false

def patternsAreCatchAll : List Pattern → Bool
  | [] => true
  | pattern :: rest => patternIsCatchAll pattern && patternsAreCatchAll rest

def fieldsAreCatchAll : List FieldPattern → Bool
  | [] => true
  | .mk _ pattern :: rest => patternIsCatchAll pattern && fieldsAreCatchAll rest

def anyPatternIsCatchAll : List Pattern → Bool
  | [] => false
  | pattern :: rest => patternIsCatchAll pattern || anyPatternIsCatchAll rest

end

mutual

def patternContainsBoolLiteral (expected : Bool) : Pattern → Bool
  | .literal (.boolLiteral value) => value == expected
  | .or patterns => anyContainsBoolLiteral expected patterns
  | _ => false

def anyContainsBoolLiteral (expected : Bool) : List Pattern → Bool
  | [] => false
  | pattern :: rest =>
    patternContainsBoolLiteral expected pattern || anyContainsBoolLiteral expected rest

end

/-- `visit_enum_patterns`: the constructor patterns of the opened alternatives. -/
def visitEnumPatterns (pattern : Pattern) : List Pattern :=
  (patternAlternatives pattern).filter fun
    | .enumVariant .. => true
    | _ => false

/-- Whether the pattern is a constructor pattern of the given enum and variant. -/
def Pattern.isVariant (enumName variantName : String) : Pattern → Bool
  | .enumVariant _ patternEnum _ patternVariant _ _ =>
    patternEnum == enumName && patternVariant == variantName
  | _ => false

structure Diagnostic where
  code : String
  message : String
  deriving DecidableEq

/-- The patterns of the arms without a guard. -/
def unguardedPatterns (arms : List MatchArm) : List Pattern :=
  (arms.filter fun arm => arm.guard.isNone).map MatchArm.pattern

def notExhaustive : Diagnostic :=
  ⟨"E031", "Match expression is not exhaustive. Add an irrefutable pattern (such as '_') to cover remaining values."⟩

variable (tables : TypeTables)

def checkEnumExhaustiveness (patterns : List Pattern) (enumName : String) (info : EnumInfo)
    (substitutions : Substitutions) : Option Diagnostic :=
  let enumPatterns := patterns.flatMap visitEnumPatterns
  let missing := info.variants.filter fun (variant, _) => !enumPatterns.any
    (Pattern.isVariant enumName variant)
  if !missing.isEmpty then
    some ⟨"E031", "Match expression is not exhaustive. Missing patterns: "
      ++ ", ".intercalate (missing.map fun (variant, _) => enumName ++ "::" ++ variant)⟩
  else
    let missingPayloadGuard := info.variants.filter fun (variant, variantInfo) =>
      variantInfo.hasPayload && !patternsCoverType tables 65
        ((enumPatterns.filter (Pattern.isVariant enumName variant)).filterMap
          (variantInfo.payloadPatternOf? enumName variant))
        (variantInfo.payloadType tables substitutions)
    if !missingPayloadGuard.isEmpty then
      some ⟨"E031", "Match on enum '" ++ enumName ++
        "' must include wildcard bindings for payload of variant(s): "
        ++ ", ".intercalate
          (missingPayloadGuard.map fun (variant, _) => enumName ++ "::" ++ variant)⟩
    else none

def checkTupleExhaustiveness (patterns : List Pattern) (scrutineeType : Ty) : Option Diagnostic :=
  match boolTupleDimensions scrutineeType with
  | none | some 0 =>
    some ⟨"E031",
      "Match on tuple requires an irrefutable tuple pattern or wildcard (_) to cover remaining combinations."⟩
  | some _ =>
    match alternativeCubes [] patterns scrutineeType with
    | none =>
      some ⟨"E031",
        "Match on tuple requires a wildcard (_) pattern to cover remaining combinations."⟩
    | some cubes =>
      if boolTupleCubesCoverAll cubes then none
      else some ⟨"E031",
        "Match on tuple is not exhaustive; add patterns for the missing boolean combinations or a wildcard arm."⟩

/-- The error `check_match_exhaustiveness` records, if any. -/
def checkMatchExhaustiveness (scrutineeType : Ty) (arms : List MatchArm) : Option Diagnostic :=
  let patterns := unguardedPatterns arms
  if patterns.any patternIsCatchAll then none
  else
    let enumCheck := match tables.specializedEnumContextForType scrutineeType with
      | none => some notExhaustive
      | some (enumName, info, substitutions) =>
        checkEnumExhaustiveness tables patterns enumName info substitutions
    match scrutineeType with
    | .enum _ => enumCheck
    | .applied _ _ => enumCheck
    | .bool =>
      if patterns.any (patternContainsBoolLiteral true) && patterns.any
        (patternContainsBoolLiteral false) then none
      else some ⟨"E031",
        "Match on 'bool' is not exhaustive. Consider adding 'true', 'false', or a wildcard pattern (_)."⟩
    | .tuple elements => checkTupleExhaustiveness patterns (.tuple elements)
    | _ => some notExhaustive

end Check

end SpectraLang

import SpectraLang.Analysis.Exhaustiveness

/-! # An accepted match covers its scrutinee type

Values, their types, the types patterns fit and the values patterns match. Each strategy of the
check is sound for patterns that fit the type.
-/

namespace SpectraLang

open List EnumVariantInfo Pattern

/-- A runtime value. Components of records and named payloads are listed with their names. -/
inductive DataValue where
  | bool (value : Bool)
  | tuple (elements : List DataValue)
  | record (fields : List (String × DataValue))
  | variant (enumName variantName : String) (positional : List DataValue)
      (named : List (String × DataValue))
  | scalar (text : String)

section Typing
variable (tables : TypeTables)

/-- Types the check knows no finite structure of: everything but booleans, tuples and declared
types. -/
def OpenType (ty : Ty) : Prop :=
  ty ≠ .bool ∧ (∀ elements, ty ≠ .tuple elements) ∧ tables.specializedStructContextForType ty =
    none ∧ tables.specializedEnumContextForType ty = none

/-- The values of a type. A name that is both a generic struct and a generic enum means the enum. -/
inductive HasType : DataValue → Ty → Prop where
  | bool (value : Bool) : HasType (.bool value) .bool
  | tuple {values : List DataValue} {types : List Ty} (elements : Forall₂ HasType values types) :
      HasType (.tuple values) (.tuple types)
  | record {ty : Ty} {name : String} {info : StructInfo} {substitutions : Substitutions}
      {fields : List (String × DataValue)}
      (noEnum : tables.specializedEnumContextForType ty = none)
      (context : tables.specializedStructContextForType ty = some (name, info, substitutions))
      (names : fields.map Prod.fst = info.fields.map Prod.fst)
      (components : Forall₂ HasType (fields.map Prod.snd)
        (info.fields.map fun field => tables.typeAnnotationToTypeWithSubstitutions substitutions
          field.2)) :
      HasType (.record fields) ty
  | variant {ty : Ty} {enumName variantName : String} {info : EnumInfo}
      {substitutions : Substitutions}
      {variant : EnumVariantInfo} {positional : List DataValue} {named : List (String × DataValue)}
      (context : tables.specializedEnumContextForType ty = some (enumName, info, substitutions))
      (declared : (variantName, variant) ∈ info.variants)
      (payload : Forall₂ HasType positional
        ((variant.data.getD []).map (tables.typeAnnotationToTypeWithSubstitutions substitutions)))
      (names : named.map Prod.fst = (variant.structData.getD []).map Prod.fst)
      (components : Forall₂ HasType (named.map Prod.snd)
        ((variant.structData.getD []).map fun field =>
          tables.typeAnnotationToTypeWithSubstitutions substitutions field.2)) :
      HasType (.variant enumName variantName positional named) ty
  | other {value : DataValue} {ty : Ty} (isOpen : OpenType tables ty) : HasType value ty

/-- The patterns of a type: constructors with the declared shape and fields, each field listed
once. -/
inductive Pattern.Fits : Pattern → Ty → Prop where
  | wildcard (ty : Ty) : Fits .wildcard ty
  | identifier (name : String) (ty : Ty) : Fits (.identifier name) ty
  | literal (value : Expression) (ty : Ty) : Fits (.literal value) ty
  | tuple {patterns : List Pattern} {types : List Ty} (elements : Forall₂ Fits patterns types) :
      Fits (.tuple patterns) (.tuple types)
  | struct {ty : Ty} {name : String} {info : StructInfo} {substitutions : Substitutions}
      {fields : List FieldPattern}
      (noEnum : tables.specializedEnumContextForType ty = none)
      (context : tables.specializedStructContextForType ty = some (name, info, substitutions))
      (distinct : (fields.map FieldPattern.name).Nodup)
      (declared : ∀ field ∈ fields, field.name ∈ info.fields.map Prod.fst)
      (components : ∀ field ∈ fields, ∀ annotated, (field.name, annotated) ∈ info.fields →
        Fits field.pattern (tables.typeAnnotationToTypeWithSubstitutions substitutions annotated)) :
      Fits (.struct name fields) ty
  | enumVariant {ty : Ty} {enumName variantName : String} {info : EnumInfo}
      {substitutions : Substitutions}
      {variant : EnumVariantInfo} {modulePath : Option String} {typeArgs : List TypeAnnotation}
      {data : Option (List Pattern)} {structData : Option (List FieldPattern)}
      (context : tables.specializedEnumContextForType ty = some (enumName, info, substitutions))
      (member : (variantName, variant) ∈ info.variants)
      (payload : ∀ parts, data = some parts → Forall₂ Fits parts
        ((variant.data.getD []).map (tables.typeAnnotationToTypeWithSubstitutions substitutions)))
      (distinct : ∀ fields, structData = some fields → (fields.map FieldPattern.name).Nodup)
      (declared : ∀ fields, structData = some fields → ∀ field ∈ fields,
        field.name ∈ (variant.structData.getD []).map Prod.fst)
      (components : ∀ fields, structData = some fields → ∀ field ∈ fields,
        ∀ annotated, (field.name, annotated) ∈ variant.structData.getD [] →
          Fits field.pattern (tables.typeAnnotationToTypeWithSubstitutions substitutions annotated))
            :
      Fits (.enumVariant modulePath enumName typeArgs variantName data structData) ty
  | or {patterns : List Pattern} {ty : Ty} (alternatives : ∀ pattern ∈ patterns, Fits pattern ty) :
      Fits (.or patterns) ty

end Typing

section Matching
variable (openLiteral : Expression → DataValue → Prop)

/-- `openLiteral` says how literals of the open domains match. -/
inductive LiteralMatches : Expression → DataValue → Prop where
  | bool (value : Bool) : LiteralMatches (.boolLiteral value) (.bool value)
  | tuple {literals : List Expression} {values : List DataValue}
      (elements : Forall₂ LiteralMatches literals values) :
      LiteralMatches (.tupleLiteral literals) (.tuple values)
  | grouping {inner : Expression} {value : DataValue} (matched : LiteralMatches inner value) :
      LiteralMatches (.grouping inner) value
  | other {literal : Expression} {value : DataValue} (matched : openLiteral literal value) :
      LiteralMatches literal value

/-- A struct or named payload pattern matches when each listed field does, whatever the others
hold. -/
inductive Pattern.Matches : Pattern → DataValue → Prop where
  | wildcard (value : DataValue) : Matches .wildcard value
  | identifier (name : String) (value : DataValue) : Matches (.identifier name) value
  | literal {literal : Expression} {value : DataValue}
      (matched : LiteralMatches openLiteral literal value) :
      Matches (.literal literal) value
  | tuple {patterns : List Pattern} {values : List DataValue}
      (elements : Forall₂ Matches patterns values) :
      Matches (.tuple patterns) (.tuple values)
  | struct {name : String} {patterns : List FieldPattern} {fields : List (String × DataValue)}
      (component : String → DataValue)
      (found : ∀ field ∈ patterns, fields.lookup field.name = some (component field.name))
      (components : ∀ field ∈ patterns, Matches field.pattern (component field.name)) :
      Matches (.struct name patterns) (.record fields)
  | enumVariant {enumName variantName : String} {modulePath : Option String}
      {typeArgs : List TypeAnnotation}
      {data : Option (List Pattern)} {structData : Option (List FieldPattern)}
      {positional : List DataValue} {named : List (String × DataValue)}
        (component : String → DataValue)
      (payload : ∀ parts, data = some parts → Forall₂ Matches parts positional)
      (found : ∀ fields, structData = some fields → ∀ field ∈ fields,
        named.lookup field.name = some (component field.name))
      (components : ∀ fields, structData = some fields → ∀ field ∈ fields,
        Matches field.pattern (component field.name)) :
      Matches (.enumVariant modulePath enumName typeArgs variantName data structData)
        (.variant enumName variantName positional named)
  | or {patterns : List Pattern} {pattern : Pattern} {value : DataValue}
      (member : pattern ∈ patterns) (matched : Matches pattern value) : Matches (.or patterns) value

end Matching

/-- The component with the given name; any value when there is none. -/
def componentOf (fields : List (String × DataValue)) (name : String) : DataValue :=
  (fields.lookup name).getD (.scalar "")

variable {tables : TypeTables} {substitutions : Substitutions} {ty : Ty} {types : List Ty}
  {value : DataValue}
  {fields named : List (String × DataValue)} {positional : List DataValue}
    {declared : List (String × TypeAnnotation)}
  {enumName variantName name : String} {variant : EnumVariantInfo}

theorem HasType.bool_inv (typed : HasType tables value .bool) : ∃ b, value = .bool b := by
  cases typed with
  | bool b => exact ⟨b, rfl⟩
  | record _ context => simp [TypeTables.specializedStructContextForType] at context
  | variant context => simp [TypeTables.specializedEnumContextForType] at context
  | other isOpen => exact absurd rfl isOpen.1

theorem HasType.tuple_inv (typed : HasType tables value (.tuple types)) :
    ∃ values, value = .tuple values ∧ Forall₂ (HasType tables) values types := by
  cases typed with
  | tuple elements => exact ⟨_, rfl, elements⟩
  | record _ context => simp [TypeTables.specializedStructContextForType] at context
  | variant context => simp [TypeTables.specializedEnumContextForType] at context
  | other isOpen => exact absurd rfl (isOpen.2.1 _)

theorem HasType.record_inv {info : StructInfo}
    (typed : HasType tables value ty) (noEnum : tables.specializedEnumContextForType ty = none)
    (context : tables.specializedStructContextForType ty = some (name, info, substitutions)) :
    ∃ fields, value = .record fields ∧ fields.map Prod.fst = info.fields.map Prod.fst ∧
      Forall₂ (HasType tables) (fields.map Prod.snd)
        (info.fields.map fun field => tables.typeAnnotationToTypeWithSubstitutions substitutions
          field.2) := by
  cases typed with
  | bool | tuple => simp [TypeTables.specializedStructContextForType] at context
  | record _ found names components =>
    obtain ⟨rfl, rfl, rfl⟩ : _ ∧ _ ∧ _ := by simpa using found.symm.trans context
    exact ⟨_, rfl, names, components⟩
  | variant found => simp [noEnum] at found
  | other isOpen => simp [isOpen.2.2.1] at context

/-- The payload of a value fits the declared variant. -/
structure PayloadTyped (tables : TypeTables) (substitutions : Substitutions)
    (variant : EnumVariantInfo)
    (positional : List DataValue) (named : List (String × DataValue)) : Prop where
  payload : Forall₂ (HasType tables) positional
    ((variant.data.getD []).map (tables.typeAnnotationToTypeWithSubstitutions substitutions))
  names : named.map Prod.fst = (variant.structData.getD []).map Prod.fst
  components : Forall₂ (HasType tables) (named.map Prod.snd)
    ((variant.structData.getD []).map fun field => tables.typeAnnotationToTypeWithSubstitutions
      substitutions field.2)

theorem HasType.variant_inv {info : EnumInfo} (typed : HasType tables value ty)
    (context : tables.specializedEnumContextForType ty = some (enumName, info, substitutions)) :
    ∃ variantName variant positional named, value = .variant enumName variantName positional named ∧
      (variantName, variant) ∈ info.variants ∧ PayloadTyped tables substitutions variant positional
        named := by
  cases typed with
  | bool | tuple => simp [TypeTables.specializedEnumContextForType] at context
  | record noEnum => simp [noEnum] at context
  | variant found declared payload names components =>
    obtain ⟨rfl, rfl, rfl⟩ : _ ∧ _ ∧ _ := by simpa using found.symm.trans context
    exact ⟨_, _, _, _, rfl, declared, payload, names, components⟩
  | other isOpen => simp [isOpen.2.2.2] at context

/-- The component of a well-typed record or named payload that a declared field names. -/
theorem component_of_declared {resolve : TypeAnnotation → Ty}
    (names : fields.map Prod.fst = declared.map Prod.fst)
    (components : Forall₂ (HasType tables) (fields.map Prod.snd)
      (declared.map fun field => resolve field.2))
    (member : name ∈ declared.map Prod.fst) :
    ∃ value annotated, fields.lookup name = some value ∧ (name, annotated) ∈ declared ∧
      HasType tables value (resolve annotated) := by
  induction declared generalizing fields with
  | nil => simp at member
  | cons first rest ih =>
    obtain ⟨declaredName, declaredType⟩ := first
    cases fields with
    | nil => simp at names
    | cons field fields =>
      obtain ⟨fieldName, value⟩ := field
      simp only [map_cons, List.cons.injEq, forall₂_cons] at names components
      obtain ⟨rfl, names⟩ := names
      by_cases same : name = fieldName
      · subst same
        exact ⟨value, declaredType, by simp, mem_cons_self, components.1⟩
      · obtain ⟨component, annotated, found, isDeclared, typed⟩ :=
          ih names components.2 ((mem_cons.mp member).resolve_left same)
        refine ⟨component, annotated, ?_, mem_cons_of_mem _ isDeclared, typed⟩
        rw [lookup_cons, beq_false_of_ne same]
        exact found

variable {openLiteral : Expression → DataValue → Prop} {pattern : Pattern}
  {values : List DataValue} {patterns : List Pattern}

/-- The patterns directly below a tuple, a struct or an or-pattern. -/
def Pattern.parts : Pattern → List Pattern
  | .tuple patterns | .or patterns => patterns
  | .struct _ fields => fields.map FieldPattern.pattern
  | _ => []

theorem Pattern.induction_on_parts {motive : Pattern → Prop}
    (step : ∀ pattern : Pattern, (∀ part ∈ pattern.parts, motive part) → motive pattern)
      (pattern : Pattern) :
    motive pattern :=
  step pattern fun part _ => induction_on_parts step part
termination_by sizeOf pattern
decreasing_by
  rename_i member
  cases pattern with
  | tuple patterns | or patterns =>
    have smaller := sizeOf_lt_of_mem (show part ∈ patterns from member)
    simp only [tuple.sizeOf_spec, or.sizeOf_spec]
    omega
  | struct name fields =>
    obtain ⟨⟨_, _⟩, listed, rfl⟩ := mem_map.mp member
    have smaller := sizeOf_lt_of_mem listed
    simp only [struct.sizeOf_spec, FieldPattern.mk.sizeOf_spec, FieldPattern.pattern] at smaller ⊢
    omega
  | _ => cases member

theorem patternsAreCatchAll_iff (patterns : List Pattern) :
    patternsAreCatchAll patterns = true ↔ ∀ pattern ∈ patterns, patternIsCatchAll pattern =
      true := by
  induction patterns with
  | nil => simp [patternsAreCatchAll]
  | cons pattern rest ih => simp [patternsAreCatchAll, ih]

theorem fieldsAreCatchAll_iff (fields : List FieldPattern) :
    fieldsAreCatchAll fields = true ↔ ∀ field ∈ fields, patternIsCatchAll field.pattern = true := by
  induction fields with
  | nil => simp [fieldsAreCatchAll]
  | cons field rest ih => cases field; simp [fieldsAreCatchAll, ih, FieldPattern.pattern]

theorem anyPatternIsCatchAll_iff (patterns : List Pattern) :
    anyPatternIsCatchAll patterns = true ↔ ∃ pattern ∈ patterns, patternIsCatchAll pattern =
      true := by
  induction patterns with
  | nil => simp [anyPatternIsCatchAll]
  | cons pattern rest ih => simp [anyPatternIsCatchAll, ih]

/-- Patterns that match all values of their types match lists of such values. -/
theorem forall₂_matches
    (each : ∀ entry ∈ types.zip patterns, ∀ value, entry.2.Fits tables entry.1 →
      HasType tables value entry.1 → entry.2.Matches openLiteral value)
    (fits : Forall₂ (Fits tables) patterns types) (typed : Forall₂ (HasType tables) values types) :
    Forall₂ (Matches openLiteral) patterns values := by
  induction fits generalizing values with
  | nil =>
    cases typed
    exact .nil
  | cons first _ ih =>
    cases typed with
    | cons typedFirst typedRest =>
      obtain ⟨matches_, others⟩ := forall_mem_cons.mp each
      exact .cons (matches_ _ first typedFirst) (ih others typedRest)

theorem catchAll_matches (catchAll : patternIsCatchAll pattern = true) :
    ∀ ty value, pattern.Fits tables ty → HasType tables value ty →
      pattern.Matches openLiteral value := by
  induction pattern using induction_on_parts with
  | step pattern ih =>
    intro ty value fits typed
    cases fits with
    | wildcard => exact .wildcard value
    | identifier name => exact .identifier name value
    | tuple elements =>
      obtain ⟨values, rfl, typedElements⟩ := typed.tuple_inv
      have catchAlls := (patternsAreCatchAll_iff _).mp catchAll
      refine .tuple (forall₂_matches (fun entry member => ?_) elements typedElements)
      have isPart := (of_mem_zip member).2
      exact ih entry.2 isPart (catchAlls entry.2 isPart) entry.1
    | struct noEnum context distinct declared components =>
      obtain ⟨values, rfl, names, typedFields⟩ := typed.record_inv noEnum context
      have catchAlls := (fieldsAreCatchAll_iff _).mp catchAll
      have found := fun field member => component_of_declared names typedFields
        (declared field member)
      refine .struct (componentOf values) ?_ ?_
      · intro field member
        obtain ⟨component, _, isComponent, _⟩ := found field member
        simp [componentOf, isComponent]
      · intro field member
        obtain ⟨component, annotated, isComponent, isDeclared, typedComponent⟩ := found field member
        simpa [componentOf, isComponent] using ih _ (mem_map_of_mem member) (catchAlls field member)
          _ _ (components field member annotated isDeclared) typedComponent
    | or alternatives =>
      obtain ⟨other, member, isCatchAll⟩ := (anyPatternIsCatchAll_iff _).mp catchAll
      exact .or member (ih other member isCatchAll _ _ (alternatives other member) typed)
    | _ => simp [patternIsCatchAll] at catchAll

section Cubes

mutual

/-- The booleans of a value at the positions where its type has `bool`. -/
def boolBits : Ty → DataValue → List Bool
  | .bool, .bool value => [value]
  | .tuple types, .tuple values => tupleBits types values
  | _, _ => []

def tupleBits : List Ty → List DataValue → List Bool
  | ty :: types, value :: values => boolBits ty value ++ tupleBits types values
  | _, _ => []

end

/-- The bits meet the constraints of the cube. -/
def Cube.Agrees (cube : Cube) (bits : List Bool) : Prop :=
  Forall₂ (fun constraint bit => constraint.all (· == bit) = true) cube bits

/-- The cube has one constraint for each bit, and bits that meet them have the property. -/
structure Cube.Describes (cube : Cube) (bits : List Bool) (property : Prop) : Prop where
  length : cube.length = bits.length
  holds : cube.Agrees bits → property

variable {cube : Cube}

namespace Cube

theorem Agrees.split {start suffix : Cube} {startBits suffixBits : List Bool}
    (agrees : Cube.Agrees (start ++ suffix) (startBits ++ suffixBits))
      (length : start.length = startBits.length) :
    start.Agrees startBits ∧ suffix.Agrees suffixBits := by
  have front := forall₂_take_append _ _ _ agrees
  have back := forall₂_drop_append _ _ _ agrees
  rw [← length, take_left] at front
  rw [← length, drop_left] at back
  exact ⟨front, back⟩

theorem Describes.append {start suffix : Cube} {startBits suffixBits : List Bool}
    {left right : Prop}
    (first : start.Describes startBits left) (second : suffix.Describes suffixBits right) :
    Describes (start ++ suffix) (startBits ++ suffixBits) (left ∧ right) where
  length := by simp [first.length, second.length]
  holds agrees :=
    have parts := Agrees.split agrees first.length
    ⟨first.holds parts.1, second.holds parts.2⟩

theorem Describes.imp {bits : List Bool} {property consequence : Prop}
    (describes : cube.Describes bits property) (implies : property → consequence) :
      cube.Describes bits consequence :=
  ⟨describes.length, fun agrees => implies (describes.holds agrees)⟩

end Cube

theorem mem_combineCubes {cubes elementCubes : List Cube} :
    cube ∈ combineCubes cubes elementCubes ↔ ∃ start ∈ cubes, ∃ suffix ∈ elementCubes,
      start ++ suffix = cube := by
  simp [combineCubes]

mutual

theorem boolBits_length : ∀ (ty : Ty) {value : DataValue} {dimensions : Nat},
    HasType tables value ty → boolTupleDimensions ty = some dimensions →
      (boolBits ty value).length = dimensions := by
  intro ty value dimensions typed found
  cases ty with
  | bool =>
    obtain ⟨b, rfl⟩ := typed.bool_inv
    simpa [boolTupleDimensions, boolBits] using found
  | tuple types =>
    obtain ⟨values, rfl, elements⟩ := typed.tuple_inv
    rw [boolTupleDimensions] at found
    have counted := tupleBits_length types elements found
    rw [boolBits]
    omega
  | _ => simpa [boolTupleDimensions, boolBits] using found

theorem tupleBits_length : ∀ (types : List Ty) {values : List DataValue} {count total : Nat},
    Forall₂ (HasType tables) values types → boolTupleDimensionsFold count types = some total →
      total = count + (tupleBits types values).length
  | [], _, _, _, .nil, folded => by simpa [boolTupleDimensionsFold, tupleBits] using folded.symm
  | ty :: types, value :: values, count, total, .cons typed elements, folded => by
    rw [boolTupleDimensionsFold] at folded
    split at folded
    · cases folded
    · next dimensions found =>
      split at folded
      · cases folded
      · next sum added =>
        have first := boolBits_length ty typed found
        have rest := tupleBits_length types elements folded
        simp only [checkedAdd, Option.ite_none_right_eq_some, Option.some.injEq] at added
        simp only [tupleBits, length_append]
        omega

end

/-- A fold over the elements of a tuple describes them if the cubes of each element do. -/
theorem cubesFold_describe {α : Type*} {cubesOf : α → Ty → Option (List Cube)}
    {matching : α → DataValue → Prop}
    {fold : List Cube → List α → List Ty → Option (List Cube)}
      (stop : ∀ cubes, fold cubes [] [] = some cubes)
    (turn : ∀ cubes item items ty types, fold cubes (item :: items) (ty :: types) =
      match cubesOf item ty with
      | none => none
      | some found => fold (combineCubes cubes found) items types)
    {items : List α} {cubes result : List Cube}
    (describes : ∀ item ∈ items, ∀ {ty value cubes}, cubesOf item ty = some cubes →
      HasType tables value ty →
      ∀ cube ∈ cubes, cube.Describes (boolBits ty value) (matching item value))
    (folded : fold cubes items types = some result) (lengths : items.length = types.length)
    (elements : Forall₂ (HasType tables) values types) (member : cube ∈ result) :
    ∃ start ∈ cubes, ∃ suffix : Cube, start ++ suffix = cube ∧
      suffix.Describes (tupleBits types values) (Forall₂ matching items values) := by
  induction elements generalizing items cubes with
  | nil =>
    obtain rfl := length_eq_zero_iff.mp lengths
    obtain rfl : cubes = result := by simpa [stop] using folded
    exact ⟨cube, member, [], append_nil _, rfl, fun _ => .nil⟩
  | cons typed _ ih =>
    obtain ⟨item, items, rfl⟩ := exists_cons_of_length_eq_add_one lengths
    rw [turn] at folded
    split at folded
    · cases folded
    · next found isFound =>
      obtain ⟨longer, isLonger, suffix, rfl, rest⟩ :=
        ih (fun other inside => describes other (mem_cons_of_mem _ inside))
        folded (by simpa using lengths)
      obtain ⟨start, isStart, part, isPart, rfl⟩ := mem_combineCubes.mp isLonger
      have first := describes item mem_cons_self isFound typed part isPart
      exact ⟨start, isStart, part ++ suffix, (append_assoc ..).symm,
        (first.append rest).imp fun matched => .cons matched.1 matched.2⟩

theorem expressionCubes_describe : ∀ (literal : Expression) {ty : Ty} {value : DataValue}
    {cubes : List Cube},
    boolTupleExpressionCubes literal ty = some cubes → HasType tables value ty →
      ∀ cube ∈ cubes, cube.Describes (boolBits ty value)
        (LiteralMatches openLiteral literal value) := by
  intro literal ty value cubes found typed cube member
  cases literal with
  | boolLiteral expected =>
    cases ty with
    | bool =>
      obtain ⟨b, rfl⟩ := typed.bool_inv
      obtain rfl : cube = [some expected] := by simpa [← Option.some.inj found] using member
      refine ⟨rfl, fun agrees => ?_⟩
      obtain rfl : expected = b := by simpa [Cube.Agrees, boolBits] using agrees
      exact .bool _
    | _ => cases found
  | tupleLiteral literals =>
    cases ty with
    | tuple types =>
      obtain ⟨values, rfl, elements⟩ := typed.tuple_inv
      rw [boolTupleExpressionCubes] at found
      split at found
      · next lengths =>
        obtain ⟨start, isStart, suffix, rfl, describes⟩ :=
          cubesFold_describe (fun _ => rfl) (fun _ _ _ _ _ => rfl)
            (fun literal _ => expressionCubes_describe literal) found
            lengths.symm elements member
        obtain rfl : start = [] := by simpa using isStart
        exact describes.imp .tuple
      · cases found
    | _ => cases found
  | grouping inner => exact (expressionCubes_describe inner found typed cube member).imp .grouping
  | _ => cases found

mutual

theorem patternCubes_describe : ∀ (pattern : Pattern) {ty : Ty} {value : DataValue}
    {cubes : List Cube}, boolTuplePatternCubes pattern ty = some cubes → HasType tables value ty →
      ∀ cube ∈ cubes, cube.Describes (boolBits ty value) (pattern.Matches openLiteral value) := by
  intro pattern ty value cubes found typed cube member
  -- A binding leaves every boolean of the value unconstrained.
  have unconstrained : ∀ (matched : pattern.Matches openLiteral value),
      ((boolTupleDimensions ty).map fun dimensions =>
        [List.replicate dimensions (none : Option Bool)]) = some cubes →
        cube.Describes (boolBits ty value) (pattern.Matches openLiteral value) := by
    intro matched found
    obtain ⟨dimensions, isDimensions, rfl⟩ := Option.map_eq_some_iff.mp found
    obtain rfl : cube = List.replicate dimensions none := by simpa using member
    exact ⟨by simp [boolBits_length ty typed isDimensions], fun _ => matched⟩
  cases pattern with
  | wildcard => exact unconstrained (.wildcard _) found
  | identifier name => exact unconstrained (.identifier _ _) found
  | literal literal => exact (expressionCubes_describe literal found typed cube member).imp .literal
  | tuple patterns =>
    cases ty with
    | tuple types =>
      obtain ⟨values, rfl, elements⟩ := typed.tuple_inv
      rw [boolTuplePatternCubes] at found
      split at found
      · next lengths =>
        obtain ⟨start, isStart, suffix, rfl, describes⟩ :=
          cubesFold_describe (fun _ => rfl) (fun _ _ _ _ _ => rfl)
            (fun pattern _ => patternCubes_describe pattern) found
            lengths elements member
        obtain rfl : start = [] := by simpa using isStart
        exact describes.imp .tuple
      · cases found
    | _ => cases found
  | or patterns =>
    rcases alternativeCubes_describe patterns found typed cube member with member |
      ⟨other, isOther, describes⟩
    · simp at member
    · exact describes.imp (.or isOther)
  | _ => cases found

theorem alternativeCubes_describe : ∀ (patterns : List Pattern) {ty : Ty} {value : DataValue}
    {cubes result : List Cube}, alternativeCubes cubes patterns ty = some result →
      HasType tables value ty → ∀ cube ∈ result, cube ∈ cubes ∨ ∃ pattern ∈ patterns,
        cube.Describes (boolBits ty value) (pattern.Matches openLiteral value)
  | [], _, _, cubes, result, folded, _, cube, member => by
    obtain rfl : cubes = result := by simpa [alternativeCubes] using folded
    exact .inl member
  | pattern :: patterns, ty, value, cubes, result, folded, typed, cube, member => by
    rw [alternativeCubes] at folded
    split at folded
    · cases folded
    · next more found =>
      rcases alternativeCubes_describe patterns folded typed cube member with member |
        ⟨other, isOther, describes⟩
      · rcases mem_append.mp member with member | member
        · exact .inl member
        · exact .inr ⟨pattern, mem_cons_self, patternCubes_describe pattern found typed cube member⟩
      · exact .inr ⟨other, mem_cons_of_mem _ isOther, describes⟩

end

theorem Cube.agrees_drop_cons {dimension : Nat} {bit : Bool} {bits : List Bool}
    (inCube : dimension < cube.length) : Cube.Agrees (cube.drop dimension) (bit :: bits) ↔
      cube[dimension]?.join.all (· == bit) = true ∧
        Cube.Agrees (cube.drop (dimension + 1)) bits := by
  rw [drop_eq_getElem_cons inCube, Cube.Agrees, forall₂_cons, getElem?_eq_getElem inCube]
  rfl

theorem Cube.agrees_of_free {suffix : Cube} (free : suffix.all Option.isNone = true) :
    ∀ bits : List Bool, bits.length = suffix.length → suffix.Agrees bits := by
  intro bits length
  refine forall₂_iff_get.mpr ⟨length.symm, fun index inCube _ => ?_⟩
  have isFree := all_eq_true.mp free _ (getElem_mem inCube)
  simp only [get_eq_getElem, Option.isNone_iff_eq_none.mp isFree, Option.all_none]

/-- The check from a dimension on succeeds when every assignment of the remaining bits agrees with
some cube. -/
theorem cubesCoverFrom_iff : ∀ (remaining : Nat) {cubes : List Cube} {dimension : Nat},
    (∀ cube ∈ cubes, cube.length = remaining + dimension) →
      (cubesCoverFrom remaining cubes dimension = true ↔
      ∀ bits : List Bool, bits.length = remaining → ∃ cube ∈ cubes,
        Cube.Agrees (cube.drop dimension) bits) := by
  intro remaining
  induction remaining with
  | zero =>
    intro cubes dimension lengths
    have ends : ∀ cube ∈ cubes, cube.drop dimension = [] := fun cube member => by
      simp [lengths cube member]
    cases cubes with
    | nil => simp [cubesCoverFrom]
    | cons cube rest => simp [cubesCoverFrom, ends cube, Cube.Agrees]
  | succ remaining ih =>
    intro cubes dimension lengths
    have lengths : ∀ cube ∈ cubes, cube.length = remaining + (dimension + 1) :=
      fun cube member => by
      rw [lengths cube member]
      omega
    have agrees : ∀ cube ∈ cubes, ∀ bit bits, Cube.Agrees (cube.drop dimension) (bit :: bits) ↔
        cube[dimension]?.join.all (· == bit) = true ∧
          Cube.Agrees (cube.drop (dimension + 1)) bits := by
      intro cube member bit bits
      exact Cube.agrees_drop_cons (by rw [lengths cube member]; omega)
    unfold cubesCoverFrom
    split
    · next empty =>
      rw [isEmpty_iff.mp empty]
      simpa using ⟨replicate (remaining + 1) false, length_replicate⟩
    split
    · next free =>
      obtain ⟨cube, member, free⟩ := any_eq_true.mp free
      refine iff_of_true rfl fun bits length => ⟨cube, member, Cube.agrees_of_free free bits ?_⟩
      rw [length, length_drop, lengths cube member]
      omega
    dsimp only
    split
    · next unconstrained =>
      have isFree : ∀ cube ∈ cubes, cube[dimension]?.join = none := fun cube member =>
        Option.isNone_iff_eq_none.mp (all_eq_true.mp unconstrained cube member)
      rw [ih lengths]
      constructor
      · rintro covers (_ | ⟨bit, bits⟩) length
        · cases length
        obtain ⟨cube, member, meets⟩ := covers bits (Nat.succ.inj length)
        exact ⟨cube, member, (agrees cube member bit bits).mpr
          ⟨by simp [isFree cube member], meets⟩⟩
      · intro covers bits length
        obtain ⟨cube, member, meets⟩ := covers (false :: bits) (congrArg Nat.succ length)
        exact ⟨cube, member, ((agrees cube member false bits).mp meets).2⟩
    · have halves :=
        fun value => @ih (cubes.filter fun cube => cube[dimension]?.join.all (· == value))
          (dimension + 1)
        fun cube member => lengths cube (mem_filter.mp member).1
      rw [all_eq_true]
      constructor
      · rintro covers (_ | ⟨bit, bits⟩) length
        · cases length
        obtain ⟨cube, member, meets⟩ := (halves bit).mp (covers bit (by cases bit <;> simp)) bits
          (Nat.succ.inj length)
        obtain ⟨member, accepts⟩ := mem_filter.mp member
        exact ⟨cube, member, (agrees cube member bit bits).mpr ⟨accepts, meets⟩⟩
      · refine fun covers value _ => (halves value).mpr fun bits length => ?_
        obtain ⟨cube, member, meets⟩ := covers (value :: bits) (congrArg Nat.succ length)
        obtain ⟨accepts, meets⟩ := (agrees cube member value bits).mp meets
        exact ⟨cube, mem_filter.mpr ⟨member, accepts⟩, meets⟩

theorem coverAll_iff {count : Nat} {cubes : List Cube}
    (lengths : ∀ cube ∈ cubes, cube.length = count) :
    boolTupleCubesCoverAll cubes = true ↔ ∀ bits : List Bool, bits.length = count → ∃ cube ∈ cubes,
      cube.Agrees bits := by
  cases cubes with
  | nil =>
    simpa [boolTupleCubesCoverAll, cubesCoverFrom] using ⟨replicate count false, length_replicate⟩
  | cons first rest =>
    have covers := @cubesCoverFrom_iff count _ 0 lengths
    simpa [boolTupleCubesCoverAll, lengths first mem_cons_self] using covers

/-- At every depth the check is exact: it succeeds when each assignment meets a cube. -/
theorem boolTupleCubesCoverAll_iff {count : Nat} {cubes : List Cube}
    (lengths : ∀ cube ∈ cubes, cube.length = count) :
    (boolTupleCubesCoverAll cubes = true ↔ ∀ bits : List Bool, bits.length = count → ∃ cube ∈ cubes,
      cube.Agrees bits) ∧
      ∀ dimension ≤ count, cubesCoverFrom (count - dimension) cubes dimension = true ↔
        ∀ bits : List Bool, bits.length = count - dimension → ∃ cube ∈ cubes,
          Cube.Agrees (cube.drop dimension) bits := by
  refine ⟨coverAll_iff lengths, fun dimension inside => cubesCoverFrom_iff _ fun cube member => ?_⟩
  rw [lengths cube member]
  omega

/-- The two cubes of one unconstrained and one fixed bit leave an assignment out. -/
theorem boolTupleCubesCoverAll_iff_pair :
    boolTupleCubesCoverAll [[none, some true], [some false, none]] = false ∧
      (boolTupleCubesCoverAll [[none, some true], [some false, none]] = true ↔
        ∀ bits : List Bool, bits.length = 2 →
        ∃ cube ∈ ([[none, some true], [some false, none]] : List Cube), cube.Agrees bits) :=
  ⟨by decide, (boolTupleCubesCoverAll_iff (by simp)).1⟩

/-- Patterns whose cubes cover every combination of booleans match every value. -/
theorem boolTupleCubesCoverAll_matches {cubes : List Cube}
    (collected : alternativeCubes [] patterns ty = some cubes)
      (covers : boolTupleCubesCoverAll cubes = true)
    (typed : HasType tables value ty) :
      ∃ pattern ∈ patterns, pattern.Matches openLiteral value := by
  have describes : ∀ cube ∈ cubes, ∃ pattern ∈ patterns,
      cube.Describes (boolBits ty value) (pattern.Matches openLiteral value) := by
    intro cube member
    exact (alternativeCubes_describe patterns collected typed cube member).resolve_left (by simp)
  have lengths : ∀ cube ∈ cubes, cube.length = (boolBits ty value).length := by
    intro cube member
    obtain ⟨_, _, described⟩ := describes cube member
    exact described.length
  obtain ⟨cube, member, agrees⟩ := (coverAll_iff lengths).mp covers _ rfl
  obtain ⟨pattern, isPattern, described⟩ := describes cube member
  exact ⟨pattern, isPattern, described.holds agrees⟩

end Cubes

section Payloads

theorem patternsAlternatives_eq (patterns : List Pattern) :
    patternsAlternatives patterns = patterns.flatMap patternAlternatives := by
  induction patterns with
  | nil => rfl
  | cons pattern rest ih => rw [patternsAlternatives, ih, flatMap_cons]

variable {alternative : Pattern}

theorem matches_of_alternative
    (member : alternative ∈ patternAlternatives pattern)
      (matched : alternative.Matches openLiteral value) :
    pattern.Matches openLiteral value := by
  induction pattern using induction_on_parts with
  | step pattern ih =>
    cases pattern with
    | or patterns =>
      rw [patternAlternatives, patternsAlternatives_eq] at member
      obtain ⟨other, isOther, member⟩ := mem_flatMap.mp member
      exact .or isOther (ih other isOther member)
    | _ => exact mem_singleton.mp member ▸ matched

theorem alternative_fits (member : alternative ∈ patternAlternatives pattern)
    (fits : pattern.Fits tables ty) : alternative.Fits tables ty := by
  induction pattern using induction_on_parts with
  | step pattern ih =>
    cases pattern with
    | or patterns =>
      rw [patternAlternatives, patternsAlternatives_eq] at member
      obtain ⟨other, isOther, member⟩ := mem_flatMap.mp member
      cases fits with
      | or alternatives => exact ih other isOther member (alternatives other isOther)
    | _ => exact (mem_singleton.mp member).symm ▸ fits

variable {fields : List FieldPattern} {modulePath : Option String} {typeArgs : List TypeAnnotation}
  {data : Option (List Pattern)} {structData : Option (List FieldPattern)}

theorem namedPattern_of_mem (distinct : (fields.map FieldPattern.name).Nodup) {field : FieldPattern}
    (member : field ∈ fields) : namedPattern fields field.name = field.pattern := by
  unfold namedPattern
  cases found : fields.find? fun other => other.name == field.name with
  | none => simpa using find?_eq_none.mp found field member
  | some other =>
    have same : other.name = field.name := by simpa using find?_some found
    rw [inj_on_of_nodup_map distinct (mem_of_find?_eq_some found) member same]
    rfl

theorem namedPattern_fits (fits : ∀ field ∈ fields, field.name = name →
    field.pattern.Fits tables ty) : (namedPattern fields name).Fits tables ty := by
  unfold namedPattern
  cases found : fields.find? fun field => field.name == name with
  | none => exact .wildcard ty
  | some field =>
    have named : field.name = name := by simpa using find?_some found
    exact fits field (mem_of_find?_eq_some found) named

theorem lookup_of_distinct (distinct : (declared.map Prod.fst).Nodup)
    {annotated : TypeAnnotation} (member : (name, annotated) ∈ declared) :
      declared.lookup name = some annotated := by
  cases found : declared.lookup name with
  | none => simpa using lookup_eq_none_iff.mp found _ member
  | some other =>
    obtain ⟨front, back, rfl, -⟩ := lookup_eq_some_iff.mp found
    have here : (name, other) ∈ front ++ (name, other) :: back := by simp
    rw [(Prod.mk.inj (inj_on_of_nodup_map distinct here member rfl)).2]

theorem lookup_of_mem (member : name ∈ named.map Prod.fst) :
    named.lookup name = some (componentOf named name) := by
  cases found : named.lookup name with
  | some value => simp [componentOf, found]
  | none =>
    obtain ⟨entry, isEntry, rfl⟩ := mem_map.mp member
    simpa using lookup_eq_none_iff.mp found entry isEntry

/-- A payload pattern over all declared fields matches each component with the pattern listed for
it. -/
theorem component_matches {declared : List String} (names : named.map Prod.fst = declared)
    (matched : Forall₂ (Matches openLiteral) (declared.map (namedPattern fields))
      (named.map Prod.snd))
    (found : named.lookup name = some value) :
      (namedPattern fields name).Matches openLiteral value := by
  subst names
  induction named with
  | nil => simp at found
  | cons first rest ih =>
    simp only [map_cons, forall₂_cons] at matched
    rw [lookup_cons] at found
    split at found
    · next same =>
      obtain rfl : name = first.1 := by simpa using same
      cases found
      exact matched.1
    · exact ih found matched.2

/-- The payload of a variant as one value of its payload type. -/
def EnumVariantInfo.payloadValue (info : EnumVariantInfo) (positional : List DataValue)
    (named : List (String × DataValue)) : DataValue :=
  match info.data with
  | some _ =>
    match positional with
    | [single] => single
    | values => .tuple values
  | none => .tuple (named.map Prod.snd)

theorem payloadValue_typed (typed : PayloadTyped tables substitutions variant positional named) :
    HasType tables (variant.payloadValue positional named)
      (variant.payloadType tables substitutions) := by
  obtain ⟨payload, -, components⟩ := typed
  obtain ⟨data, structData, exclusive⟩ := variant
  cases data with
  | some types =>
    obtain rfl : structData = none := exclusive.resolve_left (by simp)
    simp only [payloadValue, payloadType, payloadTypes, Option.getD_some] at payload ⊢
    generalize types.map (tables.typeAnnotationToTypeWithSubstitutions substitutions) = types
      at payload
    rcases payload with _ | ⟨first, _ | ⟨second, rest⟩⟩
    · exact .tuple .nil
    · exact first
    · exact .tuple (.cons first (.cons second rest))
  | none =>
    cases structData with
    | some fields | none => exact .tuple components

/-- What a constructor pattern that fits has below its constructor, in terms of the declared
variant. -/
structure VariantFits (tables : TypeTables) (substitutions : Substitutions)
    (variant : EnumVariantInfo)
    (data : Option (List Pattern)) (structData : Option (List FieldPattern)) : Prop where
  payload : ∀ parts, data = some parts → Forall₂ (Fits tables) parts
    ((variant.data.getD []).map (tables.typeAnnotationToTypeWithSubstitutions substitutions))
  distinct : ∀ fields, structData = some fields → (fields.map FieldPattern.name).Nodup
  declared : ∀ fields, structData = some fields → ∀ field ∈ fields,
    field.name ∈ (variant.structData.getD []).map Prod.fst
  components : ∀ fields, structData = some fields → ∀ field ∈ fields,
    ∀ annotated, (field.name, annotated) ∈ variant.structData.getD [] →
      field.pattern.Fits tables
        (tables.typeAnnotationToTypeWithSubstitutions substitutions annotated)

theorem Pattern.Fits.variant_inv {patternEnum patternVariant : String} {info : EnumInfo}
    (fits : (Pattern.enumVariant modulePath patternEnum typeArgs patternVariant data
      structData).Fits tables ty)
    (context : tables.specializedEnumContextForType ty = some (enumName, info, substitutions))
    (declared : (patternVariant, variant) ∈ info.variants) :
    VariantFits tables substitutions variant data structData := by
  cases fits with
  | enumVariant found member payload distinct isDeclared components =>
    obtain ⟨rfl, rfl, rfl⟩ : _ ∧ _ ∧ _ := by simpa using context.symm.trans found
    obtain ⟨-, rfl⟩ := Prod.mk.inj (inj_on_of_nodup_map info.distinct member declared rfl)
    exact ⟨payload, distinct, isDeclared, components⟩

section
variable (fits : VariantFits tables substitutions variant data structData)
include fits

theorem payloadPattern_fits (isPayload : variant.payloadPattern? data structData = some pattern) :
    pattern.Fits tables (variant.payloadType tables substitutions) := by
  obtain ⟨variantData, variantFields, exclusive⟩ := variant
  cases variantData with
  | some types =>
    obtain rfl : variantFields = none := exclusive.resolve_left (by simp)
    cases data with
    | none => simp [payloadPattern?] at isPayload
    | some parts =>
      have partsFit := fits.payload parts rfl
      simp only [payloadPattern?, payloadType, payloadTypes, Option.getD_some]
        at isPayload partsFit ⊢
      split at isPayload
      · cases isPayload
      generalize types.map (tables.typeAnnotationToTypeWithSubstitutions substitutions) = types
        at partsFit ⊢
      rcases partsFit with _ | ⟨first, _ | ⟨second, rest⟩⟩ <;> cases isPayload
      · exact .tuple .nil
      · exact first
      · exact .tuple (.cons first (.cons second rest))
  | none =>
    cases variantFields with
    | none =>
      cases isPayload
      exact .wildcard _
    | some declared =>
      obtain ⟨fields, rfl, rfl⟩ := Option.map_eq_some_iff.mp isPayload
      refine .tuple ?_
      simp only [payloadTypes, Option.getD_some, forall₂_map_left_iff, forall₂_map_right_iff,
        forall₂_same]
      intro field member
      refine namedPattern_fits fun listed isListed sameName => ?_
      apply fits.components fields rfl listed isListed field.2
      rw [sameName]
      exact member

section
variable (typed : PayloadTyped tables substitutions variant positional named)
include typed

/-- A payload pattern that matches the payload makes the constructor pattern match. -/
theorem matches_of_payload (isPayload : variant.payloadPattern? data structData = some pattern)
    (matched : pattern.Matches openLiteral (variant.payloadValue positional named)) :
    (Pattern.enumVariant modulePath enumName typeArgs variantName data structData).Matches
      openLiteral (.variant enumName variantName positional named) := by
  obtain ⟨payload, names, -⟩ := typed
  have found : ∀ fields, structData = some fields → ∀ field ∈ fields,
      named.lookup field.name = some (componentOf named field.name) := by
    intro fields isFields field member
    have isName : field.name ∈ named.map Prod.fst :=
      names ▸ fits.declared fields isFields field member
    exact lookup_of_mem isName
  obtain ⟨variantData, variantFields, exclusive⟩ := variant
  cases variantData with
  | some types =>
    obtain rfl : variantFields = none := exclusive.resolve_left (by simp)
    refine .enumVariant (componentOf named) ?_ found fun fields isFields field member => ?_
    · rintro parts rfl
      simp only [payloadPattern?, payloadValue] at isPayload matched
      split at isPayload
      · cases isPayload
      · next lengths =>
        have count := payload.length_eq
        simp only [Option.getD_some, length_map, not_not] at count lengths
        split at isPayload
        · next part =>
          obtain ⟨single, rfl⟩ := length_eq_one_iff.mp (count.trans lengths.symm)
          cases isPayload
          exact .cons matched .nil
        · next several =>
          cases isPayload
          split at matched
          · next single =>
            exact absurd (length_eq_one_iff.mp (lengths.trans count.symm)) (by simpa using several)
          · cases matched with
            | tuple elements => exact elements
    · exact absurd (fits.declared fields isFields field member) (by simp)
  | none =>
    have noParts : ∀ parts, data = some parts → Forall₂ (Matches openLiteral) parts positional := by
      intro parts isParts
      obtain rfl : parts = [] := forall₂_nil_right_iff.mp (fits.payload parts isParts)
      obtain rfl : positional = [] := forall₂_nil_right_iff.mp payload
      exact .nil
    refine .enumVariant (componentOf named) noParts found ?_
    rintro fields rfl field member
    cases variantFields with
    | none => exact absurd (fits.declared fields rfl field member) (by simp)
    | some declared =>
      cases isPayload
      cases matched with
      | tuple elements =>
        rw [← namedPattern_of_mem (fits.distinct fields rfl) member]
        refine component_matches names ?_ (found fields rfl field member)
        rw [map_map]
        exact elements

/-- Without a payload the constructor alone decides. -/
theorem matches_of_no_payload (noPayload : variant.hasPayload = false) :
    (Pattern.enumVariant modulePath enumName typeArgs variantName data structData).Matches
      openLiteral (.variant enumName variantName positional named) := by
  simp only [hasPayload, Bool.or_eq_false_iff] at noPayload
  have noTypes : variant.data.getD [] = [] := by
    cases isData : variant.data <;> simp_all
  have noFields : variant.structData.getD [] = [] := by
    cases isFields : variant.structData <;> simp_all
  have unlisted : ∀ fields, structData = some fields → ∀ field, field ∉ fields := by
    intro fields isFields field member
    simpa [noFields] using fits.declared fields isFields field member
  refine .enumVariant (fun _ => .scalar "") ?_
    (fun fields isFields field member => absurd member (unlisted fields isFields field))
    (fun fields isFields field member => absurd member (unlisted fields isFields field))
  intro parts isParts
  have partsFit := fits.payload parts isParts
  have payload := typed.payload
  rw [noTypes] at partsFit payload
  obtain rfl : parts = [] := forall₂_nil_right_iff.mp partsFit
  obtain rfl : positional = [] := forall₂_nil_right_iff.mp payload
  exact .nil

end

end

end Payloads

section Coverage

/-- The patterns match every value of the type. -/
def Covering (tables : TypeTables) (openLiteral : Expression → DataValue → Prop)
    (patterns : List Pattern) (ty : Ty) : Prop :=
  ∀ value, HasType tables value ty → ∃ pattern ∈ patterns, pattern.Matches openLiteral value

/-- What the induction over the levels provides about the calls one level deeper. -/
structure SoundCoverage (tables : TypeTables) (openLiteral : Expression → DataValue → Prop)
    (covers : List Pattern → Ty → Bool) : Prop where
  covering : ∀ {patterns ty}, covers patterns ty = true →
    (∀ pattern ∈ patterns, pattern.Fits tables ty) →
    Covering tables openLiteral patterns ty
  nonempty : ∀ {ty}, covers [] ty = false

variable {info : StructInfo} {structName : String} {covers : List Pattern → Ty → Bool}
  {alternatives : List Pattern}

theorem fieldNames_mem : name ∈ info.fieldNames ↔ name ∈ info.fields.map Prod.fst := by
  simp [StructInfo.fieldNames]

/-- What holds of every declared field with its type holds of the sorted fields with theirs. -/
theorem fieldTypes_forall₂ {β : Type} {related : β → Ty → Prop} {item : String → β}
    (each : ∀ name ∈ info.fields.map Prod.fst, ∃ annotated, (name, annotated) ∈ info.fields ∧
      related (item name) (tables.typeAnnotationToTypeWithSubstitutions substitutions annotated)) :
    Forall₂ related (info.fieldNames.map item) (info.fieldTypes tables substitutions) := by
  have declared : ∀ name ∈ info.fieldNames, name ∈ info.fields.map Prod.fst :=
    fun name => fieldNames_mem.mp
  unfold StructInfo.fieldTypes
  generalize info.fieldNames = sorted at declared
  induction sorted with
  | nil => exact .nil
  | cons name rest ih =>
    obtain ⟨annotated, isDeclared, holds⟩ := each name (declared name mem_cons_self)
    have resolved := lookup_of_distinct info.distinct isDeclared
    simp only [map_cons, filterMap_cons, resolved, Option.map_some]
    exact .cons holds (ih fun other member => declared other (mem_cons_of_mem _ member))

/-- The sorted fields of a well-typed record form a value of the tuple of the sorted field types. -/
theorem fieldTypes_typed (names : fields.map Prod.fst = info.fields.map Prod.fst)
    (components : Forall₂ (HasType tables) (fields.map Prod.snd)
      (info.fields.map fun field => tables.typeAnnotationToTypeWithSubstitutions substitutions
        field.2)) :
    Forall₂ (HasType tables) (info.fieldNames.map (componentOf fields))
      (info.fieldTypes tables substitutions) := by
  refine fieldTypes_forall₂ fun name member => ?_
  obtain ⟨value, annotated, found, isDeclared, typed⟩ :=
    component_of_declared names components member
  exact ⟨annotated, isDeclared, by simpa [componentOf, found] using typed⟩

section
variable {fieldsPattern : Pattern}
  (context : tables.specializedStructContextForType ty = some (structName, info, substitutions))
  (fits : pattern.Fits tables ty)
    (isFields : info.fieldPattern? structName pattern = some fieldsPattern)
include context fits isFields

theorem fieldPattern_fits :
    fieldsPattern.Fits tables (.tuple (info.fieldTypes tables substitutions)) := by
  cases fits with
  | struct noEnum found distinct declared components =>
    obtain ⟨rfl, rfl, rfl⟩ : _ ∧ _ ∧ _ := by simpa using context.symm.trans found
    next fields =>
    simp only [StructInfo.fieldPattern?, ne_eq, not_true_eq_false, if_false, Option.some.injEq]
      at isFields
    subst isFields
    refine .tuple (fieldTypes_forall₂ fun name member => ?_)
    obtain ⟨⟨_, annotated⟩, isEntry, rfl⟩ := mem_map.mp member
    refine ⟨annotated, isEntry, namedPattern_fits fun field listed sameName => ?_⟩
    exact components field listed annotated (sameName ▸ isEntry)
  | _ => simp [StructInfo.fieldPattern?] at isFields

theorem matches_of_fields (names : fields.map Prod.fst = info.fields.map Prod.fst)
    (matched : fieldsPattern.Matches openLiteral
      (.tuple (info.fieldNames.map (componentOf fields)))) :
    pattern.Matches openLiteral (.record fields) := by
  cases fits with
  | struct noEnum found distinct declared components =>
    obtain ⟨rfl, rfl, rfl⟩ : _ ∧ _ ∧ _ := by simpa using context.symm.trans found
    next listed =>
    simp only [StructInfo.fieldPattern?, ne_eq, not_true_eq_false, if_false, Option.some.injEq]
      at isFields
    subst isFields
    refine .struct (componentOf fields) ?_ ?_
    · intro field member
      exact lookup_of_mem (names ▸ declared field member)
    · intro field member
      cases matched with
      | tuple elements =>
        simp only [forall₂_map_left_iff, forall₂_map_right_iff, forall₂_same] at elements
        rw [← namedPattern_of_mem distinct member]
        exact elements field.name (fieldNames_mem.mpr (declared field member))
  | _ => simp [StructInfo.fieldPattern?] at isFields

end

theorem struct_covering (sound : SoundCoverage tables openLiteral covers)
    (fits : ∀ pattern ∈ alternatives, pattern.Fits tables ty)
    (context : tables.specializedStructContextForType ty = some (structName, info, substitutions))
    (covered : covers (alternatives.filterMap (info.fieldPattern? structName))
      (.tuple (info.fieldTypes tables substitutions)) = true) :
        Covering tables openLiteral alternatives ty := by
  intro value typed
  have fieldsFit : ∀ pattern ∈ alternatives.filterMap (info.fieldPattern? structName),
      pattern.Fits tables (.tuple (info.fieldTypes tables substitutions)) := by
    intro fieldsPattern member
    obtain ⟨pattern, isPattern, isFields⟩ := mem_filterMap.mp member
    exact fieldPattern_fits context (fits pattern isPattern) isFields
  -- A struct pattern fits only where no enum has the name, so the name cannot mean the enum here.
  have noEnum : tables.specializedEnumContextForType ty = none := by
    cases listed : alternatives.filterMap (info.fieldPattern? structName) with
    | nil => simp [listed, sound.nonempty] at covered
    | cons first rest =>
      obtain ⟨pattern, isPattern, isFields⟩ := mem_filterMap.mp (listed ▸ mem_cons_self)
      cases fits pattern isPattern with
      | struct noEnum => exact noEnum
      | _ => simp [StructInfo.fieldPattern?] at isFields
  obtain ⟨fields, rfl, names, components⟩ := typed.record_inv noEnum context
  obtain ⟨fieldsPattern, member, matched⟩ :=
    sound.covering covered fieldsFit _ (.tuple (fieldTypes_typed names components))
  obtain ⟨pattern, isPattern, isFields⟩ := mem_filterMap.mp member
  exact ⟨pattern, isPattern, matches_of_fields context (fits pattern isPattern) isFields names
    matched⟩

theorem payloadPatternOf_eq_some {payloadPattern : Pattern}
    (isPayload : variant.payloadPatternOf? enumName variantName pattern = some payloadPattern) :
    ∃ modulePath typeArgs data structData,
      pattern = .enumVariant modulePath enumName typeArgs variantName data structData ∧
        variant.payloadPattern? data structData = some payloadPattern := by
  cases pattern with
  | enumVariant modulePath patternEnum typeArgs patternVariant data structData =>
    simp only [payloadPatternOf?] at isPayload
    split at isPayload
    · cases isPayload
    · next same =>
      obtain ⟨rfl, rfl⟩ := not_or.mp same |>.imp not_not.mp not_not.mp
      exact ⟨_, _, _, _, rfl, isPayload⟩
  | _ => simp [payloadPatternOf?] at isPayload

theorem isVariant_eq_true (isVariant : pattern.isVariant enumName variantName = true) :
    ∃ modulePath typeArgs data structData,
      pattern = .enumVariant modulePath enumName typeArgs variantName data structData := by
  cases pattern with
  | enumVariant modulePath patternEnum typeArgs patternVariant data structData =>
    obtain ⟨rfl, rfl⟩ : patternEnum = enumName ∧ patternVariant = variantName := by
      simpa [Pattern.isVariant] using isVariant
    exact ⟨_, _, _, _, rfl⟩
  | _ => simp [Pattern.isVariant] at isVariant

section Variants
variable {info : EnumInfo}

theorem payloadPatterns_fit (fits : ∀ pattern ∈ patterns, pattern.Fits tables ty)
    (context : tables.specializedEnumContextForType ty = some (enumName, info, substitutions))
    (declared : (variantName, variant) ∈ info.variants) :
    ∀ payloadPattern ∈ patterns.filterMap (variant.payloadPatternOf? enumName variantName),
      payloadPattern.Fits tables (variant.payloadType tables substitutions) := by
  intro payloadPattern member
  obtain ⟨pattern, isPattern, isPayload⟩ := mem_filterMap.mp member
  obtain ⟨_, _, data, structData, rfl, fromParts⟩ := payloadPatternOf_eq_some isPayload
  exact payloadPattern_fits ((fits _ isPattern).variant_inv context declared) fromParts

section
variable (fits : ∀ pattern ∈ patterns, pattern.Fits tables ty)
  (context : tables.specializedEnumContextForType ty = some (enumName, info, substitutions))
include fits context

/-- A value of a variant is matched when the payload patterns cover the payload type, or when it has
no payload and a pattern names it. -/
theorem variant_matched (declared : (variantName, variant) ∈ info.variants)
    (typed : PayloadTyped tables substitutions variant positional named)
    (covered : Covering tables openLiteral
      (patterns.filterMap (variant.payloadPatternOf? enumName variantName))
        (variant.payloadType tables substitutions) ∨
      variant.hasPayload = false ∧ ∃ pattern ∈ patterns, pattern.isVariant enumName variantName =
        true) :
    ∃ pattern ∈ patterns, pattern.Matches openLiteral
      (.variant enumName variantName positional named) := by
  rcases covered with covering | ⟨noPayload, pattern, isPattern, isVariant⟩
  · obtain ⟨payloadPattern, member, matched⟩ := covering _ (payloadValue_typed typed)
    obtain ⟨pattern, isPattern, isPayload⟩ := mem_filterMap.mp member
    obtain ⟨_, _, data, structData, rfl, fromParts⟩ := payloadPatternOf_eq_some isPayload
    have variantFits := (fits _ isPattern).variant_inv context declared
    exact ⟨_, isPattern, matches_of_payload variantFits typed fromParts matched⟩
  · obtain ⟨_, _, data, structData, rfl⟩ := isVariant_eq_true isVariant
    have variantFits := (fits _ isPattern).variant_inv context declared
    exact ⟨_, isPattern, matches_of_no_payload variantFits typed noPayload⟩

theorem enum_covering {covers : List Pattern → Ty → Bool}
    (sound : SoundCoverage tables openLiteral covers)
    (covered : ∀ variantName variant, (variantName, variant) ∈ info.variants →
      patterns.filterMap (variant.payloadPatternOf? enumName variantName) ≠ [] ∧
        (variant.isUnit = true ∨
          covers (patterns.filterMap (variant.payloadPatternOf? enumName variantName))
          (variant.payloadType tables substitutions) = true)) : Covering tables openLiteral patterns
            ty := by
  intro value typed
  obtain ⟨variantName, variant, positional, named, rfl, declared, payload⟩ :=
    typed.variant_inv context
  apply variant_matched fits context declared payload
  obtain ⟨nonempty, unit | covers⟩ := covered variantName variant declared
  · obtain ⟨payloadPattern, member⟩ := exists_mem_of_ne_nil _ nonempty
    obtain ⟨pattern, isPattern, isPayload⟩ := mem_filterMap.mp member
    obtain ⟨_, _, _, _, rfl, _⟩ := payloadPatternOf_eq_some isPayload
    refine .inr ⟨?_, _, isPattern, by simp [Pattern.isVariant]⟩
    simp only [isUnit, Bool.and_eq_true, Option.isNone_iff_eq_none] at unit
    simp [hasPayload, unit]
  · exact .inl (sound.covering covers (payloadPatterns_fit fits context declared))

end

end Variants

theorem coveredByCubes_covering (covered : coveredByCubes alternatives ty = true) :
    Covering tables openLiteral alternatives ty := by
  intro value typed
  obtain ⟨cubes, collected, covers⟩ := (Option.any_eq_true _ _).mp covered
  exact boolTupleCubesCoverAll_matches collected covers typed

theorem isBinding_matches (binding : pattern.isBinding = true) (value : DataValue) :
    pattern.Matches openLiteral value := by
  cases pattern with
  | wildcard => exact .wildcard value
  | identifier name => exact .identifier name value
  | _ => simp [isBinding] at binding

/-- Without patterns nothing is covered, whatever the deeper calls answer. -/
theorem alternativesCoverType_nil (nonempty : ∀ ty, covers [] ty = false) (ty : Ty) :
    alternativesCoverType tables covers [] ty = false := by
  have noVariants : ∀ info :
    EnumInfo, (info.variants.all (fun _ => false) && !info.variants.isEmpty) = false := by
    intro info
    cases info.variants <;> simp
  have noCubes : ∀ ty, coveredByCubes [] ty = false := by
    intro ty
    simp [coveredByCubes, alternativeCubes, boolTupleCubesCoverAll, cubesCoverFrom]
  simp only [alternativesCoverType, any_nil, Bool.false_eq_true, if_false, filterMap_nil,
    isEmpty_nil, Bool.not_true, Bool.false_and, nonempty, Bool.and_false, noCubes, ite_self]
  cases ty with
  | struct name | applied name args =>
    dsimp only
    split
    · rfl
    · split <;> simp [noVariants]
  | _ => rfl

/-- One level of the coverage check is sound when the calls one level deeper are. -/
theorem alternativesCoverType_covering (sound : SoundCoverage tables openLiteral covers)
    (covered : alternativesCoverType tables covers alternatives ty = true)
    (fits : ∀ pattern ∈ alternatives, pattern.Fits tables ty) :
      Covering tables openLiteral alternatives ty := by
  unfold alternativesCoverType at covered
  split at covered
  · next binding =>
    obtain ⟨pattern, member, isBinding⟩ := any_eq_true.mp binding
    exact fun value _ => ⟨pattern, member, isBinding_matches isBinding value⟩
  extract_lets nominal at covered
  have nominalCovering : nominal = true → Covering tables openLiteral alternatives ty := by
    intro isCovered
    simp only [nominal] at isCovered
    split at isCovered
    · next context =>
      exact struct_covering sound fits context (Bool.and_eq_true_iff.mp isCovered).2
    · split at isCovered
      · next context =>
        refine enum_covering fits context sound fun variantName variant declared => ?_
        have entry := all_eq_true.mp (Bool.and_eq_true_iff.mp isCovered).1 _ declared
        simpa using entry
      · cases isCovered
  cases ty with
  | bool => exact coveredByCubes_covering covered
  | tuple types =>
    dsimp only at covered
    split at covered
    · exact coveredByCubes_covering covered
    · intro value typed
      obtain ⟨values, rfl, elements⟩ := typed.tuple_inv
      obtain ⟨pattern, member, matched⟩ := any_eq_true.mp covered
      split at matched
      · next parts =>
        simp only [Bool.and_eq_true, all_eq_true] at matched
        cases fits _ member with
        | tuple partsFit =>
          refine ⟨_, member,
            .tuple (forall₂_matches (fun entry inside value fits typed => ?_) partsFit elements)⟩
          obtain ⟨part, isPart, matches_⟩ :=
            sound.covering (matched.2 entry inside) (by simpa using fits) _ typed
          exact mem_singleton.mp isPart ▸ matches_
      · cases matched
  | struct name | applied name args => exact nominalCovering covered
  | _ => cases covered

theorem patternsCoverType_sound (levels : Nat) :
    SoundCoverage tables openLiteral (patternsCoverType tables levels) := by
  induction levels with
  | zero => exact ⟨fun covered => absurd covered (by simp [patternsCoverType]), rfl⟩
  | succ levels ih =>
    refine ⟨fun {patterns ty} covered fits value typed => ?_, alternativesCoverType_nil
      (fun _ => ih.nonempty) _⟩
    rw [patternsCoverType, patternsAlternatives_eq] at covered
    have alternativesFit : ∀ alternative ∈ patterns.flatMap patternAlternatives,
      alternative.Fits tables ty := by
      intro alternative member
      obtain ⟨pattern, isPattern, member⟩ := mem_flatMap.mp member
      exact alternative_fits member (fits pattern isPattern)
    obtain ⟨alternative, member, matched⟩ :=
      alternativesCoverType_covering ih covered alternativesFit value typed
    obtain ⟨pattern, isPattern, member⟩ := mem_flatMap.mp member
    exact ⟨pattern, isPattern, matches_of_alternative member matched⟩

end Coverage

section Check

theorem anyContainsBoolLiteral_iff (expected : Bool) (patterns : List Pattern) :
    anyContainsBoolLiteral expected patterns = true ↔
      ∃ pattern ∈ patterns, patternContainsBoolLiteral expected pattern = true := by
  induction patterns with
  | nil => simp [anyContainsBoolLiteral]
  | cons pattern rest ih => simp [anyContainsBoolLiteral, ih]

theorem containsBoolLiteral_matches {expected : Bool}
    (contains : patternContainsBoolLiteral expected pattern = true) :
      pattern.Matches openLiteral (.bool expected) := by
  induction pattern using induction_on_parts with
  | step pattern ih =>
    cases pattern with
    | literal literal =>
      cases literal with
      | boolLiteral value =>
        obtain rfl : value = expected := by simpa [patternContainsBoolLiteral] using contains
        exact .literal (.bool _)
      | _ => exact absurd contains Bool.false_ne_true
    | or patterns =>
      obtain ⟨other, member, contains⟩ := (anyContainsBoolLiteral_iff expected patterns).mp contains
      exact .or member (ih other member contains)
    | _ => exact absurd contains Bool.false_ne_true

theorem bool_covering (hasBoth : patterns.any (patternContainsBoolLiteral true) = true ∧
      patterns.any (patternContainsBoolLiteral false) = true) : Covering tables openLiteral patterns
        .bool := by
  intro value typed
  obtain ⟨b, rfl⟩ := typed.bool_inv
  have contained : patterns.any (patternContainsBoolLiteral b) = true := by
    cases b
    · exact hasBoth.2
    · exact hasBoth.1
  obtain ⟨pattern, member, contains⟩ := any_eq_true.mp contained
  exact ⟨pattern, member, containsBoolLiteral_matches contains⟩

theorem checkTupleExhaustiveness_covering (accepted : checkTupleExhaustiveness patterns ty = none) :
    Covering tables openLiteral patterns ty := by
  intro value typed
  unfold checkTupleExhaustiveness at accepted
  split at accepted
  · cases accepted
  · cases accepted
  · split at accepted
    · cases accepted
    · next collected =>
      split at accepted
      · next covers => exact boolTupleCubesCoverAll_matches collected covers typed
      · cases accepted

section
variable {info : EnumInfo}
  (accepted : checkEnumExhaustiveness tables patterns enumName info substitutions = none)
include accepted

theorem checkEnumExhaustiveness_none (declared : (variantName, variant) ∈ info.variants) :
    (∃ pattern ∈ patterns.flatMap visitEnumPatterns, pattern.isVariant enumName variantName = true)
      ∧ (variant.hasPayload = false ∨ patternsCoverType tables 65
        (((patterns.flatMap visitEnumPatterns).filter
          (Pattern.isVariant enumName variantName)).filterMap
          (variant.payloadPatternOf? enumName variantName))
            (variant.payloadType tables substitutions) = true) := by
  unfold checkEnumExhaustiveness at accepted
  extract_lets enumPatterns missing missingPayloadGuard at accepted
  split at accepted
  · cases accepted
  · next noneMissing =>
    split at accepted
    · cases accepted
    · next noneUncovered =>
      have isNamed := filter_eq_nil_iff.mp (by simpa using noneMissing : missing = []) _ declared
      have isCovered :=
        filter_eq_nil_iff.mp (by simpa using noneUncovered : missingPayloadGuard = []) _ declared
      simp only [Bool.not_eq_true', Bool.not_eq_false, any_eq_true] at isNamed
      refine ⟨isNamed, ?_⟩
      cases hasPayload : variant.hasPayload with
      | false => exact .inl rfl
      | true => exact .inr (by simpa [hasPayload] using isCovered)

theorem checkEnumExhaustiveness_covering (fits : ∀ pattern ∈ patterns, pattern.Fits tables ty)
    (context : tables.specializedEnumContextForType ty = some (enumName, info, substitutions)) :
    Covering tables openLiteral patterns ty := by
  intro value typed
  obtain ⟨variantName, variant, positional, named, rfl, declared, payload⟩ :=
    typed.variant_inv context
  obtain ⟨⟨pattern, visited, isVariant⟩, covered⟩ := checkEnumExhaustiveness_none accepted declared
  -- The patterns of this variant are alternatives of the patterns of the arms.
  have visitedFit : ∀ visited ∈ (patterns.flatMap visitEnumPatterns).filter
    (Pattern.isVariant enumName variantName),
      visited.Fits tables ty := by
    intro visited member
    obtain ⟨source, isSource, isVisited⟩ := mem_flatMap.mp (mem_filter.mp member).1
    exact alternative_fits (mem_filter.mp isVisited).1 (fits source isSource)
  obtain ⟨matching, member, matched⟩ := variant_matched visitedFit context declared payload <| by
    rcases covered with noPayload | covered
    · exact .inr ⟨noPayload, pattern, mem_filter.mpr ⟨visited, isVariant⟩, isVariant⟩
    · exact .inl
        ((patternsCoverType_sound 65).covering covered
        (payloadPatterns_fit visitedFit context declared))
  obtain ⟨source, isSource, isVisited⟩ := mem_flatMap.mp (mem_filter.mp member).1
  exact ⟨source, isSource, matches_of_alternative (mem_filter.mp isVisited).1 matched⟩

end

/-- An accepted match has, for every value of its scrutinee type, an arm without a guard that
matches. -/
theorem exhaustive_match_covers (openLiteral : Expression → DataValue → Prop) (scrutineeType : Ty)
    (arms : List MatchArm) (fits : ∀ arm ∈ arms, arm.guard = none →
      arm.pattern.Fits tables scrutineeType)
    (accepted : checkMatchExhaustiveness tables scrutineeType arms = none) (value : DataValue)
    (typed : HasType tables value scrutineeType) :
    ∃ arm ∈ arms, arm.guard = none ∧ arm.pattern.Matches openLiteral value := by
  have unguarded : ∀ pattern, pattern ∈ unguardedPatterns arms ↔ ∃ arm ∈ arms, arm.guard = none ∧
    arm.pattern = pattern := by
    intro pattern
    simp [unguardedPatterns, and_assoc]
  have patternsFit : ∀ pattern ∈ unguardedPatterns arms, pattern.Fits tables scrutineeType := by
    intro pattern member
    obtain ⟨arm, isArm, noGuard, rfl⟩ := (unguarded pattern).mp member
    exact fits arm isArm noGuard
  suffices covering : Covering tables openLiteral (unguardedPatterns arms) scrutineeType by
    obtain ⟨pattern, member, matched⟩ := covering value typed
    obtain ⟨arm, isArm, noGuard, rfl⟩ := (unguarded pattern).mp member
    exact ⟨arm, isArm, noGuard, matched⟩
  unfold checkMatchExhaustiveness at accepted
  extract_lets patterns enumCheck at accepted
  split at accepted
  · next catchAll =>
    obtain ⟨pattern, member, catchAll⟩ := any_eq_true.mp catchAll
    exact fun value typed =>
      ⟨pattern, member, catchAll_matches catchAll _ _ (patternsFit pattern member) typed⟩
  have enumCovering : enumCheck = none → Covering tables openLiteral patterns scrutineeType := by
    intro enumAccepted
    simp only [enumCheck] at enumAccepted
    split at enumAccepted
    · cases enumAccepted
    · next context => exact checkEnumExhaustiveness_covering enumAccepted patternsFit context
  cases scrutineeType with
  | enum name | applied name args => exact enumCovering accepted
  | bool =>
    dsimp only at accepted
    split at accepted
    · next hasBoth => exact bool_covering (Bool.and_eq_true_iff.mp hasBoth)
    · cases accepted
  | tuple elements => exact checkTupleExhaustiveness_covering accepted
  | _ => cases accepted

/-- `enum Shape { Flag(bool, bool), Named { inner: bool }, Empty }`. -/
def shapeInfo : EnumInfo where
  variants := [
    ("Flag", ⟨some [.simple ["bool"], .simple ["bool"]], none, .inr rfl⟩),
    ("Named", ⟨none, some [("inner", .simple ["bool"])], .inl rfl⟩),
    ("Empty", ⟨none, none, .inl rfl⟩)]
  distinct := by decide

def shapeTables : TypeTables where
  structInfos := []
  enumInfos := [("Shape", shapeInfo)]
  genericStructs := []
  genericEnums := []
  typeAnnotationToType := fun _ => .bool

def flagPattern (first : Bool) : Pattern :=
  .enumVariant none "Shape" [] "Flag" (some [.literal (.boolLiteral first), .wildcard]) none

/-- `Flag(true, _) | Flag(false, _)`, `Named { inner: x }` and `Empty`. -/
def shapeArms : List MatchArm := [
  .mk (.or [flagPattern true, flagPattern false]) none (.numberLiteral "1"),
  .mk (.enumVariant none "Shape" [] "Named" none (some [.mk "inner" (.identifier "x")])) none
    (.numberLiteral "2"),
  .mk (.enumVariant none "Shape" [] "Empty" none none) none (.numberLiteral "3")]

theorem shape_context : shapeTables.specializedEnumContextForType (.enum "Shape") = some
    ("Shape", shapeInfo, []) := rfl

theorem flagPattern_fits (first : Bool) : (flagPattern first).Fits shapeTables (.enum "Shape") := by
  refine .enumVariant shape_context mem_cons_self ?_ (by simp) (by simp) (by simp)
  rintro _ ⟨⟩
  exact .cons (.literal _ _) (.cons (.wildcard _) .nil)

theorem shapeArms_fit : ∀ arm ∈ shapeArms, arm.pattern.Fits shapeTables (.enum "Shape") := by
  intro arm member
  simp only [shapeArms, mem_cons, not_mem_nil, or_false] at member
  rcases member with rfl | rfl | rfl
  · refine .or fun pattern member => ?_
    simp only [mem_cons, not_mem_nil, or_false] at member
    rcases member with rfl | rfl <;> exact flagPattern_fits _
  · refine .enumVariant shape_context (mem_cons_of_mem _ mem_cons_self) (by simp) ?_ ?_ ?_
    all_goals
      rintro _ ⟨⟩
      simp [FieldPattern.name, FieldPattern.pattern]
    exact .identifier _ _
  · exact .enumVariant shape_context (mem_cons_of_mem _ (mem_cons_of_mem _ mem_cons_self))
      (by simp) (by simp) (by simp) (by simp)

theorem shape_match_covered :
    checkMatchExhaustiveness shapeTables (.enum "Shape") shapeArms = none ∧ ∃ arm ∈ shapeArms,
      arm.guard = none ∧
        arm.pattern.Matches (fun _ _ => False)
          (.variant "Shape" "Flag" [.bool false, .bool true] []) := by
  refine ⟨rfl, exhaustive_match_covers _ (.enum "Shape") _
    (fun arm member _ => shapeArms_fit arm member) rfl _ ?_⟩
  exact .variant shape_context mem_cons_self (.cons (.bool _) (.cons (.bool _) .nil)) rfl .nil

/-- The check does not compare patterns with the scrutinee type: a tuple of wildcards passes for
`bool`. -/
theorem tuple_pattern_accepted_for_bool :
    ∃ arms, checkMatchExhaustiveness shapeTables .bool arms = none ∧
      HasType shapeTables (.bool true) .bool ∧
      ∀ openLiteral, ¬ ∃ arm ∈ arms, arm.guard = none ∧
        arm.pattern.Matches openLiteral (.bool true) := by
  refine ⟨[.mk (.tuple [.wildcard, .wildcard]) none (.numberLiteral "1")], rfl, .bool true, ?_⟩
  rintro openLiteral ⟨arm, member, -, matched⟩
  obtain rfl := mem_singleton.mp member
  cases matched

end Check

end SpectraLang

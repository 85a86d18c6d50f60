import SpectraLang.Lowering.Builder

/-! # Escaping a returned value

`emit_escape_for_value` emits the code that moves the allocations of a returned value to the base
frame. It follows the type: records and tuples field by field, arrays element by element, enums
through a test of the tag for every variant with data. A name that is being visited already ends the
walk, and so does a nesting deeper than `maxDepth`, counted down here. Aggregate layouts come from
`layout.rs`.
-/

namespace SpectraLang

def IntWidth.storedSize : IntWidth → Nat
  | .i8 => 1
  | .i16 => 2
  | .i32 => 4
  | .i64 | .isize | .usize => 8

def FloatWidth.storedSize : FloatWidth → Nat
  | .f32 => 4
  | .f64 => 8

/-- Bytes a value occupies inside an aggregate; aggregates are stored as pointers. -/
def storedSize : IRType → Nat
  | .unknown | .void => 0
  | .bool => 1
  | .char => 4
  | .int | .float => 8
  | .exactInt _ width => width.storedSize
  | .exactFloat width => width.storedSize
  | .string | .pointer _ | .task _ | .range | .function .. | .tensor .. => 8
  | .array .. | .tuple _ | .struct .. | .enum .. => 8
  | .generic _ _ representation => storedSize representation
  | .dynTrait .. => 16

/-- Natural alignment of a stored size. -/
def alignmentOf (size : Nat) : Nat :=
  if size ≤ 1 then 1 else if size = 2 then 2 else if size ≤ 4 then 4 else 8

/-- `align_to`. -/
def alignTo (size alignment : Nat) : Nat :=
  if size % alignment = 0 then size else size + (alignment - size % alignment)

/-- The offsets of `layout_of_sizes`, continuing at the given one. -/
def offsetsFrom (offset : Nat) : List Nat → List Nat
  | [] => []
  | size :: rest =>
    let start := alignTo offset (alignmentOf size)
    start :: offsetsFrom (start + size) rest

/-- The offsets of `layout_of`. -/
def layoutOffsets (elements : List IRType) : List Nat := offsetsFrom 0 (elements.map storedSize)

/-- The elements with their offsets. -/
def layoutSlots (elements : List IRType) : List (IRType × Nat) :=
  elements.zip (layoutOffsets elements)

/-- The data of a variant with their offsets; the tag comes first. -/
def payloadSlots (data : List IRType) : List (IRType × Nat) := (layoutSlots (.int :: data)).tail

/-- Where the elements of `layout_of_sizes` end, continuing at the given offset. -/
def endFrom (offset : Nat) : List Nat → Nat
  | [] => offset
  | size :: rest => endFrom (alignTo offset (alignmentOf size) + size) rest

/-- The size of `layout_of`. -/
def layoutSize (elements : List IRType) : Nat := alignTo (endFrom 0 (elements.map storedSize)) 8

/-- `type_size_bytes`: an enumeration has room for its tag and its largest payload. -/
def typeSizeBytes : IRType → Nat
  | .array elementType size => storedSize elementType * size
  | .tuple elements => layoutSize elements
  | .struct _ fields => layoutSize (fields.map Prod.snd)
  | .enum _ variants =>
    alignTo ((variants.map fun variant => (variant.2.map layoutSize).getD 0).max?.getD 0 + 8) 8
  | .generic _ _ representation => typeSizeBytes representation
  | other => storedSize other

theorem alignTo_spec (size : Nat) {alignment : Nat} (positive : 0 < alignment) :
    size ≤ alignTo size alignment ∧ alignment ∣ alignTo size alignment := by
  have below := Nat.mod_lt size positive
  have split := Nat.div_add_mod size alignment
  unfold alignTo
  split_ifs with aligned
  · exact ⟨le_rfl, Nat.dvd_of_mod_eq_zero aligned⟩
  · refine ⟨Nat.le_add_right .., size / alignment + 1, ?_⟩
    rw [Nat.mul_add]
    omega

theorem alignmentOf_cases (size : Nat) :
    alignmentOf size = 1 ∨ alignmentOf size = 2 ∨ alignmentOf size = 4 ∨ alignmentOf size = 8 := by
  unfold alignmentOf
  split_ifs <;> simp

theorem le_endFrom (offset : Nat) (sizes : List Nat) : offset ≤ endFrom offset sizes := by
  induction sizes generalizing offset with
  | nil => exact le_rfl
  | cons size rest ih =>
    have aligned :=
      alignTo_spec offset (by have := alignmentOf_cases size; omega : 0 < alignmentOf size)
    exact (aligned.1.trans (Nat.le_add_right ..)).trans (ih _)

/-- The byte belongs to the element at its offset. -/
def Occupies (slot : IRType × Nat) (byte : Nat) : Prop := slot.2 ≤ byte ∧
    byte < slot.2 + storedSize slot.1

/-- Elements are aligned and follow each other up to the end. -/
theorem slots_from (offset : Nat) (elements : List IRType) :
    (∀ slot ∈ elements.zip (offsetsFrom offset (elements.map storedSize)),
      alignmentOf (storedSize slot.1) ∣ slot.2 ∧
      offset ≤ slot.2 ∧ slot.2 + storedSize slot.1 ≤ endFrom offset (elements.map storedSize)) ∧
    (elements.zip (offsetsFrom offset (elements.map storedSize))).Pairwise
      (fun slot later => slot.2 + storedSize slot.1 ≤ later.2) := by
  induction elements generalizing offset with
  | nil => simp
  | cons ty rest ih =>
    have aligned :=
      alignTo_spec offset
        (by have := alignmentOf_cases (storedSize ty); omega : 0 < alignmentOf (storedSize ty))
    have ends := le_endFrom (alignTo offset (alignmentOf (storedSize ty)) + storedSize ty)
      (rest.map storedSize)
    obtain ⟨within, apart⟩ := ih (alignTo offset (alignmentOf (storedSize ty)) + storedSize ty)
    simp only [List.map_cons, offsetsFrom, endFrom, List.zip_cons_cons, List.forall_mem_cons,
      List.pairwise_cons]
    refine ⟨⟨⟨aligned.2, aligned.1, ends⟩, fun slot member => ?_⟩, fun slot member =>
      (within slot member).2.1, apart⟩
    have inside := within slot member
    omega

/-- The tag in front moves the data by its eight bytes. -/
theorem layoutSize_tagged (data : List IRType) : layoutSize (.int :: data) = layoutSize data +
    8 := by
  have shift : ∀ size offset alignment, alignment = 1 ∨ alignment = 2 ∨ alignment = 4 ∨
    alignment = 8 →
      alignTo (offset + 8) alignment + size = alignTo offset alignment + size + 8 := by
    rintro size offset _ (rfl | rfl | rfl | rfl) <;> unfold alignTo <;> split_ifs <;> omega
  have moved : ∀ sizes offset, endFrom (offset + 8) sizes = endFrom offset sizes + 8 := by
    intro sizes
    induction sizes with
    | nil => exact fun _ => rfl
    | cons size rest ih =>
      intro offset
      rw [endFrom, endFrom, shift _ _ _ (alignmentOf_cases size), ih]
  have first : endFrom 0 ((IRType.int :: data).map storedSize) = endFrom (0 + 8)
    (data.map storedSize) := rfl
  rw [layoutSize, first, moved]
  exact shift 0 _ 8 (by simp)

/-- Elements are aligned, do not overlap and lie inside the aggregate, and an enumeration has room
for every payload. -/
theorem layout_sound (elements : List IRType) :
    (layoutOffsets elements).length = elements.length ∧
      (∀ slot ∈ layoutSlots elements, alignmentOf (storedSize slot.1) ∣ slot.2 ∧
        ∀ byte, Occupies slot byte → byte < layoutSize elements) ∧
      (layoutSlots elements).Pairwise
        (fun slot other => ∀ byte, ¬ (Occupies slot byte ∧ Occupies other byte)) ∧
      ∀ name variants, ∀ variant ∈ variants, ∀ data, variant.2 = some data →
        layoutSize (.int :: data) ≤ typeSizeBytes (.enum name variants) := by
  obtain ⟨within, apart⟩ := slots_from 0 elements
  have size := (alignTo_spec (endFrom 0 (elements.map storedSize)) (by decide : 0 < 8)).1
  refine ⟨?_, fun slot member => ⟨(within slot member).1, fun byte own => ?_⟩,
    apart.imp fun before byte both => ?_, ?_⟩
  · have counted : ∀ offset sizes, (offsetsFrom offset sizes).length = sizes.length := by
      intro offset sizes
      induction sizes generalizing offset with
      | nil => rfl
      | cons size rest ih => rw [offsetsFrom, List.length_cons, ih, List.length_cons]
    rw [layoutOffsets, counted, List.length_map]
  · exact own.2.trans_le ((within slot member).2.2.trans size)
  · exact (both.1.2.trans_le before).not_ge both.2.1
  · intro name variants variant member data present
    have listed : layoutSize data ∈ variants.map fun variant => (variant.2.map layoutSize).getD 0 :=
      List.mem_map.mpr ⟨variant, member, by rw [present]; rfl⟩
    have largest := List.le_max?_getD_of_mem (k := 0) listed
    rw [layoutSize_tagged]
    exact (Nat.add_le_add_right largest 8).trans (alignTo_spec _ (by decide)).1

/-- The structure and enumeration definitions of the module. -/
structure TypeDefinitions where
  structs : String → Option (List (String × IRType))
  enums : String → Option (List (String × Nat × Option (List IRType)))

namespace IRType

/-- `ir_type_representation_static`. -/
def representation : IRType → IRType
  | generic _ _ inner => inner.representation
  | other => other

/-- The name that the walk remembers. -/
def nominal? (ty : IRType) : Option String :=
  match ty.representation with
  | .struct name _ | .enum name _ => some name
  | _ => none

end IRType

/-- The fields of a structure type; a reference without a body is looked up by name. -/
def TypeDefinitions.structFields (definitions : TypeDefinitions) (name : String)
    (fields : List (String × IRType)) : List (String × IRType) :=
  if fields.isEmpty then (definitions.structs name).getD [] else fields

/-- The variants of an enumeration type, tagged by their position. -/
def taggedVariants (variants : List (String × Option (List IRType))) :
    List (String × Nat × Option (List IRType)) :=
  variants.zipIdx.map fun variant => (variant.1.1, variant.2, variant.1.2)

/-- `enum_variants_for_type`: a reference without a body is looked up by name. -/
def TypeDefinitions.enumVariants (definitions : TypeDefinitions) (name : String)
    (variants : List (String × Option (List IRType))) :
      List (String × Nat × Option (List IRType)) :=
  if variants.isEmpty then (definitions.enums name).getD [] else taggedVariants variants

/-- `carries_owned_allocation`. -/
def carriesOwnedAllocation : IRType → Bool
  | .string | .struct .. | .tuple _ | .array .. | .enum .. | .dynTrait .. | .generic .. |
      .pointer _ => true
  | _ => false

/-- `build_field_ptr` followed by `build_load_typed`. -/
def Builder.buildLoadSlot (builder : Builder) (ptr : Value) (offset : I64) (ty : IRType) :
    Value × Builder :=
  (builder.buildFieldPtr ptr offset).2.buildLoadTyped (builder.buildFieldPtr ptr offset).1 ty

section Walk
variable (walk : Value → IRType → Builder → Builder) (value : Value)

/-- The loop over the fields of a record or the elements of a tuple. -/
def escapeFields : List (IRType × Nat) → Builder → Builder
  | [], builder => builder
  | (ty, offset) :: rest, builder =>
    if carriesOwnedAllocation ty then
      let fieldValue := builder.buildLoadSlot value (BitVec.ofNat 64 offset) ty
      escapeFields rest (walk fieldValue.1 ty fieldValue.2)
    else escapeFields rest builder

/-- The loop over the indices of an array. -/
def escapeElements (elementType : IRType) : List Nat → Builder → Builder
  | [], builder => builder
  | index :: rest, builder =>
    let indexValue := builder.buildConstInt (BitVec.ofNat 64 index)
    let elementPtr := indexValue.2.buildGetElementPtr value indexValue.1 elementType
    let elementValue := elementPtr.2.buildLoadTyped elementPtr.1 elementType
    escapeElements elementType rest (walk elementValue.1 elementType elementValue.2)

/-- The loop over the data of the active variant; every slot is escaped, whatever its type. -/
def escapePayload : List (IRType × Nat) → Builder → Builder
  | [], builder => builder
  | (ty, offset) :: rest, builder =>
    let payload := builder.buildLoadSlot value (BitVec.ofNat 64 offset) ty
    let escaped := payload.2.buildEscapeManualAlloc payload.1
    escapePayload rest (if carriesOwnedAllocation ty then walk payload.1 ty escaped else escaped)

/-- The tests of the tag, one for each variant with data. -/
def escapeVariants (tag : Value) (done : BlockId) : List (String × Nat × Option (List IRType)) →
    Builder → Builder
  | [], builder => builder
  | (_, _, none) :: rest, builder => escapeVariants tag done rest builder
  | (_, index, some data) :: rest, builder =>
    let currentVariant := builder.addBlock "enum_escape_variant"
    let nextVariant := currentVariant.2.addBlock "enum_escape_next"
    let expected := nextVariant.2.buildConstInt (BitVec.ofNat 64 index)
    let isActive := expected.2.buildEq tag expected.1
    let tested := isActive.2.buildCondBranch isActive.1 currentVariant.1 nextVariant.1
    let walked := escapePayload walk value (payloadSlots data)
      (tested.setCurrentBlock currentVariant.1)
    let left := if walked.isTerminated then walked else walked.buildBranch done
    escapeVariants tag done rest (left.setCurrentBlock nextVariant.1)

/-- The code for an enumeration value. -/
def escapeEnum (variants : List (String × Option (List IRType))) (builder : Builder) : Builder :=
  let tag := builder.buildLoadSlot value 0 .int
  let done := tag.2.addBlock "enum_escape_done"
  let tested := escapeVariants walk value tag.1 done.1 (taggedVariants variants) done.2
  (tested.buildBranch done.1).setCurrentBlock done.1

end Walk

/-- Deeper nesting is not walked. -/
def maxDepth : Nat := 16

/-- `emit_escape_for_value_inner`, given how many levels may still be entered. -/
def emitEscapeForValueInner (definitions : TypeDefinitions) : Nat → List String → Value → IRType →
    Builder → Builder
  | 0, _, _, _, builder => builder
  | levels + 1, seen, value, ty, builder =>
    match ty.representation with
    | .struct name fields =>
      if name ∈ seen then builder
      else escapeFields (emitEscapeForValueInner definitions levels (name :: seen)) value
        (layoutSlots ((definitions.structFields name fields).map Prod.snd))
          (builder.buildEscapeManualAlloc value)
    | .tuple elements =>
      escapeFields (emitEscapeForValueInner definitions levels seen) value (layoutSlots elements)
        (builder.buildEscapeManualAlloc value)
    | .array elementType size =>
      let escaped := builder.buildEscapeManualAlloc value
      if carriesOwnedAllocation elementType then
        escapeElements (emitEscapeForValueInner definitions levels seen) value elementType
          (List.range size) escaped
      else escaped
    | .enum name variants =>
      if name ∈ seen then builder
      else escapeEnum (emitEscapeForValueInner definitions levels (name :: seen)) value variants
        (builder.buildEscapeManualAlloc value)
    | .dynTrait .. | .pointer _ | .string => builder.buildEscapeManualAlloc value
    | _ => builder

/-- `emit_escape_for_value`. -/
def emitEscapeForValue (definitions : TypeDefinitions) (value : Value) (ty : IRType)
    (builder : Builder) : Builder :=
  emitEscapeForValueInner definitions (maxDepth + 1) [] value ty builder

end SpectraLang

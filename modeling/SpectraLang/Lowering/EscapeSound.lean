import SpectraLang.Lowering.Escape
import SpectraLang.Lowering.Fragments
import SpectraLang.Runtime.AllocationTable

/-! # What the escape code moves

Values are words; an aggregate is the address of its allocation. `typedFields` lists the fields of a
value by its type, for an enumeration those of the active variant. The emitted code escapes the
words of `visited`, in that order, and loads only tags and typed fields. A word is visited exactly
when the walk follows a path to it (`Followed`): at most `maxDepth` fields, no name repeated, and no
enumeration whose type lacks its variants. So returning a value keeps all it reaches alive exactly
when every allocation is reached along such a path and the budget covers them.
-/

open Function

namespace SpectraLang

open List Relation

/-- What a typed load reads. -/
abbrev TypedMemory := IRType → I64 → I64

/-- Memory, the runtime, and the frame the function has entered. -/
structure RuntimeWorld where
  memory : TypedMemory
  runtime : RuntimeState
  frame : Nat

def computeWord (world : RuntimeWorld) : InstructionKind → List I64 → I64
  | .constInt _ value, _ => value
  | .fieldPtr _ _ offset, [ptr] => ptr + offset
  | .getElementPtr _ _ _ elementType _, ptr :: index :: _ =>
    ptr + index * BitVec.ofNat 64 (storedSize elementType)
  | .load _ _ ty, [ptr] => world.memory ty ptr
  | .binary .eq .., [lhs, rhs] => if lhs = rhs then 1 else 0
  | _, _ => 0

def performEscape (world : RuntimeWorld) : InstructionKind → List I64 →
    Except Trap (RuntimeWorld × List I64)
  | .escapeManualAlloc _, [ptr] =>
    (world.runtime.manualEscape ptr world.frame).map fun runtime => ({ world with runtime }, [])
  | _, _ => .ok (world, [])

/-- The instructions of the escape code as the backend translates them; it contains no others. -/
def runtimeMachine : Machine I64 RuntimeWorld where
  compute kind _ args world := computeWord world kind args
  trap _ _ := none
  perform kind args world := performEscape world kind args
  isTrue word := word != 0
  matchesCase word label := word == label

section Reachability
variable (definitions : TypeDefinitions) (memory : TypedMemory)

/-- The slots of an aggregate at their addresses. -/
def placed (word : I64) (slots : List (IRType × Nat)) : List (IRType × I64) :=
  slots.map fun slot => (slot.1, word + BitVec.ofNat 64 slot.2)

/-- The data of the variant with the tag. -/
def activeData (variants : List (String × Nat × Option (List IRType))) (tag : I64) :
    Option (List IRType) :=
  variants.findSome? fun variant => if BitVec.ofNat 64 variant.2.1 = tag then variant.2.2 else none

/-- The typed fields of a value with their addresses. -/
def typedFields (word : I64) (ty : IRType) : List (IRType × I64) :=
  match ty.representation with
  | .struct name fields =>
    placed word (layoutSlots ((definitions.structFields name fields).map Prod.snd))
  | .tuple elements => placed word (layoutSlots elements)
  | .array elementType size => (List.range size).map fun index =>
      (elementType, word + BitVec.ofNat 64 index * BitVec.ofNat 64 (storedSize elementType))
  | .enum name variants =>
    match activeData (definitions.enumVariants name variants) (memory .int word) with
    | some data => placed word (payloadSlots data)
    | none => []
  | _ => []

/-- One typed value is in a field of the other. -/
def FieldOf (container content : I64 × IRType) : Prop :=
  ∃ address, (content.2, address) ∈ typedFields definitions memory container.1 container.2 ∧
    content.1 = memory content.2 address

/-- Reachability through typed fields. -/
def ReachesTyped : I64 × IRType → I64 × IRType → Prop := ReflTransGen (FieldOf definitions memory)

def isEnum (ty : IRType) : Bool :=
  match ty.representation with
  | .enum .. => true
  | _ => false

/-- The type is an enumeration whose variants are not at hand. -/
def isOpaqueEnum (ty : IRType) : Bool :=
  match ty.representation with
  | .enum _ variants => variants.isEmpty
  | _ => false

/-- A load that inspects a value reached from the root: a tag or a typed field. -/
def Inspects (root : I64 × IRType) (ty : IRType) (address : I64) : Prop :=
  ∃ value, ReachesTyped definitions memory root value ∧
    ((ty, address) ∈ typedFields definitions memory value.1 value.2 ∨ isEnum value.2 = true ∧
      ty = .int ∧ address = value.1)

/-- The walk with that many levels left, inside the seen names, escapes the target at the typed
value. -/
@[mk_iff]
inductive Followed : Nat → List String → I64 → IRType → I64 → Prop where
  | here {levels : Nat} {seen : List String} {word : I64} {ty : IRType}
      (new : ∀ name ∈ ty.nominal?, name ∉ seen)
      (owned : carriesOwnedAllocation ty.representation = true) :
        Followed (levels + 1) seen word ty word
  | slot {levels : Nat} {seen : List String} {word address : I64} {ty fieldTy : IRType}
      (new : ∀ name ∈ ty.nominal?, name ∉ seen) (variant : isEnum ty = true)
        (known : isOpaqueEnum ty = false)
      (field : (fieldTy, address) ∈ typedFields definitions memory word ty) :
      Followed (levels + 1) seen word ty (memory fieldTy address)
  | field {levels : Nat} {seen : List String} {word address target : I64} {ty fieldTy : IRType}
      (new : ∀ name ∈ ty.nominal?, name ∉ seen) (known : isOpaqueEnum ty = false)
      (field : (fieldTy, address) ∈ typedFields definitions memory word ty)
      (carried : carriesOwnedAllocation fieldTy = true)
      (rest : Followed levels (ty.nominal?.toList ++ seen) (memory fieldTy address) fieldTy
        target) :
      Followed (levels + 1) seen word ty target

/-- The words the walk escapes, in order. -/
def visited : Nat → List String → I64 → IRType → List I64
  | 0, _, _, _ => []
  | levels + 1, seen, word, ty =>
    if ∃ name ∈ ty.nominal?, name ∈ seen then []
    else
      (if carriesOwnedAllocation ty.representation then [word] else []) ++
        (if isOpaqueEnum ty then [] else typedFields definitions memory word ty).flatMap
          fun field =>
          let content := memory field.1 field.2
          (if isEnum ty then [content] else []) ++
            if carriesOwnedAllocation field.1 then visited levels (ty.nominal?.toList ++ seen)
              content field.1 else []

theorem mem_visited_iff {levels : Nat} {seen : List String} {word target : I64} {ty : IRType} :
    target ∈ visited definitions memory levels seen word ty ↔
      Followed definitions memory levels seen word ty target := by
  induction levels generalizing seen word ty with
  | zero => exact ⟨fun member => (nomatch member), fun followed => nomatch followed⟩
  | succ levels ih =>
    rw [followed_iff, visited]
    by_cases repeated : ∃ name ∈ ty.nominal?, name ∈ seen
    · grind
    · simp only [if_neg repeated, mem_append, mem_flatMap, mem_ite_nil_right]
      grind

/-- Loads only inspect the value. -/
def Inspecting (root : I64 × IRType) (kind : InstructionKind) (env : Value → I64) : Prop :=
  ∀ result ptr ty, kind = .load result ptr ty → Inspects definitions memory root ty (env ptr)

end Reachability

section Emission
variable (memory : TypedMemory) (allowed : IRType → I64 → Prop)

/-- Loads read only what is allowed. -/
def Loads (kind : InstructionKind) (env : Value → I64) : Prop :=
  ∀ result ptr ty, kind = .load result ptr ty → allowed ty (env ptr)

/-- The words have been escaped; registers below the bound are as before. -/
def Escaped (bound : Value) (config : Config I64 RuntimeWorld) (words : List I64)
    (config' : Config I64 RuntimeWorld) : Prop :=
  AgreeBelow bound config.env config'.env ∧ ∃ runtime,
    config.world.runtime.escapeAll config.world.frame words = .ok runtime ∧
      config'.world = { config.world with runtime }

/-- Escaping the words ends the run. -/
def Breached (config : Config I64 RuntimeWorld) (words : List I64) (last : State I64 RuntimeWorld) :
    Prop :=
  ∃ trap trace, config.world.runtime.escapeAll config.world.frame words = .error trap ∧
    last = .trapped trap trace

/-- The code from `before` to `after` escapes the words in every run whose registers satisfy
`known`. -/
structure Escapes (before after : Builder) (known : (Value → I64) → Prop) (words : List I64) :
    Prop where
  start : before.Ready
  grows : before.Grows after
  ready : after.Ready
  runs : ∀ ⦃function⦄, after.function.Extends function → ∀ ⦃config : Config I64 RuntimeWorld⦄,
    known config.env → config.world.memory = memory →
    Proceeds runtimeMachine function (Loads allowed) before.point config
      (fun point config' => point = after.point ∧ Escaped before.function.nextValueId config words
        config')
      (Breached config words)

/-- The predicate looks only at registers below the bound. -/
def Stable (bound : Value) (known : (Value → I64) → Prop) : Prop :=
  ∀ ⦃env env'⦄, AgreeBelow bound env env' → known env → known env'

variable {memory allowed} {before middle after builder : Builder}
  {known known' : (Value → I64) → Prop} {words words' : List I64}

/-- The code is reached and the register holds the word. -/
def Holds (live : Prop) (value : Value) (word : I64) (env : Value → I64) : Prop :=
  live ∧ env value = word

variable {bound : Value}

theorem Holds.stable (live : Prop) {value : Value} (below : value < bound) (word : I64) :
    Stable bound (Holds live value word) :=
  fun _ _ agree holds => ⟨holds.1, (agree below).trans holds.2⟩

theorem Escaped.trans {bound' : Value} {first second third : Config I64 RuntimeWorld}
    (earlier : Escaped bound first words second) (later : Escaped bound' second words' third)
      (le : bound ≤ bound') :
    Escaped bound first (words ++ words') third := by
  obtain ⟨agree, runtime, escaped, world⟩ := earlier
  obtain ⟨agree', runtime', escaped', world'⟩ := later
  rw [world] at escaped' world'
  refine ⟨agree.trans agree' le, runtime', ?_, world'⟩
  rw [RuntimeState.escapeAll_append, escaped]
  exact escaped'

variable {last : State I64 RuntimeWorld}

theorem Escaped.breached {first second : Config I64 RuntimeWorld}
    (earlier : Escaped bound first words second) (later : Breached second words' last) :
    Breached first (words ++ words') last := by
  obtain ⟨-, runtime, escaped, world⟩ := earlier
  obtain ⟨trap, trace, failed, rfl⟩ := later
  rw [world] at failed
  refine ⟨trap, trace, ?_, rfl⟩
  rw [RuntimeState.escapeAll_append, escaped]
  exact failed

variable {config : Config I64 RuntimeWorld}

theorem Breached.append
    (breached : Breached config words last) (words' : List I64) :
      Breached config (words ++ words') last := by
  obtain ⟨trap, trace, failed, rfl⟩ := breached
  refine ⟨trap, trace, ?_, rfl⟩
  rw [RuntimeState.escapeAll_append, failed]
  rfl

namespace Escapes

theorem refl (ready : builder.Ready) : Escapes memory allowed builder builder known [] where
  start := ready
  grows := .refl builder
  ready := ready
  runs _ _ config _ _ :=
    (Flows.refl builder.point config).proceeds ⟨rfl, .refl _ _, config.world.runtime, rfl, rfl⟩

theorem weaken (escapes : Escapes memory allowed before after known words)
    (stronger : ∀ env, known' env → known env) : Escapes memory allowed before after known' words :=
  { escapes with
    runs := fun _ extended _ holds same => escapes.runs extended (stronger _ holds) same }

theorem trans (first : Escapes memory allowed before middle known words)
    (stable : Stable before.function.nextValueId known)
    (second : Escapes memory allowed middle after known words') :
    Escapes memory allowed before after known (words ++ words') where
  start := first.start
  grows := first.grows.trans first.start.bounded second.grows
  ready := second.ready
  runs function extended config holds same := by
    have earlier := first.runs (second.grows.extended.trans extended) holds same
    rcases earlier with ⟨n, _, config', flows, rfl, escaped⟩ | ⟨n, last, stops, breached⟩
    · have world : config'.world.memory = memory := by
        obtain ⟨-, runtime, -, world⟩ := escaped
        rw [world, same]
      rcases second.runs extended (stable escaped.1 holds) world with
        ⟨m, _, config'', flows', rfl, escaped'⟩ | ⟨m, last, stops, breached⟩
      · exact (flows.trans flows').proceeds
          ⟨rfl, escaped.trans escaped' first.grows.extended.values⟩
      · exact (flows.stops stops).proceeds (escaped.breached breached)
    · exact stops.proceeds (breached.append words')

theorem emit {make : Value → InstructionKind} (plain : Plain make) (start : builder.Ready)
    (stable : Stable builder.function.nextValueId known) (word : I64)
    (permitted : ∀ env, known env → Loads allowed (make builder.function.nextValueId) env)
    (computed : ∀ env, known env → ∀ world : RuntimeWorld, world.memory = memory →
      computeWord world (make builder.function.nextValueId)
        ((make builder.function.nextValueId).reads.map env) = word)
    (rest : Escapes memory allowed (builder.emit make).2 after
      (fun env => known env ∧ env (builder.emit make).1 = word) words) :
    Escapes memory allowed builder after known words where
  start := start
  grows := (plain.emit start).1.trans start.bounded rest.grows
  ready := rest.ready
  runs function extended config holds same := by
    have value : ∀ count, runtimeMachine.compute (make builder.function.nextValueId) count
        ((make builder.function.nextValueId).reads.map config.env) config.world = word :=
      fun _ => computed _ holds config.world same
    obtain ⟨env, agree, reads, flows⟩ :=
      flows_emit plain start (rest.grows.extended.trans extended) (permitted _ holds) value
    rcases @rest.runs function extended { config with env } ⟨stable agree holds, reads⟩ same with
      ⟨n, _, config', flows', rfl, agree', escaped⟩ | ⟨n, last, stops, breached⟩
    · exact (flows.trans flows').proceeds
        ⟨rfl, agree.trans agree' (plain.emit start).1.extended.values, escaped⟩
    · exact (flows.stops stops).proceeds breached

theorem escape (start : builder.Ready) (ptr : Value) {word : I64}
    (holds : ∀ env, known env → env ptr = word) :
    Escapes memory allowed builder (builder.buildEscapeManualAlloc ptr) known [word] where
  start := start
  grows := (start.push rfl).1
  ready := (start.push rfl).2
  runs function extended config known same := by
    have pointer := holds _ known
    have permitted : Loads allowed (.escapeManualAlloc ptr) config.env :=
      fun _ _ _ load => nomatch load
    have performed : ∀ count, runtimeMachine.exec (.escapeManualAlloc ptr) count
        (InstructionKind.reads (.escapeManualAlloc ptr) |>.map config.env) config.world =
        (config.world.runtime.manualEscape word config.world.frame).map
          fun runtime => ({ config.world with runtime }, []) := by
      intro count
      rw [← pointer]
      rfl
    cases outcome : config.world.runtime.manualEscape word config.world.frame with
    | error trap =>
      simp only [outcome, Except.map] at performed
      refine (stops_instruction start extended rfl permitted performed).proceeds ⟨trap, _, ?_, rfl⟩
      rw [RuntimeState.escapeAll, outcome]
      rfl
    | ok runtime =>
      simp only [outcome, Except.map] at performed
      refine (flows_instruction start extended rfl permitted performed).proceeds
        ⟨rfl, .refl _ _, runtime, ?_, rfl⟩
      rw [RuntimeState.escapeAll, outcome]
      rfl

end Escapes

theorem Stable.and (first : Stable bound known) (second : Stable bound known') :
    Stable bound fun env => known env ∧ known' env :=
  fun _ _ agree holds => ⟨first agree holds.1, second agree holds.2⟩

variable {address : I64} {env : Value → I64}

section Loads
variable {live : Prop} {value : Value} {word : I64} {ty : IRType}

theorem plain_load (ptr : Value) (ty : IRType) : Plain fun result => .load result ptr ty :=
  fun _ => ⟨rfl, rfl, rfl, rfl⟩

theorem plain_fieldPtr (ptr : Value) (offset : I64) :
    Plain fun result => .fieldPtr result ptr offset :=
  fun _ => ⟨rfl, rfl, rfl, rfl⟩

theorem plain_constInt (value : I64) : Plain fun result => .constInt result value :=
  fun _ => ⟨rfl, rfl, rfl, rfl⟩

theorem plain_getElementPtr (ptr index : Value) (ty : IRType) :
    Plain fun result => .getElementPtr result ptr index ty none :=
  fun _ => ⟨rfl, rfl, rfl, rfl⟩

theorem loads_load {result ptr : Value} (inspects : live → allowed ty address)
    (holds : Holds live ptr address env) : Loads allowed (.load result ptr ty) env := by
  rintro _ _ _ ⟨⟩
  rw [holds.2]
  exact inspects holds.1

theorem Escapes.load {ptr : Value} (start : builder.Ready)
    (stable : Stable builder.function.nextValueId known)
      (pointer : ∀ env, known env → Holds live ptr address env)
    (inspects : live → allowed ty address)
      (rest : Escapes memory allowed (builder.buildLoadTyped ptr ty).2 after
      (fun env => known env ∧ Holds live (builder.buildLoadTyped ptr ty).1 (memory ty address) env)
        words) :
    Escapes memory allowed builder after known words := by
  refine Escapes.emit (plain_load ptr ty) start stable (memory ty address)
    (fun env holds => loads_load inspects (pointer env holds)) ?_ ?_
  · intro env holds world same
    simp only [InstructionKind.reads, map_cons, map_nil, computeWord, (pointer env holds).2, same]
  · exact rest.weaken fun env holds => ⟨holds.1, (pointer env holds.1).1, holds.2⟩

theorem Escapes.loadSlot (start : builder.Ready) (below : value < builder.function.nextValueId)
    {offset : I64} (inspects : live → allowed ty (word + offset))
    (rest : Escapes memory allowed (builder.buildLoadSlot value offset ty).2 after (fun env =>
      Holds live value word env ∧ Holds live (builder.buildLoadSlot value offset ty).1
        (memory ty (word + offset)) env)
      words) : Escapes memory allowed builder after (Holds live value word) words := by
  obtain ⟨grows, ready⟩ := (plain_fieldPtr value offset).emit start
  have below' := below.trans_le grows.extended.values
  refine Escapes.emit (plain_fieldPtr value offset) start (Holds.stable live below word)
    (word + offset) (fun _ _ _ _ _ load => nomatch load) ?_ ?_
  · intro env holds world _
    simp only [InstructionKind.reads, map_cons, map_nil, computeWord, holds.2]
  · refine .weaken
      (.load ready ((Holds.stable live below' word).and (Holds.stable live (start.emit_lt _) _))
      (fun env holds => holds.2) inspects (rest.weaken fun env holds => ⟨holds.1.1, holds.2⟩)) ?_
    exact fun env holds => ⟨holds.1, holds.1.1, holds.2⟩

theorem loadSlot_ready (start : builder.Ready) (value : Value) (offset : I64) (ty : IRType) :
    (builder.buildLoadSlot value offset ty).2.Ready ∧
      builder.Grows (builder.buildLoadSlot value offset ty).2 ∧
      (builder.buildLoadSlot value offset ty).1 <
        (builder.buildLoadSlot value offset ty).2.function.nextValueId := by
  obtain ⟨grows, ready⟩ := (plain_fieldPtr value offset).emit start
  obtain ⟨grows', ready'⟩ := (plain_load (builder.buildFieldPtr value offset).1 ty).emit ready
  exact ⟨ready', grows.trans start.bounded grows', ready.emit_lt _⟩

variable (memory allowed live) in
/-- The walk escapes the words of the value that the slot holds. -/
def Walks (walk : Value → IRType → Builder → Builder) (ty : IRType) (address : I64)
    (words : List I64) : Prop :=
  ∀ ⦃builder value⦄, builder.Ready → value < builder.function.nextValueId →
    Escapes memory allowed builder (walk value ty builder) (Holds live value (memory ty address))
      words

variable {walk : Value → IRType → Builder → Builder} (inner : IRType → I64 → List I64)

/-- A loop escapes the words of its items in order. -/
theorem Escapes.loop {α : Type*} {code : List α → Builder → Builder} (body : α → Builder → Builder)
    {own : α → List I64} (stop : ∀ builder, code [] builder = builder)
    (turn : ∀ item rest builder, code (item :: rest) builder = code rest (body item builder))
      {items : List α}
    (bodies : ∀ item ∈ items, ∀ ⦃builder⦄, builder.Ready → value < builder.function.nextValueId →
      Escapes memory allowed builder (body item builder) (Holds live value word) (own item))
    (start : builder.Ready) (below : value < builder.function.nextValueId) :
    Escapes memory allowed builder (code items builder) (Holds live value word)
      (items.flatMap own) := by
  induction items generalizing builder with
  | nil =>
    rw [stop]
    exact .refl start
  | cons item rest ih =>
    have first := bodies item mem_cons_self start below
    have later := fun other member => bodies other (mem_cons_of_mem item member)
    rw [turn, flatMap_cons]
    exact first.trans (.stable live below word)
      (ih later first.ready (below.trans_le first.grows.extended.values))

section
variable {slots : List (IRType × Nat)} (start : builder.Ready)
  (below : value < builder.function.nextValueId)
  (inspects : live → ∀ field ∈ placed word slots, allowed field.1 field.2)
  (walks : ∀ field ∈ placed word slots, carriesOwnedAllocation field.1 = true →
    Walks memory allowed live walk field.1 field.2 (inner field.1 (memory field.1 field.2)))
include start below inspects walks

theorem escapes_fields :
    Escapes memory allowed builder (escapeFields walk value slots builder) (Holds live value word)
      ((placed word slots).flatMap fun field =>
        if carriesOwnedAllocation field.1 then inner field.1 (memory field.1 field.2) else []) := by
  rw [placed, flatMap_map]
  refine Escapes.loop (fun slot builder =>
    let loaded := builder.buildLoadSlot value (BitVec.ofNat 64 slot.2) slot.1
    if carriesOwnedAllocation slot.1 then walk loaded.1 slot.1 loaded.2 else builder)
      (fun _ => rfl) ?_ ?_ start below
  · intro slot rest builder
    exact (apply_ite (escapeFields walk value rest) _ _ _).symm
  · rintro ⟨ty, offset⟩ member builder start below
    have here := mem_map_of_mem (f := fun slot => (slot.1, word + BitVec.ofNat 64 slot.2)) member
    by_cases carried : carriesOwnedAllocation ty = true
    · obtain ⟨ready, -, lt⟩ := loadSlot_ready start value (BitVec.ofNat 64 offset) ty
      simp only [if_pos carried]
      exact .loadSlot start below (fun alive => inspects alive _ here)
        ((walks _ here carried ready lt).weaken fun env holds => holds.2)
    · simp only [if_neg carried]
      exact .refl start

theorem escapes_payload :
    Escapes memory allowed builder (escapePayload walk value slots builder) (Holds live value word)
      ((placed word slots).flatMap fun field => [memory field.1 field.2] ++
        if carriesOwnedAllocation field.1 then inner field.1 (memory field.1 field.2) else []) := by
  rw [placed, flatMap_map]
  refine Escapes.loop (fun slot builder =>
    let payload := builder.buildLoadSlot value (BitVec.ofNat 64 slot.2) slot.1
    let escaped := payload.2.buildEscapeManualAlloc payload.1
    if carriesOwnedAllocation slot.1 then walk payload.1 slot.1 escaped else escaped) (fun _ => rfl)
      (fun _ _ _ => rfl) ?_
    start below
  rintro ⟨ty, offset⟩ member builder start below
  have here := mem_map_of_mem (f := fun slot => (slot.1, word + BitVec.ofNat 64 slot.2)) member
  obtain ⟨ready, grows, lt⟩ := loadSlot_ready start value (BitVec.ofNat 64 offset) ty
  have below' := below.trans_le grows.extended.values
  have payload : ∀ env, Holds live value word env ∧
    Holds live (builder.buildLoadSlot value (BitVec.ofNat 64 offset) ty).1
      (memory ty (word + BitVec.ofNat 64 offset)) env →
        env (builder.buildLoadSlot value (BitVec.ofNat 64 offset) ty).1 =
      memory ty (word + BitVec.ofNat 64 offset) := fun env holds => holds.2.2
  have escaped : Escapes memory allowed _ _ _ _ := .escape ready _ payload
  refine .loadSlot start below (fun alive => inspects alive _ here) ?_
  by_cases carried : carriesOwnedAllocation ty = true
  · have walked := walks _ here carried escaped.ready (lt.trans_le escaped.grows.extended.values)
    simp only [if_pos carried]
    exact escaped.trans ((Holds.stable live below' word).and (.stable live lt _))
      (walked.weaken fun env holds => holds.2)
  · simp only [if_neg carried, append_nil]
    exact escaped

end

/-- The address of an element. -/
private def elementAddress (word : I64) (elementType : IRType) (index : Nat) : I64 :=
  word + BitVec.ofNat 64 index * BitVec.ofNat 64 (storedSize elementType)

theorem escapes_elements {elementType : IRType} {indices : List Nat} (start : builder.Ready)
    (below : value < builder.function.nextValueId)
    (inspects : live → ∀ index ∈ indices,
      allowed elementType (elementAddress word elementType index))
    (walks : ∀ index ∈ indices, Walks memory allowed live walk elementType
      (elementAddress word elementType index)
      (inner elementType (memory elementType (elementAddress word elementType index)))) :
    Escapes memory allowed builder (escapeElements walk value elementType indices builder)
      (Holds live value word)
      (indices.flatMap fun index => inner elementType
        (memory elementType (elementAddress word elementType index))) := by
  refine Escapes.loop (fun index builder =>
    let indexValue := builder.buildConstInt (BitVec.ofNat 64 index)
    let elementPtr := indexValue.2.buildGetElementPtr value indexValue.1 elementType
    let elementValue := elementPtr.2.buildLoadTyped elementPtr.1 elementType
    walk elementValue.1 elementType elementValue.2) (fun _ => rfl) (fun _ _ _ => rfl) ?_ start below
  intro index member builder start below
  obtain ⟨grows, ready⟩ := (plain_constInt (BitVec.ofNat 64 index)).emit start
  have indexed := start.emit_lt fun result => .constInt result (BitVec.ofNat 64 index)
  have below₁ := below.trans_le grows.extended.values
  let indexValue := builder.buildConstInt (BitVec.ofNat 64 index)
  have plain := plain_getElementPtr value indexValue.1 elementType
  obtain ⟨grows', ready'⟩ := plain.emit ready
  refine .emit (plain_constInt (BitVec.ofNat 64 index)) start (Holds.stable live below word)
    (BitVec.ofNat 64 index) (fun _ _ _ _ _ load => nomatch load) (fun _ _ _ _ => rfl) ?_
  refine .emit plain ready
    ((Holds.stable live below₁ word).and fun _ _ agree same => (agree indexed).trans same)
    (elementAddress word elementType index) (fun _ _ _ _ _ load => nomatch load) ?_ ?_
  · intro env holds world _
    have position : env indexValue.1 = BitVec.ofNat 64 index := holds.2
    simp only [InstructionKind.reads, ArrayBound.reads, map_cons, map_nil, append_nil, computeWord,
      holds.1.2, position, elementAddress]
  obtain ⟨-, ready''⟩ :=
    (plain_load (indexValue.2.buildGetElementPtr value indexValue.1 elementType).1 elementType).emit
      ready'
  have walked := walks index member ready'' (ready'.emit_lt _)
  refine .weaken (.load ready' (.stable live (ready.emit_lt _) _) (fun env holds => holds)
    (fun alive => inspects alive index member) (walked.weaken fun env holds => holds.2)) ?_
  exact fun env holds => ⟨holds.1.1.1, holds.2⟩

end Loads

variable {data : List IRType}

section Variants
variable {live : Prop} {value tag : Value} {word tagWord : I64} {done : BlockId}

theorem plain_eq (lhs rhs : Value) : Plain fun result => .binary .eq result lhs rhs :=
  fun _ => ⟨rfl, rfl, rfl, rfl⟩

theorem Escaped.quiet (agree : AgreeBelow bound config.env env) :
    Escaped bound config [] { config with env } :=
  ⟨agree, config.world.runtime, rfl, rfl⟩

variable (memory allowed live value tag word tagWord done) in
/-- The code from `before` to `after` escapes the words and leaves for the block `done`. -/
structure Tests (before after : Builder) (words : List I64) : Prop where
  grows : before.Grows after
  bounded : after.Bounded
  awaits : after.Awaits done
  runs : ∀ ⦃function⦄, after.function.Extends function → ∀ ⦃config : Config I64 RuntimeWorld⦄,
    Holds live value word config.env → config.env tag = tagWord → config.world.memory = memory →
    Proceeds runtimeMachine function (Loads allowed) before.point config
      (fun point config' => point = ⟨done, 0⟩ ∧ Escaped before.function.nextValueId config words
        config')
      (Breached config words)

theorem Escapes.leaves (escapes : Escapes memory allowed before after (Holds live value word) words)
    (awaits : after.Awaits done) :
    Tests memory allowed live value tag word tagWord done before (after.buildBranch done)
      words := by
  obtain ⟨grows, bounded⟩ := escapes.ready.terminate (.branch done)
  refine ⟨escapes.grows.trans escapes.start.bounded grows, bounded,
    awaits.grows escapes.ready.bounded grows, ?_⟩
  intro function extended config holds _ same
  refine (escapes.runs (grows.extended.trans extended) holds same).bind ?_
  rintro _ config' ⟨rfl, escaped⟩
  have target : runtimeMachine.target config'.env (.branch done) = some done := rfl
  obtain ⟨env, agree, leave⟩ := flows_enter escapes.ready extended awaits target
  rw [awaits.point_eq] at leave
  have left := escaped.trans (.quiet agree) escapes.grows.extended.values
  rw [append_nil] at left
  exact leave.proceeds ⟨rfl, left⟩

/-- The comparison of the tag with a position, in the block where the test starts. -/
private def compared (builder : Builder) (tag : Value) (index : Nat) : Value × Builder :=
  let expected := builder.buildConstInt (BitVec.ofNat 64 index)
  expected.2.buildEq tag expected.1

theorem compared_grows (ready : builder.Ready) (tag : Value) (index : Nat) :
    builder.Grows (compared builder tag index).2 ∧ (compared builder tag index).2.Ready := by
  obtain ⟨grows, ready'⟩ := (plain_constInt (BitVec.ofNat 64 index)).emit ready
  obtain ⟨grows', ready''⟩ := (plain_eq tag (builder.buildConstInt (BitVec.ofNat 64 index)).1).emit
    ready'
  exact ⟨grows.trans ready.bounded grows', ready''⟩

theorem flows_compared {function : Function} (ready : builder.Ready)
    (below : tag < builder.function.nextValueId) (index : Nat)
    (extended : (compared builder tag index).2.function.Extends function) :
    ∃ env, AgreeBelow builder.function.nextValueId config.env env ∧
      env (compared builder tag index).1 =
        (if config.env tag = BitVec.ofNat 64 index then 1 else 0) ∧
      Flows runtimeMachine function (Loads allowed) builder.point config 2
        (compared builder tag index).2.point { config with env } := by
  obtain ⟨grows, ready'⟩ := (plain_constInt (BitVec.ofNat 64 index)).emit ready
  have plain := plain_eq tag (builder.buildConstInt (BitVec.ofNat 64 index)).1
  obtain ⟨env₁, agree₁, position, first⟩ :=
    @flows_emit _ _ runtimeMachine function (Loads allowed) _
    config _ (plain_constInt (BitVec.ofNat 64 index)) ready
      ((plain.emit ready').1.extended.trans extended) nofun _
    fun _ => rfl
  obtain ⟨env₂, agree₂, outcome, second⟩ :=
    @flows_emit _ _ runtimeMachine function (Loads allowed) _
    { config with env := env₁ } _ plain ready' extended nofun _ fun _ => rfl
  refine ⟨env₂, agree₁.trans agree₂ grows.extended.values, outcome.trans ?_, first.trans second⟩
  change (if env₁ tag = env₁ (builder.buildConstInt (BitVec.ofNat 64 index)).1 then
    (1 : I64) else 0) = _
  rw [agree₁ below]
  exact congrArg (fun word => if config.env tag = word then (1 : I64) else 0) position

variable (allowed tag tagWord) in
/-- Two steps lead from `before` to `after` and tell whether the tag is the position. -/
private def Tested (before after : Builder) (index : Nat) (condition : Value) : Prop :=
  ∀ ⦃function⦄, after.function.Extends function → ∀ ⦃config : Config I64 RuntimeWorld⦄,
    config.env tag = tagWord → ∃ env, AgreeBelow before.function.nextValueId config.env env ∧
      env condition = (if tagWord = BitVec.ofNat 64 index then 1 else 0) ∧
      Flows runtimeMachine function (Loads allowed) before.point config 2 after.point
        { config with env }

/-- The blocks and the condition of a test, at the builder that is about to branch. -/
private structure Prepared (before : Builder) (current next : BlockId) (after : Builder) :
    Prop where
  grows : before.Grows after
  ready : after.Ready
  awaitsCurrent : after.Awaits current
  awaitsNext : after.Awaits next
  apart : next ≠ current
  freshCurrent : before.function.nextBlockId ≤ current
  freshNext : before.function.nextBlockId ≤ next

variable {walk : Value → IRType → Builder → Builder} (inner : IRType → I64 → List I64) {index : Nat}
  {data : List IRType}

variable (memory word data) in
/-- The words of the payload of a variant. -/
private def payloadWords : List I64 :=
  (placed word (payloadSlots data)).flatMap fun field => [memory field.1 field.2] ++
    if carriesOwnedAllocation field.1 then inner field.1 (memory field.1 field.2) else []

/-- The builder that has branched goes on in the block of the variant. -/
theorem Prepared.enter {current next : BlockId} (start : before.Ready)
    (prepared : Prepared before current next builder) (condition : Value) :
    let entered := (builder.buildCondBranch condition current next).setCurrentBlock current
    before.Grows entered ∧ entered.Ready ∧ entered.Awaits next ∧ entered.point = ⟨current, 0⟩ := by
  obtain ⟨grows, bounded⟩ := prepared.ready.terminate (.condBranch condition current next)
  have awaits := prepared.awaitsCurrent.grows prepared.ready.bounded grows
  exact ⟨(prepared.grows.trans start.bounded grows).setCurrentBlock prepared.freshCurrent,
    awaits.ready bounded,
    (prepared.awaitsNext.grows prepared.ready.bounded grows).setCurrentBlock prepared.apart,
      awaits.point_eq⟩

/-- The active variant is entered and leaves for `done`, the others go on with the next test. -/
theorem Prepared.tests {current next : BlockId} {condition : Value} (start : before.Ready)
    (prepared : Prepared before current next builder) (below : value < before.function.nextValueId)
    (tagBelow : tag < before.function.nextValueId)
    (compares : Tested allowed tag tagWord before builder index condition)
    (found : Tests memory allowed (live ∧ BitVec.ofNat 64 index = tagWord) value tag word tagWord
      done ((builder.buildCondBranch condition current next).setCurrentBlock current) middle words)
    (missed : Tests memory allowed (live ∧ ¬ BitVec.ofNat 64 index = tagWord) value tag word tagWord
      done (middle.setCurrentBlock next) after words') :
    Tests memory allowed live value tag word tagWord done before after
      (if BitVec.ofNat 64 index = tagWord then words else words') := by
  obtain ⟨toEntered, entered, awaitsNext, atCurrent⟩ := prepared.enter start condition
  have toNext := (toEntered.trans start.bounded found.grows).setCurrentBlock prepared.freshNext
  have atNext := (awaitsNext.grows entered.bounded found.grows).point_eq
  refine ⟨toNext.trans start.bounded missed.grows, missed.bounded, missed.awaits, ?_⟩
  intro function extended config holds tagHolds same
  have extendedMiddle := missed.grows.extended.trans extended
  have extendedTest := found.grows.extended.trans extendedMiddle
  have extendedBranch :=
    (prepared.ready.terminate (.condBranch condition current next)).1.extended.trans extendedTest
  obtain ⟨env, agree, condition_eq, compare⟩ := compares extendedBranch tagHolds
  let decided : Config I64 RuntimeWorld := { config with env }
  -- After the branch the code of the block it takes goes on.
  have resume {live' : Prop} {id : BlockId} {code final : Builder} {words : List I64}
    (awaits : builder.Awaits id)
      (target : runtimeMachine.target decided.env (.condBranch condition current next) = some id)
      (tests : Tests memory allowed live' value tag word tagWord done code final words)
      (place : code.point = ⟨id, 0⟩) (grows : before.Grows code)
        (extended : final.function.Extends function)
      (alive : live') : Proceeds runtimeMachine function (Loads allowed) before.point config
        (fun point config' => point = ⟨done, 0⟩ ∧ Escaped before.function.nextValueId config words
          config')
        (Breached config words) := by
    obtain ⟨env', agree', enter⟩ := flows_enter prepared.ready extendedTest awaits target
    have kept := agree.trans agree' prepared.grows.extended.values
    rw [awaits.point_eq, ← place] at enter
    rcases @tests.runs function extended { config with env := env' }
      ⟨alive, (kept below).trans holds.2⟩
      ((kept tagBelow).trans tagHolds) same with ⟨m, _, config', flows, rfl, escaped⟩ |
        ⟨m, last, stops, breached⟩
    · exact ((compare.trans enter).trans flows).proceeds
        ⟨rfl, (Escaped.quiet kept).trans escaped grows.extended.values⟩
    · exact ((compare.trans enter).stops stops).proceeds breached
  split_ifs with active
  · refine resume prepared.awaitsCurrent ?_ found atCurrent toEntered extendedMiddle
      ⟨holds.1, active⟩
    simp [decided, Machine.target, runtimeMachine, condition_eq, active.symm]
  · refine resume prepared.awaitsNext ?_ missed atNext toNext extended ⟨holds.1, active⟩
    simp [decided, Machine.target, runtimeMachine, condition_eq, Ne.symm active]

/-- The new blocks of a test, then the comparison. -/
private def prepare (builder : Builder) (tag : Value) (index : Nat) : Value × Builder :=
  compared ((builder.addBlock "enum_escape_variant").2.addBlock "enum_escape_next").2 tag index

theorem activeData_cons_some {name : String} {index : Nat}
    {rest : List (String × Nat × Option (List IRType))} :
    activeData ((name, index, some data) :: rest) tagWord =
      if BitVec.ofNat 64 index = tagWord then some data else activeData rest tagWord := by
  simp only [activeData, findSome?_cons]
  split_ifs <;> rfl

variable (memory word) in
/-- The words of the payload of the active variant. -/
private def activeWords (data : Option (List IRType)) : List I64 :=
  (data.map (payloadWords memory word inner)).getD []

theorem Walks.mono {live' : Prop} {ty : IRType}
    (walks : Walks memory allowed live walk ty address words)
    (weaker : live' → live) : Walks memory allowed live' walk ty address words :=
  fun _ _ ready below => (walks ready below).weaken fun _ holds => ⟨weaker holds.1, holds.2⟩

section
variable (start : builder.Ready)
include start

theorem prepared_variant (tag : Value) (index : Nat) :
    Prepared builder (builder.addBlock "enum_escape_variant").1
      ((builder.addBlock "enum_escape_variant").2.addBlock "enum_escape_next").1
        (prepare builder tag index).2 := by
  have ready₁ := start.addBlock "enum_escape_variant"
  have ready₂ := ready₁.addBlock "enum_escape_next"
  have grows₁ := Builder.grows_addBlock builder "enum_escape_variant"
  have grows₂ := Builder.grows_addBlock (builder.addBlock "enum_escape_variant").2
    "enum_escape_next"
  obtain ⟨grows₃, ready₃⟩ := compared_grows ready₂ tag index
  have current := start.awaits_addBlock "enum_escape_variant"
  have next := ready₁.awaits_addBlock "enum_escape_next"
  refine ⟨(grows₁.trans start.bounded grows₂).trans start.bounded grows₃, ready₃,
    current.grows ready₁.bounded (grows₂.trans ready₁.bounded grows₃),
      next.grows ready₂.bounded grows₃, ?_, le_rfl,
    Nat.le_succ _⟩
  exact (Nat.succ_ne_self _)

theorem tests_variants {variants : List (String × Nat × Option (List IRType))}
    (awaits : builder.Awaits done) (below : value < builder.function.nextValueId)
      (tagBelow : tag < builder.function.nextValueId)
    (inspects : live → ∀ data, activeData variants tagWord = some data →
      ∀ field ∈ placed word (payloadSlots data), allowed field.1 field.2)
    (walks : ∀ data, ∀ field ∈ placed word (payloadSlots data), carriesOwnedAllocation field.1 =
      true →
      Walks memory allowed (live ∧ activeData variants tagWord = some data) walk field.1 field.2
        (inner field.1 (memory field.1 field.2))) :
    Tests memory allowed live value tag word tagWord done builder
      ((escapeVariants walk value tag done variants builder).buildBranch done)
      (activeWords memory word inner (activeData variants tagWord)) := by
  induction variants generalizing builder live with
  | nil => exact (Escapes.refl start).leaves awaits
  | cons variant rest ih =>
    obtain ⟨name, index, data⟩ := variant
    cases data with
    | none =>
      have same : activeData ((name, index, none) :: rest) tagWord = activeData rest tagWord := by
        simp [activeData]
      rw [escapeVariants, same]
      rw [same] at inspects
      simp only [same] at walks
      exact ih start awaits below tagBelow inspects walks
    | some data =>
      have prepared := prepared_variant start tag index
      have compares : Tested allowed tag tagWord builder (prepare builder tag index).2 index
          (prepare builder tag index).1 := by
        intro function extended config tagHolds
        have ready₁ := start.addBlock "enum_escape_variant"
        rw [← point_addBlock start "enum_escape_variant",
          ← point_addBlock ready₁ "enum_escape_next", ← tagHolds]
        exact flows_compared (ready₁.addBlock "enum_escape_next") tagBelow index extended
      obtain ⟨toEntered, entered, awaitsNext, -⟩ :=
        prepared.enter start (prepare builder tag index).1
      have walked :
        Escapes memory allowed _ _ (Holds (live ∧ BitVec.ofNat 64 index = tagWord) value word)
          (payloadWords memory word inner data) :=
        escapes_payload inner entered (below.trans_le toEntered.extended.values)
          (fun holds => inspects holds.1 data (by rw [activeData_cons_some, if_pos holds.2]))
          (fun field member carried => (walks data field member carried).mono fun holds =>
            ⟨holds.1, by rw [activeData_cons_some, if_pos holds.2]⟩)
      have found := @Escapes.leaves _ _ _ _ _ _ value tag _ tagWord _ walked
        (awaits.grows start.bounded (toEntered.trans start.bounded walked.grows))
      have toNext := (toEntered.trans start.bounded found.grows).setCurrentBlock prepared.freshNext
      have values := toNext.extended.values
      have missed := @ih _ (live ∧ ¬ BitVec.ofNat 64 index = tagWord)
        ((awaitsNext.grows entered.bounded found.grows).ready found.bounded)
          (awaits.grows start.bounded toNext)
        (below.trans_le values) (tagBelow.trans_le values)
        (fun holds data' active => inspects holds.1 data'
          (by rw [activeData_cons_some, if_neg holds.2, active]))
        (fun data' field member carried => (walks data' field member carried).mono fun holds =>
          ⟨holds.1.1, by rw [activeData_cons_some, if_neg holds.1.2, holds.2]⟩)
      have tests := prepared.tests start below tagBelow compares found missed
      rw [escapeVariants, if_neg, activeData_cons_some, apply_ite (activeWords memory word inner)]
      · exact tests
      · exact Bool.eq_false_iff.mp walked.ready.isTerminated

/-- After the tests the builder goes on in the block they leave for. -/
theorem escapes_tests {label : String}
    (tests : Tests memory allowed live value tag word tagWord (builder.addBlock label).1
      (builder.addBlock label).2 after words) :
    Escapes memory allowed builder (after.setCurrentBlock (builder.addBlock label).1)
      (fun env => Holds live value word env ∧ env tag = tagWord) words := by
  refine ⟨start,
    ((Builder.grows_addBlock builder label).trans start.bounded tests.grows).setCurrentBlock le_rfl,
    tests.awaits.ready tests.bounded, fun function extended config holds same => ?_⟩
  rw [← point_addBlock start label, tests.awaits.point_eq]
  exact tests.runs extended holds.1 holds.2 same

theorem escapes_enum {variants : List (String × Option (List IRType))}
    (below : value < builder.function.nextValueId) (inspectsTag : live → allowed .int word)
    (inspects : live → ∀ data, activeData (taggedVariants variants) (memory .int word) = some data →
      ∀ field ∈ placed word (payloadSlots data), allowed field.1 field.2)
    (walks : ∀ data, ∀ field ∈ placed word (payloadSlots data), carriesOwnedAllocation field.1 =
      true →
      Walks memory allowed
        (live ∧ activeData (taggedVariants variants) (memory .int word) = some data) walk
        field.1 field.2 (inner field.1 (memory field.1 field.2))) :
    Escapes memory allowed builder (escapeEnum walk value variants builder) (Holds live value word)
      (activeWords memory word inner
        (activeData (taggedVariants variants) (memory .int word))) := by
  have zero : word + 0 = word := BitVec.add_zero word
  obtain ⟨ready, grows, lt⟩ := loadSlot_ready start value 0 .int
  have awaits := ready.awaits_addBlock "enum_escape_done"
  have tests := tests_variants inner (ready.addBlock "enum_escape_done") awaits
    (below.trans_le grows.extended.values) lt
    inspects walks
  refine .loadSlot start below (by rwa [zero])
    ((escapes_tests ready tests).weaken fun env holds => ⟨holds.1, ?_⟩)
  rw [holds.2.2, zero]

end

end Variants

section Inner
variable {definitions : TypeDefinitions} {root : I64 × IRType} {live : Prop} {value : Value}
  {word : I64} {ty : IRType} {levels : Nat} {seen : List String}

variable {fields : List (IRType × I64)}

theorem inspects_field (reached : live → ReachesTyped definitions memory root (word, ty))
    (same : typedFields definitions memory word ty = fields) (alive : live) :
    ∀ field ∈ fields, Inspects definitions memory root field.1 field.2 :=
  fun _ member => ⟨(word, ty), reached alive, .inl (same ▸ member)⟩

theorem reached_field (reached : ReachesTyped definitions memory root (word, ty))
    {field : IRType × I64} (member : field ∈ typedFields definitions memory word ty) :
    ReachesTyped definitions memory root (memory field.1 field.2, field.1) :=
  ReflTransGen.tail reached ⟨field.2, member, rfl⟩

theorem visited_of_repeated {name : String} (nominal : ty.nominal? = some name)
    (repeated : name ∈ seen) : visited definitions memory (levels + 1) seen word ty = [] := by
  rw [visited, if_pos ⟨name, nominal, repeated⟩]

theorem visited_fields (new : ∀ name ∈ ty.nominal?, name ∉ seen) (plain : isEnum ty = false)
    (owned : carriesOwnedAllocation ty.representation = true)
      (same : typedFields definitions memory word ty = fields) :
    visited definitions memory (levels + 1) seen word ty = [word] ++ fields.flatMap fun field =>
      if carriesOwnedAllocation field.1 then
        visited definitions memory levels (ty.nominal?.toList ++ seen) (memory field.1 field.2)
          field.1 else [] := by
  have known : isOpaqueEnum ty = false := by
    revert plain
    unfold isEnum isOpaqueEnum
    cases ty.representation <;> simp
  rw [visited, if_neg fun ⟨name, named, inside⟩ => new name named inside]
  simp [owned, known, plain, same]

section
variable {name : String} {variants : List (String × Option (List IRType))}
  (shape : ty.representation = .enum name variants)
include shape

theorem visited_enum (new : name ∉ seen) :
    visited definitions memory (levels + 1) seen word ty = [word] ++ activeWords memory word
      (fun ty content => visited definitions memory levels (name :: seen) content ty)
      (activeData (taggedVariants variants) (memory .int word)) := by
  have nominal : ty.nominal? = some name := by rw [IRType.nominal?, shape]
  rw [visited, if_neg (by simpa [nominal] using new)]
  simp only [shape, carriesOwnedAllocation, ↓reduceIte, isOpaqueEnum, nominal, isEnum, typedFields,
    TypeDefinitions.enumVariants]
  cases variants with
  | nil => simp [taggedVariants, activeData, activeWords]
  | cons variant rest =>
    simp only [isEmpty_cons, Bool.false_eq_true, ↓reduceIte]
    cases activeData (taggedVariants (variant :: rest)) (memory .int word) <;> rfl

theorem typedFields_active
    (active : activeData (taggedVariants variants) (memory .int word) = some data) :
    typedFields definitions memory word ty = placed word (payloadSlots data) := by
  cases variants with
  | nil => cases active
  | cons variant rest =>
    simp only [typedFields, shape, TypeDefinitions.enumVariants, isEmpty_cons, Bool.false_eq_true,
      ↓reduceIte, active]

end

theorem representation_ne_generic (ty : IRType) (name : String) (args : List IRType)
    (inner : IRType) : ty.representation ≠ .generic name args inner := by
  fun_induction IRType.representation ty with
  | case1 _ _ rep ih => exact ih
  | case2 other notGeneric => exact fun same => notGeneric name args inner same

section
variable (start : builder.Ready) (below : value < builder.function.nextValueId)
  (reached : live → ReachesTyped definitions memory root (word, ty))
  (walks : ∀ {live' : Prop} (seen' : List String) (field : IRType × I64),
    (live' → live ∧ field ∈ typedFields definitions memory word ty) →
    Walks memory (Inspects definitions memory root) live'
      (emitEscapeForValueInner definitions levels seen') field.1 field.2
      (visited definitions memory levels seen' (memory field.1 field.2) field.1))
include start below reached walks

/-- The value itself is escaped, then the fields of a struct or tuple. -/
theorem escapes_aggregate {slots : List (IRType × Nat)} {seen' : List String}
    (passed : ty.nominal?.toList ++ seen = seen') (new : ∀ name ∈ ty.nominal?, name ∉ seen)
    (plain : isEnum ty = false) (owned : carriesOwnedAllocation ty.representation = true)
    (same : typedFields definitions memory word ty = placed word slots) :
    Escapes memory (Inspects definitions memory root) builder
      (escapeFields (emitEscapeForValueInner definitions levels seen') value slots
        (builder.buildEscapeManualAlloc value)) (Holds live value word)
      (visited definitions memory (levels + 1) seen word ty) := by
  have own : Escapes memory (Inspects definitions memory root) builder
      (builder.buildEscapeManualAlloc value) (Holds live value word) [word] :=
    .escape start value fun env holds => holds.2
  rw [visited_fields new plain owned same, passed]
  exact own.trans (Holds.stable live below word)
    (escapes_fields (fun ty content => visited definitions memory levels seen' content ty)
      own.ready (below.trans_le own.grows.extended.values) (inspects_field reached same)
      fun field member _ => walks _ field fun alive => ⟨alive, same ▸ member⟩)

/-- Behind an array its elements are escaped if they can hold an allocation. -/
theorem escapes_array {elementType : IRType} {size : Nat}
    (shape : ty.representation = .array elementType size) :
    Escapes memory (Inspects definitions memory root) builder
      (if carriesOwnedAllocation elementType = true then
        escapeElements (emitEscapeForValueInner definitions levels seen) value elementType
          (List.range size) (builder.buildEscapeManualAlloc value)
      else builder.buildEscapeManualAlloc value) (Holds live value word)
      (visited definitions memory (levels + 1) seen word ty) := by
  have own : Escapes memory (Inspects definitions memory root) builder
      (builder.buildEscapeManualAlloc value) (Holds live value word) [word] :=
    .escape start value fun env holds => holds.2
  have nominal : ty.nominal? = none := by rw [IRType.nominal?, shape]
  have passed : ty.nominal?.toList ++ seen = seen := by rw [nominal]; rfl
  have same : typedFields definitions memory word ty =
      (List.range size).map fun index =>
        (elementType, elementAddress word elementType index) := by
    rw [typedFields, shape]
    rfl
  have element : ∀ index ∈ List.range size,
      (elementType, elementAddress word elementType index) ∈
        typedFields definitions memory word ty := by
    intro index member
    rw [same]
    exact mem_map_of_mem member
  rw [visited_fields (by simp [nominal]) (by rw [isEnum, shape]) (by rw [shape]; rfl) same, passed,
    flatMap_map]
  by_cases carried : carriesOwnedAllocation elementType = true
  · simp only [carried, ↓reduceIte]
    exact own.trans (Holds.stable live below word)
      (escapes_elements (fun ty content => visited definitions memory levels seen content ty)
        own.ready (below.trans_le own.grows.extended.values)
        (fun alive index member => inspects_field reached rfl alive _ (element index member))
        fun index member => walks _ _ fun alive => ⟨alive, element index member⟩)
  · simp only [carried, Bool.false_eq_true, ↓reduceIte, flatMap_eq_nil_iff.mpr fun _ _ => rfl,
      append_nil]
    exact own

/-- Behind an enum the payload of the active variant is escaped. -/
theorem escapes_variants {name : String} {variants : List (String × Option (List IRType))}
    (shape : ty.representation = .enum name variants) (new : name ∉ seen) :
    Escapes memory (Inspects definitions memory root) builder
      (escapeEnum (emitEscapeForValueInner definitions levels (name :: seen)) value variants
        (builder.buildEscapeManualAlloc value)) (Holds live value word)
      (visited definitions memory (levels + 1) seen word ty) := by
  have own : Escapes memory (Inspects definitions memory root) builder
      (builder.buildEscapeManualAlloc value) (Holds live value word) [word] :=
    .escape start value fun env holds => holds.2
  rw [visited_enum shape new]
  refine own.trans (Holds.stable live below word)
    (escapes_enum _ own.ready (below.trans_le own.grows.extended.values) ?_ ?_ ?_)
  · exact fun alive => ⟨(word, ty), reached alive, .inr ⟨by rw [isEnum, shape], rfl, rfl⟩⟩
  · exact fun alive data active => inspects_field reached (typedFields_active shape active) alive
  · exact fun data field member _ => walks _ field fun alive =>
      ⟨alive.1, (typedFields_active shape alive.2).symm ▸ member⟩

end

/-- The emitted code escapes the visited words. -/
theorem escapes_inner (start : builder.Ready) (below : value < builder.function.nextValueId)
    (reached : live → ReachesTyped definitions memory root (word, ty)) :
    Escapes memory (Inspects definitions memory root) builder
      (emitEscapeForValueInner definitions levels seen value ty builder)
      (Holds live value word) (visited definitions memory levels seen word ty) := by
  induction levels generalizing builder value word ty live seen with
  | zero => exact .refl start
  | succ levels ih =>
    have walks : ∀ {live' : Prop} (seen' : List String) (field : IRType × I64),
        (live' → live ∧ field ∈ typedFields definitions memory word ty) →
        Walks memory (Inspects definitions memory root) live'
          (emitEscapeForValueInner definitions levels seen') field.1 field.2
          (visited definitions memory levels seen' (memory field.1 field.2) field.1) :=
      fun seen' field inside _ _ ready lt => ih ready lt fun alive =>
        reached_field (reached (inside alive).1) (inside alive).2
    rw [emitEscapeForValueInner]
    cases shape : ty.representation with
    | struct name fields =>
      have nominal : ty.nominal? = some name := by rw [IRType.nominal?, shape]
      by_cases repeated : name ∈ seen
      · rw [visited_of_repeated nominal repeated]
        simp only [repeated, ↓reduceIte]
        exact .refl start
      simp only [repeated, ↓reduceIte]
      exact escapes_aggregate start below reached walks (by rw [nominal]; rfl)
        (by simpa [nominal] using repeated) (by rw [isEnum, shape]) (by rw [shape]; rfl)
        (by rw [typedFields, shape])
    | tuple elements =>
      have nominal : ty.nominal? = none := by rw [IRType.nominal?, shape]
      exact escapes_aggregate start below reached walks (by rw [nominal]; rfl) (by simp [nominal])
        (by rw [isEnum, shape]) (by rw [shape]; rfl) (by rw [typedFields, shape])
    | array elementType size => exact escapes_array start below reached walks shape
    | enum name variants =>
      have nominal : ty.nominal? = some name := by rw [IRType.nominal?, shape]
      by_cases repeated : name ∈ seen
      · rw [visited_of_repeated nominal repeated]
        simp only [repeated, ↓reduceIte]
        exact .refl start
      simp only [repeated, ↓reduceIte]
      exact escapes_variants start below reached walks shape repeated
    | dynTrait | pointer | string =>
      have words : visited definitions memory (levels + 1) seen word ty = [word] := by
        simp [visited, IRType.nominal?, shape, carriesOwnedAllocation, typedFields]
      rw [words]
      exact .escape start value fun env holds => holds.2
    | generic name args inner => exact absurd shape (representation_ne_generic ty name args inner)
    | _ =>
      have words : visited definitions memory (levels + 1) seen word ty = [] := by
        simp [visited, IRType.nominal?, shape, carriesOwnedAllocation, typedFields]
      rw [words]
      exact .refl start

end Inner

end Emission

open Simulation

/-- A value of some type that the builder is about to escape. -/
structure EscapeSite where
  definitions : TypeDefinitions
  ty : IRType
  value : Value
  builder : Builder
  ready : builder.Ready
  defined : value < builder.function.nextValueId

/-- The function runs in a frame of its own and the allocation table is intact. -/
structure InFrame (world : RuntimeWorld) : Prop where
  invariants : world.runtime.table.CheckInvariants
  notNull : world.runtime.table.allocations 0 = none
  inner : world.frame ≠ 0
  mine : world.frame ∈ world.runtime.threadFrames

namespace EscapeSite

variable (site : EscapeSite) (config : Config I64 RuntimeWorld)

/-- The builder after the escape code. -/
def emitted : Builder := emitEscapeForValue site.definitions site.value site.ty site.builder

/-- The value with its type. -/
def root : I64 × IRType := (config.env site.value, site.ty)

/-- An allocation of the current frame that the value reaches through its typed fields. -/
def Reached (ptr : I64) : Prop :=
  (∃ ty, ReachesTyped site.definitions config.world.memory (site.root config) (ptr, ty) ∧
      carriesOwnedAllocation ty.representation = true) ∧
    ptr ∈ config.world.runtime.table.owned config.world.frame

/-- Every reached allocation belongs to the base frame, and leaving the current frame frees none. -/
def Kept (after : RuntimeWorld) : Prop :=
  ∀ ptr, site.Reached config ptr →
    (∃ entry, after.runtime.table.allocations ptr = some entry ∧ entry.frameId = 0) ∧
      (after.runtime.frameExit after.frame).table.allocations ptr ≠ none

/-- In every function that contains it, executing the escape code keeps all the value reaches alive
and loads only tags and typed fields, of an enumeration those of the active variant. -/
def KeepsAlive : Prop :=
  ∀ function state, site.emitted.function.Extends function →
    Located function site.builder.point config state →
    ∃ n after, Located function site.emitted.point after
      (run (runtimeMachine.step function) n state) ∧
      (∀ k < n, Permits (Inspecting site.definitions config.world.memory (site.root config))
        (run (runtimeMachine.step function) k state)) ∧
      site.Kept config after.world

/-- The walk follows a path from the value to the pointer. -/
def Follows (ptr : I64) : Prop :=
  Followed site.definitions config.world.memory (maxDepth + 1) [] (config.env site.value) site.ty
    ptr

open Classical in
/-- The sizes of the allocations the walk moves. -/
noncomputable def followedBytes : Nat :=
  (((config.world.runtime.table.owned config.world.frame).filter fun ptr =>
    decide (site.Follows config ptr)).map fun ptr =>
    ((config.world.runtime.table.allocations ptr).map (·.byteLen)).getD 0).sum

/-- The walk follows a path to every reached allocation, and the budget covers what it moves. -/
def Covered : Prop :=
  (∀ ptr, site.Reached config ptr → site.Follows config ptr) ∧
    config.world.runtime.affords (site.followedBytes config) = true

/-- The words the walk escapes. -/
def words : List I64 :=
  visited site.definitions config.world.memory (maxDepth + 1) [] (config.env site.value) site.ty

theorem mem_words {ptr : I64} : ptr ∈ site.words config ↔ site.Follows config ptr :=
  mem_visited_iff site.definitions config.world.memory

open Classical in
theorem followedBytes_eq : site.followedBytes config =
    config.world.runtime.escapedBytes config.world.frame (site.words config) := by
  have same : (config.world.runtime.table.owned config.world.frame).filter
    (fun ptr => decide (site.Follows config ptr)) =
      (config.world.runtime.table.owned config.world.frame).filter (· ∈ site.words config) := by
    refine filter_congr fun ptr _ => ?_
    simp only [site.mem_words config]
  rw [followedBytes, same, RuntimeState.escapedBytes]

theorem escapes : Escapes config.world.memory
    (Inspects site.definitions config.world.memory (site.root config)) site.builder site.emitted
    (Holds True site.value (config.env site.value)) (site.words config) :=
  escapes_inner site.ready site.defined fun _ => ReflTransGen.refl

variable {site config}

section
variable (inFrame : InFrame config.world) {runtime : RuntimeState}
  (entries : ∀ ptr, runtime.table.allocations ptr =
    (config.world.runtime.table.allocations ptr).map
      (RuntimeState.escapedEntry config.world.frame (site.words config) ptr))
include inFrame entries

/-- What a completed run of the escape code has done to the reached allocations. -/
theorem Reached.entry_after {ptr : I64} (reached : site.Reached config ptr) :
    ∃ entry, entry.frameId = config.world.frame ∧
      runtime.table.allocations ptr = some
        (if ptr ∈ site.words config then { entry with frameId := 0 } else entry) := by
  obtain ⟨entry, found, owner⟩ := inFrame.invariants.mem_owned.mp reached.2
  refine ⟨entry, owner, ?_⟩
  rw [entries, found, Option.map_some, RuntimeState.escapedEntry]
  simp only [owner, and_true]

/-- The completed code has kept the value alive exactly when all it reaches has been escaped. -/
theorem kept_iff (invariants : runtime.table.CheckInvariants)
    (frames : runtime.threadFrames = config.world.runtime.threadFrames) :
    site.Kept config { config.world with runtime } ↔ ∀ ptr, site.Reached config ptr →
      site.Follows config ptr := by
  constructor
  · intro kept ptr reached
    by_contra missed
    obtain ⟨entry, owner, after⟩ := reached.entry_after inFrame entries
    obtain ⟨⟨entry', after', base⟩, -⟩ := kept ptr reached
    rw [after, if_neg (fun member => missed ((site.mem_words config).mp member))] at after'
    obtain rfl := Option.some.inj after'
    exact inFrame.inner (owner.symm.trans base)
  · intro follows ptr reached
    obtain ⟨entry, owner, after⟩ := reached.entry_after inFrame entries
    rw [if_pos ((site.mem_words config).mpr (follows ptr reached))] at after
    refine ⟨⟨_, after, rfl⟩, ?_⟩
    have mine := frames ▸ inFrame.mine
    rw [RuntimeState.frameExit_allocations invariants mine after (.inl rfl)]
    simp

end

theorem KeepsAlive.covered (inFrame : InFrame config.world) (keeps : site.KeepsAlive config) :
    site.Covered config := by
  have spec := RuntimeState.escapeAll_spec inFrame.invariants inFrame.notNull inFrame.inner
    (site.words config)
  rw [← site.followedBytes_eq config] at spec
  have escapes := site.escapes config
  -- The emitted function itself is a function that contains the code; its run cannot go on after
  -- the end.
  obtain ⟨block, found, -⟩ := site.ready.vacant
  obtain ⟨block', found', -⟩ := escapes.grows.extended.block found
  have located : Located site.emitted.function site.builder.point config _ :=
    .intro (fun _ => 0) found'
  obtain ⟨n, after, arrived, -, kept⟩ := keeps _ _ (.refl _) located
  rcases escapes.runs (.refl _) ⟨trivial, rfl⟩ rfl with
    ⟨m, _, config', flows, rfl, -, runtime, escaped, world⟩ |
      ⟨m, last, stops, trap, trace, failed, rfl⟩
  · obtain ⟨state', located', leads⟩ := flows located
    rw [← leads.run_eq] at located'
    obtain rfl := arrived.config_unique escapes.ready located'
    split_ifs at spec with budget
    · obtain ⟨runtime', escaped', invariants, frames, entries⟩ := spec
      obtain rfl : runtime = runtime' := Except.ok.inj (escaped.symm.trans escaped')
      rw [world] at kept
      exact ⟨(kept_iff inFrame entries invariants frames).mp kept, budget⟩
    · rw [spec] at escaped
      cases escaped
  · exact absurd (stops located).run_eq (arrived.not_trapped escapes.ready)

theorem Covered.keepsAlive (inFrame : InFrame config.world) (covered : site.Covered config) :
    site.KeepsAlive config := by
  intro function state extended located
  have spec := RuntimeState.escapeAll_spec inFrame.invariants inFrame.notNull inFrame.inner
    (site.words config)
  rw [← site.followedBytes_eq config, if_pos covered.2] at spec
  obtain ⟨runtime', escaped', invariants, frames, entries⟩ := spec
  rcases (site.escapes config).runs extended ⟨trivial, rfl⟩ rfl with
    ⟨n, _, after, flows, rfl, -, runtime, escaped, world⟩ |
      ⟨n, last, stops, trap, trace, failed, rfl⟩
  · obtain ⟨state', located', leads⟩ := flows located
    refine ⟨n, after, by rwa [leads.run_eq], fun k before => leads.good_of_lt before, ?_⟩
    obtain rfl : runtime = runtime' := Except.ok.inj (escaped.symm.trans escaped')
    rw [world]
    exact (kept_iff inFrame entries invariants frames).mpr covered.1
  · rw [escaped'] at failed
    cases failed

/-- Executing the escape code keeps all that a returned value reaches alive exactly when the walk
covers it. -/
theorem keepsAlive_iff_covered (site : EscapeSite) (config : Config I64 RuntimeWorld)
    (inFrame : InFrame config.world) : site.KeepsAlive config ↔ site.Covered config :=
  ⟨KeepsAlive.covered inFrame, Covered.keepsAlive inFrame⟩

end EscapeSite

section IntList

/-- `enum IntList { Cons(int, IntList), Nil }`: the reference inside its own definition has no
body. -/
def intList : IRType := .enum "IntList" [("Cons", some [.int, .enum "IntList" []]), ("Nil", none)]

def intListDefinitions : TypeDefinitions where
  structs _ := none
  enums name :=
    if name = "IntList" then some
      [("Cons", 0, some [.int, .enum "IntList" []]), ("Nil", 1, none)] else none

def keepFunction : Function where
  name := "keep"
  params := [⟨0, "list", intList⟩]
  returnType := intList
  blocks := [⟨0, "entry", [], none⟩]
  nextValueId := 1
  nextBlockId := 1

/-- A function that is about to return its parameter. -/
def intListSite : EscapeSite where
  definitions := intListDefinitions
  ty := intList
  value := 0
  builder := ⟨keepFunction, 0⟩
  ready := by
    refine ⟨fun id block found => ?_, ⟨0, "entry", [], none⟩, rfl, rfl⟩
    have same := Function.getBlock_id found
    have member := mem_of_find?_eq_some found
    obtain rfl := mem_singleton.mp member
    exact same ▸ Nat.zero_lt_one
  defined := Nat.zero_lt_one

/-- The cells are allocated in frame 1, the innermost one; memory holds the listed words and zero
elsewhere. -/
def cellsConfig (cells : List I64) (contents : List (I64 × I64)) : Config I64 RuntimeWorld where
  env _ := cells.headD 0
  world :=
    { memory := fun _ address => (contents.lookup address).getD 0
      runtime :=
        { table :=
            { allocations := fun ptr => if ptr ∈ cells then some ⟨1, 24⟩ else none
              frames := fun id => if id = 0 then some [] else if id = 1 then some cells else none
              quarantine := [] }
          threadFrames := [1]
          frame0EscapedBytes := 0
          frame0BudgetMb := 512 }
      frame := 1 }
  trace := []

theorem inFrame_cells {cells : List I64} (nodup : cells.Nodup) (notNull : 0 ∉ cells)
    (contents : List (I64 × I64)) : InFrame (cellsConfig cells contents).world where
  invariants := by
    refine ⟨rfl, fun frameId ptrs found ptr member => ?_, fun ptr entry found => ?_,
      fun frameId ptrs found => ?_⟩
    · simp only [cellsConfig] at found ⊢
      split_ifs at found with base first
      · cases found
        cases member
      · cases found
        exact ⟨⟨1, 24⟩, if_pos member, first.symm⟩
    · simp only [cellsConfig] at found ⊢
      split_ifs at found with member
      cases found
      exact ⟨cells, rfl, member⟩
    · simp only [cellsConfig] at found
      split_ifs at found with base first
      · cases found
        exact nodup_nil
      · cases found
        exact nodup
  notNull := if_neg notNull
  inner := Nat.one_ne_zero
  mine := by simp [cellsConfig]

/-- `Cons(0, Nil)`, with its cells at 16 and 48. -/
def oneElement : Config I64 RuntimeWorld := cellsConfig [16, 48] [(32, 48), (48, 1)]

/-- `Cons(0, Cons(0, Nil))`, with its cells at 16, 48 and 80. -/
def twoElements : Config I64 RuntimeWorld := cellsConfig [16, 48, 80] [(32, 48), (64, 80), (80, 1)]

theorem words_oneElement : intListSite.words oneElement = [16, 0, 48] := by
  decide

/-- The allocations of a list of one element are covered: its second cell sits in a payload slot of
the first. -/
theorem covered_oneElement : intListSite.Covered oneElement := by
  have cells : ∀ ptr ∈ ([16, 48] : List I64), ptr ∈ intListSite.words oneElement := by
    simp [words_oneElement]
  refine ⟨fun ptr reached => (intListSite.mem_words oneElement).mp (cells ptr reached.2), ?_⟩
  rw [intListSite.followedBytes_eq oneElement, words_oneElement]
  rfl

theorem keepsAlive_oneElement :
    InFrame oneElement.world ∧ intListSite.KeepsAlive oneElement ∧
      intListSite.Reached oneElement 48 := by
  have inFrame : InFrame oneElement.world := inFrame_cells (by decide) (by decide) _
  refine ⟨inFrame, (EscapeSite.keepsAlive_iff_covered intListSite oneElement inFrame).mpr
    covered_oneElement, ⟨.enum "IntList" [], .tail .refl ⟨32, ?_, rfl⟩, rfl⟩, by decide⟩
  decide +kernel

/-- The last cell of a list of two elements stays behind: the walk does not enter `IntList`
twice. -/
theorem not_keepsAlive_twoElements : InFrame twoElements.world ∧
    ¬ intListSite.KeepsAlive twoElements := by
  have inFrame : InFrame twoElements.world := inFrame_cells (by decide) (by decide) _
  refine ⟨inFrame, fun keeps => ?_⟩
  have reached : intListSite.Reached twoElements 80 := by
    have tail : ReachesTyped intListDefinitions twoElements.world.memory
      (intListSite.root twoElements)
        (48, .enum "IntList" []) := .tail .refl ⟨32, by decide +kernel, rfl⟩
    refine ⟨⟨.enum "IntList" [], tail.tail ⟨64, ?_, rfl⟩, rfl⟩, by decide⟩
    decide +kernel
  have followed := (intListSite.mem_words twoElements).mpr ((keeps.covered inFrame).1 80 reached)
  revert followed
  decide

end IntList

end SpectraLang

import SpectraLang.Passes.Verification

/-! # Accepted functions read defined values

Acceptance is unpacked once per function into `Verified`. On every path of an accepted function an
operand is a parameter, a value defined earlier on the path, or one that a frame reload defines;
without coroutine instructions the last case does not arise.
-/

namespace SpectraLang

open List FlowGraph

/-- Control may pass from one block to the other. -/
def Function.Edge (function : Function) (source target : BasicBlock) : Prop :=
  target.id ∈ blockSuccessors source.terminator ∧ function.getBlock target.id = some target

/-- The block sequences of executions from the first block, latest block first. -/
def Function.Path (function : Function) (path : List BasicBlock) : Prop :=
  ∃ first, function.blocks.head? = some first ∧ Trail function.Edge first path

/-- The value is a parameter or was defined by an executed instruction, of a block completed earlier
or of the current one. -/
def Function.Available (function : Function) (earlier : List BasicBlock)
    (executed : List Instruction) (value : Value) : Prop :=
  value ∈ function.paramIds ∨ (∃ block ∈ earlier, value ∈ block.defines) ∨
    ∃ instruction ∈ executed, value ∈ instruction.kind.defines

/-- A frame reload somewhere in the function defines the value. -/
def Function.Reloaded (function : Function) (value : Value) : Prop :=
  ∃ block ∈ function.blocks, ∃ instruction ∈ block.instructions,
    instruction.kind.isFrameLoad ∧ instruction.kind.result? = some value

/-- Every value an instruction or terminator of the function reads. -/
def Function.reads (function : Function) : List Value :=
  function.blocks.flatMap fun block =>
    (block.terminator.map (·.reads)).getD [] ++ block.instructions.flatMap (·.kind.reads)

/-- The value is a parameter or the result of some instruction. -/
def Function.Defines (function : Function) (value : Value) : Prop :=
  value ∈ function.paramIds ∨ ∃ kind ∈ function.kinds, value ∈ kind.defines

variable {function : Function} {kind : InstructionKind}

theorem Function.mem_kinds :
    kind ∈ function.kinds ↔ ∃ block ∈ function.blocks, ∃ instruction ∈ block.instructions,
      instruction.kind = kind := by
  simp [Function.kinds]

/-- What acceptance of a module says about one of its functions. -/
structure Verified (module : Module) (function : Function) (first : BasicBlock) : Prop where
  first_eq : function.blocks.head? = some first
  registered : registerAll function.name [] (registrations function) = []
  nodup : function.blockIds.Nodup
  checked : ∀ block ∈ function.blocks, (functionFacts module function first.id).checkBlock block =
    []

theorem verifyModule_eq_ok {module : Module} : verifyModule module = .ok () ↔
    verifyErrors module = [] := by
  simp only [verifyModule]
  split_ifs with empty
  · simp [empty]
  · simp [empty]

theorem verified_of_accepted {module : Module} (accepted : verifyModule module = .ok ())
    (member : function ∈ module.functions) : ∃ first, Verified module function first := by
  rw [verifyModule_eq_ok] at accepted
  have clean : verifyFunction module function = [] :=
    flatMap_eq_nil_iff.mp (append_eq_nil_iff.mp accepted).2 function member
  simp only [verifyFunction] at clean
  have blocksClean := (append_eq_nil_iff.mp clean).2
  cases shape : function.blocks with
  | nil => simp [shape] at blocksClean
  | cons first rest =>
    simp only [shape, append_eq_nil_iff] at blocksClean
    obtain ⟨⟨registered, distinct⟩, checked⟩ := blocksClean
    refine ⟨first, by simp [shape], registered, ?_, ?_⟩
    · by_contra repeated
      simp [repeated] at distinct
    · rw [shape]
      exact flatMap_eq_nil_iff.mp checked

variable {module : Module} {first block other : BasicBlock} {index : Nat}

namespace Function

theorem mem_blocks_of_getBlock {id : BlockId} (found : function.getBlock id = some block) :
    block ∈ function.blocks ∧ block.id = id :=
  ⟨mem_of_find?_eq_some found, by simpa using find?_some found⟩

theorem index_unique (nodup : function.blockIds.Nodup) {position : Nat}
    (here : function.blocks[index]? = some block) (there : function.blocks[position]? = some other)
    (same : block.id = other.id) : index = position := by
  have ids : function.blockIds[index]? = function.blockIds[position]? := by
    simp only [blockIds, getElem?_map, here, there, Option.map_some, same]
  exact (getElem?_inj (by simpa [blockIds] using (List.getElem?_eq_some_iff.mp here).1) nodup).mp
    ids

theorem mem_blockIds_of_mem (member : block ∈ function.blocks) : block.id ∈ function.blockIds :=
  mem_map_of_mem member

theorem mem_predecessors {source : BasicBlock} {target : BlockId}
    (member : source ∈ function.blocks)
    (edge : target ∈ blockSuccessors source.terminator) :
      source.id ∈ predecessors function target := by
  simp only [predecessors, mem_dedup, mem_map, mem_filter, decide_eq_true_eq]
  exact ⟨source, ⟨member, edge⟩, rfl⟩

/-- Control may pass from a block with the first identifier to one with the second. -/
def Continues (function : Function) (source target : BlockId) : Prop :=
  source ∈ predecessors function target ∧ target ∈ function.blockIds

section
variable (distinct : function.blockIds.Nodup)
include distinct

theorem getBlock_of_mem (member : block ∈ function.blocks) :
    function.getBlock block.id = some block := by
  cases found : function.getBlock block.id with
  | none => simpa using find?_eq_none.mp found block member
  | some other =>
    obtain ⟨inside, same⟩ := mem_blocks_of_getBlock found
    rw [inj_on_of_nodup_map distinct inside member same]

theorem eq_of_id_eq (member : block ∈ function.blocks)
    (inside : other ∈ function.blocks) (same : block.id = other.id) : block = other :=
  inj_on_of_nodup_map distinct member inside same

/-- The worklist of the verifier collects the blocks that paths from the entry end in. -/
theorem mem_reachableBlocks {entry : BlockId} (known : entry ∈ function.blockIds)
    (id : BlockId) : id ∈ reachableBlocks function entry ↔ ∃ earlier, Trail function.Continues entry
      (id :: earlier) := by
  have relations : function.Continues = fun source target =>
      target ∈ knownSuccessors function source ∧ target ∈ function.blockIds := by
    ext source target
    simp only [Continues, knownSuccessors, predecessors, mem_dedup, mem_map, mem_filter,
      decide_eq_true_eq]
    refine and_congr_left fun inside => ⟨?_, fun follows => ?_⟩
    · rintro ⟨block, ⟨member, edge⟩, rfl⟩
      simpa [getBlock_of_mem distinct member] using ⟨edge, inside⟩
    · cases found : function.getBlock source with
      | none => simp [found] at follows
      | some block =>
        obtain ⟨member, rfl⟩ := mem_blocks_of_getBlock found
        exact ⟨block, ⟨member, by simpa [found, inside] using follows⟩, rfl⟩
  rw [relations]
  refine ⟨trail_of_mem_reach, fun ⟨earlier, walk⟩ => ?_⟩
  exact trail_mem_reach walk known (fun _ _ edge => edge) id mem_cons_self

end

theorem mem_computeDominatorsIn {entry id dominator : BlockId} (known : entry ∈ function.blockIds)
    {order : List BlockId}
    (lists : ∀ id, id ∈ order ↔ ∃ earlier, Trail function.Continues entry (id :: earlier))
      (member : id ∈ order) :
    dominator ∈ computeDominatorsIn function entry order id ↔
      ∀ earlier, Trail function.Continues entry (id :: earlier) → dominator ∈ id :: earlier := by
  refine mem_dominators_iff lists (fun source target inside => ?_) member
  have isBlock : target ∈ function.blockIds := by
    obtain ⟨earlier, _ | ⟨_, move⟩⟩ := (lists target).mp inside
    · exact known
    · exact move.2
  exact ⟨fun edge => ⟨edge, isBlock⟩, fun edge => edge.1⟩

/-- In whatever order the reachable blocks are visited, the rounds end, with the blocks that no path
from the entry avoids. -/
theorem computeDominatorsIn_exact {entry : BlockId} (known : entry ∈ function.blockIds)
    {order : List BlockId}
    (lists : ∀ id, id ∈ order ↔ ∃ earlier, Trail function.Continues entry (id :: earlier)) :
    Descent.pass (dominatorMeet order (predecessors function)) (order.filter (· ≠ entry))
        (computeDominatorsIn function entry order) = none ∧
      ∀ block ∈ order, ∀ dominator, dominator ∈ computeDominatorsIn function entry order block ↔
        ∀ earlier, Trail function.Continues entry (block :: earlier) →
          dominator ∈ block :: earlier :=
  ⟨dominators_stops .., fun _ member _ => mem_computeDominatorsIn known lists member⟩

/-- Of a block behind two branches of the entry, only the entry and the block itself are
dominators. -/
theorem computeDominatorsIn_branches :
    let function : Function := ⟨"f", [], .void, [⟨0, "entry", [], some (.condBranch 0 1 2)⟩,
      ⟨1, "then", [], some (.branch 3)⟩, ⟨2, "else", [], some (.branch 3)⟩,
        ⟨3, "merge", [], some (.ret none)⟩], 0, 4, [],
      none, false⟩
    ∀ dominator, dominator ∈ computeDominatorsIn function 0 (reachableBlocks function 0) 3 ↔
      ∀ earlier, Trail function.Continues 0 (3 :: earlier) → dominator ∈ 3 :: earlier :=
  (computeDominatorsIn_exact (by decide) (mem_reachableBlocks (by decide) (by decide))).2 3
    (by decide)

end Function

variable {earlier : List BasicBlock}

namespace Verified

section
variable (verified : Verified module function first)
include verified

theorem first_mem : first ∈ function.blocks := mem_of_head? verified.first_eq

variable {path : List BasicBlock}

theorem path_mem_blocks (walk : Trail function.Edge first path) :
    ∀ block ∈ path, block ∈ function.blocks := by
  induction walk with
  | start => simpa using verified.first_mem
  | step _ move ih =>
    intro block member
    rcases mem_cons.mp member with rfl | member
    · exact (Function.mem_blocks_of_getBlock move.2).1
    · exact ih block member

/-- The block of every computed dominator lies on the path. -/
theorem dominator_on_path (walk : Trail function.Edge first (block :: earlier))
    (member : other ∈ function.blocks)
      (dominates : other.id ∈ computeDominators function first.id block.id) :
    other ∈ block :: earlier := by
  have ids : Trail function.Continues first.id ((block :: earlier).map (·.id)) := by
    apply walk.map
    intro last visited next _ move
    exact ⟨Function.mem_predecessors (verified.path_mem_blocks walk last visited) move.1,
      Function.mem_blockIds_of_mem (Function.mem_blocks_of_getBlock move.2).1⟩
  have known := Function.mem_blockIds_of_mem verified.first_mem
  have lists := Function.mem_reachableBlocks verified.nodup known
  have onTrail := (Function.mem_computeDominatorsIn known lists ((lists _).mpr ⟨_, ids⟩)).mp
    dominates _ ids
  obtain ⟨visitedBlock, onPath, same⟩ := mem_map.mp (map_cons ▸ onTrail)
  have inside := verified.path_mem_blocks walk visitedBlock onPath
  rwa [Function.eq_of_id_eq verified.nodup member inside same.symm]

end

end Verified

variable {entry : Registration}

section Registrations

theorem mem_registrations (member : entry ∈ registrations function) :
    (entry.definition = ⟨none, 0, false⟩ ∧ entry.value ∈ function.paramIds) ∨
      ∃ block ∈ function.blocks, ∃ index instruction, block.instructions[index]? =
        some instruction ∧
        entry.definition.blockId = some block.id ∧ entry.definition.instructionIndex = index ∧
        entry.value ∈ instruction.kind.defines ∧ (entry.definition.isFrameLoad = true →
          instruction.kind.isFrameLoad ∧ instruction.kind.result? = some entry.value) := by
  rcases mem_append.mp member with parameter | instruction
  · obtain ⟨parameter, inside, rfl⟩ := mem_map.mp parameter
    exact .inl ⟨rfl, mem_map_of_mem inside⟩
  · obtain ⟨block, inside, registered⟩ := mem_flatMap.mp instruction
    obtain ⟨⟨instruction, index⟩, position, registered⟩ := mem_flatMap.mp registered
    have found := mem_zipIdx_iff_getElem?.mp position
    refine .inr ⟨block, inside, index, instruction, found, ?_⟩
    rcases mem_append.mp registered with result | status
    · obtain ⟨result, defined, rfl⟩ := mem_map.mp result
      have defined := Option.mem_toList.mp defined
      exact ⟨rfl, rfl, InstructionKind.mem_defines.mpr (.inl defined), fun reload =>
        ⟨reload, defined⟩⟩
    · obtain ⟨status, defined, rfl⟩ := mem_map.mp status
      have defined := Option.mem_toList.mp defined
      exact ⟨rfl, rfl, InstructionKind.mem_defines.mpr (.inr defined), by simp⟩

variable {instruction : Instruction}

theorem instructionRegistrations_of_defines (block : BasicBlock) (index : Nat) {value : Value}
    (defined : value ∈ instruction.kind.defines) :
    ∃ entry ∈ instructionRegistrations block index instruction, entry.value = value ∧
      entry.definition.blockId = some block.id ∧ entry.definition.instructionIndex = index ∧
      (entry.definition.isFrameLoad = true → instruction.kind.isFrameLoad) := by
  rcases InstructionKind.mem_defines.mp defined with result | status
  · refine ⟨⟨block.label, value, ⟨some block.id, index, instruction.kind.isFrameLoad⟩⟩, ?_, rfl,
      rfl, rfl, id⟩
    exact mem_append_left _ (mem_map.mpr ⟨value, Option.mem_toList.mpr result, rfl⟩)
  · refine ⟨⟨block.label, value, ⟨some block.id, index, false⟩⟩, ?_, rfl, rfl, rfl, by simp⟩
    exact mem_append_right _ (mem_map.mpr ⟨value, Option.mem_toList.mpr status, rfl⟩)

theorem mem_registrations_of_defines (inside : block ∈ function.blocks)
    (found : block.instructions[index]? = some instruction) {value : Value}
    (defined : value ∈ instruction.kind.defines) :
    ∃ entry ∈ registrations function, entry.value = value ∧
      entry.definition.blockId = some block.id ∧
      entry.definition.instructionIndex = index ∧
      (entry.definition.isFrameLoad = true → instruction.kind.isFrameLoad) := by
  have position : (instruction, index) ∈ block.instructions.zipIdx :=
    mem_zipIdx_iff_getElem?.mpr found
  obtain ⟨entry, member, facts⟩ := instructionRegistrations_of_defines block index defined
  exact ⟨entry,
    mem_append_right _ (mem_flatMap.mpr ⟨block, inside, mem_flatMap.mpr ⟨_, position, member⟩⟩),
    facts⟩

theorem registerAll_pairwise {name : String} {existing rest : List Registration}
    (clean : registerAll name existing rest = []) :
    rest.Pairwise (fun earlier later => earlier.value = later.value →
      earlier.definition.isFrameLoad = true ∧ later.definition.isFrameLoad = true) ∧
    ∀ later ∈ rest, ∀ earlier ∈ existing, earlier.value = later.value →
      earlier.definition.isFrameLoad = true ∧ later.definition.isFrameLoad = true := by
  induction rest generalizing existing with
  | nil => simp
  | cons entry rest ih =>
    obtain ⟨clean, later⟩ := append_eq_nil_iff.mp clean
    obtain ⟨pairwise, separated⟩ := ih later
    have head : ∀ earlier ∈ existing, earlier.value = entry.value →
        earlier.definition.isFrameLoad = true ∧ entry.definition.isFrameLoad = true := by
      intro earlier member same
      have unique := (append_eq_nil_iff.mp clean).2
      split_ifs at unique with duplicate
      have inside : earlier ∈ existing.filter fun other => other.value = entry.value :=
        mem_filter.mpr ⟨member, by simpa using same⟩
      have nonempty : existing.filter (fun other => other.value = entry.value) ≠ [] :=
        ne_nil_of_mem inside
      simp only [ne_eq, nonempty, not_false_eq_true, true_and, Bool.or_eq_true, not_or,
        Bool.not_eq_true', Bool.not_eq_true] at duplicate
      refine ⟨?_, by simpa using duplicate.1⟩
      simpa using any_eq_false.mp duplicate.2 earlier inside
    refine ⟨pairwise_cons.mpr ⟨fun other member => ?_, pairwise⟩, ?_⟩
    · exact separated other member entry (mem_append_right _ (mem_singleton_self _))
    · intro other member earlier before
      rcases mem_cons.mp member with rfl | member
      · exact head earlier before
      · exact separated other member earlier (mem_append_left _ before)

end Registrations

namespace Verified

variable {module : Module} {function : Function} {first : BasicBlock}
  {block : BasicBlock} {earlier : List BasicBlock} {index : Nat} {value : Value}
    {instruction : Instruction}
  {incoming : List (Value × BlockId)}

section
variable (verified : Verified module function first)
include verified

theorem operand_checked (inside : block ∈ function.blocks)
    (found : block.instructions[index]? = some instruction)
      (ordinary : instruction.kind.isPhi = false)
    (read : value ∈ instructionOperands instruction) :
    (functionFacts module function first.id).checkValueAvailable block value index none = [] := by
  have check := (append_eq_nil_iff.mp (verified.checked block inside)).2
  have check := flatMap_eq_nil_iff.mp check (instruction, index) (mem_zipIdx_iff_getElem?.mpr found)
  have operands := (append_eq_nil_iff.mp check).2
  have uses : (instructionOperands instruction).flatMap (fun operand =>
      (functionFacts module function first.id).checkValueAvailable block operand index none) =
        [] := by
    cases kind : instruction.kind with
    | phi result incoming => simp [kind, InstructionKind.isPhi] at ordinary
    | _ => simpa only [kind] using operands
  exact flatMap_eq_nil_iff.mp uses value read

section
variable (walk : Trail function.Edge first (block :: earlier))
include walk

/-- A definition the verifier finds available at a point has been executed when control gets
there. -/
theorem available_of_definition (registered : entry ∈ registrations function)
    (available : (functionFacts module function first.id).definitionAvailable block.id index
      entry.definition = true) :
    function.Available earlier (block.instructions.take index) entry.value := by
  have blockInside := verified.path_mem_blocks walk block mem_cons_self
  rcases mem_registrations registered with ⟨_, parameter⟩ |
    ⟨source, inside, position, instruction, found, at_, index_, defined, _⟩
  · exact .inl parameter
  · simp only [FunctionFacts.definitionAvailable, at_] at available
    split_ifs at available with same
    · obtain rfl := Function.eq_of_id_eq verified.nodup inside blockInside same
      have early : position < index := by simpa [index_] using available
      refine .inr (.inr ⟨instruction, ?_, defined⟩)
      exact mem_of_getElem? (by rw [getElem?_take_of_lt early]; exact found)
    · have dominates := (of_decide_eq_true available).2
      have onPath := verified.dominator_on_path walk inside dominates
      have before := (mem_cons.mp onPath).resolve_left fun equal => same (congrArg (·.id) equal)
      refine .inr (.inl ⟨source, before, ?_⟩)
      exact mem_flatMap.mpr ⟨instruction, mem_of_getElem? found, defined⟩

omit walk in
/-- A use the verifier accepts reads an executed definition or a frame reload. -/
theorem available_of_check {context : BasicBlock}
    (walk : Trail function.Edge first (context :: earlier)) {edge : Option BlockId}
    (place : edge.getD block.id = context.id)
    (check : (functionFacts module function first.id).checkValueAvailable block value index edge =
      []) :
    function.Available earlier (context.instructions.take index) value ∨
      function.Reloaded value := by
  simp only [FunctionFacts.checkValueAvailable] at check
  split_ifs at check with invalid undefined_ reloaded available
  · simp only [any_eq_true, mem_map, mem_filter, decide_eq_true_eq] at reloaded
    obtain ⟨_, ⟨entry, ⟨registered, rfl⟩, rfl⟩, reload⟩ := reloaded
    rcases mem_registrations registered with ⟨parameter, _⟩ |
      ⟨source, inside, _, instruction, found, _, _, _, load⟩
    · simp [parameter] at reload
    · exact .inr ⟨source, inside, instruction, mem_of_getElem? found, load reload⟩
  · simp only [any_eq_true, mem_map, mem_filter, decide_eq_true_eq, place] at available
    obtain ⟨_, ⟨entry, ⟨registered, rfl⟩, rfl⟩, reach⟩ := available
    exact .inl (verified.available_of_definition walk registered reach)

/-- Every non-phi instruction of a block on a path reads available values. -/
theorem operand_available (found : block.instructions[index]? = some instruction)
    (ordinary : instruction.kind.isPhi = false) (read : value ∈ instructionOperands instruction) :
    function.Available earlier (block.instructions.take index) value ∨ function.Reloaded value := by
  have inside := verified.path_mem_blocks walk block mem_cons_self
  exact verified.available_of_check walk rfl (verified.operand_checked inside found ordinary read)

theorem terminator_available {terminator : Terminator}
    (ends : block.terminator = some terminator) (read : value ∈ terminator.reads) :
    function.Available earlier block.instructions value ∨ function.Reloaded value := by
  have inside := verified.path_mem_blocks walk block mem_cons_self
  have check := (append_eq_nil_iff.mp (verified.checked block inside)).1
  simp only [FunctionFacts.checkTerminator, ends] at check
  suffices use : (functionFacts module function first.id).checkValueAvailable block value
      block.instructions.length none = [] by
    simpa only [take_length] using verified.available_of_check walk rfl use
  cases terminator with
  | ret value? =>
    exact flatMap_eq_nil_iff.mp (append_eq_nil_iff.mp check).1 value read
  | branch target | unreachable => simp [Terminator.reads] at read
  | condBranch scrutinee trueBlock falseBlock | switch scrutinee cases default =>
    simp only [append_eq_nil_iff] at check
    obtain rfl : value = scrutinee := by simpa [Terminator.reads] using read
    exact check.1.1.1

end

end

/-- The entries of an accepted phi name distinct predecessors and carry values available there. -/
theorem checkIncoming_clean {facts : FunctionFacts} {seen : List (Value × BlockId)}
    (clean : facts.checkIncoming block seen incoming = []) :
    (∀ entry ∈ incoming, ∀ predecessor, entry.2 ∈ facts.function.blockIds →
      facts.function.getBlock entry.2 = some predecessor →
      facts.checkValueAvailable block entry.1 predecessor.instructions.length (some entry.2) = []) ∧
    (incoming.map Prod.snd).Nodup ∧ ∀ entry ∈ incoming, entry.2 ∉ seen.map Prod.snd := by
  induction incoming generalizing seen with
  | nil => simp
  | cons head rest ih =>
    obtain ⟨value, pred⟩ := head
    simp only [FunctionFacts.checkIncoming, append_eq_nil_iff] at clean
    obtain ⟨⟨available, unique⟩, later⟩ := clean
    obtain ⟨restAvailable, restNodup, restFresh⟩ := ih later
    have fresh : pred ∉ seen.map Prod.snd := by
      cases found : seen.find? fun entry => entry.2 = pred with
      | some existing => simp [found] at unique
      | none =>
        rw [find?_eq_none] at found
        intro repeated
        obtain ⟨entry, inside, same⟩ := mem_map.mp repeated
        simpa [same] using found entry inside
    refine ⟨?_, ?_, ?_⟩
    · intro entry member predecessor known found
      rcases mem_cons.mp member with rfl | member
      · split_ifs at available with unknown foreign
        · simpa only [found] using available
      · exact restAvailable entry member predecessor known found
    · rw [map_cons, nodup_cons]
      refine ⟨fun repeated => ?_, restNodup⟩
      obtain ⟨entry, inside, same⟩ := mem_map.mp repeated
      exact restFresh entry inside (by simp [same])
    · intro entry member
      rcases mem_cons.mp member with rfl | member
      · exact fresh
      · intro repeated
        exact restFresh entry member (mem_cons_of_mem _ repeated)

theorem filter_snd_eq_singleton {entry : Value × BlockId} (distinct : (incoming.map Prod.snd).Nodup)
    (member : entry ∈ incoming) : incoming.filter (fun other => other.2 = entry.2) = [entry] := by
  have only : ∀ other ∈ incoming, decide (other.2 = entry.2) = (other == entry) := by
    intro other inside
    rw [Bool.eq_iff_iff, decide_eq_true_eq, beq_iff_eq]
    exact ⟨inj_on_of_nodup_map distinct inside member, congrArg Prod.snd⟩
  rw [filter_congr only, filter_beq, count_eq_one_of_mem distinct.of_map member]
  rfl

/-- A phi entered from a predecessor has one entry for it, whose value is available at its end. -/
theorem phi_available (verified : Verified module function first) {predecessor : BasicBlock}
    (walk : Trail function.Edge first (block :: predecessor :: earlier))
      (member : instruction ∈ block.instructions)
    {result : Value} (phi : instruction.kind = .phi result incoming) :
    ∃ value, incoming.filter (fun entry => entry.2 = predecessor.id) = [(value, predecessor.id)] ∧
      (function.Available (predecessor :: earlier) [] value ∨ function.Reloaded value) := by
  cases walk with
  | step before move =>
    have inside := (Function.mem_blocks_of_getBlock move.2).1
    have predInside := verified.path_mem_blocks before predecessor mem_cons_self
    obtain ⟨index, found⟩ := getElem?_of_mem member
    have check := (append_eq_nil_iff.mp (verified.checked block inside)).2
    have check := flatMap_eq_nil_iff.mp check (instruction, index)
      (mem_zipIdx_iff_getElem?.mpr found)
    have check := (append_eq_nil_iff.mp check).2
    simp only [phi, FunctionFacts.checkPhi] at check
    split_ifs at check with empty
    obtain ⟨entries, complete⟩ := append_eq_nil_iff.mp check
    obtain ⟨available, distinct, _⟩ := checkIncoming_clean entries
    have listed := flatMap_eq_nil_iff.mp complete predecessor.id
      (Function.mem_predecessors predInside move.1)
    split_ifs at listed with present
    obtain ⟨⟨value, pred⟩, entry, same⟩ := any_eq_true.mp present
    obtain rfl : pred = predecessor.id := by simpa using same
    refine ⟨value, filter_snd_eq_singleton distinct entry, ?_⟩
    have use := available (value, predecessor.id) entry predecessor
      (Function.mem_blockIds_of_mem predInside)
      (Function.getBlock_of_mem verified.nodup predInside)
    refine (verified.available_of_check before rfl use).imp_left fun reached => ?_
    rw [take_length] at reached
    rcases reached with parameter | ⟨source, completed, defined⟩ | ⟨executed, last, defined⟩
    · exact .inl parameter
    · exact .inr (.inl ⟨source, mem_cons_of_mem _ completed, defined⟩)
    · exact .inr (.inl ⟨predecessor, mem_cons_self, mem_flatMap.mpr ⟨executed, last, defined⟩⟩)

theorem registration_unique (verified : Verified module function first) {other : Registration}
    (member : entry ∈ registrations function) (inside : other ∈ registrations function)
    (same : entry.value = other.value) :
    entry = other ∨ entry.definition.isFrameLoad = true ∧ other.definition.isFrameLoad = true := by
  have pairwise := (registerAll_pairwise verified.registered).1
  by_cases equal : entry = other
  · exact .inl equal
  · have : Std.Symm fun earlier later : Registration => earlier.value = later.value →
        earlier.definition.isFrameLoad = true ∧ later.definition.isFrameLoad = true :=
      ⟨fun _ _ agree same => (agree same.symm).symm⟩
    exact .inr (pairwise.forall member inside equal same)

variable {instruction : Instruction} {value : Value}

section
variable (verified : Verified module function first)
include verified

/-- Two instructions that define one value are the same instruction or both frame reloads. -/
theorem definition_unique
    (member : block ∈ function.blocks) (inside : other ∈ function.blocks) {position : Nat}
      {later : Instruction}
    (found : block.instructions[index]? = some instruction)
      (located : other.instructions[position]? = some later)
    (defined : value ∈ instruction.kind.defines) (redefined : value ∈ later.kind.defines) :
    (block = other ∧ index = position ∧ instruction = later) ∨
      instruction.kind.isFrameLoad = true ∧ later.kind.isFrameLoad = true := by
  obtain ⟨entry, registered, rfl, at_, index_, load⟩ :=
    mem_registrations_of_defines member found defined
  obtain ⟨second, again, same, at', index', load'⟩ :=
    mem_registrations_of_defines inside located redefined
  rcases verified.registration_unique registered again same.symm with rfl | ⟨reload, reload'⟩
  · have ids : block.id = other.id := Option.some.inj (at_.symm.trans at')
    obtain rfl := Function.eq_of_id_eq verified.nodup member inside ids
    obtain rfl : index = position := index_.symm.trans index'
    exact .inl ⟨rfl, rfl, Option.some.inj (found.symm.trans located)⟩
  · exact .inr ⟨load reload, load' reload'⟩

/-- A value with a definition other than a frame reload has no second definition. -/
theorem kind_unique {other : InstructionKind}
    (member : kind ∈ function.kinds) (inside : other ∈ function.kinds)
      (defined : value ∈ kind.defines)
    (redefined : value ∈ other.defines) (ordinary : kind.isFrameLoad = false) : kind = other := by
  obtain ⟨block, blockMember, instruction, instructionMember, rfl⟩ := Function.mem_kinds.mp member
  obtain ⟨block', blockMember', instruction', instructionMember', rfl⟩ :=
    Function.mem_kinds.mp inside
  obtain ⟨index, found⟩ := getElem?_of_mem instructionMember
  obtain ⟨position, located⟩ := getElem?_of_mem instructionMember'
  rcases verified.definition_unique blockMember blockMember' found located defined redefined with
    ⟨_, _, rfl⟩ | ⟨reload, _⟩
  · rfl
  · simp [ordinary] at reload

/-- An operand with a definition other than a frame reload is available. -/
theorem operand_defined (walk : Trail function.Edge first (block :: earlier))
    (found : block.instructions[index]? = some instruction)
      (notPhi : instruction.kind.isPhi = false)
    (read : value ∈ instructionOperands instruction) (member : kind ∈ function.kinds)
    (defined : value ∈ kind.defines) (ordinary : kind.isFrameLoad = false) :
    function.Available earlier (block.instructions.take index) value := by
  apply (verified.operand_available walk found notPhi read).resolve_right
  rintro ⟨other, inside, reload, listed, isLoad, result⟩
  have redefined : value ∈ reload.kind.defines := InstructionKind.mem_defines.mpr (.inl result)
  have same :=
    verified.kind_unique member (Function.mem_kinds.mpr ⟨other, inside, reload, listed, rfl⟩)
      defined redefined
    ordinary
  rw [same, isLoad] at ordinary
  simp at ordinary

/-- No instruction defines a parameter. -/
theorem parameter_not_defined (member : block ∈ function.blocks)
    (inside : instruction ∈ block.instructions) (parameter : value ∈ function.paramIds) :
    value ∉ instruction.kind.defines := by
  intro defined
  obtain ⟨index, found⟩ := getElem?_of_mem inside
  obtain ⟨entry, registered, rfl, at_, _, _⟩ := mem_registrations_of_defines member found defined
  obtain ⟨declared, listed, same⟩ := mem_map.mp parameter
  have first : (⟨"parameter", declared.id, ⟨none, 0, false⟩⟩ : Registration) ∈
    registrations function :=
    mem_append_left _ (mem_map.mpr ⟨declared, listed, rfl⟩)
  rcases verified.registration_unique first registered same with rfl | ⟨reload, _⟩
  · simp at at_
  · simp at reload

end

end Verified

/-- No instruction of the function belongs to the coroutine machinery. -/
def Function.Plain (function : Function) : Prop :=
  ∀ block ∈ function.blocks, ∀ instruction ∈ block.instructions, instruction.kind.isCoroutine =
    false

theorem Function.Plain.not_reloaded (plain : function.Plain) (value : Value) :
    ¬function.Reloaded value := by
  rintro ⟨block, inside, instruction, member, reload, _⟩
  simp [InstructionKind.isFrameLoad_of_isCoroutine (plain block inside instruction member)]
    at reload

/-- On every path of an accepted function without coroutine instructions, operands are defined
before they are read, and a phi has exactly one entry for the edge taken. -/
theorem accepted_reads_defined {module : Module} (accepted : verifyModule module = .ok ())
    {function : Function}
    (member : function ∈ module.functions) (plain : function.Plain) {block : BasicBlock}
    {earlier : List BasicBlock} (path : function.Path (block :: earlier)) :
    (∀ index instruction, block.instructions[index]? = some instruction →
      instruction.kind.isPhi = false →
      ∀ value ∈ instruction.kind.reads, function.Available earlier (block.instructions.take index)
        value) ∧
    (∀ terminator, block.terminator = some terminator →
      ∀ value ∈ terminator.reads, function.Available earlier block.instructions value) ∧
    ∀ predecessor rest, earlier = predecessor :: rest → ∀ instruction ∈ block.instructions,
      ∀ result incoming, instruction.kind = .phi result incoming →
        ∃ value, incoming.filter (fun entry => entry.2 = predecessor.id) =
          [(value, predecessor.id)] ∧ function.Available earlier [] value := by
  obtain ⟨first, verified⟩ := verified_of_accepted accepted member
  obtain ⟨start, head, walk⟩ := path
  obtain rfl : start = first := Option.some.inj (head.symm.trans verified.first_eq)
  have blockInside := verified.path_mem_blocks walk block mem_cons_self
  refine ⟨?_, ?_, ?_⟩
  · intro index instruction found ordinary value read
    have simple := plain block blockInside instruction (mem_of_getElem? found)
    rw [← instructionOperands_eq_reads (InstructionKind.isStateLoad_of_isCoroutine simple)] at read
    exact (verified.operand_available walk found ordinary read).resolve_right
      (plain.not_reloaded value)
  · intro terminator ends value read
    exact (verified.terminator_available walk ends read).resolve_right (plain.not_reloaded value)
  · rintro predecessor rest rfl instruction inside result incoming phi
    obtain ⟨value, single, available⟩ := verified.phi_available walk inside phi
    exact ⟨value, single, available.resolve_right (plain.not_reloaded value)⟩

/-- A loop whose header merges the start value with the value of the body. -/
def countingLoop : Function where
  name := "count"
  params := [⟨0, "x", .int⟩]
  returnType := .int
  blocks := [⟨0, "entry", [⟨0, .constBool 1 true⟩], some (.branch 1)⟩,
    ⟨1, "header", [⟨0, .phi 3 [(0, 0), (2, 2)]⟩], some (.condBranch 1 2 3)⟩,
    ⟨2, "body", [⟨0, .binary .add 2 3 0⟩], some (.branch 1)⟩,
    ⟨3, "exit", [], some (.ret (some 3))⟩]
  nextValueId := 4
  nextBlockId := 4

def countingModule : Module where
  name := "sample"
  functions := [countingLoop]

/-- Around the loop once: entry, header, body, header. -/
def countingPath : List BasicBlock := [1, 2, 1, 0].filterMap countingLoop.getBlock

theorem countingLoop_reads_defined :
    verifyModule countingModule = .ok () ∧
    ∃ value, [((0 : Value), (0 : BlockId)), (2, 2)].filter (fun entry => entry.2 = 2) =
      [(value, 2)] ∧ countingLoop.Available countingPath.tail [] value := by
  have accepted : verifyModule countingModule = .ok () := by decide +kernel
  have plain : countingLoop.Plain := by unfold Function.Plain; decide
  have path : countingLoop.Path countingPath := by
    refine ⟨_, rfl, .step (.step (.step .start ?_) ?_) ?_⟩
    · exact ⟨by decide, rfl⟩
    · exact ⟨by decide, rfl⟩
    · exact ⟨by decide, rfl⟩
  have reads := accepted_reads_defined accepted (mem_singleton_self _) plain path
  exact ⟨accepted, reads.2.2 _ _ rfl _ (mem_singleton_self _) 3 _ rfl⟩

end SpectraLang

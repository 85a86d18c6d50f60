import SpectraLang.Passes.LoopValidation
import SpectraLang.Passes.FunctionInlining

/-! # Control flow of inlined functions

A replaced call grafts a copy of the callee into the caller's control flow: the copy has its own
block identifiers, its returns lead to the continuation block, and the caller's blocks keep their
labels. Only the replaced call disappears, and a function that is inlinable afterwards was so
before, but for its calls.
-/

namespace SpectraLang

open List

/-- The block ends its function. -/
def BasicBlock.Returns (block : BasicBlock) : Prop := ∃ value, block.terminator = some (.ret value)

def BasicBlock.Calls (block : BasicBlock) (name : String) : Prop :=
  ∃ instruction ∈ block.instructions, ∃ result args isTail, instruction.kind = .call result name
    args isTail

/-- A merge instruction among the instructions. -/
def Phi (instructions : List Instruction) (result : Value) (incoming : List (Value × BlockId)) :
    Prop :=
  ∃ instruction ∈ instructions, instruction.kind = .phi result incoming

namespace Function

variable (function : Function)

def Returns : Prop := ∃ block ∈ function.blocks, block.Returns
def Calls (name : String) : Prop := ∃ block ∈ function.blocks, block.Calls name

/-- The block is reached from the first one. -/
def Live (id : BlockId) : Prop := ∃ first, function.blocks.head? = some first ∧
    function.Reaches first.id id
def LiveCalls (name : String) : Prop := ∃ block ∈ function.blocks, function.Live block.id ∧
    block.Calls name

/-- The block is the first one or a block leads to it. -/
def Entered (id : BlockId) : Prop :=
  (∃ source, function.Leads source id) ∨ function.blocks.head?.map (·.id) = some id

/-- Every merge instruction names exactly the predecessors of its block. -/
def PhisComplete : Prop :=
  ∀ block ∈ function.blocks, ∀ result incoming, Phi block.instructions result incoming →
    ∀ source, source ∈ incoming.map Prod.snd ↔ function.Leads source block.id

/-- Blocks have their own identifiers below the next free one, jumps have targets, merges name their
predecessors. -/
structure FlowIntact : Prop where
  linked : function.Linked
  fresh : ∀ id ∈ function.blockIds, id < function.nextBlockId
  phis : function.PhisComplete

end Function

variable {function : Function}

theorem Function.Linked.of_leads (linked : function.Linked) {source target : BlockId}
    (leads : function.Leads source target) : source ∈ function.blockIds ∧
      target ∈ function.blockIds := by
  obtain ⟨block, member, rfl, edge⟩ := leads
  exact ⟨Function.mem_blockIds_of_mem member, linked.known block member target edge⟩

namespace FunctionInlining

open Grafting Saturate

/-- One entry of the map from the callee's blocks to their copies. -/
private def recordBlock (first : BlockId) (map : BlockId → Option BlockId)
    (entry : BasicBlock × Nat) : BlockId → Option BlockId :=
  Function.update map entry.1.id (some (first + entry.2))

variable {id : BlockId} {map : BlockId → Option BlockId} {blocks : List BasicBlock}

theorem foldl_update_of_not_mem {first : BlockId} {start : Nat} (absent : id ∉ blocks.map (·.id)) :
    (blocks.zipIdx start).foldl (recordBlock first) map id = map id := by
  induction blocks generalizing start map with
  | nil => rfl
  | cons block blocks ih =>
    simp only [map_cons, mem_cons, not_or] at absent
    simp [ih absent.2, recordBlock, Function.update_of_ne absent.1]

variable {block : BasicBlock}

theorem foldl_update_of_mem {first : BlockId} {start : Nat} (nodup : (blocks.map (·.id)).Nodup)
    (inside : id ∈ blocks.map (·.id)) :
    (blocks.zipIdx start).foldl (recordBlock first) map id = some
      (first + (start + (blocks.map (·.id)).idxOf id)) := by
  induction blocks generalizing start map with
  | nil => cases inside
  | cons block blocks ih =>
    rw [map_cons, nodup_cons] at nodup
    rw [zipIdx_cons, foldl_cons, map_cons]
    rcases mem_cons.mp inside with rfl | later
    · simp [foldl_update_of_not_mem nodup.1, recordBlock]
    · have other : block.id ≠ id := fun same => nodup.1 (same ▸ later)
      rw [ih nodup.2 later, idxOf_cons_ne _ other, Nat.add_right_comm, Nat.add_assoc start]

variable {caller callee : Function}

section
variable (nodup : callee.blockIds.Nodup) (inside : id ∈ callee.blockIds)
include nodup inside

/-- The blocks of the callee are numbered in order. -/
theorem copyId_eq : copyId caller callee id = caller.nextBlockId + 1 + callee.blockIds.idxOf
    id := by
  have recorded : blockIdMap callee (caller.nextBlockId + 1) id =
      some (caller.nextBlockId + 1 + (0 + callee.blockIds.idxOf id)) :=
        foldl_update_of_mem nodup inside
  simp [copyId, mapBlock, recorded]

theorem lt_copyId : caller.nextBlockId < copyId caller callee id := by
  rw [copyId_eq nodup inside]
  omega

theorem copyId_lt : copyId caller callee id < caller.nextBlockId + 1 + callee.blocks.length := by
  have bound := idxOf_lt_length_of_mem inside
  rw [Function.blockIds, length_map] at bound
  exact copyId_eq nodup inside ▸ Nat.add_lt_add_left bound _

end

theorem copyId_injective (nodup : callee.blockIds.Nodup) {other : BlockId}
    (inside : id ∈ callee.blockIds)
    (otherIn : other ∈ callee.blockIds)
      (same : copyId caller callee id = copyId caller callee other) : id = other := by
  rw [copyId_eq nodup inside, copyId_eq nodup otherIn] at same
  exact (idxOf_inj inside).mp (Nat.add_left_cancel same)

namespace CallSite

variable (site : CallSite caller)

theorem splice_blockIds : (site.splice callee).blockIds =
    site.before.map (·.id) ++ [site.block.id] ++ callee.blockIds.map (copyId caller callee) ++
      [caller.nextBlockId] ++ site.after.map (·.id) := by
  have rewired : ∀ blocks : List BasicBlock, (blocks.map site.rewired).map (·.id) = blocks.map
    (·.id) := by
    intro blocks
    rw [map_map]
    rfl
  have copies : (callee.blocks.map (site.clone callee)).map (·.id) = callee.blockIds.map
    (copyId caller callee) := by
    rw [map_map, Function.blockIds, map_map]
    rfl
  rw [Function.blockIds, splice_blocks, rewired]
  simp only [map_append, copies, map_cons, map_nil]
  rfl

theorem caller_blockIds : caller.blockIds = site.before.map (·.id) ++ site.block.id ::
    site.after.map (·.id) := by
  simp [Function.blockIds, site.blocks_eq]

/-- The copy and the continuation come after the caller's blocks, up to the order. -/
theorem splice_blockIds_perm : (site.splice callee).blockIds.Perm
    (caller.blockIds ++ (callee.blockIds.map (copyId caller callee) ++ [caller.nextBlockId])) := by
  rw [splice_blockIds, site.caller_blockIds]
  generalize callee.blockIds.map (copyId caller callee) = copies
  simp only [append_assoc, cons_append, nil_append]
  refine List.Perm.append_left _ (List.Perm.cons _ ?_)
  rw [append_cons]
  exact perm_append_comm

variable {id : BlockId}

theorem mem_splice_blockIds : id ∈ (site.splice callee).blockIds ↔
    id ∈ caller.blockIds ∨ (∃ original ∈ callee.blockIds, copyId caller callee original = id) ∨
      id = caller.nextBlockId := by
  simp [site.splice_blockIds_perm.mem_iff]

variable {old block : BasicBlock} {name : String}

theorem mem_caller_blocks : old ∈ caller.blocks ↔ (old ∈ site.before ∨ old ∈ site.after) ∨
    old = site.block := by
  rw [site.blocks_eq, mem_append, mem_cons]
  tauto

theorem mem_of_around (around : old ∈ site.before ∨ old ∈ site.after) : old ∈ caller.blocks :=
  site.mem_caller_blocks.mpr (.inl around)

theorem block_mem : site.block ∈ caller.blocks := site.mem_caller_blocks.mpr (.inr rfl)

theorem successors_cloneTerminator (values : Value → Option Value)
    (blocks : BlockId → Option BlockId) (continuation : BlockId) (terminator : Terminator) :
    blockSuccessors (cloneTerminator values blocks continuation (some terminator)) =
      terminator.successors.map (mapBlock blocks) ++ if terminator matches .ret _ then
        [continuation] else [] := by
  cases terminator with
  | switch value cases default =>
    simp [cloneTerminator, blockSuccessors, Terminator.successors, Function.comp_def]
  | _ => rfl

/-- A copied block goes where the original went, in the copy; a return continues behind the call. -/
theorem mem_successors_clone {inner : BasicBlock} {target : BlockId} :
    target ∈ blockSuccessors (site.clone callee inner).terminator ↔
      (∃ next ∈ blockSuccessors inner.terminator, target = copyId caller callee next) ∨
        inner.Returns ∧ target = caller.nextBlockId := by
  change target ∈ blockSuccessors (cloneTerminator _ _ _ inner.terminator) ↔ _
  cases ends : inner.terminator with
  | none => simp [cloneTerminator, blockSuccessors, BasicBlock.Returns, ends]
  | some terminator =>
    rw [successors_cloneTerminator, mem_append, mem_map]
    refine or_congr ?_ ?_
    · exact exists_congr fun next => and_congr_right fun _ => eq_comm
    · cases terminator <;> simp [BasicBlock.Returns, ends]

variable {first : BasicBlock}

section
variable (nodup : caller.blockIds.Nodup)
include nodup

theorem splice_nodup (fresh : ∀ id ∈ caller.blockIds, id < caller.nextBlockId)
    (calleeNodup : callee.blockIds.Nodup) : (site.splice callee).blockIds.Nodup := by
  refine site.splice_blockIds_perm.nodup_iff.mpr
    (nodup_append.mpr ⟨nodup, nodup_append.mpr ⟨?_, by simp, ?_⟩, ?_⟩)
  · exact List.Nodup.map_on
      (fun id inside other otherIn => copyId_injective calleeNodup inside otherIn) calleeNodup
  · intro id inside other last
    obtain ⟨original, originalIn, rfl⟩ := mem_map.mp inside
    obtain rfl := mem_singleton.mp last
    exact (lt_copyId calleeNodup originalIn).ne'
  · intro id inside other new
    have below := fresh id inside
    rcases mem_append.mp new with copied | last
    · obtain ⟨original, originalIn, rfl⟩ := mem_map.mp copied
      exact (below.trans (lt_copyId calleeNodup originalIn)).ne
    · obtain rfl := mem_singleton.mp last
      exact below.ne

theorem around_iff : old ∈ site.before ∨ old ∈ site.after ↔ old ∈ caller.blocks ∧
    old.id ≠ site.block.id := by
  rw [site.caller_blockIds, nodup_append, nodup_cons] at nodup
  refine ⟨fun around => ⟨site.mem_of_around around, ?_⟩, fun ⟨member, other⟩ => ?_⟩
  · rcases around with early | late
    · exact nodup.2.2 old.id (mem_map_of_mem early) _ mem_cons_self
    · exact fun same => nodup.2.1.1 (same ▸ mem_map_of_mem late)
  · exact (site.mem_caller_blocks.mp member).resolve_right fun same => other (same ▸ rfl)

theorem splice_leads (entry : callee.blocks.head? = some first)
    {source target : BlockId} : (site.splice callee).Leads source target ↔
      (source ≠ site.block.id ∧ caller.Leads source target) ∨
      (source = site.block.id ∧ target = copyId caller callee first.id) ∨
      (∃ id next, callee.Leads id next ∧ source = copyId caller callee id ∧
        target = copyId caller callee next) ∨
      (∃ inner ∈ callee.blocks, inner.Returns ∧ source = copyId caller callee inner.id ∧
        target = caller.nextBlockId) ∨
      source = caller.nextBlockId ∧ caller.Leads site.block.id target := by
  have frontEnds :
    (site.front callee).terminator = some (.branch (copyId caller callee first.id)) := by
    rw [front, frontBlock, entry, Option.map_some]
    rfl
  have memSplice := @mem_splice_blocks caller site callee
  constructor
  · rintro ⟨block, member, rfl, edge⟩
    rcases memSplice.mp member with ⟨old, around, rfl⟩ | rfl | ⟨inner, isInner, rfl⟩ | rfl
    · obtain ⟨member, other⟩ := (site.around_iff nodup).mp around
      exact .inl ⟨other, old, member, rfl, edge⟩
    · change target ∈ blockSuccessors (site.front callee).terminator at edge
      rw [frontEnds] at edge
      exact .inr (.inl ⟨rfl, mem_singleton.mp edge⟩)
    · rcases site.mem_successors_clone.mp edge with ⟨next, jump, rfl⟩ | ⟨returns, rfl⟩
      · exact .inr (.inr (.inl ⟨_, next, ⟨inner, isInner, rfl, jump⟩, rfl, rfl⟩))
      · exact .inr (.inr (.inr (.inl ⟨inner, isInner, returns, rfl, rfl⟩)))
    · exact .inr (.inr (.inr (.inr ⟨rfl, site.block, site.block_mem, rfl, edge⟩)))
  · rintro (⟨other, old, member, rfl, edge⟩ | ⟨rfl, rfl⟩ |
      ⟨_, next, ⟨inner, isInner, rfl, jump⟩, rfl, rfl⟩ |
      ⟨inner, isInner, returns, rfl, rfl⟩ | ⟨rfl, block, member, same, edge⟩)
    · exact ⟨_, memSplice.mpr (.inl ⟨old, (site.around_iff nodup).mpr ⟨member, other⟩, rfl⟩), rfl,
        edge⟩
    · refine ⟨_, memSplice.mpr (.inr (.inl rfl)), rfl, ?_⟩
      change _ ∈ blockSuccessors (site.front callee).terminator
      rw [frontEnds]
      exact mem_singleton_self _
    · exact ⟨_, memSplice.mpr (.inr (.inr (.inl ⟨inner, isInner, rfl⟩))), rfl,
        site.mem_successors_clone.mpr (.inl ⟨next, jump, rfl⟩)⟩
    · exact ⟨_, memSplice.mpr (.inr (.inr (.inl ⟨inner, isInner, rfl⟩))), rfl,
        site.mem_successors_clone.mpr (.inr ⟨returns, rfl⟩)⟩
    · rw [Function.eq_of_id_eq nodup member site.block_mem same] at edge
      exact ⟨_, memSplice.mpr (.inr (.inr (.inr rfl))), rfl, edge⟩

end

section Spliced
variable (linked : caller.Linked) (fresh : ∀ id ∈ caller.blockIds, id < caller.nextBlockId)
  (inner : callee.Linked)

include linked fresh inner

omit linked in
theorem splice_fresh (inside : id ∈ (site.splice callee).blockIds) :
    id < (site.splice callee).nextBlockId := by
  change id < caller.nextBlockId + 1 + callee.blocks.length
  rcases site.mem_splice_blockIds.mp inside with old | ⟨original, originalIn, rfl⟩ | rfl
  · exact Nat.lt_add_right _ (Nat.lt_succ_of_lt (fresh id old))
  · exact copyId_lt inner.nodup originalIn
  · exact Nat.lt_add_right _ (Nat.lt_succ_self _)

theorem splice_linked (entry : callee.blocks.head? = some first) : (site.splice callee).Linked := by
  refine ⟨site.splice_nodup linked.nodup fresh inner.nodup, fun block member target edge => ?_⟩
  have leads : (site.splice callee).Leads block.id target := ⟨block, member, rfl, edge⟩
  rw [mem_splice_blockIds]
  rcases (site.splice_leads linked.nodup entry).mp leads with ⟨-, old⟩ | ⟨-, rfl⟩ |
    ⟨_, next, jump, -, rfl⟩ | ⟨-, -, -, -, rfl⟩ | ⟨-, old⟩
  · exact .inl (linked.of_leads old).2
  · exact .inr (.inl ⟨first.id, Function.mem_blockIds_of_mem (mem_of_mem_head? entry), rfl⟩)
  · exact .inr (.inl ⟨next, (inner.of_leads jump).2, rfl⟩)
  · exact .inr (.inr rfl)
  · exact .inl (linked.of_leads old).2

/-- Replacing a call grafts the callee's control flow into the caller's. -/
theorem splice_graft (entry : callee.blocks.head? = some first) :
    Graft (· ∈ caller.blockIds) caller.Leads (· ∈ callee.blockIds) callee.Leads
      (fun id => ∃ block ∈ callee.blocks, block.id = id ∧ block.Returns) first.id
        (copyId caller callee) site.block.id
      caller.nextBlockId (site.splice callee).Leads := by
  have restFresh : caller.nextBlockId ∉ caller.blockIds := fun inside => (fresh _ inside).false
  have copyFresh : ∀ {id}, id ∈ callee.blockIds → copyId caller callee id ∉ caller.blockIds :=
    fun isInside inside =>
    (lt_copyId inner.nodup isInside).not_gt (fresh _ inside)
  have copyNeRest : ∀ {id}, id ∈ callee.blockIds → copyId caller callee id ≠ caller.nextBlockId :=
    fun isInside =>
    (lt_copyId inner.nodup isInside).ne'
  have injective : ∀ {id other}, id ∈ callee.blockIds → other ∈ callee.blockIds →
      copyId caller callee id = copyId caller callee other → id = other :=
        copyId_injective inner.nodup
  have oldKnown : ∀ {id next}, caller.Leads id next → id ∈ caller.blockIds ∧
    next ∈ caller.blockIds := linked.of_leads
  have innerKnown : ∀ {id next}, callee.Leads id next → id ∈ callee.blockIds ∧
    next ∈ callee.blockIds := inner.of_leads
  have innerId : ∀ {block : BasicBlock}, block ∈ callee.blocks → block.id ∈ callee.blockIds :=
    mem_map_of_mem
  have siteKnown : site.block.id ∈ caller.blockIds := Function.mem_blockIds_of_mem site.block_mem
  have edges := @splice_leads _ callee site _ linked.nodup entry
  -- The caller's blocks, the copies and the continuation are apart, so an edge's source tells its
  -- kind.
  exact ⟨siteKnown, innerId (mem_of_mem_head? entry), oldKnown, innerKnown, restFresh, copyFresh,
    copyNeRest, injective, by grind, by grind, by grind, by grind, by grind⟩

end Spliced

theorem splice_head : (site.splice callee).blocks.head?.map (·.id) = caller.blocks.head?.map
    (·.id) := by
  rw [splice_blocks, site.blocks_eq]
  cases site.before <;> rfl

theorem calls_of_instructions {other : BasicBlock}
    (same : ∀ kind, isCall kind = true →
      (∃ instruction ∈ block.instructions, instruction.kind = kind) →
      ∃ instruction ∈ other.instructions, instruction.kind = kind) (calls : block.Calls name) :
        other.Calls name := by
  obtain ⟨instruction, member, result, args, isTail, kind⟩ := calls
  obtain ⟨found, inside, isCall⟩ := same _ rfl ⟨instruction, member, kind⟩
  exact ⟨found, inside, result, args, isTail, isCall⟩

theorem calls_rewired : (site.rewired block).Calls name ↔ block.Calls name := by
  have keeps : ∀ (instruction : Instruction) (kind : InstructionKind), isCall kind = true →
      ((rewirePhis site.block.id caller.nextBlockId instruction).kind = kind ↔
        instruction.kind = kind) := by
    rintro ⟨id, own⟩ kind call
    cases own with
    | phi result incoming => cases kind <;> simp_all [rewirePhis, isCall]
    | _ => rfl
  constructor
  · apply calls_of_instructions
    rintro kind call ⟨instruction, member, found⟩
    obtain ⟨old, inside, rfl⟩ := mem_map.mp member
    exact ⟨old, inside, (keeps old kind call).mp found⟩
  · apply calls_of_instructions
    rintro kind call ⟨instruction, member, found⟩
    exact ⟨_, mem_map_of_mem member, (keeps instruction kind call).mpr found⟩

variable {kind : InstructionKind}

theorem mem_renumberInstructions {instructions : List Instruction} :
    (∃ instruction ∈ renumberInstructions instructions, instruction.kind = kind) ↔
      ∃ instruction ∈ instructions, instruction.kind = kind := by
  constructor
  · rintro ⟨_, member, rfl⟩
    obtain ⟨⟨instruction, index⟩, inside, rfl⟩ := mem_map.mp member
    exact ⟨instruction, mem_of_getElem? (mem_zipIdx_iff_getElem?.mp inside), rfl⟩
  · rintro ⟨instruction, member, rfl⟩
    obtain ⟨index, here⟩ := mem_iff_getElem?.mp member
    have inside : (instruction, index) ∈ instructions.zipIdx := mem_zipIdx_iff_getElem?.mpr here
    exact ⟨_, mem_map_of_mem inside, rfl⟩

/-- In front of the copy stands what stood before the call, and room for the result. -/
theorem kind_front (found : ∃ instruction ∈ (site.front callee).instructions,
    instruction.kind = kind) :
    (∃ instruction ∈ site.block.instructions, instruction.kind = kind) ∨
      ∃ slot ty, kind = .alloca slot ty := by
  obtain ⟨instruction, member, rfl⟩ := found
  rw [site.instructions_eq]
  rcases mem_append.mp member with old | new
  · exact .inl ⟨instruction, mem_append_left _ old, rfl⟩
  · obtain ⟨slot, -, rfl⟩ := mem_map.mp new
    exact .inr ⟨slot, _, rfl⟩

/-- Behind the copy stands what stood behind the call, and the load of the result. -/
theorem kind_rest (found : ∃ instruction ∈ (site.rest callee).instructions,
    instruction.kind = kind) :
    (∃ instruction ∈ site.tail, instruction.kind = kind) ∨ ∃ result slot ty,
      kind = .load result slot ty := by
  obtain ⟨instruction, member, rfl⟩ := mem_renumberInstructions.mp found
  rcases mem_append.mp member with load | old
  · split at load
    · obtain rfl := mem_singleton.mp load
      exact .inr ⟨_, _, _, rfl⟩
    · cases load
  · exact .inl ⟨instruction, old, rfl⟩

theorem calls_front (calls : (site.front callee).Calls name) : site.block.Calls name := by
  refine calls_of_instructions (fun kind call found => (site.kind_front found).resolve_right ?_)
    calls
  rintro ⟨_, _, rfl⟩
  cases call

theorem calls_rest (calls : (site.rest callee).Calls name) : site.block.Calls name := by
  refine calls_of_instructions (fun kind call found => ?_) calls
  rw [site.instructions_eq]
  rcases site.kind_rest found with ⟨instruction, old, same⟩ | ⟨_, _, _, rfl⟩
  · exact ⟨instruction, mem_append_right _ (mem_cons_of_mem _ old), same⟩
  · cases call

theorem not_calls_clone (free : CallFree callee) {inner : BasicBlock}
    (member : inner ∈ callee.blocks) : ¬ (site.clone callee inner).Calls name := by
  rintro ⟨instruction, inside, result, args, isTail, kind⟩
  have none_ := site.blockCalls_clone free member
  rw [blockCalls, countP_eq_zero] at none_
  apply none_ instruction inside
  rw [kind]
  rfl

/-- The calls of the spliced function are calls of the caller, in the same block or behind the
replaced one. -/
theorem calls_of_splice (free : CallFree callee) (member : block ∈ (site.splice callee).blocks)
    (calls : block.Calls name) :
    ∃ old ∈ caller.blocks, old.Calls name ∧
      (block.id = old.id ∨ block.id = caller.nextBlockId ∧ old = site.block) := by
  rcases (site.mem_splice_blocks callee).mp member with ⟨old, around, rfl⟩ | rfl |
    ⟨inner, isInner, rfl⟩ | rfl
  · exact ⟨old, site.mem_of_around around, site.calls_rewired.mp calls, .inl rfl⟩
  · exact ⟨site.block, site.block_mem, site.calls_front (site.calls_rewired.mp calls), .inl rfl⟩
  · exact absurd (site.calls_rewired.mp calls) (site.not_calls_clone free isInner)
  · exact ⟨site.block, site.block_mem, site.calls_rest (site.calls_rewired.mp calls),
      .inr ⟨rfl, rfl⟩⟩

theorem kind_rewirePhis {instruction other : Instruction} (same : instruction.kind = other.kind)
    (split continuation : BlockId) :
    (rewirePhis split continuation instruction).kind =
      (rewirePhis split continuation other).kind := by
  rcases instruction with ⟨id, kind⟩
  obtain rfl : kind = other.kind := same
  rcases other with ⟨_, kind⟩
  cases kind <;> rfl

theorem instruction_kept {old : BasicBlock} (member : old ∈ caller.blocks)
    {instruction : Instruction} (inside : instruction ∈ old.instructions) :
    instruction = site.call ∨ ∃ block ∈ (site.splice callee).blocks, ∃ found ∈ block.instructions,
      found.kind = (rewirePhis site.block.id caller.nextBlockId instruction).kind := by
  have memSplice := @mem_splice_blocks caller site callee
  have kept : ∀ {block : BasicBlock}, site.rewired block ∈ (site.splice callee).blocks →
      (∃ found ∈ block.instructions, found.kind = instruction.kind) →
      ∃ block ∈ (site.splice callee).blocks, ∃ found ∈ block.instructions,
        found.kind = (rewirePhis site.block.id caller.nextBlockId instruction).kind := by
    rintro block isBlock ⟨found, isFound, same⟩
    exact ⟨_, isBlock, _, mem_map_of_mem isFound, kind_rewirePhis same ..⟩
  rcases site.mem_caller_blocks.mp member with around | rfl
  · exact .inr (kept (memSplice.mpr (.inl ⟨old, around, rfl⟩)) ⟨instruction, inside, rfl⟩)
  · rw [site.instructions_eq, mem_append, mem_cons] at inside
    rcases inside with early | rfl | late
    · exact .inr
        (kept (memSplice.mpr (.inr (.inl rfl))) ⟨instruction, mem_append_left _ early, rfl⟩)
    · exact .inl rfl
    · refine .inr (kept (memSplice.mpr (.inr (.inr (.inr rfl)))) ?_)
      exact mem_renumberInstructions.mpr ⟨instruction, mem_append_right _ late, rfl⟩

theorem splice_calls (calls : caller.Calls name) : (site.splice callee).Calls name ∨
    name = site.name := by
  obtain ⟨old, member, instruction, inside, result, args, isTail, kind⟩ := calls
  rcases @instruction_kept _ callee site _ member _ inside with rfl |
    ⟨block, isBlock, found, isFound, same⟩
  · rw [site.call_eq] at kind
    cases kind
    exact .inr rfl
  · refine .inl ⟨block, isBlock, found, isFound, result, args, isTail, same.trans ?_⟩
    rw [rewirePhis, kind]
    exact kind

theorem block_kept {old : BasicBlock} (member : old ∈ caller.blocks) :
    ∃ block ∈ (site.splice callee).blocks, block.id = old.id ∧ block.label = old.label := by
  rcases site.mem_caller_blocks.mp member with around | rfl
  · exact ⟨_, (site.mem_splice_blocks callee).mpr (.inl ⟨old, around, rfl⟩), rfl, rfl⟩
  · exact ⟨_, (site.mem_splice_blocks callee).mpr (.inr (.inl rfl)), rfl, rfl⟩

theorem splice_returns (returns : caller.Returns) : (site.splice callee).Returns := by
  obtain ⟨block, member, ends⟩ := returns
  rcases site.mem_caller_blocks.mp member with around | rfl
  · exact ⟨_, (site.mem_splice_blocks callee).mpr (.inl ⟨block, around, rfl⟩), ends⟩
  · exact ⟨_, (site.mem_splice_blocks callee).mpr (.inr (.inr (.inr rfl))), ends⟩

theorem mem_terminatorTargets : id ∈ terminatorTargets function ↔
    ∃ source, function.Leads source id := by
  simp only [terminatorTargets, mem_flatMap, Function.Leads]
  constructor
  · rintro ⟨block, member, edge⟩
    exact ⟨block.id, block, member, rfl, edge⟩
  · rintro ⟨_, block, member, -, edge⟩
    exact ⟨block, member, edge⟩

theorem forbidsInlining_rewirePhis (split continuation : BlockId) (instruction : Instruction) :
    forbidsInlining (rewirePhis split continuation instruction).kind =
      forbidsInlining instruction.kind := by
  rcases instruction with ⟨id, kind⟩
  cases kind <;> rfl

/-- Inlining into a function does not make it inlinable. -/
theorem isInlineShape_of_splice (linked : caller.Linked)
    (fresh : ∀ id ∈ caller.blockIds, id < caller.nextBlockId)
    (inner : callee.Linked) (entry : callee.blocks.head? = some first)
    (shape : isInlineShape (site.splice callee) = true) : isInlineShape caller = true := by
  have graft := site.splice_graft linked fresh inner entry
  simp only [isInlineShape, Bool.and_eq_true, Bool.not_eq_true', isEmpty_eq_false_iff,
    hasComplexControlLabels,
    hasUnreachableLoopExit, any_eq_false, all_eq_true, decide_eq_true_eq] at shape ⊢
  obtain ⟨⟨⟨⟨⟨⟨⟨⟨name, params⟩, barrier⟩, returnType⟩, -⟩, blocks⟩, labels⟩, exits⟩,
    instructions⟩ := shape
  refine ⟨⟨⟨⟨⟨⟨⟨⟨name, params⟩, barrier⟩, returnType⟩, ?_⟩, ?_⟩, fun old member => ?_⟩,
    fun old member => ?_⟩, fun old member instruction inside => ?_⟩
  · rw [site.blocks_eq]
    exact append_ne_nil_of_right_ne_nil _ (cons_ne_nil _ _)
  · refine le_trans ?_ blocks
    rw [splice_blocks, site.blocks_eq]
    simp only [length_append, length_map, length_cons, length_nil]
    omega
  · obtain ⟨block, isBlock, -, same⟩ := @block_kept _ callee site _ member
    rw [← same]
    exact labels block isBlock
  · obtain ⟨block, isBlock, sameId, same⟩ := @block_kept _ callee site _ member
    have targeted := graft.targeted_iff (Function.mem_blockIds_of_mem member)
    have kept := exits block isBlock
    rwa [same, sameId, mem_terminatorTargets, targeted, ← mem_terminatorTargets] at kept
  · rcases @instruction_kept _ callee site _ member _ inside with rfl |
      ⟨block, isBlock, found, isFound, same⟩
    · rw [site.call_eq]
      rfl
    · rw [← forbidsInlining_rewirePhis site.block.id caller.nextBlockId, ← same]
      exact instructions block isBlock found isFound

section Phis
variable {result : Value} {incoming : List (Value × BlockId)}

theorem phi_rewired (phi : Phi (site.rewired block).instructions result incoming) :
    ∃ old, Phi block.instructions result old ∧ ∀ source, source ∈ incoming.map Prod.snd ↔
      ∃ pred ∈ old.map Prod.snd, source = if pred = site.block.id then caller.nextBlockId else
        pred := by
  obtain ⟨_, member, kind⟩ := phi
  obtain ⟨⟨id, own⟩, inside, rfl⟩ := mem_map.mp member
  cases own with
  | phi value old =>
    cases kind
    exact ⟨old, ⟨_, inside, rfl⟩, fun source => by simp only [mem_map]; grind⟩
  | _ => cases kind

theorem phi_clone {inner : BasicBlock}
    (phi : Phi (site.clone callee inner).instructions result incoming) :
    ∃ value old, Phi inner.instructions value old ∧
      incoming.map Prod.snd = (old.map Prod.snd).map (copyId caller callee) := by
  obtain ⟨_, member, kind⟩ := mem_renumberInstructions.mp phi
  rcases mem_append.mp member with copied | stored
  · obtain ⟨⟨id, own⟩, inside, rfl⟩ := mem_map.mp copied
    cases own with
    | phi value old =>
      cases kind
      exact ⟨value, old, ⟨_, inside, rfl⟩, by simp [copyId]⟩
    | binary op =>
      cases op <;> cases kind
    | _ => cases kind
  · split at stored
    · obtain rfl := mem_singleton.mp stored
      cases kind
    · cases stored

/-- Merges of the caller follow the moved end of the split block, merges of the copy follow the
copied edges. -/
theorem splice_phis (outer : caller.FlowIntact) (inner : callee.FlowIntact)
    (entry : callee.blocks.head? = some first)
    (entryPlain : ∀ result incoming, ¬ Phi first.instructions result incoming)
    (tailPlain : ∀ result incoming, ¬ Phi site.tail result incoming) :
      (site.splice callee).PhisComplete := by
  obtain ⟨siteKnown, entryInside, oldKnown, innerKnown, restFresh, copyFresh, copyNeRest, injective,
    -⟩ :=
    site.splice_graft outer.linked outer.fresh inner.linked entry
  have edges := @splice_leads _ callee site _ outer.linked.nodup entry
  have kept : ∀ {old : BasicBlock}, old ∈ caller.blocks → ∀ {result incoming},
    Phi old.instructions result incoming →
      ∀ source,
        (∃ pred ∈ incoming.map Prod.snd, source = if pred = site.block.id then
        caller.nextBlockId else pred) ↔ (site.splice callee).Leads source old.id := by
    intro old member result incoming phi source
    have inside := Function.mem_blockIds_of_mem member
    simp only [outer.phis old member result incoming phi, edges]
    grind
  intro block member result incoming phi source
  rcases (site.mem_splice_blocks callee).mp member with ⟨old, around, rfl⟩ | rfl |
    ⟨copied, isInner, rfl⟩ | rfl
  all_goals obtain ⟨before, phi, named⟩ := site.phi_rewired phi; rw [named]
  · exact kept (site.mem_of_around around) phi source
  · exact kept site.block_mem ((site.kind_front phi).resolve_right nofun) source
  · obtain ⟨value, original, phi, names⟩ := site.phi_clone phi
    -- The split block became a predecessor of the copied entry, which has no merges.
    have other : copied.id ≠ first.id := by
      intro same
      rw [Function.eq_of_id_eq inner.linked.nodup isInner (mem_of_mem_head? entry) same] at phi
      exact entryPlain _ _ phi
    have inside := Function.mem_blockIds_of_mem isInner
    have copiedEdges := inner.phis copied isInner value original phi
    change _ ↔ (site.splice callee).Leads source (copyId caller callee copied.id)
    simp only [names, @mem_map _ _ _ (copyId caller callee), copiedEdges, edges]
    grind
  · exact absurd ((site.kind_rest phi).resolve_right nofun) (tailPlain _ _)

end Phis

end CallSite

/-- Replacing a call keeps control flow and merges intact when no merge is entered in a new way: the
callee does not start with one and none stands behind the call. The loop over a function's calls
ends with no call left to replace. -/
theorem inlineCall_keeps_flow :
    (∀ (caller callee next : Function) (first : BasicBlock) (blockIndex position : Nat),
      caller.FlowIntact → callee.FlowIntact → callee.blocks.head? = some first →
      (∀ result incoming, ¬ Phi first.instructions result incoming) →
      (∀ block, caller.blocks[blockIndex]? = some block → ∀ result incoming,
        ¬ Phi (block.instructions.drop (position + 1)) result incoming) →
      inlineCall caller blockIndex position callee = some next → next.FlowIntact) ∧
    ∀ (module : Module) (function : Function), findInlineCall
      (inlineCallsInFunction (collectCandidates module) function) (collectCandidates module) =
        none := by
  constructor
  · intro caller callee next first blockIndex position outer inner entry entryPlain tailPlain
      replaced
    obtain ⟨site, rfl, blockAt, -, tail⟩ := inlineCall_eq_some replaced
    refine ⟨site.splice_linked outer.linked outer.fresh inner.linked entry, fun id =>
      site.splice_fresh outer.fresh inner.linked, site.splice_phis outer inner entry entryPlain ?_⟩
    rw [tail]
    exact tailPlain _ blockAt
  · exact fun module => findInlineCall_inlineCallsInFunction fun callee =>
      callFree_of_mem_collectCandidates

/-- Two branches that meet in a merge, the first of them with the given instructions. -/
private def diamond (name : String) (branch : List Instruction) : Function where
  name
  params := []
  returnType := .bool
  blocks := [⟨0, "entry", [⟨0, .constBool 0 true⟩], some (.condBranch 0 1 2)⟩,
    ⟨1, "if.then", branch, some (.branch 3)⟩, ⟨2, "if.else", [], some (.branch 3)⟩,
    ⟨3, "if.merge", [⟨0, .phi 1 [(0, 1), (0, 2)]⟩], some (.ret (some 1))⟩]
  nextValueId := 3
  nextBlockId := 4

private theorem diamond_intact (name : String) {branch : List Instruction}
    (plain : ∀ result incoming, ¬ Phi branch result incoming) :
      (diamond name branch).FlowIntact := by
  refine ⟨⟨by simp [diamond, Function.blockIds], ?_⟩, by simp [diamond, Function.blockIds], ?_⟩
  · simp [diamond, Function.blockIds, blockSuccessors, Terminator.successors]
  · intro block member result incoming phi source
    simp only [diamond, mem_cons, not_mem_nil, or_false] at member
    rcases member with rfl | rfl | rfl | rfl
    · simp [Phi] at phi
    · exact absurd phi (plain result incoming)
    · simp [Phi] at phi
    · obtain ⟨rfl, rfl⟩ : result = 1 ∧ incoming = [(0, 1), (0, 2)] := by
        simpa [Phi, eq_comm] using phi
      simp [Function.Leads, diamond, blockSuccessors, Terminator.successors, eq_comm]

/-- The caller's merge names the continuation afterwards, the merge of the copy the copied
branches. -/
theorem inlineCall_keeps_flow_diamond :
    ∃ next, inlineCall (diamond "outer" [⟨0, .call (some 2) "inner" [] false⟩]) 1 0
    (diamond "inner" []) = some next ∧ next.blockIds = [0, 1, 5, 6, 7, 8, 4, 2, 3] ∧
      next.FlowIntact := by
  have outer : (diamond "outer" [⟨0, .call (some 2) "inner" [] false⟩]).FlowIntact :=
    diamond_intact "outer" (by simp [Phi])
  have inner : (diamond "inner" []).FlowIntact := diamond_intact "inner" (by simp [Phi])
  refine ⟨_, rfl, rfl, inlineCall_keeps_flow.1 _ _ _ _ 1 0 outer inner rfl ?_ ?_ rfl⟩
  all_goals simp [Phi, diamond]

/-- A function of one block. -/
private def single (instructions : List Instruction) (terminator : Terminator) : Function where
  name := "single"
  params := [⟨0, "x", .int⟩]
  returnType := .void
  blocks := [⟨0, "entry", instructions, some terminator⟩]
  nextValueId := 2
  nextBlockId := 1

private theorem single_intact {instructions : List Instruction} {terminator : Terminator}
    (inside : ∀ target ∈ terminator.successors, target = 0)
    (phis : ∀ result incoming, Phi instructions result incoming →
      ∀ source, source ∈ incoming.map Prod.snd ↔ source = 0 ∧ 0 ∈ terminator.successors) :
    (single instructions terminator).FlowIntact := by
  refine ⟨⟨by simp [single, Function.blockIds], ?_⟩, by simp [single, Function.blockIds], ?_⟩
  · simpa [single, Function.blockIds, blockSuccessors] using inside
  · simpa [single, Function.PhisComplete, Function.Leads, blockSuccessors, eq_comm] using phis

/-- The copied merge of a callee that loops to its first block does not name the block of the call,
a merge behind the call does not name the copied returns, and a call with too few arguments
stays. -/
theorem inlineCall_moved_merges :
    (∃ caller callee next : Function, caller.FlowIntact ∧ callee.FlowIntact ∧
      (∀ block ∈ caller.blocks, ∀ result incoming, ¬ Phi block.instructions result incoming) ∧
      inlineCall caller 0 0 callee = some next ∧ ¬ next.PhisComplete) ∧
    (∃ caller callee next : Function, caller.FlowIntact ∧ callee.FlowIntact ∧
      (∀ block ∈ callee.blocks, ∀ result incoming, ¬ Phi block.instructions result incoming) ∧
      inlineCall caller 0 0 callee = some next ∧ ¬ next.PhisComplete) ∧
    ∃ (module : Module) (function : Function), function ∈ module.functions ∧
      ∃ candidate ∈ collectCandidates module,
        (inlineCallsInFunction (collectCandidates module) function).Calls candidate.name := by
  have leaf : (single [] (.ret none)).FlowIntact := single_intact nofun (by simp [Phi])
  refine ⟨⟨single [⟨0, .call none "single" [0] false⟩] (.ret none), single [⟨0, .phi 1 [(1, 0)]⟩]
    (.branch 0), _,
    single_intact nofun (by simp [Phi]), single_intact ?_ ?_, ?_, rfl, fun complete => ?_⟩,
    ⟨single [⟨0, .call none "single" [0] false⟩, ⟨1, .phi 1 [(1, 0)]⟩] (.branch 0),
      single [] (.ret none), _,
    single_intact ?_ ?_, leaf, ?_, rfl, fun complete => ?_⟩,
    ⟨⟨"m", [single [] (.ret none), diamond "caller" [⟨0, .call none "single" [] false⟩]], [], []⟩,
      _,
      mem_cons_of_mem _ mem_cons_self, single [] (.ret none),
        mem_filter.mpr ⟨mem_cons_self, by decide +kernel⟩, ?_⟩⟩
  · simp [Terminator.successors]
  · simp [Terminator.successors, Phi]
  · simp [single, Phi]
  · have named := complete _ (mem_cons_of_mem _ mem_cons_self) 2 [(2, 2)] ⟨_, mem_cons_self, rfl⟩ 0
    have leads := named.mpr ⟨_, mem_cons_self, rfl, mem_cons_self⟩
    simp at leads
  · simp [Terminator.successors]
  · simp [Terminator.successors, Phi]
  · simp [single, Phi]
  · have named := complete _ (mem_cons_of_mem _ (mem_cons_of_mem _ mem_cons_self)) 1 [(1, 1)]
      ⟨_, mem_cons_self, rfl⟩ 2
    have leads := named.mpr ⟨_, mem_cons_of_mem _ mem_cons_self, rfl, mem_cons_self⟩
    simp at leads
  · rw [inlineCallsInFunction, saturate_of_none (Option.isNone_iff_eq_none.mp (by decide +kernel))]
    exact ⟨_, mem_cons_of_mem _ mem_cons_self, _, mem_cons_self, none, [], false, rfl⟩

end FunctionInlining

end SpectraLang

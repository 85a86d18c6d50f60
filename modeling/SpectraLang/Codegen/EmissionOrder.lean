import SpectraLang.Lib.Postorder
import SpectraLang.Passes.InlinedFlow

/-! # Order of emission

Code generation emits the blocks in reverse postorder of a depth-first walk from the first one, then
those the walk did not visit. Among the reached blocks a predecessor comes first, and only edges of
loops lead back; between the others an edge may lead back without a loop.
-/

namespace SpectraLang

open List Postorder

variable {function : Function} {source target : BlockId}

/-- The targets of the first block with that identifier. -/
def Function.successors (function : Function) (id : BlockId) : List BlockId :=
  match function.getBlock id with
  | some block => blockSuccessors block.terminator
  | none => []

def blockEmissionOrder (function : Function) : List BlockId :=
  match function.blocks with
  | [] => []
  | entry :: _ =>
    let walk := walkFrom function.blockIds function.successors entry.id
    walk.finished ++ function.blockIds.filter (· ∉ walk.visited)

/-- What code generation needs of the order. Without unknown targets it lists every block once. -/
structure EmissionSafe (function : Function) (order : List BlockId) : Prop where
  perm : order.Perm function.blockIds ↔ ∀ id, function.Live id → id ∈ function.blockIds
  entry : order.head? = function.blockIds.head?
  live : ∀ id other, function.Live id → other ∈ order → ¬ function.Live other →
    order.idxOf id < order.idxOf other
  predecessor : ∀ id, function.Live id → function.blockIds.head? ≠ some id →
    ∃ source, function.Leads source id ∧ order.idxOf source < order.idxOf id
  back : ∀ source target, function.Live source → function.Leads source target →
    order.idxOf target ≤ order.idxOf source → function.Reaches target source

theorem successors_unknown (unknown : source ∉ function.blockIds) :
    function.successors source = [] := by
  have none : function.getBlock source = none := by
    rw [Function.getBlock, find?_eq_none]
    rintro block inside same
    exact unknown (mem_map.mpr ⟨block, inside, by simpa using same⟩)
  rw [Function.successors, none]

/-- Positions follow the order of a list without repetitions. -/
theorem idxOf_lt_of_sublist {order : List BlockId} (nodup : order.Nodup)
    (before : [source, target] <+ order) : order.idxOf source < order.idxOf target := by
  induction order with
  | nil => cases before
  | cons head order ih =>
    cases before with
    | cons _ before => grind
    | cons_cons _ before => grind

section
variable (nodup : function.blockIds.Nodup)
include nodup

theorem mem_successors : target ∈ function.successors source ↔ function.Leads source target := by
  constructor
  · intro member
    rw [Function.successors] at member
    split at member
    · next block found =>
      obtain ⟨inside, same⟩ := Function.mem_blocks_of_getBlock found
      exact ⟨block, inside, same, member⟩
    · cases member
  · rintro ⟨block, inside, rfl, leads⟩
    rwa [Function.successors, Function.getBlock_of_mem nodup inside]

theorem reach_successors : Reach function.successors = function.Reaches := by
  have same : (fun source target => target ∈ function.successors source) = function.Leads := by
    ext source target
    exact mem_successors nodup
  rw [Reach, same]

/-- The blocks in reverse postorder, then the others. -/
theorem EmissionSafe.of_ordered {entry : BlockId} {line : List BlockId}
    (first : function.blockIds.head? = some entry)
      (ordered : Ordered function.successors entry line) :
    EmissionSafe function (line ++ function.blockIds.filter (· ∉ line)) := by
  obtain ⟨distinct, head, reached, parent, edge⟩ := ordered
  rw [reach_successors nodup] at reached edge
  have live (id : BlockId) : function.Live id ↔ id ∈ line := by
    rw [Function.blockIds, head?_map] at first
    obtain ⟨block, found, rfl⟩ := Option.map_eq_some_iff.mp first
    simp [reached, Function.Live, found]
  have unique : (line ++ function.blockIds.filter (· ∉ line)).Nodup :=
    distinct.append (nodup.filter _) fun id inside other => by simp_all
  have before {id other : BlockId} (inside : [id, other] <+ line) :=
    idxOf_lt_of_sublist unique (inside.trans (sublist_append_left _ _))
  refine ⟨?_, ?_, ?_, ?_, ?_⟩
  · rw [perm_ext_iff_of_nodup unique nodup]
    grind
  · rw [first, head?_append, head, Option.some_or]
  · intro id other isLive member dead
    rw [live] at isLive dead
    have later := (mem_append.mp member).resolve_left dead
    exact idxOf_lt_of_sublist unique
      ((singleton_sublist.mpr isLive).append (singleton_sublist.mpr later))
  · intro id isLive other
    obtain rfl | ⟨source, earlier, leads⟩ := parent id ((live id).mp isLive)
    · exact absurd first other
    · exact ⟨source, (mem_successors nodup).mp leads, before earlier⟩
  · intro source target isLive leads behind
    refine (edge source ((live source).mp isLive) target
      ((mem_successors nodup).mpr leads)).resolve_left fun forward => ?_
    exact (before forward).not_ge behind

end

theorem blockEmissionOrder_safe (function : Function) (nodup : function.blockIds.Nodup) :
    EmissionSafe function (blockEmissionOrder function) := by
  cases blocks : function.blocks with
  | nil =>
    have dead (id : BlockId) : ¬ function.Live id := by simp [Function.Live, blocks]
    constructor <;> simp [blockEmissionOrder, Function.blockIds, blocks, dead]
  | cons entry rest =>
    obtain ⟨ordered, visited⟩ :=
      @walkFrom_ordered _ _ function.blockIds _ (fun _ => successors_unknown) entry.id
    have safe := EmissionSafe.of_ordered nodup (by simp [Function.blockIds, blocks]) ordered
    simpa only [blockEmissionOrder, blocks, visited] using safe

/-- A diamond in front of a loop, and a block that nothing leads to. -/
private def diamondLoop : Function where
  name := "diamondLoop"
  params := []
  returnType := .void
  blocks := [⟨0, "entry", [], some (.condBranch 0 1 2)⟩, ⟨1, "if.then", [], some (.branch 3)⟩,
    ⟨2, "if.else", [], some (.branch 3)⟩, ⟨3, "while.header", [], some (.condBranch 0 4 5)⟩,
    ⟨4, "while.body", [], some (.branch 3)⟩, ⟨5, "while.exit", [], some (.ret none)⟩,
    ⟨6, "dead", [], some (.branch 5)⟩]
  nextValueId := 0
  nextBlockId := 7

theorem blockEmissionOrder_safe_diamondLoop :
    blockEmissionOrder diamondLoop = [0, 1, 2, 3, 4, 5, 6] ∧
      EmissionSafe diamondLoop (blockEmissionOrder diamondLoop) :=
  ⟨by decide, blockEmissionOrder_safe diamondLoop (by decide)⟩

/-- The entry returns; the other block is never reached and leads to it. -/
private def deadJump : Function where
  name := "deadJump"
  params := []
  returnType := .void
  blocks := [⟨0, "entry", [], some (.ret none)⟩, ⟨1, "dead", [], some (.branch 0)⟩]
  nextValueId := 0
  nextBlockId := 2

theorem blockEmissionOrder_dead_edge : ¬ ∀ function : Function, function.Linked → ∀ source target,
    function.Leads source target →
    (blockEmissionOrder function).idxOf target ≤ (blockEmissionOrder function).idxOf source →
    function.Reaches target source := by
  intro always
  have back :=
    always deadJump ⟨by decide, by decide⟩ 1 0 ⟨_, mem_cons_of_mem _ mem_cons_self, rfl, by decide⟩
      (by decide)
  obtain ⟨_, ⟨block, inside, same, leads⟩, -⟩ := back.cases_head.resolve_left (by decide)
  have ends : ∀ block ∈ deadJump.blocks, block.id = 0 → blockSuccessors block.terminator = [] := by
    decide
  rw [ends block inside same] at leads
  cases leads

end SpectraLang

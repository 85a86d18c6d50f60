import SpectraLang.Codegen.StackAllocas
import SpectraLang.Passes.LoopValidation

/-! # Blocks on cycles

Code generation and the loop validator both look for cycles of blocks with Tarjan's algorithm: one
over identifiers with cursors into the successors, which keeps the cyclic nodes, one over indices,
which returns the components. The first keeps step with `Lib.Components`, and both find the same
cycles, also when identifiers are repeated or unknown.
-/

open Function

namespace SpectraLang

open List Components Saturate

namespace CycleSearch

variable {function : Function} {cycles : CycleSearch} {search : Search BlockId}

/-- The nodes of the search: the blocks and the targets of their terminators. -/
def nodes (function : Function) : List BlockId :=
  (function.blockIds ++ function.blocks.flatMap fun block => blockSuccessors block.terminator).dedup

/-- A frame of the work stack with the successors it has yet to visit. -/
def cursor (function : Function) (frame : BlockId × Nat) : BlockId × List BlockId :=
  (frame.1, (blockSuccessorsOf function frame.1).drop frame.2)

/-- The search is Tarjan's with a cursor into the successors and a set of the nodes of cyclic
components. -/
structure Mirrors (function : Function) (cycles : CycleSearch) (search : Search BlockId) :
    Prop where
  index : cycles.indexOf = search.index
  low : ∀ node, (search.index node).isSome → cycles.lowlink node = some (search.low node)
  stack : cycles.stack = search.stack
  onStack : ∀ node, node ∈ cycles.onStack ↔ node ∈ search.stack
  next : cycles.nextIndex = search.next
  work : search.work = cycles.work.map (cursor function)
  cyclic : ∀ node, node ∈ cycles.cyclic ↔ ∃ component ∈ search.components, node ∈ component ∧
    Onward (blockSuccessorsOf function) node node

theorem nodes_closed (function : Function) :
    ∀ node ∈ nodes function, ∀ next ∈ blockSuccessorsOf function node, next ∈ nodes function := by
  intro node _ next edge
  rw [nodes, mem_dedup, mem_append, mem_flatMap]
  rw [blockSuccessorsOf] at edge
  split at edge
  · next block found => exact .inr ⟨block, mem_reverse.mp (mem_of_find?_eq_some found), edge⟩
  · cases edge

section
variable (mirrors : Mirrors function cycles search)
include mirrors

theorem Mirrors.discover (node : BlockId) :
    Mirrors function (cycles.discover node) (search.enter (blockSuccessorsOf function) node) := by
  obtain ⟨index, low, stack, onStack, next, work, cyclic⟩ := mirrors
  refine ⟨?_, ?_, ?_, ?_, ?_, ?_, cyclic⟩ <;> simp only [CycleSearch.discover, Search.enter]
  · rw [index, next]
  · grind [update_apply]
  · rw [stack]
  · grind
  · rw [next]
  · rw [work]
    rfl

theorem Mirrors.lower {node : BlockId} (known : (search.index node).isSome)
    (candidate : Nat) : Mirrors function (cycles.lower node candidate)
      { search with low := update search.low node (min (search.low node) candidate) } := by
  refine { mirrors with low := fun other isKnown => ?_ }
  have := mirrors.low other isKnown
  have := mirrors.low node known
  simp only [CycleSearch.lower]
  grind [update_apply]

theorem Mirrors.close {node : BlockId} (nodup : search.stack.Nodup) (member : node ∈ search.stack)
    (sound : IsComponent (blockSuccessorsOf function) (search.stack.takeWhile (· ≠ node) ++ [node]))
      :
    Mirrors function (cycles.closeComponent function node) (search.close node) := by
  obtain ⟨front, back, split, fresh⟩ := eq_append_cons_of_mem member
  have others : ∀ other ∈ front, decide (other ≠ node) = true := by grind
  have taken : search.stack.takeWhile (· ≠ node) = front := by
    rw [split, takeWhile_append_of_pos others]
    simp
  have dropped : search.stack.dropWhile (· ≠ node) = node :: back := by
    rw [split, dropWhile_append_of_pos others]
    simp
  obtain ⟨index, low, stack, onStack, next, work, cyclic⟩ := mirrors
  rw [taken] at sound
  refine ⟨index, low, ?_, fun other => ?_, next, work, fun other => ?_⟩ <;>
    simp only [closeComponent, Search.close, stack, taken, dropped, drop_one, tail_cons,
      take_succ_cons, take_zero]
  · rw [Finset.mem_sdiff, onStack, split, mem_toFinset]
    grind
  · have loop (inside : other ∈ front ++ [node]) := sound.loop_iff inside
    have alone : (front ++ [node]).length ≤ 1 → front = [] := by simp
    simp only [mem_append, mem_singleton, or_and_right, exists_or, exists_eq_left, ← cyclic]
    split_ifs with several <;> grind [mem_toFinset]

theorem Mirrors.step {frames : List (Frame BlockId)}
    (inv : Invariant (nodes function) (blockSuccessorsOf function) search frames) :
    (CycleSearch.step function cycles = none ∧ Components.step (blockSuccessorsOf function) search =
      none) ∨ ∃ cycles' search', CycleSearch.step function cycles = some cycles' ∧
        Components.step (blockSuccessorsOf function) search = some search' ∧
          Mirrors function cycles' search' := by
  have workIs := mirrors.work
  cases work : cycles.work with
  | nil =>
    rw [work, map_nil] at workIs
    exact .inl ⟨by rw [CycleSearch.step, work], by rw [Components.step, workIs]⟩
  | cons entry below =>
    obtain ⟨node, position⟩ := entry
    rw [work, map_cons] at workIs
    right
    obtain ⟨frame, lower, rfl, shape, behind⟩ := map_eq_cons_iff.mp (inv.work.symm.trans workIs)
    obtain rfl : frame.node = node := congrArg Prod.fst shape
    obtain ⟨first, known, -⟩ := inv.grounded.1.low_le
    cases found : (blockSuccessorsOf function frame.node)[position]? with
    | some successor =>
      obtain ⟨bound, at_⟩ := List.getElem?_eq_some_iff.mp found
      rw [cursor, drop_eq_getElem_cons bound, at_] at workIs
      have advanced : Mirrors function { cycles with work := (frame.node, position + 1) :: below }
          { search with work := ((frame.node, position + 1) :: below).map (cursor function) } :=
            { mirrors with work := rfl }
      have sameIndex : cycles.indexOf successor = search.index successor := by rw [mirrors.index]
      have sameStack := mirrors.onStack successor
      simp only [CycleSearch.step, work, found, Components.step, workIs, sameIndex, sameStack]
      cases search.index successor with
      | none => exact ⟨_, _, rfl, rfl, advanced.discover successor⟩
      | some candidate =>
        dsimp only
        split_ifs
        · exact ⟨_, _, rfl, rfl, advanced.lower (by simp [known]) candidate⟩
        · exact ⟨_, _, rfl, rfl, advanced⟩
    | none =>
      rw [cursor, drop_eq_nil_of_le (getElem?_eq_none_iff.mp found)] at workIs
      have popped : Mirrors function { cycles with work := below }
        { search with work := below.map (cursor function) } :=
        { mirrors with work := rfl }
      have ownLow := mirrors.low frame.node (by simp [known])
      -- What is left to do once the parent has the low link.
      have finish {left : CycleSearch}
          (mirrored : Mirrors function left (search.leave frame.node (below.map (cursor function))))
            :
          ∃ search', Components.step (blockSuccessorsOf function) search = some search' ∧
            Mirrors function
            (if left.lowlink frame.node = left.indexOf frame.node then left.closeComponent function
              frame.node else left)
            search' := by
        have same : left.lowlink frame.node = left.indexOf frame.node ↔ search.index frame.node =
            some ((search.leave frame.node (below.map (cursor function))).low frame.node) := by
          rw [mirrored.index, mirrored.low _ (by simp [known, Search.leave]), eq_comm]
          rfl
        simp only [same]
        split_ifs with own
        · have turn : Components.step (blockSuccessorsOf function) search =
              some ((search.leave frame.node (below.map (cursor function))).close frame.node) := by
            rw [Components.step, workIs]
            exact if_pos own
          obtain ⟨⟨_, after⟩, -⟩ := inv.turn (nodes_closed function) turn
          refine ⟨_, turn, mirrored.close inv.nodup ?_
            (after.components _ (by simp [Search.close]))⟩
          rw [show (search.leave frame.node (below.map (cursor function))).stack = search.stack from
            rfl, inv.stack_cons]
          simp
        · exact ⟨_, by rw [Components.step, workIs]; exact if_neg own, mirrored⟩
      cases below with
      | nil =>
        obtain ⟨search', turn, mirrored⟩ := finish popped
        exact ⟨_, search', by simp only [CycleSearch.step, work, found], turn, mirrored⟩
      | cons parent below =>
        obtain ⟨above, lower, rfl, shape, -⟩ := map_eq_cons_iff.mp behind
        obtain ⟨_, parentKnown, -⟩ := inv.grounded.2.1.low_le
        have same : above.node = parent.1 := congrArg Prod.fst shape
        obtain ⟨search', turn, mirrored⟩ :=
          finish (popped.lower (by simp [← same, parentKnown]) (search.low frame.node))
        exact ⟨_,
          search', by
          simp only [CycleSearch.step, work, found, ownLow, Option.getD_some], turn, mirrored⟩

theorem Mirrors.searchFrom (inv : Invariant (nodes function) (blockSuccessorsOf function) search [])
    {root : BlockId} (member : root ∈ nodes function) :
    Mirrors function (searchFrom function cycles root)
      (visit (nodes function) (blockSuccessorsOf function) search root) := by
  rw [CycleSearch.searchFrom, Components.visit, mirrors.index]
  split
  · exact mirrors
  · next fresh =>
    rw [Bool.not_eq_true, Option.isSome_eq_false_iff, Option.isNone_iff_eq_none] at fresh
    refine (saturate_related (fun cycles search => Mirrors function cycles search ∧
      ∃ frames, Invariant (nodes function) (blockSuccessorsOf function) search frames) ?_
      ⟨mirrors.discover root, _, inv.root fresh member⟩ _).1
    rintro cycles search ⟨mirrors, frames, inv⟩
    refine (mirrors.step inv).imp_right ?_
    rintro ⟨cycles', search', turn, turn', mirrored⟩
    exact ⟨cycles', search', turn, turn', mirrored, (inv.turn (nodes_closed function) turn').1⟩

end

end CycleSearch

open CycleSearch
open LoopStructureValidation hiding blockSuccessors

variable {function : Function} {id target : BlockId}

/-- The edges out of a block are those of the last block with its identifier. -/
theorem mem_blockSuccessorsOf : target ∈ blockSuccessorsOf function id ↔
    ∃ index block, idToIndex function id = some index ∧ function.blocks[index]? = some block ∧
      target ∈ blockSuccessors block.terminator := by
  have same : function.blocks.reverse.find? (fun block => block.id = id) =
      (function.blocks.zipIdx.reverse.find? fun entry => entry.1.id == id).map Prod.fst := by
    conv_lhs => rw [← zipIdx_map_fst 0 function.blocks, ← map_reverse, find?_map]
    rfl
  rw [blockSuccessorsOf, same, idToIndex]
  cases found : function.blocks.zipIdx.reverse.find? (·.1.id == id) with
  | none => simp
  | some entry =>
    have here := mem_zipIdx_iff_getElem?.mp (mem_reverse.mp (mem_of_find?_eq_some found))
    simp [here]

/-- A block is found when a cycle leads from it to itself. -/
theorem mem_blocksOnCycles : id ∈ blocksOnCycles function ↔
    Onward (blockSuccessorsOf function) id id := by
  have known : ∀ root ∈ function.blockIds, root ∈ nodes function := by
    intro root member
    rw [nodes, mem_dedup]
    exact mem_append_left _ member
  obtain ⟨-, covered⟩ := visits_spec (nodes_closed function) function.blockIds known
  have mirrors : Mirrors function
      (function.blockIds.foldl (searchFrom function)
        ⟨fun _ => none, fun _ => none, ∅, [], 0, ∅, []⟩)
      (function.blockIds.foldl (visit (nodes function) (blockSuccessorsOf function))
        Search.initial) := by
    refine (foldl_rel (r := fun cycles search => Mirrors function cycles search ∧
      Invariant (nodes function) (blockSuccessorsOf function) search []) ⟨?_, ?_⟩ ?_).1
    · refine ⟨rfl, fun _ known => ?_, rfl, fun _ => ?_, rfl, rfl, fun _ => ?_⟩ <;>
        simp_all [Search.initial]
    · exact (visits_spec (nodes_closed function) [] (forall_mem_nil _)).1
    · rintro root member cycles search ⟨mirrors, inv⟩
      exact ⟨mirrors.searchFrom inv (known root member),
        (inv.visit (nodes_closed function) (known root member)).1⟩
  rw [blocksOnCycles, mirrors.cyclic]
  constructor
  · rintro ⟨-, -, -, cycle⟩
    exact cycle
  · intro cycle
    obtain ⟨next, edge, -⟩ := Relation.TransGen.head'_iff.mp cycle
    obtain ⟨index, -, is, -⟩ := mem_blockSuccessorsOf.mp edge
    obtain ⟨block, here, rfl⟩ := block_of_idToIndex is
    obtain ⟨component, member, inside⟩ := covered block.id (mem_map_of_mem (mem_of_getElem? here))
    exact ⟨component, member, inside, cycle⟩

theorem index_path (path : Onward (blockSuccessorsOf function) id target)
    {last : Nat} (lastIs : idToIndex function target = some last) :
    ∃ first, idToIndex function id = some first ∧ Onward (edges function) first last := by
  induction path using Relation.TransGen.head_induction_on with
  | single edge =>
    obtain ⟨first, block, firstIs, here, jump⟩ := mem_blockSuccessorsOf.mp edge
    exact ⟨first, firstIs,
      .single (mem_getD_buildSuccessors.mpr ⟨block, here, target, jump, lastIs⟩)⟩
  | @head id middle edge _ ih =>
    obtain ⟨next, nextIs, rest⟩ := ih
    obtain ⟨first, block, firstIs, here, jump⟩ := mem_blockSuccessorsOf.mp edge
    exact ⟨first, firstIs, .head (mem_getD_buildSuccessors.mpr ⟨block, here, middle, jump, nextIs⟩)
      rest⟩

/-- A path between indices is a path between identifiers, when the first index is an entry. -/
theorem id_path {first last : Nat} (firstIs : idToIndex function id = some first)
    (path : Onward (edges function) first last) :
    ∃ target, idToIndex function target = some last ∧
      Onward (blockSuccessorsOf function) id target := by
  induction path with
  | single edge =>
    obtain ⟨block, here, target, jump, lastIs⟩ := mem_getD_buildSuccessors.mp edge
    exact ⟨target, lastIs, .single (mem_blockSuccessorsOf.mpr ⟨_, block, firstIs, here, jump⟩)⟩
  | tail _ edge ih =>
    obtain ⟨middle, middleIs, rest⟩ := ih
    obtain ⟨block, here, target, jump, lastIs⟩ := mem_getD_buildSuccessors.mp edge
    exact ⟨target, lastIs, rest.tail (mem_blockSuccessorsOf.mpr ⟨_, block, middleIs, here, jump⟩)⟩

/-- A block lies on a cycle when an index of it does. -/
theorem cycle_iff : Onward (blockSuccessorsOf function) id id ↔
    ∃ index block, function.blocks[index]? = some block ∧ block.id = id ∧
      Onward (edges function) index index := by
  constructor
  · intro cycle
    obtain ⟨next, edge, -⟩ := Relation.TransGen.head'_iff.mp cycle
    obtain ⟨index, block, is, here, -⟩ := mem_blockSuccessorsOf.mp edge
    obtain ⟨first, firstIs, path⟩ := index_path cycle is
    obtain ⟨block, here, same⟩ := block_of_idToIndex is
    rw [is, Option.some.injEq] at firstIs
    exact ⟨index, block, here, same, firstIs ▸ path⟩
  · rintro ⟨index, block, here, rfl, cycle⟩
    -- The last edge of the cycle shows that the index is the entry of an identifier.
    obtain ⟨_, -, edge⟩ := Relation.TransGen.tail'_iff.mp cycle
    obtain ⟨-, -, target, -, is⟩ := mem_getD_buildSuccessors.mp edge
    obtain ⟨other, otherIs, path⟩ := id_path is cycle
    have own {name : BlockId} (nameIs : idToIndex function name = some index) :
      block.id = name := by
      obtain ⟨found, there, same⟩ := block_of_idToIndex nameIs
      rw [here, Option.some.injEq] at there
      rw [there, same]
    rwa [← own is, ← own otherIs] at path

/-- The validator's components partition the blocks into classes that reach each other, and the
blocks codegen finds on cycles, those on a path back to themselves, are those in the validator's
loops. -/
theorem blocksOnCycles_eq_loops (function : Function) :
    (stronglyConnectedComponents (buildSuccessors function)).flatten.Perm
      (List.range function.blocks.length) ∧
      (∀ component ∈ stronglyConnectedComponents (buildSuccessors function),
        IsComponent (fun node => (buildSuccessors function).getD node []) component) ∧
      ∀ id, (id ∈ blocksOnCycles function ↔ Onward (blockSuccessorsOf function) id id) ∧
        (id ∈ blocksOnCycles function ↔ ∃ component ∈ stronglyConnectedComponents
          (buildSuccessors function), isLoopComponent component (buildSuccessors function) = true ∧
            ∃ index ∈ component, ∃ block, function.blocks[index]? = some block ∧
              block.id = id) := by
  obtain ⟨perm, sound⟩ := components_partition function
  refine ⟨perm, sound, fun id => ⟨mem_blocksOnCycles, ?_⟩⟩
  rw [mem_blocksOnCycles, cycle_iff]
  constructor
  · rintro ⟨index, block, here, same, cycle⟩
    have inside : index ∈ (stronglyConnectedComponents (buildSuccessors function)).flatten := by
      rw [perm.mem_iff, mem_range]
      exact (List.getElem?_eq_some_iff.mp here).1
    obtain ⟨component, member, inComponent⟩ := mem_flatten.mp inside
    exact ⟨component, member, (isLoopComponent_iff (sound component member) inComponent).mpr cycle,
      index, inComponent, block, here, same⟩
  · rintro ⟨component, member, loop, index, inComponent, block, here, same⟩
    exact ⟨index, block, here, same, (isLoopComponent_iff (sound component member) inComponent).mp
      loop⟩

end SpectraLang

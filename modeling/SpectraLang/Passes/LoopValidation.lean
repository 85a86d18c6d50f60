import SpectraLang.Passes.VerificationSound
import SpectraLang.Lib.Components
import SpectraLang.Lib.Grafting
import Mathlib.Data.Set.Finite.Lemmas
import Mathlib.Data.Set.Finite.List
import Mathlib.Data.Prod.Lex

/-! # Validation of loops

The validator takes the strongly connected components of a function's blocks, chooses a header for
each loop by label and identifier, and demands an edge out of every loop whose header is not
labelled `loop`. A second scan looks for exit blocks that nothing branches to. With distinct block
identifiers the result is stated over paths between blocks, without indices.
-/

namespace SpectraLang

open List Components

namespace LoopStructureValidation

structure LoopValidationError where
  function : String
  headerBlock : BlockId
  headerLabel : String
  message : String
  deriving DecidableEq

/-- `block_successors`: the targets of a switch are sorted and listed once. -/
def blockSuccessors (block : BasicBlock) : List BlockId :=
  match block.terminator with
  | some (.branch target) => [target]
  | some (.condBranch _ trueBlock falseBlock) => [trueBlock, falseBlock]
  | some (.switch _ cases default) => ((cases.map Prod.snd ++ [default]).mergeSort (· ≤ ·)).dedup
  | _ => []

/-- `id_to_index`: the last block with an identifier. -/
def idToIndex (function : Function) (id : BlockId) : Option Nat :=
  (function.blocks.zipIdx.reverse.find? fun entry => entry.1.id == id).map Prod.snd

def buildSuccessors (function : Function) : List (List Nat) :=
  function.blocks.map fun block => (blockSuccessors block).filterMap (idToIndex function)

/-- `compute_predecessors`: how often each block is listed as a successor. -/
def computePredecessors (successors : List (List Nat)) : List Nat :=
  (List.range successors.length).map fun index => successors.flatten.count index

def stronglyConnectedComponents (successors : List (List Nat)) : List (List Nat) :=
  components (List.range successors.length) fun node => successors.getD node []

def isLoopComponent (component : List Nat) (successors : List (List Nat)) : Bool :=
  if component.length > 1 then true
  else
    match component.head? with
    | some index => index ∈ successors.getD index []
    | none => false

def componentHasExit (component : List Nat) (successors : List (List Nat)) : Bool :=
  component.any fun index => (successors.getD index []).any fun successor => successor ∉ component

def componentHasReturn (component : List Nat) (blocks : List BasicBlock) : Bool :=
  component.any fun index =>
    match blocks[index]?.bind (·.terminator) with
    | some (.ret _) => true
    | _ => false

/-- Labels with `.header` come first, then lower identifiers. -/
def headerKey (block : BasicBlock) : Nat ×ₗ Nat :=
  toLex (if textContains block.label ".header" then 0 else 1, block.id)

def selectHeader (component : List Nat) (blocks : List BasicBlock) : Option Nat :=
  component.argmin fun index => (blocks[index]?.map headerKey).getD (toLex (0, 0))

def noExitMessage : String :=
  "loop does not have any edge that leaves the loop; " ++
    "ensure the condition leads to an exit block or introduce a `break`"

def unreachableExitMessage : String := "exit block is unreachable; no branch targets this block"

/-- The error of one component, if it is a loop that cannot be left. -/
def validateComponent (function : Function) (successors : List (List Nat)) (component : List Nat) :
    Option LoopValidationError :=
  if isLoopComponent component successors then
    match (selectHeader component function.blocks).bind (function.blocks[·]?) with
    | none => none
    | some header =>
        let headerLabel := ((function.getBlock header.id).map (·.label)).getD "<unknown>"
        if !textStartsWith headerLabel "loop" && !componentHasExit component successors &&
            !componentHasReturn component function.blocks then
          some ⟨function.name, header.id, headerLabel, noExitMessage⟩
        else none
  else none

/-- The error of one block, if it is an exit that nothing branches to. -/
def validateExit (function : Function) (predecessors : List Nat) (entry : BasicBlock × Nat) :
    Option LoopValidationError :=
  if textContains entry.1.label ".exit" && !textStartsWith entry.1.label "loop" &&
      predecessors.getD entry.2 0 == 0 then
    some ⟨function.name, entry.1.id, entry.1.label, unreachableExitMessage⟩
  else none

def validateFunction (function : Function) : List LoopValidationError :=
  let successors := buildSuccessors function
  (stronglyConnectedComponents successors).filterMap (validateComponent function successors) ++
    function.blocks.zipIdx.filterMap (validateExit function (computePredecessors successors))

/-- The errors that a run of the pass leaves behind; the module is not changed. -/
def run (module : Module) : List LoopValidationError := module.functions.flatMap validateFunction

end LoopStructureValidation

/-- Control may pass from one block to the other, by identifier. -/
def Function.Leads (function : Function) (source target : BlockId) : Prop :=
  ∃ block ∈ function.blocks, block.id = source ∧ target ∈ blockSuccessors block.terminator

abbrev Function.Reaches (function : Function) : BlockId → BlockId → Prop :=
  Relation.ReflTransGen function.Leads

/-- A block on a loop that no path leaves. -/
abbrev Function.Trapped (function : Function) : BlockId → Prop := Grafting.Trapped function.Leads

/-- Blocks have distinct identifiers and lead to blocks of the function. -/
structure Function.Linked (function : Function) : Prop where
  nodup : function.blockIds.Nodup
  known : ∀ block ∈ function.blocks, ∀ target ∈ blockSuccessors block.terminator,
    target ∈ function.blockIds

/-- What the validator checks, stated over paths. -/
structure Function.LoopsAccepted (function : Function) : Prop where
  loops : ∀ header ∈ function.blocks, function.Trapped header.id →
    (∀ other ∈ function.blocks, function.Reaches header.id other.id →
      LoopStructureValidation.headerKey header ≤ LoopStructureValidation.headerKey other) →
    textStartsWith header.label "loop" = true
  exits : ∀ block ∈ function.blocks, textContains block.label ".exit" = true →
    textStartsWith block.label "loop" = false → ∃ source, function.Leads source block.id

variable {target : BlockId}

namespace LoopStructureValidation

/-- The edges between the indices of the blocks. -/
abbrev edges (function : Function) (node : Nat) : List Nat :=
  (buildSuccessors function).getD node []

variable {function : Function} {block : BasicBlock} {index node : Nat} {id : BlockId}
  {component : List Nat}

theorem mem_blockSuccessors :
    target ∈ blockSuccessors block ↔ target ∈ SpectraLang.blockSuccessors block.terminator := by
  unfold blockSuccessors SpectraLang.blockSuccessors Terminator.successors
  rcases block.terminator with _ | (_ | _ | _ | _ | _) <;> simp

variable {other : BasicBlock}

theorem headerKey_le_iff :
    headerKey block ≤ headerKey other ↔
      (textContains block.label ".header" = true ∧ textContains other.label ".header" = false) ∨
        textContains block.label ".header" = textContains other.label ".header" ∧
          block.id ≤ other.id := by
  rw [Prod.Lex.le_iff]
  cases here : textContains block.label ".header" <;> cases there :
    textContains other.label ".header" <;> simp [headerKey, here, there]

theorem block_of_idToIndex (is : idToIndex function id = some index) :
    ∃ block, function.blocks[index]? = some block ∧ block.id = id := by
  obtain ⟨⟨block, other⟩, first, rfl⟩ := Option.map_eq_some_iff.mp is
  have member := mem_reverse.mp (mem_of_find?_eq_some first)
  rw [mem_zipIdx_iff_getElem?] at member
  exact ⟨block, member, by simpa using find?_some first⟩

theorem mem_getD_buildSuccessors {next : Nat} : next ∈ edges function node ↔
    ∃ block, function.blocks[node]? = some block ∧
      ∃ target ∈ SpectraLang.blockSuccessors block.terminator, idToIndex function target =
        some next := by
  rw [edges, buildSuccessors, getD_eq_getElem?_getD, getElem?_map]
  cases here : function.blocks[node]? with
  | none => simp
  | some block => simp [mem_blockSuccessors]

/-- The components partition the indices of the blocks. -/
theorem components_partition (function : Function) :
    (stronglyConnectedComponents (buildSuccessors function)).flatten.Perm
      (List.range function.blocks.length) ∧
      ∀ component ∈ stronglyConnectedComponents (buildSuccessors function),
        IsComponent (edges function) component := by
  have size : (buildSuccessors function).length = function.blocks.length := length_map ..
  have inside : ∀ node ∈ List.range (buildSuccessors function).length,
      ∀ next ∈ edges function node, next ∈ List.range (buildSuccessors function).length := by
    intro node _ next edge
    obtain ⟨-, -, target, -, is⟩ := mem_getD_buildSuccessors.mp edge
    obtain ⟨_, there, -⟩ := block_of_idToIndex is
    rw [mem_range, size]
    exact (List.getElem?_eq_some_iff.mp there).1
  obtain ⟨sound, complete⟩ := components_spec inside
  refine ⟨(perm_ext_iff_of_nodup (components_flatten_nodup inside) nodup_range).mpr fun node => ?_,
    fun component member => (sound component member).1⟩
  rw [← size, mem_flatten]
  exact ⟨fun ⟨component, member, inside⟩ => (sound component member).2 node inside, complete node⟩

section
variable (nodup : function.blockIds.Nodup)
include nodup

theorem idToIndex_eq_some :
    idToIndex function id = some index ↔ ∃ block, function.blocks[index]? = some block ∧
      block.id = id := by
  refine ⟨block_of_idToIndex, ?_⟩
  rintro ⟨block, here, rfl⟩
  have inside : (block, index) ∈ function.blocks.zipIdx.reverse :=
    mem_reverse.mpr (mem_zipIdx_iff_getElem?.mpr here)
  obtain ⟨other, is⟩ : ∃ other, idToIndex function block.id = some other := by
    rw [← Option.isSome_iff_exists, idToIndex, Option.isSome_map, find?_isSome]
    exact ⟨(block, index), inside, beq_self_eq_true block.id⟩
  obtain ⟨_, there, same⟩ := block_of_idToIndex is
  rw [is, Function.index_unique nodup there here same]

theorem mem_buildSuccessors {next : Nat} :
    next ∈ edges function node ↔
      ∃ block target, function.blocks[node]? = some block ∧ function.blocks[next]? = some target ∧
        target.id ∈ SpectraLang.blockSuccessors block.terminator := by
  simp only [mem_getD_buildSuccessors, idToIndex_eq_some nodup]
  constructor
  · rintro ⟨block, here, id, edge, target, there, rfl⟩
    exact ⟨block, target, here, there, edge⟩
  · rintro ⟨block, target, here, there, edge⟩
    exact ⟨block, here, target.id, edge, target, there, rfl⟩

theorem leads_iff (member : block ∈ function.blocks) :
    function.Leads block.id target ↔ target ∈ SpectraLang.blockSuccessors block.terminator := by
  constructor
  · rintro ⟨other, inside, same, edge⟩
    rwa [Function.eq_of_id_eq nodup inside member same] at edge
  · exact fun edge => ⟨block, member, rfl, edge⟩

section
variable {other : Nat} (here : function.blocks[node]? = some block)
  (path : Reach (edges function) node other)
include here path

theorem reaches_of_reach {target : BasicBlock} (there : function.blocks[other]? = some target) :
    function.Reaches block.id target.id := by
  induction path generalizing target with
  | refl =>
    rw [here] at there
    cases there
    exact .refl
  | tail _ edge ih =>
    obtain ⟨middle, last, middleAt, lastAt, jump⟩ := (mem_buildSuccessors nodup).mp edge
    rw [there] at lastAt
    cases lastAt
    exact (ih middleAt).tail ⟨middle, mem_of_getElem? middleAt, rfl, jump⟩

theorem exists_block_of_reach : ∃ target, function.blocks[other]? = some target := by
  obtain rfl | ⟨_, -, edge⟩ := path.cases_tail
  · exact ⟨block, here⟩
  · obtain ⟨-, target, -, there, -⟩ := (mem_buildSuccessors nodup).mp edge
    exact ⟨target, there⟩

end

end

theorem reach_of_reaches (linked : function.Linked) (here : function.blocks[node]? = some block)
    (path : function.Reaches block.id id) :
    ∃ other target, function.blocks[other]? = some target ∧ target.id = id ∧
      Reach (edges function) node other := by
  induction path with
  | refl => exact ⟨node, block, here, rfl, .refl⟩
  | tail _ edge ih =>
    obtain ⟨other, middle, middleAt, rfl, reached⟩ := ih
    have jump := (leads_iff linked.nodup (mem_of_getElem? middleAt)).mp edge
    obtain ⟨target, member, rfl⟩ :=
      mem_map.mp (linked.known middle (mem_of_getElem? middleAt) _ jump)
    obtain ⟨last, lastAt⟩ := mem_iff_getElem?.mp member
    exact ⟨last, target, lastAt, rfl,
      reached.tail
        ((mem_buildSuccessors linked.nodup).mpr ⟨middle, target, middleAt, lastAt, jump⟩)⟩

variable {successors : List (List Nat)}

/-- A component is a loop when its nodes lie on a cycle. -/
theorem isLoopComponent_iff (sound : IsComponent (fun node => successors.getD node []) component)
    (member : node ∈ component) :
    isLoopComponent component successors = true ↔
      Onward (fun node => successors.getD node []) node node := by
  rw [← sound.loop_iff member]
  rcases component with _ | ⟨first, _ | ⟨second, rest⟩⟩
  · cases member
  · obtain rfl := mem_singleton.mp member
    simp [isLoopComponent]
  · simp [isLoopComponent]

theorem componentHasExit_eq_false :
    componentHasExit component successors = false ↔
      ∀ node ∈ component, ∀ next ∈ successors.getD node [], next ∈ component := by
  simp [componentHasExit]

/-- The header of a component is its block with the least key. -/
theorem selectHeader_eq (linked : function.Linked)
    (known : ∀ node ∈ component, ∃ block, function.blocks[node]? = some block) {header : BasicBlock}
    (member : node ∈ component) (here : function.blocks[node]? = some header) :
    selectHeader component function.blocks = some node ↔
      ∀ other ∈ component, ∀ block, function.blocks[other]? = some block →
        headerKey header ≤ headerKey block := by
  have keyAt : ∀ {other : Nat} {block : BasicBlock}, function.blocks[other]? = some block →
      (function.blocks[other]?.map headerKey).getD (toLex (0, 0)) = headerKey block := by
    intro other block there
    simp [there]
  constructor
  · intro selected other inside block there
    have least := not_lt_of_mem_argmin inside selected
    rw [keyAt here, keyAt there] at least
    exact not_lt.mp least
  · intro least
    cases selected : selectHeader component function.blocks with
    | none =>
      rw [argmin_eq_none.mp selected] at member
      cases member
    | some other =>
      have inside := argmin_mem selected
      obtain ⟨block, there⟩ := known other inside
      have notLess := not_lt_of_mem_argmin member selected
      rw [keyAt here, keyAt there] at notLess
      have sameKey := le_antisymm (not_lt.mp notLess) (least other inside block there)
      have sameId : block.id = header.id := congrArg (fun key => (ofLex key).2) sameKey
      rw [Function.index_unique linked.nodup there here sameId]

section Components
variable {component : List Nat} {node : Nat} {header : BasicBlock}

section
variable (linked : function.Linked)
  (sound : IsComponent (edges function) component) (member : node ∈ component)
  (here : function.blocks[node]? = some header)
include linked sound member here

/-- The blocks of a loop that no edge leaves are trapped in it. -/
theorem trapped_of_closed (loop : isLoopComponent component (buildSuccessors function) = true)
    (closed : componentHasExit component (buildSuccessors function) = false) :
    function.Trapped header.id ∧
      ∀ other target, function.blocks[other]? = some target → function.Reaches header.id target.id →
        other ∈ component := by
  have stays : ∀ other, Reach (edges function) node other → other ∈ component := by
    intro other path
    induction path with
    | refl => exact member
    | tail _ edge ih => exact componentHasExit_eq_false.mp closed _ ih _ edge
  refine ⟨⟨?_, fun id path => ?_⟩, fun other target there path => ?_⟩
  · obtain ⟨next, edge, -⟩ :=
      Relation.TransGen.head'_iff.mp ((isLoopComponent_iff sound member).mp loop)
    obtain ⟨block, target, blockAt, -, jump⟩ := (mem_buildSuccessors linked.nodup).mp edge
    rw [here] at blockAt
    cases blockAt
    exact ⟨target.id, header, mem_of_getElem? here, rfl, jump⟩
  · obtain ⟨other, target, there, rfl, reached⟩ := reach_of_reaches linked here path
    exact reaches_of_reach linked.nodup there
      ((sound.mem_iff node member other).mp (stays other reached)).2 here
  · obtain ⟨position, block, blockAt, same, reached⟩ := reach_of_reaches linked here path
    rw [Function.index_unique linked.nodup there blockAt same.symm]
    exact stays position reached

/-- A trapped block's component is a loop without an exit, and holds what the block reaches. -/
theorem closed_of_trapped (trapped : function.Trapped header.id) :
    isLoopComponent component (buildSuccessors function) = true ∧
      componentHasExit component (buildSuccessors function) = false ∧
      componentHasReturn component function.blocks = false := by
  have stays : ∀ other, Reach (edges function) node other → other ∈ component := by
    intro other path
    obtain ⟨target, there⟩ := exists_block_of_reach linked.nodup here path
    obtain ⟨position, block, blockAt, same, back⟩ :=
      reach_of_reaches linked there (trapped.2 _ (reaches_of_reach linked.nodup here path there))
    rw [Function.index_unique linked.nodup blockAt here same] at back
    exact (sound.mem_iff node member other).mpr ⟨path, back⟩
  obtain ⟨next, leads⟩ := trapped.1
  have jump := (leads_iff linked.nodup (mem_of_getElem? here)).mp leads
  obtain ⟨target, targetIn, rfl⟩ := mem_map.mp (linked.known header (mem_of_getElem? here) _ jump)
  obtain ⟨position, there⟩ := mem_iff_getElem?.mp targetIn
  have edge := (mem_buildSuccessors linked.nodup).mpr ⟨header, target, here, there, jump⟩
  have leaves : ∀ other ∈ component, ∃ next, next ∈ edges function other := by
    intro other inside
    obtain same | ⟨middle, first, -⟩ := ((sound.mem_iff node member other).mp inside).2.cases_head
    · exact ⟨position, same ▸ edge⟩
    · exact ⟨middle, first⟩
  have back := ((sound.mem_iff node member position).mp (stays position (.single edge))).2
  refine ⟨(isLoopComponent_iff sound member).mpr (.head' edge back), ?_, ?_⟩
  · refine componentHasExit_eq_false.mpr fun other inside next out => stays next ?_
    exact ((sound.mem_iff node member other).mp inside).1.tail out
  · refine any_eq_false.mpr fun other inside => ?_
    obtain ⟨next, out⟩ := leaves other inside
    obtain ⟨block, target, blockAt, -, successor⟩ := (mem_buildSuccessors linked.nodup).mp out
    -- a block that returns has no successor
    rw [blockAt, Option.bind_some]
    cases ends : block.terminator with
    | none => simp
    | some last =>
      cases last with
      | ret value => simp [ends, SpectraLang.blockSuccessors, Terminator.successors] at successor
      | _ => simp

end

theorem components_blocks (function : Function) :
    (∀ component ∈ stronglyConnectedComponents (buildSuccessors function),
      IsComponent (edges function) component ∧
        ∀ node ∈ component, ∃ block, function.blocks[node]? = some block) ∧
      ∀ node block, function.blocks[node]? = some block →
        ∃ component ∈ stronglyConnectedComponents (buildSuccessors function), node ∈ component := by
  obtain ⟨perm, sound⟩ := components_partition function
  have covered (node : Nat) :
    (∃ component ∈ stronglyConnectedComponents (buildSuccessors function), node ∈ component) ↔
      node < function.blocks.length := by
    rw [← mem_flatten, perm.mem_iff, mem_range]
  refine ⟨fun component member => ⟨sound component member, fun node inside => ?_⟩,
    fun node block here => ?_⟩
  · exact ⟨_, getElem?_eq_getElem ((covered node).mp ⟨component, member, inside⟩)⟩
  · exact (covered node).mpr (List.getElem?_eq_some_iff.mp here).1

theorem validateComponent_of_header (linked : function.Linked)
    (here : function.blocks[node]? = some header)
    (selected : selectHeader component function.blocks = some node) :
    validateComponent function (buildSuccessors function) component = none ↔
      isLoopComponent component (buildSuccessors function) = true →
        componentHasExit component (buildSuccessors function) = false →
        componentHasReturn component function.blocks = false → textStartsWith header.label "loop" =
          true := by
  have found := Function.getBlock_of_mem linked.nodup (mem_of_getElem? here)
  simp only [validateComponent, selected, Option.bind_some, here, found, Option.map_some,
    Option.getD_some]
  cases isLoopComponent component (buildSuccessors function) <;>
    cases componentHasExit component (buildSuccessors function) <;>
    cases componentHasReturn component function.blocks <;>
      cases textStartsWith header.label "loop" <;> simp

theorem validateComponents_eq_nil (linked : function.Linked) :
    (∀ component ∈ stronglyConnectedComponents (buildSuccessors function),
      validateComponent function (buildSuccessors function) component = none) ↔
      ∀ header ∈ function.blocks, function.Trapped header.id →
        (∀ other ∈ function.blocks, function.Reaches header.id other.id →
          headerKey header ≤ headerKey other) →
        textStartsWith header.label "loop" = true := by
  obtain ⟨sound, complete⟩ := components_blocks function
  constructor
  · intro clean header inside trapped least
    obtain ⟨node, here⟩ := mem_iff_getElem?.mp inside
    obtain ⟨component, isComponent, member⟩ := complete node header here
    obtain ⟨class_, blockAt⟩ := sound component isComponent
    have selected : selectHeader component function.blocks = some node := by
      refine (selectHeader_eq linked blockAt member here).mpr fun other otherIn block there => ?_
      refine least block (mem_of_getElem? there) (reaches_of_reach linked.nodup here ?_ there)
      exact ((class_.mem_iff node member other).mp otherIn).1
    obtain ⟨loop, noExit, noReturn⟩ := closed_of_trapped linked class_ member here trapped
    exact (validateComponent_of_header linked here selected).mp (clean component isComponent) loop
      noExit noReturn
  · intro labelled component isComponent
    obtain ⟨class_, blockAt⟩ := sound component isComponent
    cases selected : selectHeader component function.blocks with
    | none => exact absurd (argmin_eq_none.mp selected) class_.ne_nil
    | some node =>
      have member := argmin_mem selected
      obtain ⟨header, here⟩ := blockAt node member
      refine (validateComponent_of_header linked here selected).mpr fun loop noExit _ => ?_
      obtain ⟨trapped, stays⟩ := trapped_of_closed linked class_ member here loop noExit
      refine labelled header (mem_of_getElem? here) trapped fun other otherIn path => ?_
      obtain ⟨position, there⟩ := mem_iff_getElem?.mp otherIn
      exact (selectHeader_eq linked blockAt member here).mp selected position
        (stays position other there path) other there

end Components

section
variable (linked : function.Linked) (here : function.blocks[index]? = some block)
include linked here

theorem mem_flatten_iff_leads :
    index ∈ (buildSuccessors function).flatten ↔ ∃ source, function.Leads source block.id := by
  rw [buildSuccessors, ← flatMap_def]
  simp [mem_blockSuccessors, idToIndex_eq_some linked.nodup, here, Function.Leads]

theorem validateExit_eq_none :
    validateExit function (computePredecessors (buildSuccessors function)) (block, index) = none ↔
      (textContains block.label ".exit" = true → textStartsWith block.label "loop" = false →
        ∃ source, function.Leads source block.id) := by
  have below : index < (buildSuccessors function).length := by
    rw [buildSuccessors, length_map]
    exact (List.getElem?_eq_some_iff.mp here).1
  have counted : (computePredecessors (buildSuccessors function)).getD index 0 = 0 ↔
      ¬ ∃ source, function.Leads source block.id := by
    simp [computePredecessors, getD_eq_getElem?_getD, getElem?_map, getElem?_range below,
      count_eq_zero, mem_flatten_iff_leads linked here]
  simp only [validateExit, ← not_imp_not (a := ∃ source, _), ← counted]
  cases textContains block.label ".exit" <;> cases textStartsWith block.label "loop" <;> simp

end

/-- Over functions with distinct, known blocks the validator finds no error exactly when the paths
are in order. -/
theorem validateFunction_eq_nil (linked : function.Linked) :
    validateFunction function = [] ↔ function.LoopsAccepted := by
  rw [validateFunction, append_eq_nil_iff, filterMap_eq_nil_iff, filterMap_eq_nil_iff,
    validateComponents_eq_nil linked]
  constructor
  · rintro ⟨loops, exits⟩
    refine ⟨loops, fun block member => ?_⟩
    obtain ⟨index, here⟩ := mem_iff_getElem?.mp member
    exact (validateExit_eq_none linked here).mp
      (exits (block, index) (mem_zipIdx_iff_getElem?.mpr here))
  · rintro ⟨loops, exits⟩
    refine ⟨loops, fun entry member => ?_⟩
    have here := mem_zipIdx_iff_getElem?.mp member
    exact (validateExit_eq_none linked here).mpr (exits entry.1 (mem_of_getElem? here))

/-- Among the blocks that a block reaches, one has the least key. -/
theorem exists_least (known : id ∈ function.blockIds) :
    ∃ header ∈ function.blocks, function.Reaches id header.id ∧
      ∀ block ∈ function.blocks, function.Reaches id block.id →
        headerKey header ≤ headerKey block := by
  obtain ⟨block, member, rfl⟩ := mem_map.mp known
  have finite : {other | other ∈ function.blocks ∧ function.Reaches block.id other.id}.Finite :=
    (finite_toSet function.blocks).subset fun _ inside => inside.1
  obtain ⟨header, ⟨isBlock, reached⟩, least⟩ :=
    Set.exists_min_image _ headerKey finite ⟨block, member, .refl⟩
  exact ⟨header, isBlock, reached, fun other isOther path => least other ⟨isOther, path⟩⟩

/-- An endless loop behind the block `loop.body`, whose identifier is the lowest in the loop. No
other loop of the function is endless, and only endless loops have labels that start with `loop`. -/
structure EndlessLoop (function : Function) (body : BasicBlock) : Prop where
  linked : function.Linked
  inside : body ∈ function.blocks
  label : body.label = "loop.body"
  endless : function.Trapped body.id
  only : ∀ block ∈ function.blocks, function.Trapped block.id → function.Reaches body.id block.id
  first : ∀ block ∈ function.blocks, function.Reaches body.id block.id → body.id ≤ block.id
  headers : ∀ block ∈ function.blocks, function.Reaches body.id block.id →
    textContains block.label ".header" = true → textStartsWith block.label "loop" = false
  exits : ∀ block ∈ function.blocks, textContains block.label ".exit" = true →
    textStartsWith block.label "loop" = false → ∃ source, function.Leads source block.id

/-- An endless loop is accepted iff no block labelled as a header is reached in it. -/
theorem EndlessLoop.accepted_iff {body : BasicBlock} (loop : EndlessLoop function body) :
    validateFunction function = [] ↔ ∀ block ∈ function.blocks, function.Reaches body.id block.id →
      textContains block.label ".header" = false := by
  rw [validateFunction_eq_nil loop.linked]
  constructor
  · intro accepted block inside path
    by_contra isHeader
    obtain ⟨least, isBlock, reached, below⟩ := exists_least (mem_map_of_mem loop.inside)
    have labelled : textContains least.label ".header" = true := by
      have key := headerKey_le_iff.mp (below block inside path)
      rw [Bool.not_eq_false] at isHeader
      rw [isHeader] at key
      simpa using key.imp_right And.left
    have starts := accepted.loops least isBlock (loop.endless.of_reach reached) fun other member
      path =>
      below other member (reached.trans path)
    rw [loop.headers least isBlock reached labelled] at starts
    cases starts
  · intro plain
    refine ⟨fun least isBlock trapped below => ?_, loop.exits⟩
    -- Without headers the keys compare the identifiers, and the body has the lowest.
    have reached := loop.only least isBlock trapped
    have key := headerKey_le_iff.mp (below body loop.inside (loop.endless.2 _ reached))
    rw [plain least isBlock reached, plain body loop.inside .refl] at key
    have same : least.id = body.id :=
      le_antisymm (by simpa using key) (loop.first least isBlock reached)
    rw [Function.eq_of_id_eq loop.linked.nodup isBlock loop.inside same, loop.label]
    decide

end LoopStructureValidation

variable {facts : FunctionFacts} {block : BasicBlock}

theorem FunctionFacts.checkTarget_eq_nil {description : String}
    (clean : facts.checkTarget block description target = []) :
      target ∈ facts.function.blockIds := by
  by_contra unknown
  rw [checkTarget, if_neg unknown] at clean
  cases clean

theorem FunctionFacts.checkCases_eq_nil {seen : List I64}
    {cases_ : List (I64 × BlockId)} (clean : facts.checkCases block seen cases_ = []) :
    ∀ target ∈ cases_.map Prod.snd, target ∈ facts.function.blockIds := by
  induction cases_ generalizing seen with
  | nil => nofun
  | cons entry rest ih =>
    rw [checkCases, append_eq_nil_iff, append_eq_nil_iff] at clean
    intro target member
    rcases mem_cons.mp member with rfl | member
    · exact checkTarget_eq_nil clean.1.2
    · exact ih clean.2 target member

/-- In an accepted module, blocks are distinct and lead to blocks of their function. -/
theorem Verified.linked {module : Module} {function : Function} {first : BasicBlock}
    (verified : Verified module function first) : function.Linked := by
  refine ⟨verified.nodup, fun block member target edge => ?_⟩
  have checked := (append_eq_nil_iff.mp (verified.checked block member)).1
  cases ends : block.terminator with
  | none =>
    rw [ends] at edge
    cases edge
  | some terminator =>
    rw [ends] at edge
    simp only [FunctionFacts.checkTerminator, ends] at checked
    cases terminator with
    | ret value | unreachable => cases edge
    | branch next =>
      obtain rfl := mem_singleton.mp edge
      exact FunctionFacts.checkTarget_eq_nil checked
    | condBranch condition yes no =>
      simp only [append_eq_nil_iff] at checked
      rcases mem_cons.mp edge with rfl | edge
      · exact FunctionFacts.checkTarget_eq_nil checked.1.2
      · obtain rfl := mem_singleton.mp edge
        exact FunctionFacts.checkTarget_eq_nil checked.2
    | switch value cases_ default =>
      simp only [append_eq_nil_iff] at checked
      rcases mem_append.mp edge with inCase | isDefault
      · exact FunctionFacts.checkCases_eq_nil checked.2 target inCase
      · obtain rfl := mem_singleton.mp isDefault
        exact FunctionFacts.checkTarget_eq_nil checked.1.2

end SpectraLang

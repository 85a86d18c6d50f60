import SpectraLang.Codegen.StackAllocas
import SpectraLang.Passes.VerificationSound

/-! # Promotion of scalar allocas to variables

A scalar stack alloca becomes a variable when one scan finds its address only as the pointer of
loads and stores, and when a store precedes every load. The second condition is sound on every path.
The first overlooks some operand positions, and an address used there is promoted although it occurs
outside loads and stores.
-/

open Function

namespace SpectraLang

open List

namespace ScalarPromotion

open Descent FlowGraph

/-- The promotable allocas with their types. -/
abbrev Candidates := Value → Option IRType

def isScalarType : IRType → Bool
  | .int | .float | .bool | .char => true
  | _ => false

def addCandidate (stackAllocas : Finset Value) (candidates : Candidates) : InstructionKind →
    Candidates
  | .alloca result ty =>
    if result ∈ stackAllocas ∧ isScalarType ty then update candidates result
      (some ty) else candidates
  | _ => candidates

def collectCandidates (function : Function) (stackAllocas : Finset Value) : Candidates :=
  function.kinds.foldl (addCandidate stackAllocas) fun _ => none

/-- The operands that `mark_scalar_alloca_escapes` looks at. -/
def scannedOperands : InstructionKind → List Value
  | .load .. => []
  | .store _ value => [value]
  | .getElementPtr _ ptr _ _ _ => [ptr]
  | .call _ _ args _ | .hostCall _ _ args _ => args
  | .autodiffStep _ _ output upstream inputs targets =>
    output :: (upstream.toList ++ inputs ++ targets)
  | .callIndirect _ fnPtr args _ _ => fnPtr :: args
  | .asyncReady _ value _ => value.toList
  | .phi _ incoming => incoming.map Prod.fst
  | .copy _ source | .cast _ source _ _ | .loadDynDataPtr _ source | .loadDynVtablePtr _ source
  | .fieldPtr _ source _ => [source]
  | .makeDynFatPtr _ dataPtr vtablePtr => [dataPtr, vtablePtr]
  | .loadVtableSlot _ vtablePtr _ => [vtablePtr]
  | .binary _ _ lhs rhs => [lhs, rhs]
  | .not _ operand => [operand]
  | .await _ task _ => [task]
  | .frameStore frame _ value _ => [frame, value]
  | .frameLoad _ frame _ _ | .stateLoad _ frame | .stateStore frame _ |
      .coroutineCreate _ frame _ _ _ => [frame]
  | .coroutinePollChild _ _ task _ | .coroutineWake task | .coroutineCancelled task => [task]
  | .coroutineSubscribe task parent => [task, parent]
  | .coroutineSuspend task _ | .coroutineComplete task _ | .coroutineError task _ => [task]
  | .alloca .. | .globalAddr .. | .manualAlloc .. | .funcAddr .. | .constInt .. |
      .constIntTyped .. | .constFloat ..
  | .constFloatTyped .. | .constBool .. | .constString .. | .escapeManualAlloc .. | .frameAlloc ..
  | .coroutinePollReturn .. => []

/-- The operands that `mark_scalar_alloca_escapes_terminator` looks at. -/
def scannedTerminator : Terminator → List Value
  | .ret value => value.toList
  | .condBranch condition _ _ => [condition]
  | .switch value _ _ => [value]
  | .branch _ | .unreachable => []

/-- `mark_scalar_alloca_values`. -/
def markValues (mask : Value → Bool) (escaped : Finset Value) (values : List Value) :
    Finset Value :=
  escaped ∪ (values.filter mask).toFinset

/-- What the scan has recorded; blocks are given by their index. -/
structure Scan where
  escaped : Finset Value
  entryStores : Finset Value
  localStores : Finset Value
  loadSites : Value → List Nat
  storeBlocks : Value → List Nat

def Scan.empty : Scan where
  escaped := ∅
  entryStores := ∅
  localStores := ∅
  loadSites _ := []
  storeBlocks _ := []

/-- Loads and stores of candidates; a load behind a store of its block needs no further check. -/
def recordAccess (mask : Value → Bool) (blockIndex : Nat) (scan : Scan) : InstructionKind → Scan
  | .load _ ptr _ =>
    if mask ptr ∧ ptr ∉ scan.localStores then
      { scan with loadSites := update scan.loadSites ptr (scan.loadSites ptr ++ [blockIndex]) }
    else scan
  | .store ptr _ =>
    if mask ptr then
      { scan with
        localStores := insert ptr scan.localStores
        entryStores := if blockIndex = 0 then insert ptr scan.entryStores else scan.entryStores
        storeBlocks :=
          if blockIndex ∈ scan.storeBlocks ptr then scan.storeBlocks
          else update scan.storeBlocks ptr (scan.storeBlocks ptr ++ [blockIndex]) }
    else scan
  | _ => scan

def scanInstruction (mask : Value → Bool) (blockIndex : Nat) (scan : Scan)
    (instruction : Instruction) : Scan :=
  recordAccess mask blockIndex
    { scan with escaped := markValues mask scan.escaped (scannedOperands instruction.kind) }
      instruction.kind

def scanTerminator (mask : Value → Bool) (scan : Scan) : Option Terminator → Scan
  | some terminator =>
    { scan with escaped := markValues mask scan.escaped (scannedTerminator terminator) }
  | none => scan

def scanBlock (mask : Value → Bool) (scan : Scan) (entry : BasicBlock × Nat) : Scan :=
  scanTerminator mask
    (entry.1.instructions.foldl (scanInstruction mask entry.2) { scan with localStores := ∅ })
    entry.1.terminator

def scanFunction (mask : Value → Bool) (function : Function) : Scan :=
  function.blocks.zipIdx.foldl (scanBlock mask) Scan.empty

/-- `block_indices`; a later block with the same identifier replaces an earlier one. -/
def blockIndex (function : Function) (id : BlockId) : Option Nat :=
  (function.blocks.zipIdx.reverse.find? fun entry => entry.1.id = id).map Prod.snd

/-- The indices of the blocks that may continue in a block. -/
def predecessorIndices (function : Function) (index : Nat) : List Nat :=
  function.blocks.zipIdx.flatMap fun entry =>
    ((blockSuccessors entry.1.terminator).filter fun target => blockIndex function target =
      some index).map fun _ => entry.2

/-- One visit of a block other than the first: a block without dominated predecessors has no
dominators. -/
def recomputeDominators (function : Function) (dominators : Nat → Finset Nat) (index : Nat) :
    Finset Nat :=
  match predecessorIndices function index with
  | [] => ∅
  | pred :: rest =>
    let intersection := (dominators pred).filter fun dominator => ∀ other ∈ rest,
      dominator ∈ dominators other
    if intersection = ∅ then ∅ else insert index intersection

def initialDominators (function : Function) (index : Nat) : Finset Nat :=
  if index = 0 then {0}
  else if predecessorIndices function index = [] then ∅
  else Finset.range function.blocks.length

/-- The dominator sets of the blocks, by index. -/
def indexDominators (function : Function) : Nat → Finset Nat :=
  descend (recomputeDominators function) (List.range' 1 (function.blocks.length - 1))
    (initialDominators function)

/-- The loads of a candidate that no store is known to precede. -/
def uninitialized (function : Function) (scan : Scan) (id : Value) : Bool :=
  (scan.loadSites id).any fun loadBlock =>
    if loadBlock = 0 then true
    else if id ∈ scan.entryStores then false
    else !(scan.storeBlocks id).any fun storeBlock =>
      storeBlock ≠ loadBlock ∧ storeBlock ∈ indexDominators function loadBlock

/-- `collect_promotable_scalar_allocas_with_stack_allocas`. -/
def collectPromotableScalarAllocas (function : Function) (stackAllocas : Finset Value) :
    Candidates :=
  let candidates := collectCandidates function stackAllocas
  let scan := scanFunction (fun id => (candidates id).isSome) function
  fun id => (candidates id).filter fun _ => id ∉ scan.escaped ∧ uninitialized function scan id =
    false

variable {id : Value}

/-- The operand positions that the scan does not look at, besides the pointers of loads and
stores. -/
def overlookedOperands : InstructionKind → List Value
  | .getElementPtr _ _ index _ bound => index :: ArrayBound.reads bound
  | .escapeManualAlloc ptr => [ptr]
  | .coroutineComplete _ value => value.toList
  | .coroutineError _ error => error.toList
  | .coroutinePollReturn status => [status]
  | _ => []

/-- The value occurs in the instruction at most as the pointer of a load or store. -/
def AccessedOnly (id : Value) : InstructionKind → Prop
  | .load .. => True
  | .store _ value => value ≠ id
  | kind => id ∉ kind.reads

/-- The value occurs in the function only as the pointer of loads and stores. -/
def OccursAsPointer (function : Function) (id : Value) : Prop :=
  (∀ kind ∈ function.kinds, AccessedOnly id kind) ∧
    ∀ block ∈ function.blocks, ∀ terminator, block.terminator = some terminator →
      id ∉ terminator.reads

/-- The scanned and the overlooked operands are all occurrences besides pointers of loads and
stores. -/
theorem accessedOnly_iff {kind : InstructionKind} :
    AccessedOnly id kind ↔ id ∉ scannedOperands kind ∧ id ∉ overlookedOperands kind := by
  cases kind <;> simp [AccessedOnly, scannedOperands, overlookedOperands, InstructionKind.reads,
    not_or, eq_comm]

theorem scannedTerminator_eq_reads (terminator : Terminator) :
    scannedTerminator terminator = terminator.reads := by
  cases terminator <;> rfl

variable {index : Nat}

section ScanLemmas
variable {mask : Value → Bool}

def StoresTo (id : Value) (instructions : List Instruction) : Prop :=
  ∃ instruction ∈ instructions, ∃ value, instruction.kind = .store id value

def IsLoadOf (id : Value) (instruction : Instruction) : Prop :=
  ∃ result ty, instruction.kind = .load result id ty

/-- What a fold records was there before or is added by one of the items. -/
theorem foldl_records {σ ι : Type} {step : σ → ι → σ} (recorded : σ → Prop) {adds : ι → Prop}
    (each : ∀ state item, recorded (step state item) ↔ recorded state ∨ adds item) (items : List ι)
      (state : σ) :
    recorded (items.foldl step state) ↔ recorded state ∨ ∃ item ∈ items, adds item := by
  induction items generalizing state with
  | nil => simp
  | cons item items ih => simp only [foldl_cons, ih, each, or_assoc, exists_mem_cons_iff]

theorem mem_markValues {escaped : Finset Value} {values : List Value} :
    id ∈ markValues mask escaped values ↔ id ∈ escaped ∨ id ∈ values ∧ mask id = true := by
  simp [markValues]

variable (scan : Scan) (instruction : Instruction)

/-- What one instruction adds to the records. -/
theorem mem_escaped :
    id ∈ (scanInstruction mask index scan instruction).escaped ↔
      id ∈ scan.escaped ∨ id ∈ scannedOperands instruction.kind ∧ mask id = true := by
  rw [← mem_markValues]
  obtain ⟨_, kind⟩ := instruction
  cases kind <;> simp only [scanInstruction, recordAccess] <;> split <;> rfl

/-- The accesses of a candidate that an instruction adds to the records. -/
theorem mem_accesses (block : Nat) :
    let stores := mask id = true ∧ ∃ value, instruction.kind = .store id value
    let loads := (mask id = true ∧ id ∉ scan.localStores) ∧ IsLoadOf id instruction
    let next := scanInstruction mask index scan instruction
    (id ∈ next.localStores ↔ id ∈ scan.localStores ∨ stores) ∧
      (id ∈ next.entryStores ↔ id ∈ scan.entryStores ∨ index = 0 ∧ stores) ∧
      (block ∈ next.storeBlocks id ↔ block ∈ scan.storeBlocks id ∨ block = index ∧ stores) ∧
      (block ∈ next.loadSites id ↔ block ∈ scan.loadSites id ∨ block = index ∧ loads) := by
  obtain ⟨_, kind⟩ := instruction
  cases kind with
  | load result ptr ty =>
    by_cases recorded : mask ptr = true ∧ ptr ∉ scan.localStores <;>
      simp only [scanInstruction, recordAccess, recorded, if_false, IsLoadOf,
        InstructionKind.load.injEq] <;> simp <;>
      grind [update_apply]
  | store ptr value =>
    by_cases candidate :
      mask ptr = true <;> simp [scanInstruction, recordAccess, candidate, IsLoadOf]
    · refine ⟨?_, ?_, ?_⟩ <;> grind [update_apply]
    · grind
  | _ => simp [scanInstruction, recordAccess, IsLoadOf]

theorem scanTerminator_accesses (terminator : Option Terminator) :
    (scanTerminator mask scan terminator).loadSites = scan.loadSites ∧
      (scanTerminator mask scan terminator).entryStores = scan.entryStores ∧
      (scanTerminator mask scan terminator).storeBlocks = scan.storeBlocks := by
  cases terminator <;> exact ⟨rfl, rfl, rfl⟩

variable {function : Function}

/-- The operands that mark a candidate as escaped. -/
theorem mem_escaped_iff : id ∈ (scanFunction mask function).escaped ↔
    ∃ entry ∈ function.blocks.zipIdx,
    (∃ instruction ∈ entry.1.instructions, id ∈ scannedOperands instruction.kind ∧ mask id = true) ∨
      ∃ terminator ∈ entry.1.terminator, id ∈ scannedTerminator terminator ∧ mask id = true := by
  unfold scanFunction
  refine (foldl_records (fun scan : Scan => id ∈ scan.escaped) (fun scan entry => ?_) _ _).trans
    (or_iff_right (by simp [Scan.empty]))
  unfold scanBlock
  have body := foldl_records (fun scan => id ∈ scan.escaped) (@mem_escaped id entry.2 mask)
    entry.1.instructions { scan with localStores := ∅ }
  cases entry.1.terminator <;> simp [scanTerminator, mem_markValues, body, or_assoc]

theorem mem_entryStores_iff : id ∈ (scanFunction mask function).entryStores ↔
    ∃ entry ∈ function.blocks.zipIdx,
    ∃ instruction ∈ entry.1.instructions, entry.2 = 0 ∧ mask id = true ∧
      ∃ value, instruction.kind = .store id value := by
  unfold scanFunction
  refine (foldl_records (fun scan : Scan => id ∈ scan.entryStores) (fun scan entry => ?_) _ _).trans
    (or_iff_right (by simp [Scan.empty]))
  unfold scanBlock
  rw [(scanTerminator_accesses _ _).2.1]
  exact foldl_records (fun scan => id ∈ scan.entryStores)
    (fun scan item => (@mem_accesses id entry.2 mask scan item 0).2.1) _ _

theorem mem_storeBlocks_iff {block : Nat} : block ∈ (scanFunction mask function).storeBlocks id ↔
    ∃ entry ∈ function.blocks.zipIdx, ∃ instruction ∈ entry.1.instructions,
      block = entry.2 ∧ mask id = true ∧ ∃ value, instruction.kind = .store id value := by
  unfold scanFunction
  refine (foldl_records (fun scan : Scan => block ∈ scan.storeBlocks id) (fun scan entry => ?_) _
    _).trans (or_iff_right (by simp [Scan.empty]))
  unfold scanBlock
  rw [(scanTerminator_accesses _ _).2.2]
  exact foldl_records (fun scan => block ∈ scan.storeBlocks id)
    (fun scan item => (@mem_accesses id entry.2 mask scan item block).2.2.1) _ _

/-- A load of a candidate without a store in front of it in its block. -/
theorem mem_loadSites {entry : BasicBlock × Nat} (listed : entry ∈ function.blocks.zipIdx)
    {earlier later : List Instruction} {load : Instruction}
      (split : entry.1.instructions = earlier ++ load :: later)
    (candidate : mask id = true) (isLoad : IsLoadOf id load) (unstored : ¬StoresTo id earlier) :
    entry.2 ∈ (scanFunction mask function).loadSites id := by
  have keeps (index site : Nat) (instructions : List Instruction) (scan : Scan)
    (old : site ∈ scan.loadSites id) :
      site ∈ (instructions.foldl (scanInstruction mask index) scan).loadSites id :=
    foldlRecOn (motive := fun scan => site ∈ scan.loadSites id) instructions _ old fun scan old
      instruction _ =>
      (mem_accesses scan instruction site).2.2.2.mpr (.inl old)
  obtain ⟨front, back, blocks⟩ := append_of_mem listed
  rw [scanFunction, blocks, foldl_append, foldl_cons]
  refine foldlRecOn (motive := fun scan : Scan => entry.2 ∈ scan.loadSites id) back _ ?_ fun scan
    old other _ => ?_
  · rw [scanBlock, (scanTerminator_accesses _ _).1, split, foldl_append, foldl_cons]
    refine keeps _ _ _ _ ((mem_accesses _ load _).2.2.2.mpr (.inr ⟨rfl, ⟨candidate, ?_⟩, isLoad⟩))
    refine mt (foldl_records (fun scan => id ∈ scan.localStores)
      (fun scan item => (@mem_accesses id entry.2 mask scan item 0).1) _ _).mp ?_
    rintro (stale | ⟨instruction, member, -, stores⟩)
    · simp at stale
    · exact unstored ⟨instruction, member, stores⟩
  · rw [scanBlock, (scanTerminator_accesses _ _).1]
    exact keeps _ _ _ _ old

end ScanLemmas

section Initialisation
variable {module : Module} {function : Function} {first : BasicBlock}

/-- Every load of the value on a path from the first block follows a store to it. -/
def Initialised (function : Function) (id : Value) : Prop :=
  ∀ block earlier, function.Path (block :: earlier) → ∀ executed load later,
    block.instructions = executed ++ load :: later → IsLoadOf id load →
      StoresTo id executed ∨ ∃ other ∈ earlier, StoresTo id other.instructions

variable {block : BasicBlock}

theorem blockIndex_of_getElem? (distinct : function.blockIds.Nodup)
    (found : function.blocks[index]? = some block) : blockIndex function block.id = some index := by
  have listed : (block, index) ∈ function.blocks.zipIdx := mem_zipIdx_iff_getElem?.mpr found
  unfold blockIndex
  cases search : function.blocks.zipIdx.reverse.find? fun entry => entry.1.id = block.id with
  | none => simpa using find?_eq_none.mp search (block, index) (mem_reverse.mpr listed)
  | some entry =>
    have same : entry.1.id = block.id := by simpa using find?_some search
    have member := mem_zipIdx_iff_getElem?.mp (mem_reverse.mp (mem_of_find?_eq_some search))
    exact congrArg some (Function.index_unique distinct member found same)

/-- The index of a block of the function. -/
private def positionOf (function : Function) (block : BasicBlock) : Nat :=
  (blockIndex function block.id).getD 0

theorem getElem?_positionOf (distinct : function.blockIds.Nodup)
    (member : block ∈ function.blocks) :
    function.blocks[positionOf function block]? = some block := by
  obtain ⟨index, found⟩ := getElem?_of_mem member
  rw [positionOf, blockIndex_of_getElem? distinct found]
  exact found

theorem mem_predecessorIndices {source : Nat} {target : BlockId}
    (found : function.blocks[source]? = some block)
      (edge : target ∈ blockSuccessors block.terminator)
    (position : blockIndex function target = some index) :
      source ∈ predecessorIndices function index := by
  refine mem_flatMap.mpr ⟨(block, source), mem_zipIdx_iff_getElem?.mpr found, ?_⟩
  exact mem_map.mpr ⟨target, mem_filter.mpr ⟨edge, by simpa using position⟩, rfl⟩

theorem mem_recomputeDominators {sets : Nat → Finset Nat} {dominator : Nat} :
    dominator ∈ recomputeDominators function sets index ↔ predecessorIndices function index ≠ [] ∧
      (∃ common, ∀ pred ∈ predecessorIndices function index, common ∈ sets pred) ∧
      (dominator = index ∨ ∀ pred ∈ predecessorIndices function index, dominator ∈ sets pred) := by
  unfold recomputeDominators
  cases predecessorIndices function index with
  | nil => simp
  | cons pred rest =>
    have shared {candidate : Nat} :
      candidate ∈ (sets pred).filter (fun dominator => ∀ other ∈ rest, dominator ∈ sets other) ↔
        ∀ other ∈ pred :: rest, candidate ∈ sets other := by simp
    dsimp only
    split_ifs with empty
    · refine iff_of_false (Finset.notMem_empty _) ?_
      rintro ⟨-, ⟨common, all⟩, -⟩
      exact Finset.notMem_empty _ (empty ▸ shared.mpr all)
    · obtain ⟨common, inside⟩ := Finset.nonempty_iff_ne_empty.mpr empty
      rw [Finset.mem_insert, shared]
      exact ⟨fun own => ⟨cons_ne_nil _ _, ⟨common, shared.mp inside⟩, own⟩, fun all => all.2.2⟩

theorem recomputeDominators_monotonic : Monotonic (recomputeDominators function) := by
  intro smaller larger below index dominator member
  rw [mem_recomputeDominators] at member ⊢
  obtain ⟨preds, ⟨common, all⟩, own⟩ := member
  exact ⟨preds, ⟨common, fun pred listed => below _ (all pred listed)⟩,
    own.imp_right fun all pred listed => below _ (all pred listed)⟩

theorem initialDominators_above (index : Nat)
    (member : index ∈ List.range' 1 (function.blocks.length - 1)) :
    recomputeDominators function (initialDominators function) index ⊆
      initialDominators function index := by
  obtain ⟨positive, bound⟩ : 1 ≤ index ∧ index < function.blocks.length := by
    have := mem_range'_1.mp member
    omega
  have everything (node : Nat) : initialDominators function node ⊆
    Finset.range function.blocks.length := by
    unfold initialDominators
    split_ifs
    · intro dominator same
      rw [Finset.mem_singleton.mp same, Finset.mem_range]
      omega
    · simp
    · exact subset_rfl
  intro dominator inside
  obtain ⟨preds, -, own⟩ := mem_recomputeDominators.mp inside
  rw [initialDominators, if_neg (by omega), if_neg preds]
  rcases own with rfl | all
  · exact Finset.mem_range.mpr bound
  · obtain ⟨pred, listed⟩ := exists_mem_of_ne_nil _ preds
    exact everything pred (all pred listed)

section
variable (verified : Verified module function first)
include verified

theorem positionOf_first : positionOf function first = 0 := by
  have found : function.blocks[0]? = some first := by
    rw [← head?_eq_getElem?]
    exact verified.first_eq
  rw [positionOf, blockIndex_of_getElem? verified.nodup found]
  rfl

/-- The index of every computed dominator of a block is that of a block on the path. -/
theorem indexDominator_on_path {earlier : List BasicBlock}
    (walk : Trail function.Edge first (block :: earlier)) {dominator : Nat}
    (dominates : dominator ∈ indexDominators function (positionOf function block)) :
    ∃ other ∈ block :: earlier, positionOf function other = dominator := by
  have inside := verified.path_mem_blocks walk
  have trail :
    Trail (fun source target => source ∈ predecessorIndices function target ∧
    target < function.blocks.length) 0 ((block :: earlier).map (positionOf function)) := by
    rw [← positionOf_first verified]
    apply walk.map
    intro last visited next visited' move
    have foundLast := getElem?_positionOf verified.nodup (inside last visited)
    have foundNext := getElem?_positionOf verified.nodup (inside next visited')
    exact ⟨mem_predecessorIndices foundLast move.1
      (blockIndex_of_getElem? verified.nodup foundNext),
      (List.getElem?_eq_some_iff.mp foundNext).1⟩
  have onTrail := mem_trail_of_grows (indexDominators function) trail ?_ ?_ _ _ rfl dominator
    dominates
  · exact mem_map.mp onTrail
  · rw [indexDominators, descend_outside recomputeDominators_monotonic initialDominators_above
      (by simp)]
    simp [initialDominators]
  · intro last _ next _ move other dominator member
    have ordered : next ∈ List.range' 1 (function.blocks.length - 1) := mem_range'_1.mpr (by omega)
    rw [indexDominators, descend_fixed recomputeDominators_monotonic initialDominators_above
      ordered, ← indexDominators, mem_recomputeDominators] at member
    rcases member.2.2 with rfl | all
    · exact Finset.mem_insert_self ..
    · exact Finset.mem_insert_of_mem (all last move.1)

/-- A candidate that passes the check is stored to before it is loaded, on every path. -/
theorem initialised_of_check {mask : Value → Bool}
    (candidate : mask id = true)
      (passes : uninitialized function (scanFunction mask function) id = false) :
    Initialised function id := by
  rintro block earlier ⟨start, head, walk⟩ executed load later split isLoad
  obtain rfl : start = first := Option.some.inj (head.symm.trans verified.first_eq)
  by_cases stored : StoresTo id executed
  · exact .inl stored
  right
  have inside := verified.path_mem_blocks walk
  have found := getElem?_positionOf verified.nodup (inside block mem_cons_self)
  have site := @mem_loadSites _ mask _ (block, positionOf function block)
    (mem_zipIdx_iff_getElem?.mpr found) _ _ _ split
    candidate isLoad stored
  have safe := any_eq_false.mp passes _ site
  -- A store in another block of the path comes before the load.
  have earlierStore {other : BasicBlock} (visited : other ∈ block :: earlier) {index : Nat}
      (located : positionOf function other = index) (different : index ≠ positionOf function block)
      (stores : ∃ entry ∈ function.blocks.zipIdx, entry.2 = index ∧
        StoresTo id entry.1.instructions) :
      ∃ other ∈ earlier, StoresTo id other.instructions := by
    obtain ⟨⟨source, position⟩, listed, rfl, stores⟩ := stores
    have same : some source = some other := by
      rw [← mem_zipIdx_iff_getElem?.mp listed, ← located]
      exact getElem?_positionOf verified.nodup (inside other visited)
    obtain rfl := Option.some.inj same
    rcases mem_cons.mp visited with rfl | before
    · exact absurd located.symm different
    · exact ⟨source, before, stores⟩
  split_ifs at safe with atEntry initialised
  · simp at safe
  · -- The first block comes first on the path, and this block is a different one.
    obtain ⟨other, visited, located⟩ : ∃ other ∈ block :: earlier, positionOf function other = 0 :=
      ⟨start, walk.entry_mem, positionOf_first verified⟩
    obtain ⟨entry, listed, store, member, first, -, stores⟩ := mem_entryStores_iff.mp initialised
    exact earlierStore visited located (Ne.symm atEntry)
      ⟨entry, listed, first, store, member, stores⟩
  · obtain ⟨target, listed, different, dominates⟩ :
      ∃ target ∈ (scanFunction mask function).storeBlocks id,
        target ≠ positionOf function block ∧ target ∈ indexDominators function
          (positionOf function block) := by
      simpa using safe
    obtain ⟨other, visited, located⟩ := indexDominator_on_path verified walk dominates
    obtain ⟨entry, inBlocks, store, member, rfl, -, stores⟩ := mem_storeBlocks_iff.mp listed
    exact earlierStore visited located different ⟨entry, inBlocks, rfl, store, member, stores⟩

end

end Initialisation

theorem candidate_of_promoted {function : Function} {stackAllocas : Finset Value} {ty : IRType}
    (promoted : collectPromotableScalarAllocas function stackAllocas id = some ty) :
    let mask := fun id => (collectCandidates function stackAllocas id).isSome
    mask id = true ∧ id ∉ (scanFunction mask function).escaped ∧
      uninitialized function (scanFunction mask function) id = false := by
  obtain ⟨known, kept⟩ := Option.filter_eq_some_iff.mp promoted
  refine ⟨by simp [known], ?_⟩
  simpa using kept

/-- A promoted alloca is stored to before every load and occurs only as the pointer of loads and
stores, exactly when it does not occur in a position the scan overlooks. -/
theorem promoted_accessed_only_iff {module : Module} (accepted : verifyModule module = .ok ())
    {function : Function}
    (member : function ∈ module.functions) {stackAllocas : Finset Value} {id : Value} {ty : IRType}
    (promoted : collectPromotableScalarAllocas function stackAllocas id = some ty) :
    (OccursAsPointer function id ∧ Initialised function id) ↔
      ∀ kind ∈ function.kinds, id ∉ overlookedOperands kind := by
  obtain ⟨first, verified⟩ := verified_of_accepted accepted member
  obtain ⟨candidate, kept, passes⟩ := candidate_of_promoted promoted
  constructor
  · intro sound kind listed
    exact (accessedOnly_iff.mp (sound.1.1 kind listed)).2
  · intro clean
    refine ⟨⟨fun kind listed => accessedOnly_iff.mpr ⟨fun scanned => kept ?_, clean kind listed⟩,
      ?_⟩, initialised_of_check verified candidate passes⟩
    · obtain ⟨block, inside, instruction, within, rfl⟩ := Function.mem_kinds.mp listed
      obtain ⟨index, found⟩ := getElem?_of_mem inside
      exact mem_escaped_iff.mpr
        ⟨(block, index), mem_zipIdx_iff_getElem?.mpr found,
        .inl ⟨instruction, within, scanned, candidate⟩⟩
    · intro block inside terminator ends read
      obtain ⟨index, found⟩ := getElem?_of_mem inside
      rw [← scannedTerminator_eq_reads] at read
      exact kept
        (mem_escaped_iff.mpr
        ⟨(block, index), mem_zipIdx_iff_getElem?.mpr found,
        .inr ⟨terminator, ends, read, candidate⟩⟩)

/-- A counter in an alloca: stored in the first block, loaded and stored again in a loop. -/
def scalarCounter : Function where
  name := "main"
  params := [⟨0, "x", .int⟩]
  returnType := .int
  blocks :=
    [⟨0, "entry", [⟨0, .alloca 1 .int⟩, ⟨1, .constBool 2 true⟩, ⟨2, .store 1 0⟩], some (.branch 1)⟩,
    ⟨1, "loop", [⟨3, .load 3 1 .int⟩, ⟨4, .binary .add 4 3 0⟩, ⟨5, .store 1 4⟩],
      some (.condBranch 2 1 2)⟩,
    ⟨2, "exit", [⟨6, .load 5 1 .int⟩], some (.ret (some 5))⟩]
  nextValueId := 6
  nextBlockId := 3

def scalarCounterModule : Module where
  name := "sample"
  functions := [scalarCounter]

theorem scalarCounter_promoted_accessed_only :
    verifyModule scalarCounterModule = .ok () ∧
    collectPromotableScalarAllocas scalarCounter (collectStackAllocas scalarCounter) 1 = some .int ∧
    OccursAsPointer scalarCounter 1 ∧ Initialised scalarCounter 1 := by
  have accepted : verifyModule scalarCounterModule = .ok () := by decide +kernel
  have promoted : collectPromotableScalarAllocas scalarCounter (collectStackAllocas scalarCounter)
    1 = some .int := by
    decide +kernel
  refine ⟨accepted, promoted,
    (promoted_accessed_only_iff accepted (mem_singleton_self _) promoted).mpr ?_⟩
  decide

/-- The address of a scalar alloca is handed to the manual heap. -/
def escapedScalar : Function where
  name := "main"
  params := []
  returnType := .void
  blocks := [⟨0, "entry", [⟨0, .alloca 0 .int⟩, ⟨1, .escapeManualAlloc 0⟩], some (.ret none)⟩]
  nextValueId := 1
  nextBlockId := 1

/-- The scan does not see the escape: the alloca is promoted although it is more than a pointer of
loads and stores.
-/
theorem escapedScalar_promoted :
    verifyModule ⟨"sample", [escapedScalar], [], []⟩ = .ok () ∧
    collectPromotableScalarAllocas escapedScalar (collectStackAllocas escapedScalar) 0 = some .int ∧
    ¬OccursAsPointer escapedScalar 0 := by
  refine ⟨by decide +kernel, by decide +kernel, fun pointer => ?_⟩
  exact absurd (pointer.1 (.escapeManualAlloc 0) (by simp [Function.kinds, escapedScalar])) (by
    simp [AccessedOnly, InstructionKind.reads])

end ScalarPromotion

end SpectraLang

import SpectraLang.Semantics.Integers
import SpectraLang.Passes.VerificationSound

/-! # Dead code elimination

The pass removes, round after round, the instructions whose result nobody reads and that have no
side effect. The values read, the results and the side effects are three separate enumerations. One
round keeps every behaviour: registers agree on the values still read, and a removed instruction
only delays the original run.
-/

namespace SpectraLang

open List InstructionKind Machine

namespace DeadCodeElimination

open Saturate Simulation

/-- `mark_used_values`. -/
def markUsedValues : InstructionKind → List Value
  | .binary _ _ lhs rhs => [lhs, rhs]
  | .not _ operand => [operand]
  | .cast _ operand _ _ => [operand]
  | .load _ ptr _ => [ptr]
  | .store ptr value => [ptr, value]
  | .getElementPtr _ ptr index _ bound =>
    [ptr, index] ++
      match bound with
      | some (.dynamic value) => [value]
      | _ => []
  | .fieldPtr _ ptr _ => [ptr]
  | .escapeManualAlloc ptr => [ptr]
  | .makeDynFatPtr _ dataPtr vtablePtr => [dataPtr, vtablePtr]
  | .loadDynDataPtr _ fatPtr => [fatPtr]
  | .loadDynVtablePtr _ fatPtr => [fatPtr]
  | .loadVtableSlot _ vtablePtr _ => [vtablePtr]
  | .call _ _ args _ => args
  | .callIndirect _ fnPtr args _ _ => fnPtr :: args
  | .hostCall _ _ args _ => args
  | .copy _ source => [source]
  | .phi _ incoming => incoming.map Prod.fst
  | .autodiffStep _ _ output upstream inputs targets =>
    output :: (upstream.toList ++ (inputs ++ targets))
  | .asyncReady _ (some value) _ => [value]
  | .await _ task _ => [task]
  | .frameStore frame _ value _ => [frame, value]
  | .frameLoad _ frame _ _ => [frame]
  | .stateLoad _ frame => [frame]
  | .stateStore frame _ => [frame]
  | .coroutineCreate _ frame _ _ _ => [frame]
  | .coroutinePollChild _ _ task _ => [task]
  | .coroutineSubscribe task parent => [task, parent]
  | .coroutineWake task => [task]
  | .coroutineSuspend task _ => [task]
  | .coroutineCancelled task => [task]
  | .coroutineComplete task value => task :: value.toList
  | .coroutineError task error => task :: error.toList
  | .coroutinePollReturn status => [status]
  | _ => []

/-- The results the pass knows; bitwise operations, shifts and casts are not among them. -/
def getResultId : InstructionKind → Option Value
  | .binary op result _ _ =>
    match op with
    | .bitAnd | .bitOr | .bitXor | .shl | .shr _ => none
    | _ => some result
  | .not result _ | .alloca result _ | .manualAlloc result _ | .load result _ _
  | .getElementPtr result _ _ _ _ | .fieldPtr result _ _ | .copy result _ | .phi result _
  | .constInt result _ | .constIntTyped result _ _ | .constFloat result _ |
      .constFloatTyped result _ _
  | .constBool result _ | .constString result _ | .globalAddr result _ _ | .funcAddr result _
  | .makeDynFatPtr result _ _ | .loadDynDataPtr result _ | .loadDynVtablePtr result _
  | .loadVtableSlot result _ _ | .asyncReady result _ _ | .frameAlloc result _ _ |
      .frameLoad result _ _ _
  | .stateLoad result _ | .coroutineCreate result _ _ _ _ | .await result _ _ => some result
  | .call result _ _ _ | .hostCall result _ _ _ | .callIndirect result _ _ _ _
  | .autodiffStep result _ _ _ _ _ | .coroutinePollChild _ result _ _ => result
  | _ => none

/-- `has_side_effects`. -/
def hasSideEffects : InstructionKind → Bool
  | .store .. | .call .. | .callIndirect .. | .hostCall .. | .coroutineCreate .. |
      .coroutinePollChild ..
  | .coroutineSubscribe .. | .coroutineWake .. | .coroutineSuspend .. | .coroutineComplete ..
  | .coroutineError .. | .coroutineCancelled .. | .coroutinePollReturn .. | .frameStore .. |
      .stateStore ..
  | .autodiffStep .. => true
  | .getElementPtr _ _ _ _ bound => bound.isSome
  | .binary (.div _) .. | .binary (.rem _) .. => true
  | _ => false

/-- The value a terminator marks as used. -/
def markTerminator : Option Terminator → List Value
  | some (.ret (some value)) => [value]
  | some (.condBranch condition _ _) => [condition]
  | some (.switch value _ _) => [value]
  | _ => []

def usedValues (function : Function) : List Value :=
  function.blocks.flatMap fun block =>
    markTerminator block.terminator ++ block.instructions.flatMap fun instruction =>
      markUsedValues instruction.kind

/-- A known result that is not used, of an instruction without side effects. -/
def isDead (used : List Value) (kind : InstructionKind) : Bool :=
  match getResultId kind with
  | some result => result ∉ used && !hasSideEffects kind
  | none => false

/-- Keep the instructions that are not dead for the given used values. -/
def sweepBlock (used : List Value) (block : BasicBlock) : BasicBlock :=
  { block with
    instructions := block.instructions.filter fun instruction => !isDead used instruction.kind }

def sweep (used : List Value) (function : Function) : Function :=
  { function with blocks := function.blocks.map (sweepBlock used) }

/-- One round: nothing when no instruction is dead, else the function without the dead ones. -/
def eliminateRound (function : Function) : Option Function :=
  if function.kinds.any (isDead (usedValues function)) then some
    (sweep (usedValues function) function) else none

/-- The rounds of one function; poll and drop functions are left alone. -/
def eliminateFunction (function : Function) : Function :=
  if function.suspensionBarrier then function
  else saturate eliminateRound function.kinds.length function

/-- `DeadCodeElimination::run`, with the flag that reports a modification. -/
def run (module : Module) : Module × Bool :=
  ({ module with functions := module.functions.map eliminateFunction },
    module.functions.any fun function => !function.suspensionBarrier &&
      (eliminateRound function).isSome)

variable {instruction : Instruction} {value : Value} {kind : InstructionKind}

section Enumerations

theorem markUsedValues_eq_reads (kind : InstructionKind) : markUsedValues kind = kind.reads := by
  cases kind with
  | asyncReady result value outputType => cases value <;> rfl
  | getElementPtr result ptr index elementType bound =>
    rcases bound with _ | (_ | _) <;> rfl
  | autodiffStep result operation output upstream inputs targets =>
    simp [markUsedValues, reads]
  | _ => rfl

/-- The pass marks exactly the value fields that are not results; the verifier lists them except at
a state load. -/
theorem operands_agree_iff (instruction : Instruction) :
    (∀ value, value ∈ markUsedValues instruction.kind ↔ value ∈ instruction.kind.reads) ∧
      ((∀ value, value ∈ instructionOperands instruction ↔ value ∈ instruction.kind.reads) ↔
        instruction.kind.isStateLoad = false) := by
  refine ⟨fun value => by rw [markUsedValues_eq_reads], fun agree => ?_, fun other value => ?_⟩
  · cases shape : instruction.kind with
    | stateLoad result frame => simpa [shape, instructionOperands, reads] using agree frame
    | _ => rfl
  · rw [instructionOperands_eq_reads other]

/-- The frame of a state load is marked, but not listed. -/
theorem stateLoad_operands_differ : ∃ instruction : Instruction,
    markUsedValues instruction.kind = [1] ∧ instructionOperands instruction = [] :=
  ⟨⟨0, .stateLoad 2 1⟩, rfl, rfl⟩

theorem markTerminator_eq_reads (terminator : Terminator) :
    markTerminator (some terminator) = terminator.reads := by
  cases terminator with
  | ret value => cases value <;> rfl
  | _ => rfl

variable {result : Value}

theorem getResultId_eq_result (known : getResultId kind = some result) :
    kind.result? = some result := by
  cases kind with
  | binary op target lhs rhs => cases op <;> simp_all [getResultId, result?]
  | _ => simp_all [getResultId, result?]

/-- An instruction with a known result that changes the world or may trap has side effects, awaits
apart. -/
theorem pure_of_not_hasSideEffects (known : getResultId kind = some result)
    (harmless : hasSideEffects kind = false) (noAwait : kind.isAwait = false) :
    kind.changesWorld = false ∧ kind.mayTrap = false := by
  cases kind with
  | await target task ty => simp [isAwait] at noAwait
  | binary op target lhs rhs =>
    cases op <;> simp_all [hasSideEffects, changesWorld, mayTrap]
  | getElementPtr target ptr index elementType bound =>
    simp_all [hasSideEffects, changesWorld, mayTrap]
  | _ => simp_all [hasSideEffects, getResultId, changesWorld, mayTrap]

theorem isDead_phi {used : List Value} {incoming : List (Value × BlockId)} :
    isDead used (.phi result incoming) = decide (result ∉ used) := by
  simp [isDead, getResultId, hasSideEffects]

variable {function : Function} {block : BasicBlock}

theorem mem_usedValues_of_reads (member : block ∈ function.blocks)
    (inside : instruction ∈ block.instructions)
    (read : value ∈ instruction.kind.reads) : value ∈ usedValues function := by
  refine mem_flatMap.mpr ⟨block, member, mem_append_right _ ?_⟩
  exact mem_flatMap.mpr ⟨instruction, inside, by rwa [markUsedValues_eq_reads]⟩

theorem mem_usedValues_of_terminator (member : block ∈ function.blocks)
    {terminator : Terminator} (ends : block.terminator = some terminator)
    (read : value ∈ terminator.reads) : value ∈ usedValues function := by
  refine mem_flatMap.mpr ⟨block, member, mem_append_left _ ?_⟩
  rwa [ends, markTerminator_eq_reads]

end Enumerations

/-- No instruction of the function awaits a task. -/
def NoAwait (function : Function) : Prop := ∀ kind ∈ function.kinds, kind.isAwait = false

/-- A result names one instruction, unless frame reloads share it. -/
def Unambiguous (function : Function) : Prop :=
  ∀ kind ∈ function.kinds, ∀ other ∈ function.kinds, ∀ result, kind.result? = some result →
    other.result? = some result → kind = other ∨ kind.isFrameLoad = true ∧ other.isFrameLoad = true

section Round
variable {V W : Type*} (machine : Machine V W) {function : Function}
  {used : List Value} {swept original : Activation V W}

/-- A dead instruction shares its result with no instruction that is kept. -/
theorem kept_result_ne (unambiguous : Unambiguous function) {dead kept : InstructionKind}
    (member : dead ∈ function.kinds) (inside : kept ∈ function.kinds)
      (isDead_ : isDead used dead = true)
    (isKept : isDead used kept = false) {result : Value} (defined : dead.result? = some result) :
    kept.result? ≠ some result := by
  intro same
  rcases unambiguous dead member kept inside result defined same with rfl | ⟨reload, reload'⟩
  · simp [isDead_] at isKept
  · obtain ⟨_, _, _, _, rfl⟩ := isFrameLoad_iff.mp reload
    obtain ⟨_, _, _, _, rfl⟩ := isFrameLoad_iff.mp reload'
    simp_all [result?, isDead, getResultId, hasSideEffects]

/-- A dead instruction computes one unused value and does nothing else. -/
theorem isDead_cases (dead : isDead used kind = true) (noAwait : kind.isAwait = false) :
    ∃ result ∉ used, kind.defines = [result] ∧ kind.result? = some result ∧
      kind.changesWorld = false ∧ kind.mayTrap = false := by
  cases known : getResultId kind with
  | none => simp [isDead, known] at dead
  | some result =>
    obtain ⟨unused, harmless⟩ : result ∉ used ∧ hasSideEffects kind = false := by
      simpa [isDead, known] using dead
    obtain ⟨pure, total⟩ := pure_of_not_hasSideEffects known harmless noAwait
    obtain ⟨target, defines, defined⟩ := defines_of_pure pure
    obtain rfl : target = result :=
      Option.some.inj (defined.symm.trans (getResultId_eq_result known))
    exact ⟨target, unused, defines, defined, pure, total⟩

/-- The original run is at the same point as the swept one, up to instructions not kept. -/
structure Related (function : Function) (swept original : Activation V W) : Prop where
  block : swept.block = original.block
  terminator : swept.terminator = original.terminator
  rest : swept.rest = original.rest.filter fun instruction => !isDead (usedValues function)
    instruction.kind
  env : ∀ value ∈ usedValues function, swept.env value = original.env value
  count : ∀ kind ∈ function.kinds, isDead (usedValues function) kind = false →
    ∀ result, kind.result? = some result → swept.count result = original.count result
  world : swept.world = original.world
  trace : swept.trace = original.trace
  inside : ∃ block ∈ function.blocks, original.terminator = block.terminator ∧
    ∀ instruction ∈ original.rest, instruction ∈ block.instructions

inductive RelatedStates (function : Function) : State V W → State V W → Prop where
  | running {swept original : Activation V W} (related : Related function swept original) :
      RelatedStates function (.running swept) (.running original)
  | returned (value : Option V) (world : W) (trace : List (Event V)) :
      RelatedStates function (.returned value world trace) (.returned value world trace)
  | trapped (trap : Trap) (trace : List (Event V)) : RelatedStates function (.trapped trap trace)
      (.trapped trap trace)
  | stuck (trace : List (Event V)) : RelatedStates function (.stuck trace) (.stuck trace)

/-- Instructions the original run still has to execute in its block. -/
def pending : State V W → Nat
  | .running activation => activation.rest.length
  | _ => 0

theorem assign_filter {env : Value → V} {entries : List (Value × V)} (member : value ∈ used) :
    assign env (entries.filter fun entry => entry.1 ∈ used) value = assign env entries value := by
  induction entries generalizing env with
  | nil => rfl
  | cons entry rest ih =>
    obtain ⟨target, new⟩ := entry
    by_cases kept : target ∈ used
    · simp only [filter_cons, kept, decide_true, if_true, assign]
      exact ih
    · simp only [filter_cons, kept, decide_false, Bool.false_eq_true, if_false, assign]
      rw [ih]
      apply assign_congr
      intro _
      exact (Function.update_of_ne (show value ≠ target from fun same =>
        kept (same ▸ member)) _ _).symm

theorem phiValues_sweep {instructions : List Instruction} {pred : BlockId} {env env' : Value → V}
    (agree : ∀ value ∈ used, env value = env' value)
    (reads : ∀ instruction ∈ instructions, ∀ value ∈ instruction.kind.reads, value ∈ used) :
    phiValues (instructions.filter fun instruction => !isDead used instruction.kind) pred env =
      (phiValues instructions pred env').filter fun entry => entry.1 ∈ used := by
  simp only [phiValues, filterMap_filter, filter_filterMap]
  refine filterMap_congr fun instruction member => ?_
  cases phi : instruction.kind.isPhi with
  | false => simp [phiValue_of_not_phi phi]
  | true =>
    obtain ⟨result, incoming, kind⟩ := isPhi_iff.mp phi
    have here := reads instruction member
    rw [kind] at here ⊢
    rw [isDead_phi, phiValue, phiValue]
    cases found : incoming.find? (fun entry => entry.2 = pred) with
    | none => simp
    | some entry =>
      have same := agree entry.1 (here _ (mem_map_of_mem (mem_of_find?_eq_some found)))
      by_cases inside : result ∈ used <;> simp [Option.filter, inside, same]

theorem getBlock_sweep (used : List Value) (target : BlockId) :
    (sweep used function).getBlock target = (function.getBlock target).map (sweepBlock used) := by
  simp only [Function.getBlock, sweep, find?_map]
  rfl

variable {rest : List Instruction}

section
variable (related : Related function swept original)
include related

theorem enter_related (target : BlockId) :
    RelatedStates function (enter (sweep (usedValues function) function) swept target)
      (enter function original target) := by
  simp only [enter, getBlock_sweep]
  cases found : function.getBlock target with
  | none =>
    simp only [Option.map_none, related.trace]
    exact .stuck _
  | some block =>
    have inside := (Function.mem_blocks_of_getBlock found).1
    refine .running ⟨rfl, rfl, rfl, ?_, related.count, related.world, related.trace, block, inside,
      rfl, fun _ => id⟩
    intro value used
    simp only [sweepBlock]
    rw [phiValues_sweep related.env fun _ member _ read => mem_usedValues_of_reads inside member
      read, related.block, assign_filter used]
    exact assign_congr fun _ => related.env value used

theorem terminate_related :
    RelatedStates function (machine.terminate (sweep (usedValues function) function) swept)
      (machine.terminate function original) := by
  obtain ⟨block, member, same, _⟩ := related.inside
  have agree (terminator : Terminator) (ends : original.terminator = some terminator)
    (value : Value) (read : value ∈ terminator.reads) : swept.env value = original.env value :=
    related.env value (mem_usedValues_of_terminator member (same ▸ ends) read)
  simp only [terminate, related.terminator]
  cases ends : original.terminator with
  | none =>
    simp only [related.trace]
    exact .stuck _
  | some terminator =>
    have agree := agree terminator ends
    cases terminator with
    | ret value =>
      have values : value.map swept.env = value.map original.env := by
        cases value with
        | none => rfl
        | some value => simp [agree value (by simp [Terminator.reads])]
      simp only [values, related.world, related.trace]
      exact .returned _ _ _
    | branch target => exact enter_related related target
    | condBranch value trueBlock falseBlock | switch value cases default =>
      simp only [agree value (by simp [Terminator.reads])]
      exact enter_related related _
    | unreachable =>
      simp only [related.trace]
      exact .trapped _ _

/-- The next instruction and those behind it stand in the block. -/
theorem Related.inside_next (next : original.rest = instruction :: rest) :
    ∃ block ∈ function.blocks, original.terminator = block.terminator ∧
      instruction ∈ block.instructions ∧ ∀ other ∈ rest, other ∈ block.instructions := by
  obtain ⟨block, member, same, suffix⟩ := related.inside
  rw [next] at suffix
  exact ⟨block, member, same, forall_mem_cons.mp suffix⟩

theorem execute_related (next : original.rest = instruction :: rest)
    (kept : isDead (usedValues function) instruction.kind = false) :
    RelatedStates function (machine.execute swept instruction.kind
        (rest.filter fun instruction => !isDead (usedValues function) instruction.kind))
      (machine.execute original instruction.kind rest) := by
  obtain ⟨block, member, same, inside, later⟩ := related.inside_next next
  have known := Function.mem_kinds.mpr ⟨block, member, instruction, inside, rfl⟩
  have args := map_congr_left fun value read => related.env value
    (mem_usedValues_of_reads member inside read)
  have count : siteCount swept.count instruction.kind = siteCount original.count
    instruction.kind := by
    unfold siteCount
    cases defined : instruction.kind.result? with
    | none => rfl
    | some result => simp [related.count _ known kept result defined]
  unfold execute
  split_ifs with phi
  · exact .running ⟨related.block, related.terminator, rfl, related.env, related.count,
      related.world, related.trace, block, member, same, later⟩
  · simp only [args, count, related.world, related.trace]
    cases machine.exec instruction.kind (siteCount original.count instruction.kind)
      (instruction.kind.reads.map original.env) original.world with
    | error trap => exact .trapped _ _
    | ok outcome =>
      refine .running ⟨related.block, related.terminator, rfl, ?_, ?_, rfl, rfl, block, member,
        same, later⟩
      · intro value used
        exact assign_congr fun _ => related.env value used
      · intro kind listed other result defined
        simp only [bump, related.count kind listed other result defined]

end

theorem start_related (env : Value → V) (world : W) :
    RelatedStates function (start (sweep (usedValues function) function) env world)
      (start function env world) := by
  simp only [start, sweep]
  cases shape : function.blocks with
  | nil => exact .stuck []
  | cons first rest =>
    refine .running ⟨rfl, rfl, rfl, fun _ _ => rfl, fun _ _ _ _ _ => rfl, rfl, rfl, first, ?_, rfl,
      fun _ => id⟩
    simp [shape]

section
variable (noAwait : NoAwait function) (unambiguous : Unambiguous function)
include noAwait unambiguous

theorem execute_dead (related : Related function swept original)
    (next : original.rest = instruction :: rest)
      (dead : isDead (usedValues function) instruction.kind = true) :
    ∃ moved, machine.execute original instruction.kind rest = .running moved ∧ moved.rest = rest ∧
      Related function swept moved := by
  obtain ⟨block, member, same, inside, later⟩ := related.inside_next next
  have known := Function.mem_kinds.mpr ⟨block, member, instruction, inside, rfl⟩
  have rest_eq : swept.rest = rest.filter fun instruction => !isDead (usedValues function)
    instruction.kind := by
    rw [related.rest, next, filter_cons_of_neg (by simp [dead])]
  obtain ⟨target, unused, defines, defined, pure, total⟩ := isDead_cases dead (noAwait _ known)
  unfold execute
  split_ifs with phi
  · exact ⟨_, rfl, rfl, related.block, related.terminator, rest_eq, related.env, related.count,
      related.world, related.trace, block, member, same, later⟩
  · simp only [exec, pure, total, Bool.false_eq_true, if_false, record, defines]
    refine ⟨_, rfl, rfl, related.block, related.terminator, rest_eq, ?_, ?_, related.world,
      related.trace, block, member, same, later⟩
    · intro value used
      rw [related.env value used]
      refine (assign_of_not_mem ?_).symm
      simp only [zip_cons_cons, zip_nil_right, map_cons, map_nil, mem_singleton]
      exact fun equal => unused (equal ▸ used)
    · intro kind listed kept other otherDefined
      have different : other ≠ target := fun equal =>
        kept_result_ne unambiguous known listed dead kept defined (equal ▸ otherDefined)
      simp only [bump, mem_singleton, different, if_false]
      exact related.count kind listed kept other otherDefined

/-- One sweep is simulated by the original function. -/
theorem sweep_simulation :
    RankedSimulation (machine.step (sweep (usedValues function) function)) (machine.step function)
      (RelatedStates function) (fun _ original => pending original) where
  progress := by
    rintro _ _ (⟨related⟩ | _ | _ | _)
    · rename_i swept original
      cases next : original.rest with
      | nil =>
        have empty : swept.rest = [] := by rw [related.rest, next]; rfl
        refine .both ?_ ?_ (terminate_related machine related)
        · simp only [step, empty]
        · simp only [step, next]
      | cons instruction rest =>
        cases dead : isDead (usedValues function) instruction.kind with
        | false =>
          have kept : swept.rest = instruction ::
              rest.filter fun instruction => !isDead (usedValues function) instruction.kind := by
            rw [related.rest, next, filter_cons_of_pos (by simp [dead])]
          refine .both ?_ ?_ (execute_related machine related next dead)
          · simp only [step, kept]
          · simp only [step, next]
        | true =>
          obtain ⟨moved, executed, shorter, still⟩ :=
            execute_dead machine noAwait unambiguous related next dead
          refine .second ?_ (.running still) ?_
          · simp only [step, next, executed]
          · simp only [pending, shorter, next, length_cons]
            omega
    · exact .halted rfl rfl
    · exact .halted rfl rfl
    · exact .halted rfl rfl

theorem sweep_shows (env : Value → V) (world : W) (observation : Observation V) :
    machine.Shows (sweep (usedValues function) function) env world observation ↔
      machine.Shows function env world observation := by
  refine (sweep_simulation machine noAwait unambiguous).exhibits_iff ?_ (start_related env world)
    observation
  rintro _ _ (⟨related⟩ | _ | _ | _)
  · simp [State.observe, related.trace]
  · rfl
  · rfl
  · rfl

end

end Round

section Rounds
variable {function : Function}

theorem usedValues_eq_reads (function : Function) : usedValues function = function.reads := by
  unfold usedValues Function.reads
  congr 1
  funext block
  congr 1
  · cases block.terminator with
    | none => rfl
    | some terminator => exact markTerminator_eq_reads terminator
  · simp only [markUsedValues_eq_reads]

theorem kinds_sweep (used : List Value) (function : Function) :
    (sweep used function).kinds = function.kinds.filter fun kind => !isDead used kind := by
  simp only [Function.kinds, sweep, flatMap_map, sweepBlock, filter_flatMap, filter_map]
  rfl

theorem reads_sweep {used : List Value} (read : value ∈ (sweep used function).reads) :
    value ∈ function.reads := by
  simp only [Function.reads, sweep, flatMap_map, sweepBlock, mem_flatMap, mem_append, mem_filter]
    at read ⊢
  obtain ⟨block, member, ends | ⟨instruction, ⟨inside, _⟩, operand⟩⟩ := read
  · exact ⟨block, member, .inl ends⟩
  · exact ⟨block, member, .inr ⟨instruction, inside, operand⟩⟩

theorem eliminateRound_cases {next : Function} (step : eliminateRound function = some next) :
    next = sweep (usedValues function) function ∧ ∃ kind ∈ function.kinds,
      isDead (usedValues function) kind = true := by
  unfold eliminateRound at step
  split_ifs at step with any
  exact ⟨(Option.some.inj step).symm, any_eq_true.mp any⟩

theorem eliminateRound_decreases {next : Function} (step : eliminateRound function = some next) :
    next.kinds.length < function.kinds.length := by
  obtain ⟨rfl, kind, member, dead⟩ := eliminateRound_cases step
  rw [kinds_sweep]
  refine lt_of_le_of_ne (length_filter_le ..) fun same => ?_
  have kept := length_filter_eq_length_iff.mp same kind member
  simp [dead] at kept

/-- The rounds stop by themselves: no dead instruction is left. -/
theorem eliminateFunction_stable (ordinary : function.suspensionBarrier = false) :
    eliminateRound (eliminateFunction function) = none := by
  simp only [eliminateFunction, ordinary, Bool.false_eq_true, if_false]
  exact saturate_stable (fun _ => True) (fun current => current.kinds.length)
    (fun _ _ _ _ => trivial) (fun _ _ _ step => eliminateRound_decreases step) trivial le_rfl

theorem noAwait_sweep (noAwait : NoAwait function) (used : List Value) :
    NoAwait (sweep used function) := by
  intro kind member
  rw [kinds_sweep] at member
  exact noAwait kind (mem_filter.mp member).1

theorem unambiguous_sweep (unambiguous : Unambiguous function) (used : List Value) :
    Unambiguous (sweep used function) := by
  intro kind member other inside
  rw [kinds_sweep] at member inside
  exact unambiguous kind (mem_filter.mp member).1 other (mem_filter.mp inside).1

theorem defines_sweep (noAwait : NoAwait function) (read : value ∈ function.reads)
    (defined : function.Defines value) : (sweep (usedValues function) function).Defines value := by
  rcases defined with parameter | ⟨kind, member, defined⟩
  · exact .inl parameter
  · refine .inr ⟨kind, ?_, defined⟩
    rw [kinds_sweep, mem_filter]
    refine ⟨member, ?_⟩
    cases dead : isDead (usedValues function) kind with
    | false => rfl
    | true =>
      obtain ⟨target, unused, defines, -⟩ := isDead_cases dead (noAwait _ member)
      rw [defines, mem_singleton] at defined
      rw [usedValues_eq_reads] at unused
      exact absurd (defined ▸ read) unused

theorem unambiguous_of_verified {module : Module} {first : BasicBlock}
    (verified : Verified module function first) :
    Unambiguous function := by
  intro kind member other inside result defined redefined
  obtain ⟨block, blockMember, instruction, listed, rfl⟩ := Function.mem_kinds.mp member
  obtain ⟨source, sourceMember, later, located, rfl⟩ := Function.mem_kinds.mp inside
  obtain ⟨index, found⟩ := getElem?_of_mem listed
  obtain ⟨position, at_⟩ := getElem?_of_mem located
  rcases verified.definition_unique blockMember sourceMember found at_
    (mem_defines.mpr (.inl defined)) (mem_defines.mpr (.inl redefined)) with ⟨_, _, rfl⟩ | reloads
  · exact .inl rfl
  · exact .inr reloads

/-- What every round keeps of the function it started from. -/
private structure Kept {V W : Type*} (machine : Machine V W) (function current : Function) :
    Prop where
  noAwait : NoAwait current
  unambiguous : Unambiguous current
  shows : ∀ env world observation,
    machine.Shows current env world observation ↔ machine.Shows function env world observation
  defines : ∀ value ∈ current.reads, function.Defines value → current.Defines value

theorem eliminateFunction_kept {V W : Type*} (machine : Machine V W) (noAwait : NoAwait function)
    (unambiguous : Unambiguous function) : Kept machine function (eliminateFunction function) := by
  have initial : Kept machine function function :=
    ⟨noAwait, unambiguous, fun _ _ _ => Iff.rfl, fun _ _ => id⟩
  unfold eliminateFunction
  split_ifs
  · exact initial
  · apply saturate_invariant (Kept machine function) _ initial
    intro before after kept step
    obtain ⟨rfl, _⟩ := eliminateRound_cases step
    refine ⟨noAwait_sweep kept.noAwait _, unambiguous_sweep kept.unambiguous _, ?_, ?_⟩
    · intro env world observation
      exact (sweep_shows machine kept.noAwait kept.unambiguous env world observation).trans
        (kept.shows env world observation)
    · intro value read defined
      have before := reads_sweep read
      exact defines_sweep kept.noAwait before (kept.defines value before defined)

/-- On accepted functions without awaits the pass ends, keeps every behaviour from every start, and
keeps the definition of every value that is still read. -/
theorem run_preserves {module : Module} (accepted : verifyModule module = .ok ())
    {function : Function}
    (member : function ∈ module.functions) (noAwait : NoAwait function) {V W : Type*}
      (machine : Machine V W) :
    eliminateFunction function ∈ (run module).1.functions ∧
    (function.suspensionBarrier = false → eliminateRound (eliminateFunction function) = none) ∧
    (∀ env world observation, machine.Shows (eliminateFunction function) env world observation ↔
      machine.Shows function env world observation) ∧
    ∀ value ∈ (eliminateFunction function).reads, function.Defines value →
      (eliminateFunction function).Defines value := by
  obtain ⟨first, verified⟩ := verified_of_accepted accepted member
  have kept := eliminateFunction_kept machine noAwait (unambiguous_of_verified verified)
  exact ⟨mem_map_of_mem member, eliminateFunction_stable, kept.shows, kept.defines⟩

/-- A division whose result nobody reads, next to an unused sum. -/
def unusedDivision : Function where
  name := "main"
  params := [⟨0, "x", .int⟩, ⟨1, "y", .int⟩]
  returnType := .int
  blocks := [⟨0, "entry",
    [⟨0, .binary .add 2 0 1⟩, ⟨1, .binary (.div false) 3 0 1⟩, ⟨2, .alloca 4 .int⟩],
    some (.ret (some 0))⟩]
  nextValueId := 5
  nextBlockId := 1

def unusedDivisionModule : Module where
  name := "sample"
  functions := [unusedDivision]

theorem run_preserves_unusedDivision :
    verifyModule unusedDivisionModule = .ok () ∧ NoAwait unusedDivision ∧
    (eliminateFunction unusedDivision).kinds.length = 1 ∧
    ∀ (rest : Machine (MachineValue Unit) Unit) env observation,
      (integerMachine rest).Shows (eliminateFunction unusedDivision) env () observation ↔
        (integerMachine rest).Shows unusedDivision env () observation := by
  have accepted : verifyModule unusedDivisionModule = .ok () := by decide +kernel
  have noAwait : NoAwait unusedDivision := by unfold NoAwait; decide
  refine ⟨accepted, noAwait, by decide +kernel, fun rest env observation => ?_⟩
  exact (run_preserves accepted (mem_singleton_self _) noAwait (integerMachine rest)).2.2.1 env
    () observation

end Rounds

end DeadCodeElimination

end SpectraLang

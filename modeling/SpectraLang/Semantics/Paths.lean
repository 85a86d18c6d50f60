import SpectraLang.Semantics.Machine
import SpectraLang.Passes.VerificationSound

/-! # Runs follow paths

Every point of a run of an accepted function lies on a path of its control-flow graph, so the values
available there have been computed.
-/

namespace SpectraLang

open FlowGraph List

variable {V W : Type*} {machine : Machine V W} {function : Function} {first : BasicBlock}

/-- The activation is in the given block, after the executed instructions and the earlier blocks. -/
structure Activation.At (activation : Activation V W) (function : Function)
    (first block : BasicBlock)
    (earlier : List BasicBlock) (executed : List Instruction) : Prop where
  walk : Trail function.Edge first (block :: earlier)
  block_eq : activation.block = block.id
  terminator_eq : activation.terminator = block.terminator
  split : block.instructions = executed ++ activation.rest

variable {activation : Activation V W} {block : BasicBlock} {earlier : List BasicBlock}
  {executed : List Instruction} {instruction : Instruction}

section
variable (place : activation.At function first block earlier executed)
include place

variable {rest : List Instruction}

theorem Activation.At.next (next : activation.rest = instruction :: rest) :
    block.instructions[executed.length]? = some instruction ∧
      block.instructions.take executed.length = executed := by
  rw [place.split, next]
  simp

variable {moved : Activation V W}

/-- A step inside a block executes its next instruction. -/
theorem Machine.execute_at (next : activation.rest = instruction :: rest)
    (step : machine.execute activation instruction.kind rest = .running moved) :
    moved.At function first block earlier (executed ++ [instruction]) ∧
      ((instruction.kind.isPhi = true ∧ moved = { activation with rest }) ∨
        instruction.kind.isPhi = false ∧ ∃ world results,
          machine.exec instruction.kind (Machine.siteCount activation.count instruction.kind)
            (instruction.kind.reads.map activation.env) activation.world = .ok (world, results) ∧
          moved.env = assign activation.env (instruction.kind.defines.zip results)) := by
  have split : block.instructions = (executed ++ [instruction]) ++ rest := by
    rw [place.split, next]
    simp
  unfold Machine.execute at step
  split_ifs at step with phi
  · obtain rfl := State.running.inj step
    exact ⟨⟨place.walk, place.block_eq, place.terminator_eq, split⟩, .inl ⟨phi, rfl⟩⟩
  · cases outcome :
      machine.exec instruction.kind (Machine.siteCount activation.count instruction.kind)
      (instruction.kind.reads.map activation.env) activation.world with
    | error trap => simp [outcome] at step
    | ok results =>
      simp only [outcome] at step
      obtain rfl := State.running.inj step
      exact ⟨⟨place.walk, place.block_eq, place.terminator_eq, split⟩,
        .inr ⟨by simpa using phi, _, _, rfl, rfl⟩⟩

/-- A step at the end of a block enters a successor, whose phis read the registers left behind. -/
theorem Machine.terminate_at (step : machine.terminate function activation = .running moved) :
    ∃ target, moved.At function first target (block :: earlier) [] ∧ target ∈ function.blocks ∧
      moved.env = assign activation.env
        (phiValues target.instructions block.id activation.env) := by
  have enters (id : BlockId) (successor : id ∈ blockSuccessors block.terminator)
      (entered : Machine.enter function activation id = .running moved) :
      ∃ target, moved.At function first target (block :: earlier) [] ∧ target ∈ function.blocks ∧
        moved.env = assign activation.env
          (phiValues target.instructions block.id activation.env) := by
    unfold Machine.enter at entered
    cases found : function.getBlock id with
    | none => simp [found] at entered
    | some target =>
      simp only [found] at entered
      obtain rfl := State.running.inj entered
      obtain ⟨member, same⟩ := Function.mem_blocks_of_getBlock found
      refine ⟨target, ⟨.step place.walk ⟨same ▸ successor, same ▸ found⟩, rfl, rfl, rfl⟩, member,
        ?_⟩
      rw [place.block_eq]
  unfold Machine.terminate at step
  rw [place.terminator_eq] at step
  cases ends : block.terminator with
  | none => simp [ends] at step
  | some terminator =>
    rw [ends] at enters
    simp only [ends] at step
    cases terminator with
    | ret value | unreachable => simp at step
    | branch target => exact enters target (by simp [blockSuccessors, Terminator.successors]) step
    | condBranch condition trueBlock falseBlock =>
      refine enters _ ?_ step
      split_ifs <;> simp [blockSuccessors, Terminator.successors]
    | switch value cases default =>
      refine enters _ ?_ step
      unfold Machine.switchTarget
      cases found : cases.find? fun entry => machine.matchesCase (activation.env value) entry.1 with
      | none => simp [blockSuccessors, Terminator.successors]
      | some entry =>
        simp only [Option.map_some, Option.getD_some, blockSuccessors, Terminator.successors,
          mem_append]
        exact .inl (mem_map_of_mem (mem_of_find?_eq_some found))

end

theorem Machine.start_at {env : Value → V} {world : W} (head : function.blocks.head? = some first)
    (start : Machine.start function env world = .running activation) :
    activation.At function first first [] [] ∧ activation.env = env := by
  unfold Machine.start at start
  cases shape : function.blocks with
  | nil => simp [shape] at head
  | cons block rest =>
    simp only [shape] at start
    obtain rfl : block = first := by simpa [shape] using head
    obtain rfl := State.running.inj start
    exact ⟨⟨.start, rfl, rfl, rfl⟩, rfl⟩

variable {value : Value}

theorem Function.available_append
    (available : function.Available earlier (executed ++ [instruction]) value) :
    function.Available earlier executed value ∨ value ∈ instruction.kind.defines := by
  rcases available with parameter | completed | ⟨source, member, defined⟩
  · exact .inl (.inl parameter)
  · exact .inl (.inr (.inl completed))
  · rcases mem_append.mp member with before | last
    · exact .inl (.inr (.inr ⟨source, before, defined⟩))
    · exact .inr (mem_singleton.mp last ▸ defined)

theorem Function.available_completed (available : function.Available (block :: earlier) [] value) :
    function.Available earlier block.instructions value := by
  rcases available with parameter | ⟨source, member, defined⟩ | ⟨source, member, _⟩
  · exact .inl parameter
  · rcases mem_cons.mp member with rfl | before
    · obtain ⟨instruction, inside, defined⟩ := mem_flatMap.mp defined
      exact .inr (.inr ⟨instruction, inside, defined⟩)
    · exact .inr (.inl ⟨source, before, defined⟩)
  · simp at member

/-- An instruction leaves the registers it does not define as they are. -/
theorem Machine.execute_env {rest : List Instruction} {moved : Activation V W}
    (place : activation.At function first block earlier executed)
      (next : activation.rest = instruction :: rest)
    (step : machine.execute activation instruction.kind rest = .running moved)
      (kept : value ∉ instruction.kind.defines) :
    moved.env value = activation.env value := by
  rcases (Machine.execute_at place next step).2 with ⟨_, rfl⟩ | ⟨_, world, results, _, env⟩
  · rfl
  · rw [env]
    refine assign_of_not_mem fun written => kept ?_
    obtain ⟨pair, member, rfl⟩ := mem_map.mp written
    exact (of_mem_zip member).1

/-- The registers of a running state satisfy an assertion about what has been executed on the
way. -/
def State.OnPath (function : Function) (first : BasicBlock)
    (holds : List BasicBlock → List Instruction → (Value → V) → Prop) (state : State V W) : Prop :=
  ∀ activation, state = .running activation → ∃ block earlier executed,
    activation.At function first block earlier executed ∧ holds earlier executed activation.env

/-- A step keeps an assertion that instructions and the phis of the next block keep. -/
theorem State.OnPath.step {module : Module} (verified : Verified module function first)
    {holds : List BasicBlock → List Instruction → (Value → V) → Prop} {state after : State V W}
    (sound : state.OnPath function first holds) (step : machine.step function state = some after)
    (execute : ∀ {activation block earlier executed instruction rest moved},
      state = .running activation →
      activation.At function first block earlier executed → holds earlier executed activation.env →
      activation.rest = instruction :: rest → instruction.kind ∈ function.kinds →
      machine.execute activation instruction.kind rest = .running moved →
      holds earlier (executed ++ [instruction]) moved.env)
    (enter : ∀ {activation block earlier target}, state = .running activation →
      activation.rest = [] → activation.At function first block earlier block.instructions →
      holds earlier block.instructions activation.env → target ∈ function.blocks →
        function.Edge block target →
      holds (block :: earlier) []
        (assign activation.env (phiValues target.instructions block.id activation.env))) :
    after.OnPath function first holds := by
  rintro moved rfl
  cases state with
  | running activation =>
    obtain ⟨block, earlier, executed, place, known⟩ := sound activation rfl
    cases remaining : activation.rest with
    | cons instruction rest =>
      simp only [Machine.step, remaining, Option.some.injEq] at step
      have inside := verified.path_mem_blocks place.walk block mem_cons_self
      have listed :=
        Function.mem_kinds.mpr
          ⟨block, inside, instruction, mem_of_getElem? (place.next remaining).1, rfl⟩
      exact ⟨block, earlier, _, (Machine.execute_at place remaining step).1,
        execute rfl place known remaining listed step⟩
    | nil =>
      simp only [Machine.step, remaining, Option.some.injEq] at step
      obtain rfl : block.instructions = executed := by simpa [remaining] using place.split
      obtain ⟨target, arrived, inside, env⟩ := Machine.terminate_at place step
      refine ⟨target, _, _, arrived, env ▸ enter rfl remaining place known inside ?_⟩
      cases arrived.walk with
      | step _ move => exact move
  | returned | trapped | stuck => simp [Machine.step] at step

/-- Some instruction that is neither a phi nor a reload defines the value. -/
def Function.Computes (function : Function) (value : Value) : Prop :=
  ∃ kind ∈ function.kinds, value ∈ kind.defines ∧ kind.isPhi = false ∧ kind.isFrameLoad = false

namespace Function.Computes

variable {module : Module} {value : Value} (computes : function.Computes value)
  (verified : Verified module function first)
include computes verified

theorem not_phi {kind : InstructionKind} (member : kind ∈ function.kinds)
    (phi : kind.isPhi = true) : value ∉ kind.defines := by
  intro redefined
  obtain ⟨source, listed, defined, ordinary, load⟩ := computes
  simp [verified.kind_unique listed member defined redefined load, phi] at ordinary

theorem not_available_first : ¬ function.Available [] [] value := by
  obtain ⟨kind, member, defined, _⟩ := computes
  obtain ⟨block, inside, instruction, listed, rfl⟩ := Function.mem_kinds.mp member
  rintro (parameter | ⟨_, absent, _⟩ | ⟨_, absent, _⟩)
  · exact verified.parameter_not_defined inside listed parameter defined
  · simp at absent
  · simp at absent

/-- Where the value is read, it is available. -/
theorem available (walk : Trail function.Edge first (block :: earlier)) {index : Nat}
    (found : block.instructions[index]? = some instruction)
      (ordinary : instruction.kind.isPhi = false)
    (read : value ∈ instructionOperands instruction) :
      function.Available earlier (block.instructions.take index) value := by
  obtain ⟨kind, member, defined, _, load⟩ := computes
  exact verified.operand_defined walk found ordinary read member defined load

/-- Entering a block assigns phis only. -/
theorem assign_phis (inside : block ∈ function.blocks) (pred : BlockId) (env : Value → V) :
    assign env (phiValues block.instructions pred env) value = env value := by
  refine assign_of_not_mem fun written => ?_
  obtain ⟨pair, member, rfl⟩ := mem_map.mp written
  obtain ⟨instruction, listed, incoming, kind, -⟩ := mem_phiValues member
  refine computes.not_phi verified
    (Function.mem_kinds.mpr ⟨block, inside, instruction, listed, kind⟩) rfl ?_
  simp [InstructionKind.defines, InstructionKind.result?]

end Function.Computes

end SpectraLang

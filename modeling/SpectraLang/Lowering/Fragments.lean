import SpectraLang.Lowering.Builder
import SpectraLang.Semantics.Machine

/-! # Execution of emitted code

The code a builder emits between two of its states is a fragment of every function that extends the
later one. `Flows` says that executing it leads from one place to another, `Stops` that the run ends
inside it. Both carry a predicate on the instructions executed on the way. One rule for each builder
operation, and transitivity, give the meaning of longer fragments.
-/

namespace SpectraLang

open List Simulation

/-- A place in a function: a block and how many of its instructions precede it. -/
structure Point where
  block : BlockId
  index : Nat

/-- The place where the builder appends. -/
def Builder.point (builder : Builder) : Point :=
  ⟨builder.current, (builder.block?.map (·.instructions.length)).getD 0⟩

/-- Registers, world and trace of a run. -/
structure Config (V W : Type*) where
  env : Value → V
  world : W
  trace : List (Event V)

/-- The registers agree on the values below the bound. -/
def AgreeBelow {V : Type*} (bound : Value) (env env' : Value → V) : Prop :=
  ∀ ⦃value⦄, value < bound → env' value = env value

namespace AgreeBelow

variable {V : Type*} {bound bound' : Value} {env env' env'' : Value → V}

theorem refl (bound : Value) (env : Value → V) : AgreeBelow bound env env := fun _ _ => rfl

theorem trans (first : AgreeBelow bound env env') (second : AgreeBelow bound' env' env'')
    (le : bound ≤ bound') : AgreeBelow bound env env'' :=
  fun _ below => (second (below.trans_le le)).trans (first below)

/-- Assignments to values from the bound on change nothing below it. -/
theorem assign {entries : List (Value × V)} (fresh : ∀ entry ∈ entries, bound ≤ entry.1) :
    AgreeBelow bound env (SpectraLang.assign env entries) := by
  intro value below
  refine assign_of_not_mem fun member => ?_
  obtain ⟨entry, assigned, rfl⟩ := mem_map.mp member
  exact absurd below (fresh entry assigned).not_gt

theorem update (value : V) : AgreeBelow bound env (Function.update env bound value) :=
  fun _ below => Function.update_of_ne below.ne _ _

end AgreeBelow

section
variable {V W : Type*}

/-- The run is at the point of the function. -/
inductive Located (function : Function) (point : Point) (config : Config V W) :
    State V W → Prop where
  | intro {block : BasicBlock} (count : Value → Nat)
      (found : function.getBlock point.block = some block) :
    Located function point config (.running
      ⟨point.block, block.instructions.drop point.index, block.terminator, config.env, count,
        config.world, config.trace⟩)

/-- The instruction a running state executes next is allowed. -/
def Permits (allowed : InstructionKind → (Value → V) → Prop) : State V W → Prop
  | .running activation =>
    ∀ instruction ∈ activation.rest.head?, allowed instruction.kind activation.env
  | _ => True

variable (machine : Machine V W) (function : Function) (allowed : InstructionKind → (Value → V) →
  Prop)

/-- `n` steps lead from the first place to the second. -/
def Flows (point : Point) (config : Config V W) (n : Nat) (point' : Point) (config' : Config V W) :
    Prop :=
  ∀ ⦃state⦄, Located function point config state →
    ∃ state', Located function point' config' state' ∧
      Leads (machine.step function) (Permits allowed) n state state'

/-- `n` steps lead from the place to the given state. -/
def Stops (point : Point) (config : Config V W) (n : Nat) (last : State V W) : Prop :=
  ∀ ⦃state⦄, Located function point config state → Leads (machine.step function) (Permits allowed) n
    state last

/-- The run from the place reaches one of the exits or ends. -/
def Proceeds (point : Point) (config : Config V W) (exits : Point → Config V W → Prop)
    (ends : State V W → Prop) : Prop :=
  (∃ n point' config', Flows machine function allowed point config n point' config' ∧
    exits point' config') ∨ ∃ n last, Stops machine function allowed point config n last ∧ ends last

/-- The block a terminator continues in. -/
def Machine.target (env : Value → V) : Terminator → Option BlockId
  | .branch target => some target
  | .condBranch condition trueBlock falseBlock =>
    some (if machine.isTrue (env condition) then trueBlock else falseBlock)
  | .switch value cases default => some (machine.switchTarget (env value) cases default)
  | .ret _ | .unreachable => none

variable {machine function allowed} {builder : Builder} {point point' : Point}
  {config config' : Config V W} {n m : Nat}

theorem Flows.refl (point : Point) (config : Config V W) :
    Flows machine function allowed point config 0 point config :=
  fun state located => ⟨state, located, .refl state⟩

section
variable (first : Flows machine function allowed point config n point' config')
include first

theorem Flows.trans {point'' : Point} {config'' : Config V W}
    (second : Flows machine function allowed point' config' m point'' config'') :
    Flows machine function allowed point config (n + m) point'' config'' := by
  intro state located
  obtain ⟨middle, located', leads⟩ := first located
  obtain ⟨last, located'', leads'⟩ := second located'
  exact ⟨last, located'', leads.trans leads'⟩

theorem Flows.stops {last : State V W}
    (second : Stops machine function allowed point' config' m last) :
    Stops machine function allowed point config (n + m) last := by
  intro state located
  obtain ⟨middle, located', leads⟩ := first located
  exact leads.trans (second located')

end

section Proceeds
variable {exits exits' : Point → Config V W → Prop} {ends : State V W → Prop}

theorem Flows.proceeds (flows : Flows machine function allowed point config n point' config')
    (exit : exits point' config') : Proceeds machine function allowed point config exits ends :=
  .inl ⟨n, point', config', flows, exit⟩

theorem Stops.proceeds {last : State V W}
    (stops : Stops machine function allowed point config n last) (ended : ends last) :
    Proceeds machine function allowed point config exits ends :=
  .inr ⟨n, last, stops, ended⟩

/-- Execution goes on from every exit. -/
theorem Proceeds.bind (first : Proceeds machine function allowed point config exits ends)
    (next : ∀ point' config', exits point' config' →
      Proceeds machine function allowed point' config' exits' ends) :
    Proceeds machine function allowed point config exits' ends := by
  rcases first with ⟨n, point', config', flows, exit⟩ | ⟨n, last, stops, ended⟩
  · rcases next point' config' exit with ⟨m, point'', config'', flows', exit'⟩ |
      ⟨m, last, stops, ended⟩
    · exact (flows.trans flows').proceeds exit'
    · exact (flows.stops stops).proceeds ended
  · exact stops.proceeds ended

end Proceeds

/-- Instructions that only compute the value they define. -/
def Plain (make : Value → InstructionKind) : Prop :=
  ∀ result, (make result).changesWorld = false ∧ (make result).mayTrap = false ∧
    (make result).isPhi = false ∧ (make result).defines = [result]

variable {make : Value → InstructionKind}

theorem Plain.emit (plain : Plain make) (ready : builder.Ready) :
    builder.Grows (builder.emit make).2 ∧ (builder.emit make).2.Ready :=
  ready.emit (plain _).2.2.2

variable {block : BasicBlock}

section Instructions
variable {kind : InstructionKind} {nextValueId : Nat}

theorem point_addInstruction (ready : builder.Ready) :
    (builder.revise nextValueId (·.addInstruction kind)).point =
      ⟨builder.current, builder.point.index + 1⟩ := by
  obtain ⟨block, found, -⟩ := ready.vacant
  have found' : (builder.revise nextValueId (·.addInstruction kind)).block? = some
    (block.addInstruction kind) :=
    Builder.block?_revise found fun _ => rfl
  simp only [Builder.point, found, found', Option.map_some, Option.getD_some]
  simp only [BasicBlock.addInstruction, length_append, length_singleton]
  rfl

section
variable (ready : builder.Ready)
  (extended : (builder.revise nextValueId (·.addInstruction kind)).function.Extends function)
include ready extended

/-- The appended instruction is the next one at the place where it was appended. -/
theorem drop_addInstruction (found : function.getBlock builder.current = some block) :
    block.instructions.drop builder.point.index =
      ⟨builder.point.index, kind⟩ :: block.instructions.drop (builder.point.index + 1) := by
  obtain ⟨old, found', -⟩ := ready.vacant
  have revised : (builder.revise nextValueId (·.addInstruction kind)).block? = some
    (old.addInstruction kind) :=
    Builder.block?_revise found' fun _ => rfl
  obtain ⟨next, found'', continues⟩ := extended.block revised
  obtain rfl : block = next := Option.some.inj (found.symm.trans found'')
  obtain ⟨more, equal, -⟩ := continues.added
  have index : builder.point.index = old.instructions.length := by simp [Builder.point, found']
  rw [equal, index, BasicBlock.addInstruction, append_assoc, drop_left, singleton_append,
    ← drop_drop, drop_left, drop_one, tail_cons]

theorem flows_instruction
    (ordinary : kind.isPhi = false) (permitted : allowed kind config.env) {world : W}
      {results : List V}
    (outcome : ∀ count, machine.exec kind count (kind.reads.map config.env) config.world = .ok
      (world, results)) :
    Flows machine function allowed builder.point config 1
      (builder.revise nextValueId (·.addInstruction kind)).point
      ⟨assign config.env (kind.defines.zip results), world,
        Machine.record config.trace kind (kind.reads.map config.env)⟩ := by
  rintro _ ⟨count, found⟩
  rw [point_addInstruction ready, drop_addInstruction ready extended found]
  refine ⟨_, .intro (bump count kind.defines) found, .single ?_ ?_⟩
  · intro instruction head
    cases head
    exact permitted
  · simp only [Machine.step, Machine.execute, ordinary, Bool.false_eq_true, ↓reduceIte, outcome]
    rfl

theorem stops_instruction (ordinary : kind.isPhi = false) (permitted : allowed kind config.env)
    {trap : Trap}
    (outcome : ∀ count, machine.exec kind count (kind.reads.map config.env) config.world =
      .error trap) :
    Stops machine function allowed builder.point config 1
      (.trapped trap (Machine.record config.trace kind (kind.reads.map config.env))) := by
  rintro _ ⟨count, found⟩
  rw [drop_addInstruction ready extended found]
  refine .single ?_ ?_
  · intro instruction head
    cases head
    exact permitted
  · simp only [Machine.step, Machine.execute, ordinary, Bool.false_eq_true, ↓reduceIte, outcome]

end

theorem flows_emit (plain : Plain make) (ready : builder.Ready)
    (extended : (builder.emit make).2.function.Extends function)
    (permitted : allowed (make builder.function.nextValueId) config.env) {value : V}
    (computed : ∀ count, machine.compute (make builder.function.nextValueId) count
      ((make builder.function.nextValueId).reads.map config.env) config.world = value) :
    ∃ env, AgreeBelow builder.function.nextValueId config.env env ∧
      env (builder.emit make).1 = value ∧
      Flows machine function allowed builder.point config 1 (builder.emit make).2.point
        { config with env } := by
  refine ⟨Function.update config.env builder.function.nextValueId value, .update value, ?_, ?_⟩
  · rw [ready.emit_fst, Function.update_self]
  rw [Builder.emit_of_ready ready] at extended ⊢
  obtain ⟨pure, total, ordinary, defines⟩ := plain builder.function.nextValueId
  have outcome : ∀ count, machine.exec (make builder.function.nextValueId) count
      ((make builder.function.nextValueId).reads.map config.env) config.world = .ok
        (config.world, [value]) := by
    intro count
    simp [Machine.exec, pure, total, computed]
  simpa [defines, assign, Machine.record, pure] using flows_instruction ready extended ordinary
    permitted outcome

end Instructions

variable {activation : Activation V W}

section Terminators
variable {terminator : Terminator}

theorem Machine.terminate_of_target (machine : Machine V W) {id : BlockId}
    (ended : activation.terminator = some terminator)
      (target : machine.target activation.env terminator = some id) :
    machine.terminate function activation = Machine.enter function activation id := by
  cases terminator <;> simp_all [Machine.target, Machine.terminate]

section
variable (ready : builder.Ready)
  (extended : (builder.terminate terminator).function.Extends function)
include ready extended

theorem drop_terminate (live : terminator ≠ .unreachable)
    (found : function.getBlock builder.current = some block) :
    block.instructions.drop builder.point.index = [] ∧ block.terminator = some terminator := by
  obtain ⟨old, found', -⟩ := ready.vacant
  have revised : (builder.terminate terminator).block? = some (old.setTerminator terminator) :=
    Builder.block?_revise found' fun _ => rfl
  obtain ⟨next, found'', continues⟩ := extended.block revised
  obtain rfl : block = next := Option.some.inj (found.symm.trans found'')
  obtain ⟨same, ended⟩ := continues.terminated terminator rfl live
  have index : builder.point.index = old.instructions.length := by simp [Builder.point, found']
  rw [same, index]
  exact ⟨drop_length, ended⟩

/-- Leaving the terminated block: the phis of the next block are assigned on the way. -/
theorem flows_terminator {id : BlockId} (target : machine.target config.env terminator = some id)
    (found : function.getBlock id = some block) :
    Flows machine function allowed builder.point config 1 ⟨id, 0⟩
      { config with
        env := assign config.env (phiValues block.instructions builder.current config.env) } := by
  rintro _ ⟨count, found'⟩
  have live : terminator ≠ .unreachable := by
    rintro rfl
    cases target
  obtain ⟨empty, ended⟩ := drop_terminate ready extended live found'
  rw [empty]
  refine ⟨_, .intro count found, .single (fun _ head => nomatch head) ?_⟩
  rw [Machine.step, machine.terminate_of_target ended target, Machine.enter, found]
  simp only [Function.getBlock_id found, drop_zero]
  rfl

end

end Terminators

variable {id : BlockId} {state : State V W}

/-- Phis of a block that was still empty define values that were still unused. -/
theorem agreeBelow_phis (extended : builder.function.Extends function) {vacant : BasicBlock}
    (empty : builder.function.getBlock id = some vacant) (noCode : vacant.instructions = [])
    (found : function.getBlock id = some block) (pred : BlockId) (env : Value → V) :
    AgreeBelow builder.function.nextValueId env
      (assign env (phiValues block.instructions pred env)) := by
  obtain ⟨next, found', continues⟩ := extended.block empty
  obtain rfl : block = next := Option.some.inj (found.symm.trans found')
  obtain ⟨more, equal, fresh⟩ := continues.added
  refine .assign fun entry member => ?_
  obtain ⟨instruction, inBlock, incoming, kind, -⟩ := mem_phiValues member
  rw [equal, noCode, nil_append] at inBlock
  exact fresh instruction inBlock entry.1
    (by simp [kind, InstructionKind.defines, InstructionKind.result?])

theorem Located.config_running (located : Located function point config (.running activation)) :
    config = ⟨activation.env, activation.world, activation.trace⟩ := by
  cases located
  rfl

theorem Builder.Awaits.point_eq (awaits : builder.Awaits id) :
    (builder.setCurrentBlock id).point = ⟨id, 0⟩ := by
  obtain ⟨block, found, noCode, -⟩ := awaits.vacant
  simp [Builder.point, Builder.setCurrentBlock, Builder.block?, found, noCode]

section
variable (ready : builder.Ready)
include ready

theorem point_addBlock (label : String) : (builder.addBlock label).2.point = builder.point := by
  obtain ⟨block, found, -⟩ := ready.vacant
  have found' : (builder.addBlock label).2.block? = some block :=
    Builder.getBlock_addBlock_of_some label found
  simp only [Builder.point, found, found']
  rfl

/-- At the end of the emitted code nothing follows yet. -/
theorem Located.run_stuck (located : Located builder.function builder.point config state)
    (k : Nat) : run (machine.step builder.function) (k + 1) state = .stuck config.trace := by
  obtain @⟨block, count, found⟩ := located
  obtain ⟨block', found', vacant⟩ := ready.vacant
  obtain rfl : block = block' := Option.some.inj (found.symm.trans found')
  have index : builder.point.index = block.instructions.length := by simp [Builder.point, found']
  have move :
    machine.step builder.function
    (.running ⟨builder.point.block, block.instructions.drop builder.point.index,
      block.terminator, config.env, count, config.world, config.trace⟩) = some
        (.stuck config.trace) := by
    simp only [Machine.step, index, drop_length, Machine.terminate, vacant]
  rw [run_of_some move, run_of_none rfl]

theorem Located.config_unique
    (first : Located builder.function builder.point config
      (run (machine.step builder.function) n state))
    (second : Located builder.function builder.point config'
      (run (machine.step builder.function) m state)) :
    config = config' := by
  rcases Nat.lt_trichotomy n m with earlier | rfl | later
  · obtain ⟨k, rfl⟩ := Nat.exists_eq_add_of_lt earlier
    rw [Nat.add_assoc, run_add, first.run_stuck ready] at second
    cases second
  · cases state : run (machine.step builder.function) n state with
    | running activation =>
      rw [state] at first second
      rw [first.config_running, second.config_running]
    | _ =>
      rw [state] at first
      cases first
  · obtain ⟨k, rfl⟩ := Nat.exists_eq_add_of_lt later
    rw [Nat.add_assoc, run_add, second.run_stuck ready] at first
    cases first

theorem Located.not_trapped {trap : Trap} {trace : List (Event V)}
    (arrived : Located builder.function builder.point config
      (run (machine.step builder.function) n state)) :
    run (machine.step builder.function) m state ≠ .trapped trap trace := by
  intro trapped
  rcases Nat.lt_or_ge n m with earlier | later
  · obtain ⟨k, rfl⟩ := Nat.exists_eq_add_of_lt earlier
    rw [Nat.add_assoc, run_add, arrived.run_stuck ready] at trapped
    cases trapped
  · obtain ⟨k, rfl⟩ := Nat.exists_eq_add_of_le later
    rw [run_add, trapped, run_of_none rfl] at arrived
    cases arrived

/-- Leaving the terminated block for one that is still empty. -/
theorem flows_enter {terminator : Terminator}
    (extended : (builder.terminate terminator).function.Extends function)
      (awaits : builder.Awaits id)
    (target : machine.target config.env terminator = some id) :
    ∃ env, AgreeBelow builder.function.nextValueId config.env env ∧
      Flows machine function allowed builder.point config 1 (builder.setCurrentBlock id).point
        { config with env } := by
  obtain ⟨block, found, noCode, -⟩ := awaits.vacant
  have extended' := (ready.terminate terminator).1.extended.trans extended
  obtain ⟨next, found', -⟩ := extended'.block found
  rw [awaits.point_eq]
  exact ⟨_, agreeBelow_phis extended' found noCode found' builder.current config.env,
    flows_terminator ready extended target found'⟩

end

end

end SpectraLang

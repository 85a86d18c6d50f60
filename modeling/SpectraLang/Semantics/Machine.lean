import SpectraLang.Operands
import SpectraLang.Lib.Simulation

/-! # Execution of one function

A `Machine` gives meaning to instructions: most compute a value from their operands and the world, a
few may trap first, and the others, calls of any kind among them, change the world and are recorded
in the trace, so a function runs on its own against an arbitrary world. Registers have a value from
the start; phis are assigned together when their block is entered, as the backend does with block
parameters.
-/

open Function

namespace SpectraLang

inductive Trap where
  | divisionByZero
  | divisionOverflow
  | indexOutOfBounds
  | unreachable
  | external (code : Nat)
  deriving DecidableEq

variable {kind : InstructionKind}

namespace InstructionKind

/-- Stores, calls of every kind, and operations on coroutine frames and tasks. -/
def changesWorld : InstructionKind → Bool
  | store .. | escapeManualAlloc .. | call .. | hostCall .. | autodiffStep .. | callIndirect .. |
      await ..
  | frameStore .. | stateStore .. | coroutineCreate .. | coroutinePollChild .. |
      coroutineSubscribe ..
  | coroutineWake .. | coroutineSuspend .. | coroutineComplete .. | coroutineError .. |
      coroutineCancelled ..
  | coroutinePollReturn .. => true
  | _ => false

/-- Division, remainder, and element addresses with a checked bound. -/
def mayTrap : InstructionKind → Bool
  | binary (.div _) .. | binary (.rem _) .. => true
  | getElementPtr _ _ _ _ bound => bound.isSome
  | _ => false

theorem defines_of_pure (pure : kind.changesWorld = false) :
    ∃ result, kind.defines = [result] ∧ kind.result? = some result := by
  cases kind <;> simp_all [changesWorld, defines, result?, status?]

end InstructionKind

/-- The meaning of instructions over values `V` and worlds `W`. A computation may depend on how
often its site was executed before. -/
structure Machine (V W : Type*) where
  compute : InstructionKind → Nat → List V → W → V
  trap : InstructionKind → List V → Option Trap
  perform : InstructionKind → List V → W → Except Trap (W × List V)
  isTrue : V → Bool
  matchesCase : V → I64 → Bool

/-- An operation on the world together with its argument values. -/
structure Event (V : Type*) where
  kind : InstructionKind
  args : List V

/-- A point of an execution inside a block. -/
structure Activation (V W : Type*) where
  block : BlockId
  rest : List Instruction
  terminator : Option Terminator
  env : Value → V
  count : Value → Nat
  world : W
  trace : List (Event V)

inductive State (V W : Type*) where
  | running (activation : Activation V W)
  | returned (value : Option V) (world : W) (trace : List (Event V))
  | trapped (trap : Trap) (trace : List (Event V))
  | stuck (trace : List (Event V))

/-- What a run shows: the operations so far, and how it ended once it has. -/
inductive Observation (V : Type*) where
  | emitted (trace : List (Event V))
  | returned (value : Option V) (trace : List (Event V))
  | trapped (trap : Trap) (trace : List (Event V))
  | stuck (trace : List (Event V))

variable {V W : Type*}

def State.observe : State V W → Observation V
  | running activation => .emitted activation.trace
  | returned value _ trace => .returned value trace
  | trapped trap trace => .trapped trap trace
  | stuck trace => .stuck trace

/-- Assign values in order. -/
def assign (env : Value → V) : List (Value × V) → Value → V
  | [] => env
  | (target, value) :: rest => assign (update env target value) rest

/-- The value a phi takes when its block is entered from the given predecessor. -/
def phiValue (pred : BlockId) (env : Value → V) : InstructionKind → Option (Value × V)
  | .phi result incoming =>
    (incoming.find? fun entry => entry.2 = pred).map fun entry => (result, env entry.1)
  | _ => none

/-- The values of all phis of a block, read from the registers at its entry. -/
def phiValues (instructions : List Instruction) (pred : BlockId) (env : Value → V) :
    List (Value × V) :=
  instructions.filterMap fun instruction => phiValue pred env instruction.kind

theorem phiValues_cons (instruction : Instruction) (rest : List Instruction) (pred : BlockId)
    (env : Value → V) :
    phiValues (instruction :: rest) pred env = (phiValue pred env instruction.kind).toList ++
      phiValues rest pred env := by
  unfold phiValues
  cases value : phiValue pred env instruction.kind with
  | none | some entry => simp [value]

variable {env : Value → V}

theorem phiValue_of_not_phi {pred : BlockId} (ordinary : kind.isPhi = false) :
    phiValue pred env kind = none := by
  cases kind <;> simp_all [phiValue, InstructionKind.isPhi]

theorem mem_phiValues {instructions : List Instruction} {pred : BlockId} {entry : Value × V}
    (member : entry ∈ phiValues instructions pred env) :
    ∃ instruction ∈ instructions, ∃ incoming, instruction.kind = .phi entry.1 incoming ∧
      ∃ source ∈ incoming, source.2 = pred ∧ entry.2 = env source.1 := by
  obtain ⟨instruction, inside, value⟩ := List.mem_filterMap.mp member
  cases kind : instruction.kind with
  | phi result incoming =>
    rw [kind] at value
    obtain ⟨source, selected, rfl⟩ := Option.map_eq_some_iff.mp value
    exact ⟨instruction, inside, incoming, kind, source, List.mem_of_find?_eq_some selected,
      by simpa using List.find?_some selected, rfl⟩
  | _ => simp [kind, phiValue] at value

/-- One more execution of the site that defines these values. -/
def bump (count : Value → Nat) (defined : List Value) : Value → Nat :=
  fun value => if value ∈ defined then count value + 1 else count value

namespace Machine

variable (machine : Machine V W)

/-- The outcome of an instruction other than a phi. -/
def exec (kind : InstructionKind) (count : Nat) (args : List V) (world : W) :
    Except Trap (W × List V) :=
  if kind.changesWorld then machine.perform kind args world
  else
    match (if kind.mayTrap then machine.trap kind args else none) with
    | some trap => .error trap
    | none => .ok (world, [machine.compute kind count args world])

/-- The executions so far of the instruction's site. -/
def siteCount (count : Value → Nat) (kind : InstructionKind) : Nat :=
  (kind.result?.map count).getD 0

/-- Continue at the start of a block. -/
def enter (function : Function) (activation : Activation V W) (target : BlockId) : State V W :=
  match function.getBlock target with
  | none => .stuck activation.trace
  | some block => .running
      { activation with
        block := block.id
        rest := block.instructions
        terminator := block.terminator
        env := assign activation.env
          (phiValues block.instructions activation.block activation.env) }

/-- The target a switch selects: the first matching case, else the default. -/
def switchTarget (value : V) (cases : List (I64 × BlockId)) (default : BlockId) : BlockId :=
  ((cases.find? fun entry => machine.matchesCase value entry.1).map Prod.snd).getD default

def terminate (function : Function) (activation : Activation V W) : State V W :=
  match activation.terminator with
  | none => .stuck activation.trace
  | some (.ret value) => .returned (value.map activation.env) activation.world activation.trace
  | some (.branch target) => enter function activation target
  | some (.condBranch condition trueBlock falseBlock) =>
    enter function activation
      (if machine.isTrue (activation.env condition) then trueBlock else falseBlock)
  | some (.switch value cases default) =>
    enter function activation (machine.switchTarget (activation.env value) cases default)
  | some .unreachable => .trapped .unreachable activation.trace

/-- The trace after an operation, which computations leave alone. -/
def record (trace : List (Event V)) (kind : InstructionKind) (args : List V) : List (Event V) :=
  if kind.changesWorld then trace ++ [⟨kind, args⟩] else trace

/-- Execute one instruction; the remaining ones follow it. -/
def execute (activation : Activation V W) (kind : InstructionKind) (rest : List Instruction) :
    State V W :=
  if kind.isPhi then .running { activation with rest }
  else
    let args := kind.reads.map activation.env
    match machine.exec kind (siteCount activation.count kind) args activation.world with
    | .error trap => .trapped trap (record activation.trace kind args)
    | .ok (world, results) => .running
        { activation with
          rest
          env := assign activation.env (kind.defines.zip results)
          count := bump activation.count kind.defines
          world
          trace := record activation.trace kind args }

/-- One step; returned, trapped and stuck runs have none. -/
def step (function : Function) : State V W → Option (State V W)
  | .running activation =>
    match activation.rest with
    | instruction :: rest => some (machine.execute activation instruction.kind rest)
    | [] => some (machine.terminate function activation)
  | _ => none

/-- The start of the function with the given registers, which hold the arguments. -/
def start (function : Function) (env : Value → V) (world : W) : State V W :=
  match function.blocks with
  | [] => .stuck []
  | first :: _ =>
    .running ⟨first.id, first.instructions, first.terminator, env, fun _ => 0, world, []⟩

/-- Some state of the run of the function from these registers and this world shows the
observation. -/
def Shows (function : Function) (env : Value → V) (world : W) (observation : Observation V) :
    Prop :=
  Simulation.Exhibits (machine.step function) State.observe (start function env world) observation

end Machine

section Assign
variable {entries : List (Value × V)}

theorem assign_of_not_mem {value : Value}
    (absent : value ∉ entries.map Prod.fst) : assign env entries value = env value := by
  induction entries generalizing env with
  | nil => rfl
  | cons entry rest ih =>
    obtain ⟨target, new⟩ := entry
    rw [List.map_cons, List.mem_cons, not_or] at absent
    rw [assign, ih absent.2, update_of_ne absent.1]

/-- A register holds its old value or one assigned to it. -/
theorem assign_cases (env : Value → V) (entries : List (Value × V)) (value : Value) :
    (value ∉ entries.map Prod.fst ∧ assign env entries value = env value) ∨
      (value, assign env entries value) ∈ entries := by
  induction entries generalizing env with
  | nil => exact .inl ⟨by simp, rfl⟩
  | cons entry rest ih =>
    obtain ⟨target, new⟩ := entry
    rw [assign]
    rcases ih (update env target new) with ⟨absent, kept⟩ | later
    · by_cases same : value = target
      · subst same
        rw [kept, update_self]
        exact .inr (List.mem_cons_self)
      · rw [kept, update_of_ne same]
        exact .inl ⟨by simp [same, absent], rfl⟩
    · exact .inr (List.mem_cons_of_mem _ later)

/-- Assignments read the old register exactly where no entry names it. -/
theorem assign_congr {env' : Value → V} {value : Value}
    (same : value ∉ entries.map Prod.fst → env value = env' value) :
    assign env entries value = assign env' entries value := by
  induction entries generalizing env env' with
  | nil => exact same (by simp)
  | cons entry rest ih =>
    obtain ⟨target, new⟩ := entry
    apply ih
    intro absent
    by_cases equal : value = target
    · simp [equal]
    · rw [update_of_ne equal, update_of_ne equal]
      exact same (by simp [equal, absent])

end Assign

end SpectraLang

import Mathlib.Data.List.Induction
import Mathlib.Data.List.Nodup
import SpectraLang.Database.Pool

/-! # What the connection pool keeps to

Every connection is idle or belongs to exactly one task, and there are at most as many as the pool
may have. The counter of connections in use misses a connection that a release hands to a waiter,
and one created for a cancelled waiter is put back even into a closed pool; without either, a
shutdown that succeeds leaves nothing behind. Capacity given back in any other way than by a valid
release passes the queue by; without that, nobody waits beside free capacity.
-/

namespace SpectraLang.Database

open List

variable {γ : Type} {config : PoolConfig}

/-- The connections and reservations that an acquirer takes out of the pool. -/
def TakeResult.units : TakeResult γ → Nat
  | .idle _ | .reserved => 1
  | .unavailable => 0

def TakeResult.connection? : TakeResult γ → Option γ
  | .idle connection => some connection
  | .reserved | .unavailable => none

namespace PoolState

variable {state after : PoolState γ} {cancelled : Nat → Bool} {connection : γ} {n : Nat}

theorem reapIdle_counts {minSize : Nat} {expired : γ → Bool} {idle : List γ} {total : Nat}
    (counted : idle.length ≤ total) :
    (reapIdle minSize expired idle total).2 + idle.length = total +
      (reapIdle minSize expired idle total).1.length ∧
      (reapIdle minSize expired idle total).2 ≤ total ∧
        (reapIdle minSize expired idle total).1 <:+ idle := by
  induction idle generalizing total with
  | nil => exact ⟨rfl, Nat.le_refl _, suffix_rfl⟩
  | cons first idle ih =>
    rw [length_cons] at counted
    rw [reapIdle]
    split_ifs
    · exact ⟨rfl, Nat.le_refl _, suffix_rfl⟩
    · obtain ⟨same, less, kept⟩ := @ih (total - 1) (by omega)
      rw [length_cons]
      exact ⟨by omega, by omega, kept.trans (suffix_cons first idle)⟩

/-- What an acquirer changes; it is turned away only if nothing is idle and the pool is full. -/
structure Taken (config : PoolConfig) (state after : PoolState γ) (result : TakeResult γ)
    (n : Nat) : Prop where
  wasOpen : state.closed = false
  isOpen : after.closed = false
  waiters : after.waiters = state.waiters
  checkedOut : after.checkedOut = state.checkedOut + result.units
  owned : result.connection?.toList ++ after.idle <+ state.idle
  total : after.total = after.idle.length + n + result.units
  bounded : after.total ≤ config.maxSize
  full : result.units = 0 → after.idle = [] ∧ after.total = config.maxSize

theorem taken {expired : γ → Bool} {result : TakeResult γ}
    (counted : state.total = state.idle.length + n)
    (bounded : state.total ≤ config.maxSize)
    (found : state.takeIdleOrReserve config expired = some (result, after)) :
      Taken config state after result n := by
  obtain ⟨same, less, kept⟩ := @reapIdle_counts _ config.minSize expired state.idle state.total
    (by omega)
  rw [takeIdleOrReserve] at found
  split_ifs at found with closed
  generalize reapIdle config.minSize expired state.idle state.total = reaped at same less kept found
  obtain ⟨_ | ⟨first, idle⟩, total⟩ := reaped
  · simp only [length_nil] at same less found
    split_ifs at found with room
    all_goals
      obtain ⟨rfl, rfl⟩ := Prod.mk.inj (Option.some.inj found)
      refine ⟨by simpa using closed, by simpa using closed, rfl, rfl, nil_sublist _, ?_, ?_, ?_⟩ <;>
        simp [TakeResult.units] <;> omega
  · simp only [length_cons] at same less found
    obtain ⟨rfl, rfl⟩ := Prod.mk.inj (Option.some.inj found)
    refine ⟨by simpa using closed, by simpa using closed, rfl, rfl, kept.sublist, ?_, ?_, ?_⟩ <;>
      simp [TakeResult.units] <;> omega

theorem popLiveWaiter_cases (waiters : List Nat) :
    (popLiveWaiter cancelled waiters = (none, []) ∧ ∀ waiter ∈ waiters, cancelled waiter = true) ∨
      ∃ waiter rest, popLiveWaiter cancelled waiters = (some waiter, rest) ∧ waiter ∈ waiters ∧
        cancelled waiter = false := by
  induction waiters with
  | nil => exact .inl ⟨rfl, by simp⟩
  | cons waiter waiters ih =>
    rw [popLiveWaiter]
    split_ifs with gone
    · rcases ih with ⟨empty, all⟩ | ⟨live, rest, found, member, alive⟩
      · exact .inl ⟨empty, by simpa [gone] using all⟩
      · exact .inr ⟨live, rest, found, mem_cons_of_mem _ member, alive⟩
    · exact .inr ⟨waiter, waiters, rfl, mem_cons_self, by simpa using gone⟩

/-- Some waiter of the queue is not cancelled. -/
def Awaited (cancelled : Nat → Bool) (state : PoolState γ) : Prop :=
  ∃ waiter ∈ state.waiters, cancelled waiter = false

theorem not_awaited (empty : state.waiters = []) : ¬ state.Awaited cancelled := by
  rintro ⟨waiter, member, -⟩
  rw [empty] at member
  cases member

/-- A connection that is given back is closed, handed to a waiter or kept. -/
theorem releaseRaw_cases (cancelled : Nat → Bool) (valid : Bool) (connection : γ)
    (state : PoolState γ) :
    ((state.closed = true ∨ valid = false) ∧ state.releaseRaw cancelled valid connection =
        ({ state with checkedOut := state.checkedOut - 1, total := state.total - 1 }, none)) ∨
      (state.closed = false ∧ valid = true ∧ state.Awaited cancelled ∧ ∃ waiter waiters,
        state.releaseRaw cancelled valid connection =
          ({ state with checkedOut := state.checkedOut - 1, waiters }, some waiter)) ∨
      state.closed = false ∧ valid = true ∧ ¬ state.Awaited cancelled ∧
        state.releaseRaw cancelled valid connection =
        ({ state with checkedOut := state.checkedOut - 1, waiters := [], idle := state.idle ++
          [connection] }, none) := by
  rw [releaseRaw]
  by_cases discarded : state.closed = true ∨ ¬ valid = true
  · exact .inl ⟨by simpa using discarded, if_pos discarded⟩
  · have kept : state.closed = false ∧ valid = true := by simpa using discarded
    rcases @popLiveWaiter_cases cancelled state.waiters with ⟨empty, all⟩ |
      ⟨waiter, rest, found, member, alive⟩
    · refine .inr (.inr ⟨kept.1, kept.2, ?_, by simp [kept, empty]⟩)
      rintro ⟨waiter, member, alive⟩
      rw [all waiter member] at alive
      cases alive
    · exact .inr
        (.inl ⟨kept.1, kept.2, ⟨waiter, member, alive⟩, waiter, rest, by simp [kept, found]⟩)

end PoolState

/-- The connection of a task; a creation in progress may not have one yet. -/
def Task.connection? : Task γ → Option γ
  | .lease connection | .slot _ connection | .acquiring connection | .returning connection |
      .delivering _ connection =>
    some connection
  | .connecting _ => none

/-- The connection that the factory hands out. -/
def Action.opened : Action γ → Option γ
  | .connected connection | .created _ connection => some connection
  | _ => none

namespace System

variable {system after : System γ} {action : Action γ} {ended : Option (Task γ)}
  {started : List (Task γ)}

/-- No release hands its connection to a waiter, and no created connection comes back into a closed
pool. -/
def Orderly (system : System γ) : Action γ → Prop
  | .release _ valid | .slotDropped _ _ valid =>
    valid = true → system.pool.closed = false → ¬ system.pool.Awaited system.cancelled
  | .returned _ => system.pool.closed = false
  | _ => True

/-- Capacity is given back by valid releases only as long as somebody waits. -/
def Considerate (system : System γ) : Action γ → Prop
  | .tooLate _ | .creationFailed _ | .returned _ => ¬ system.pool.Awaited system.cancelled
  | .release _ valid | .slotDropped _ _ valid =>
    valid = false → ¬ system.pool.Awaited system.cancelled
  | _ => True

/-- What the actions do to the pool, by the sections they run. -/
inductive Outcome (config : PoolConfig) (system : System γ) :
    Action γ → Option (Task γ) → System γ → List (Task γ) → Prop where
  | took {action : Action γ} {after : System γ} {started : List (Task γ)} {expired : γ → Bool}
      {result : TakeResult γ}
      {pool : PoolState γ}
        (found : system.pool.takeIdleOrReserve config expired = some (result, pool))
      (queue : List Nat) (onlyFull : queue ≠ [] → result.units = 0)
      (isPool : after.pool = { pool with waiters := pool.waiters ++ queue })
        (same : after.cancelled = system.cancelled)
      (noShutdown : after.shutdowns = system.shutdowns) (units : started.length = result.units)
      (owned : started.filterMap Task.connection? = result.connection?.toList) :
        Outcome config system action none after started
  | passed {action : Action γ} (task other : Task γ)
      (owned : other.connection? = task.connection? ∨ other.connection? = action.opened) :
      Outcome config system action (some task) system [other]
  | discarded {action : Action γ} (task : Task γ)
      (lost : system.Considerate action → system.pool.closed = false →
        ¬ system.pool.Awaited system.cancelled) :
      Outcome config system action (some task)
        { system with pool :=
          { system.pool with checkedOut := system.pool.checkedOut - 1, total :=
            system.pool.total - 1 } } []
  | handed {action : Action γ} (task slot : Task γ) (waiters : List Nat)
      (isOpen : system.pool.closed = false)
      (awaited : system.pool.Awaited system.cancelled) (disorderly : ¬ system.Orderly action)
      (owned : slot.connection? = task.connection?) :
      Outcome config system action (some task)
        { system with pool :=
          { system.pool with checkedOut := system.pool.checkedOut - 1, waiters } } [slot]
  | kept {action : Action γ} (task : Task γ) (connection : γ) (isOpen : system.pool.closed = false)
      (owned : task.connection? = some connection) :
      Outcome config system action (some task)
        { system with pool := { system.pool with
          checkedOut := system.pool.checkedOut - 1, waiters := [], idle :=
            system.pool.idle ++ [connection] } } []
  | failed (target : Option Nat) : Outcome config system (.creationFailed target)
      (some (.connecting target)) { system with pool := system.pool.markCreationFailed } []
  | returned (connection : γ) : Outcome config system (.returned connection)
      (some (.returning connection)) { system with pool := system.pool.returnCreated connection } []
  | closed {after : System γ} (isPool : after.pool = system.pool.close) :
      Outcome config system .shutdown none after []
  | quiet {action : Action γ} {after : System γ} (waiters : List Nat)
      (fewer : waiters ⊆ system.pool.waiters) (isPool : after.pool = { system.pool with waiters })
      (later : ∀ waiter, after.cancelled waiter = false → system.cancelled waiter = false)
      (noShutdown : after.shutdowns ≤ system.shutdowns) :
      Outcome config system action none after []

theorem outcome_giveBack {task : Task γ} {valid : Bool} {connection : γ}
    (owned : task.connection? = some connection)
    (considerate : system.Considerate action → valid = false →
      ¬ system.pool.Awaited system.cancelled)
    (orderly : system.Orderly action → valid = true → system.pool.closed = false →
      ¬ system.pool.Awaited system.cancelled) :
    Outcome config system action (some task) (system.giveBack valid connection).1
      (system.giveBack valid connection).2 := by
  rw [giveBack]
  rcases system.pool.releaseRaw_cases system.cancelled valid connection with
    ⟨discarded, shape⟩ | ⟨isOpen, isValid, awaited, waiter, waiters, shape⟩ |
      ⟨isOpen, -, -, shape⟩ <;> rw [shape]
  · exact .discarded task fun fair isOpen => considerate fair
      (discarded.resolve_left (by simp [isOpen]))
  · exact .handed task _ waiters isOpen awaited (fun fair => orderly fair isValid isOpen awaited)
      owned.symm
  · exact .kept task connection isOpen owned

theorem outcome (found : system.effect config action = some (ended, after, started)) :
    Outcome config system action ended after started := by
  cases action with
  | takeBlocking expired =>
    obtain ⟨⟨result, pool⟩, taken, shape⟩ := Option.map_eq_some_iff.mp found
    cases result <;> (cases shape; exact .took taken [] (absurd rfl) (by simp) rfl rfl rfl rfl)
  | acquire expired =>
    obtain ⟨⟨result, pool⟩, taken, shape⟩ := Option.map_eq_some_iff.mp found
    cases result with
    | unavailable =>
      cases shape
      exact .took taken [system.nextWaiter] (fun _ => rfl) rfl rfl rfl rfl rfl
    | _ =>
      cases shape
      exact .took taken [] (absurd rfl) (by simp) rfl rfl rfl rfl
  | tooLate connection =>
    cases found
    exact outcome_giveBack rfl (fun considerate _ => considerate)
      (fun _ invalid => by cases invalid)
  | release | slotDropped =>
    cases found
    exact outcome_giveBack rfl id id
  | creationFailed target =>
    cases found
    exact .failed target
  | returned connection =>
    cases found
    exact .returned connection
  | cancel waiter =>
    cases found
    exact .quiet system.pool.waiters (List.Subset.refl _) rfl (fun other alive =>
      (Bool.or_eq_false_iff.mp alive).2) (Nat.le_refl _)
  | removeWaiter waiter =>
    cases found
    exact .quiet _ filter_sublist.subset rfl (fun _ => id) (Nat.le_refl _)
  | shutdown =>
    cases found
    exact .closed rfl
  | shutdownOk | shutdownTimeout =>
    simp only [effect] at found
    split_ifs at found
    cases found
    exact .quiet system.pool.waiters (List.Subset.refl _) rfl (fun _ => id) (Nat.sub_le _ _)
  | connected =>
    cases found
    exact .passed _ _ (.inr rfl)
  | created =>
    cases found
    exact .passed _ _ (.inr (by split_ifs <;> rfl))
  | _ =>
    cases found
    exact .passed _ _ (.inl rfl)

variable [DecidableEq γ]

/-- A step ends at most one task, which was there, and starts the new ones. -/
theorem step_outcome (moved : system.step config action = some after) : ∃ ended behind started,
    Outcome config system action ended behind started ∧ after.pool = behind.pool ∧
      after.cancelled = behind.cancelled ∧
      after.shutdowns = behind.shutdowns ∧ ended.toList ++ after.tasks ~ started ++ system.tasks ∧
      ended.toList.length ≤ system.tasks.length := by
  rw [step] at moved
  split at moved
  · cases moved
  · next behind started found =>
    cases moved
    exact ⟨none, behind, started, outcome found, rfl, rfl, rfl, .refl _, by simp⟩
  · next task behind started found =>
    split_ifs at moved with present
    cases moved
    have positive := length_pos_of_mem present
    refine ⟨some task, behind, started, outcome found, rfl, rfl, rfl, ?_, positive⟩
    exact (@perm_middle _ task started _).symm.trans
      ((perm_cons_erase present).symm.append_left started)

/-- The connections of the pool are the idle ones and those of the tasks. -/
structure Counted (config : PoolConfig) (system : System γ) : Prop where
  total : system.pool.total = system.pool.idle.length + system.tasks.length
  bounded : system.pool.total ≤ config.maxSize

theorem Counted.step (counted : system.Counted config)
    (moved : system.step config action = some after) :
    after.Counted config := by
  obtain ⟨total, bounded⟩ := counted
  obtain ⟨ended, behind, started, outcome, pool, -, -, tasks, present⟩ := step_outcome moved
  replace tasks := tasks.length_eq
  rw [length_append, length_append] at tasks
  suffices count : behind.pool.total = behind.pool.idle.length + after.tasks.length ∧
    behind.pool.total ≤ config.maxSize by
    exact ⟨pool ▸ count.1, pool ▸ count.2⟩
  cases outcome with
  | took found queue onlyFull isPool same noShutdown units =>
    have taken := PoolState.taken total bounded found
    have := taken.total
    have := taken.bounded
    simp only [isPool, Option.toList_none, length_nil] at *
    omega
  | passed | failed | quiet | closed | returned | discarded | handed | kept =>
    simp only [PoolState.markCreationFailed, PoolState.returnCreated, PoolState.close,
      Option.toList_some, Option.toList_none, length_singleton, length_append, length_nil, *] at *
    omega

variable {first : System γ} {allowed : System γ → Action γ → Prop}

theorem Runs.counted (counted : first.Counted config)
    (run : Runs config allowed first system) : system.Counted config := by
  induction run with
  | start => exact counted
  | next _ _ moved counted => exact counted.step moved

/-- What `validate_config` and `ConnectionPool::new` ensure. -/
structure Built (config : PoolConfig) (idle : List γ) : Prop where
  positive : 0 < config.maxSize
  ordered : config.minSize ≤ config.maxSize
  filled : idle.length = config.minSize

omit [DecidableEq γ] in
theorem Built.counted {idle : List γ} (built : Built config idle) : (initial idle).Counted config :=
  ⟨rfl, Nat.le_trans (Nat.le_of_eq built.filled) built.ordered⟩

/-- Nobody holds a connection of the pool and nobody creates one. -/
def Abandoned (system : System γ) : Prop :=
  (∀ connection, .lease connection ∉ system.tasks) ∧
    (∀ waiter connection, .slot waiter connection ∉ system.tasks) ∧
    (∀ target, .connecting target ∉ system.tasks) ∧
      (∀ connection, .returning connection ∉ system.tasks) ∧
    ∀ waiter connection, .delivering waiter connection ∉ system.tasks

/-- A shutdown that succeeds finds the pool abandoned and leaves nothing idle in it from then on. -/
def ShutsDown (config : PoolConfig) (allowed : System γ → Action γ → Prop) (idle : List γ) : Prop :=
  ∀ system after, Runs config allowed (initial idle) system → system.step config .shutdownOk =
    some after → system.Abandoned ∧ ∀ later, Runs config allowed after later → later.pool.idle = []

/-- The connections in use are counted, and a closed pool keeps nothing. -/
structure Tracked (config : PoolConfig) (system : System γ) : Prop where
  counted : system.Counted config
  inUse : system.pool.checkedOut = system.tasks.length
  emptied : system.pool.closed = true → system.pool.idle = []
  shut : system.shutdowns ≠ 0 → system.pool.closed = true

theorem Tracked.step (tracked : system.Tracked config) (orderly : system.Orderly action)
    (moved : system.step config action = some after) : after.Tracked config := by
  have counted := tracked.counted.step moved
  obtain ⟨⟨total, bounded⟩, inUse, emptied, shut⟩ := tracked
  obtain ⟨ended, behind, started, outcome, pool, -, shutdowns, tasks, present⟩ := step_outcome moved
  replace tasks := tasks.length_eq
  rw [length_append, length_append] at tasks
  suffices kept : behind.pool.checkedOut = after.tasks.length ∧
    (behind.pool.closed = true → behind.pool.idle = []) ∧
      (behind.shutdowns ≠ 0 → behind.pool.closed = true) by
    rw [← pool, ← shutdowns] at kept
    exact ⟨counted, kept.1, kept.2.1, kept.2.2⟩
  cases outcome with
  | took found queue onlyFull isPool same noShutdown units =>
    have taken := PoolState.taken total bounded found
    simp only [isPool, noShutdown, taken.isOpen, taken.wasOpen, taken.checkedOut,
      Option.toList_none, length_nil] at *
    exact ⟨by omega, nofun, shut⟩
  | passed task other => exact ⟨by simp at tasks; omega, emptied, shut⟩
  | failed target => exact ⟨by simp [PoolState.markCreationFailed] at *; omega, emptied, shut⟩
  | returned connection =>
    have isOpen : system.pool.closed = false := orderly
    refine ⟨by simp [PoolState.returnCreated] at *; omega, fun closed => ?_, shut⟩
    exact absurd (isOpen.symm.trans closed) Bool.false_ne_true
  | closed isPool =>
    exact ⟨by simp [isPool, PoolState.close] at *; omega, fun _ => by
      rw [isPool]; rfl, fun _ => by rw [isPool]; rfl⟩
  | quiet waiters fewer isPool later noShutdown =>
    simp only [isPool, Option.toList_none, length_nil] at *
    exact ⟨by omega, emptied, fun waiting => shut (by omega)⟩
  | discarded task lost => exact ⟨by simp at tasks ⊢; omega, emptied, shut⟩
  | handed task slot waiters isOpen awaited disorderly => exact absurd orderly disorderly
  | kept task connection isOpen =>
    refine ⟨by simp at tasks ⊢; omega, fun closed => ?_, shut⟩
    exact absurd (isOpen.symm.trans closed) Bool.false_ne_true

theorem closed_step (closed : system.pool.closed = true)
    (moved : system.step config action = some after) :
    after.pool.closed = true := by
  obtain ⟨ended, behind, started, outcome, pool, -⟩ := step_outcome moved
  rw [pool]
  cases outcome with
  | took found =>
    rw [PoolState.takeIdleOrReserve, if_pos closed] at found
    cases found
  | closed isPool => rw [isPool]; rfl
  | quiet waiters fewer isPool => rw [isPool]; exact closed
  | handed _ _ _ isOpen | kept _ _ isOpen =>
    exact absurd (isOpen.symm.trans closed) Bool.false_ne_true
  | _ => exact closed

theorem Runs.closed (closed : first.pool.closed = true)
    (run : Runs config allowed first system) : system.pool.closed = true := by
  induction run with
  | start => exact closed
  | next _ _ moved closed => exact closed_step closed moved

theorem Runs.tracked (tracked : first.Tracked config) (run : Runs config Orderly first system) :
    system.Tracked config := by
  induction run with
  | start => exact tracked
  | next _ orderly moved tracked => exact tracked.step orderly moved

/-- A successful shutdown waits for every lease and every creation, as long as the run is
orderly. -/
theorem shutsDown_orderly {idle : List γ} (built : Built config idle) :
    ShutsDown config Orderly idle := by
  intro system after run moved
  have start : (initial idle).Tracked config :=
    ⟨built.counted, rfl, nofun, fun shut => absurd rfl shut⟩
  have tracked := run.tracked start
  have enabled : system.shutdowns ≠ 0 ∧ system.pool.checkedOut = 0 := by
    by_contra waits
    simp [step, effect, waits] at moved
  have none : system.tasks = [] := length_eq_zero_iff.mp (tracked.inUse.symm.trans enabled.2)
  refine ⟨by simp [Abandoned, none], fun later rest => ?_⟩
  have orderly : system.Orderly .shutdownOk := trivial
  apply (rest.tracked (tracked.step orderly moved)).emptied
  exact rest.closed (closed_step (tracked.shut enabled.1) moved)

theorem Runs.act (run : Runs config allowed first system) (action : Action γ)
    (condition : allowed system action)
    (moved : system.step config action = some after) : Runs config allowed first after :=
  .next run condition moved

/-- Two connections are leased, one of them newly created, and the other is given back. -/
private theorem runs_orderly : Runs ⟨1, 2⟩ Orderly (initial [7])
    ⟨⟨[7], [], 2, 1, false⟩, [.lease 8], fun _ => false, 2, 0⟩ := by
  have empty : Runs ⟨1, 2⟩ Orderly (initial [7]) (initial [7]) := .start
  have leased := empty.act (.acquire fun _ => false) trivial rfl
  have reserved := leased.act (.takeBlocking fun _ => false) trivial rfl
  have created := (reserved.act (.connected 8) trivial rfl).act (.acquired 8) trivial rfl
  exact created.act (.release 7 true) (fun _ _ => PoolState.not_awaited rfl) rfl

theorem shutsDown_orderly_two : ∃ system after :
    System Nat, Runs ⟨1, 2⟩ Orderly (initial [7]) system ∧
    system.step ⟨1, 2⟩ .shutdownOk = some after ∧ system.Abandoned ∧ after.pool.idle = [] := by
  have closed := runs_orderly.act .shutdown trivial rfl
  have given := closed.act (.release 8 true) (fun _ => nofun) rfl
  obtain ⟨abandoned, emptied⟩ := shutsDown_orderly ⟨by decide, by decide, rfl⟩ _ _ given rfl
  exact ⟨_, _, given, rfl, abandoned, emptied _ .start⟩

/-- In orderly runs `checked_out` counts the tasks, and nothing stays idle in a closed pool. -/
theorem checkedOut_exact {idle : List γ} (built : Built config idle)
    (run : Runs config Orderly (initial idle) system) :
    system.pool.checkedOut = system.tasks.length ∧
      (system.pool.closed = true → system.pool.idle = []) := by
  have tracked := run.tracked ⟨built.counted, rfl, nofun, fun shut => absurd rfl shut⟩
  exact ⟨tracked.inUse, tracked.emptied⟩

theorem checkedOut_exact_two : ∃ system : System Nat, Runs ⟨1, 2⟩ Orderly (initial [7]) system ∧
    system.tasks = [.lease 8] ∧ system.pool.checkedOut = 1 :=
  ⟨_, runs_orderly, rfl, (checkedOut_exact ⟨by decide, by decide, rfl⟩ runs_orderly).1⟩

/-- What a list of actions leads to. -/
def perform (config : PoolConfig) (actions : List (Action γ)) (system : System γ) :
    Option (System γ) :=
  actions.foldlM (step config) system

theorem runs_perform {actions : List (Action γ)}
    (performed : perform config actions first = some system) :
    Runs config (fun _ _ => True) first system := by
  induction actions using List.reverseRecOn generalizing system with
  | nil =>
    cases performed
    exact .start
  | append_singleton actions action ih =>
    rw [perform, foldlM_append] at performed
    obtain ⟨middle, earlier, last⟩ := Option.bind_eq_some_iff.mp performed
    rw [foldlM_cons] at last
    obtain ⟨after, moved, same⟩ := Option.bind_eq_some_iff.mp last
    cases same
    exact .next (ih earlier) trivial moved

/-- With one connection: it is taken, a second acquirer queues for it, and the first gives it
back. -/
def handOver (valid : Bool) : List (Action Nat) :=
  [.takeBlocking fun _ => false, .connected 7, .acquired 7, .acquire fun _ => false,
    .release 7 valid]

/-- The shutdown succeeds although a waiter has been handed the connection. -/
theorem not_shutsDown_handOver : ¬ ShutsDown ⟨0, 1⟩ (fun _ _ => True) ([] : List Nat) := by
  intro shutsDown
  obtain ⟨system, performed, present⟩ : ∃ system, perform ⟨0, 1⟩ (handOver true ++ [.shutdown])
    (initial []) = some system ∧ .slot 1 7 ∈ system.tasks := ⟨_, rfl, by decide⟩
  obtain ⟨after, moved⟩ : ∃ after, system.step ⟨0, 1⟩ .shutdownOk = some after := by
    cases performed
    exact ⟨_, rfl⟩
  exact (shutsDown system after (runs_perform performed) moved).1.2.1 1 7 present

/-- Nobody waits while a connection is idle or could be created. -/
def ServesWaiters (config : PoolConfig) (allowed : System γ → Action γ → Prop) (idle : List γ) :
    Prop :=
  ∀ system, Runs config allowed (initial idle) system → system.pool.closed = false →
    system.pool.Awaited system.cancelled → system.pool.idle = [] ∧
      system.pool.total = config.maxSize

/-- Whoever waits does so because the pool is exhausted. -/
def Exhausted (config : PoolConfig) (system : System γ) : Prop :=
  system.pool.closed = false → system.pool.Awaited system.cancelled →
    system.pool.idle = [] ∧ system.pool.total = config.maxSize

theorem Exhausted.step (exhausted : system.Exhausted config) (counted : system.Counted config)
    (considerate : system.Considerate action) (moved : system.step config action = some after) :
      after.Exhausted config := by
  obtain ⟨ended, behind, started, outcome, pool, cancelled, -⟩ := step_outcome moved
  rw [Exhausted, pool, cancelled]
  intro isOpen awaited
  cases outcome with
  | @took _ _ _ _ result _ found queue onlyFull isPool same noShutdown units =>
    have taken := PoolState.taken counted.total counted.bounded found
    rw [isPool]
    by_cases full : result.units = 0
    · exact taken.full full
    · -- Whoever takes something finds nobody in the queue.
      obtain rfl : queue = [] := by
        by_contra queued
        exact full (onlyFull queued)
      obtain ⟨waiter, member, alive⟩ := awaited
      rw [isPool, append_nil, taken.waiters] at member
      obtain ⟨empty, all⟩ := exhausted taken.wasOpen ⟨waiter, member, same ▸ alive⟩
      have total := counted.total
      have more := taken.total
      have bounded := taken.bounded
      rw [empty, length_nil] at total
      omega
  | passed task other => exact exhausted isOpen awaited
  | failed target | returned connection => exact absurd awaited considerate
  | closed isPool =>
    rw [isPool] at isOpen
    cases isOpen
  | quiet waiters fewer isPool later noShutdown =>
    obtain ⟨waiter, member, alive⟩ := awaited
    rw [isPool] at isOpen member ⊢
    exact exhausted isOpen ⟨waiter, fewer member, later waiter alive⟩
  | discarded task lost => exact absurd awaited (lost considerate isOpen)
  | handed task slot waiters wasOpen waited => exact exhausted wasOpen waited
  | kept =>
    obtain ⟨waiter, member, -⟩ := awaited
    cases member

/-- Nobody waits beside free capacity, as long as the run is considerate. -/
theorem servesWaiters_considerate {idle : List γ} (built : Built config idle) :
    ServesWaiters config Considerate idle := by
  intro system run
  suffices exhausted : system.Exhausted config from exhausted
  induction run with
  | start =>
    rintro - ⟨waiter, member, -⟩
    cases member
  | next run considerate moved exhausted =>
    exact exhausted.step (run.counted built.counted) considerate moved

/-- The second of two waiters is left when the first gets the connection given back. -/
theorem servesWaiters_considerate_two : ∃ system :
    System Nat, Runs ⟨0, 1⟩ Considerate (initial []) system ∧
    system.tasks = [.lease 7] ∧ system.pool.waiters = [2] ∧ system.pool.idle = [] ∧
      system.pool.total = 1 := by
  have empty : Runs ⟨0, 1⟩ Considerate (initial []) (initial ([] : List Nat)) := .start
  have created := (empty.act (.takeBlocking fun _ => false) trivial rfl).act (.connected 7) trivial
    rfl
  have leased := created.act (.acquired 7) trivial rfl
  have waiting := (leased.act (.acquire fun _ => false) trivial rfl).act (.acquire fun _ => false)
    trivial rfl
  have served := (waiting.act (.release 7 true) nofun rfl).act (.polled 1 7) trivial rfl
  have exhausted := servesWaiters_considerate ⟨by decide, by decide, rfl⟩ _ served rfl
    ⟨2, mem_singleton_self 2, rfl⟩
  exact ⟨_, served, rfl, rfl, exhausted⟩

/-- A waiter is left behind when the only connection turns out to be broken. -/
theorem not_servesWaiters_invalid : ¬ ServesWaiters ⟨0, 1⟩ (fun _ _ => True) ([] : List Nat) := by
  intro serves
  obtain ⟨system, performed, free⟩ : ∃ system, perform ⟨0, 1⟩ (handOver false) (initial []) =
    some system ∧
      system.pool.waiters = [1] ∧ system.cancelled 1 = false ∧ system.pool.closed = false ∧
        system.pool.total = 0 :=
    ⟨_, rfl, rfl, rfl, rfl, rfl⟩
  obtain ⟨waiters, alive, isOpen, total⟩ := free
  have full :=
    (serves system (runs_perform performed) isOpen
      ⟨1, by rw [waiters]; exact mem_singleton_self 1, alive⟩).2
  rw [total] at full
  cases full

end System

/-- Leases of callers and in result slots, and acquirers on the way to one. -/
def Task.isLease : Task γ → Bool
  | .lease _ | .slot _ _ | .acquiring _ => true
  | .connecting _ | .returning _ | .delivering _ _ => false

namespace System

variable [DecidableEq γ] {system after behind : System γ} {action : Action γ}
  {ended : Option (Task γ)} {started : List (Task γ)} {idle : List γ}

def connections (system : System γ) : List γ :=
  system.pool.idle ++ system.tasks.filterMap Task.connection?

/-- The factory never hands out a connection that is in use. -/
def Fresh (system : System γ) (action : Action γ) : Prop :=
  ∀ connection, action.opened = some connection → connection ∉ system.connections

/-- No action makes two connections of one. -/
theorem Outcome.count_le (counted : system.Counted config)
    (outcome : Outcome config system action ended behind started)
    (connection : γ) :
    behind.pool.idle.count connection + (started.filterMap Task.connection?).count connection ≤
      system.pool.idle.count connection + (action.opened.toList.count connection +
        (ended.toList.filterMap Task.connection?).count connection) := by
  cases outcome with
  | took found queue onlyFull isPool same noShutdown units owned =>
    have fewer := (PoolState.taken counted.total counted.bounded found).owned.count_le connection
    rw [count_append] at fewer
    simp only [isPool, owned]
    omega
  | passed task other owned =>
    rcases owned with same | same
    · simp [filterMap_cons, same]
    · cases opened : action.opened <;> simp [filterMap_cons, same, opened]
  | handed task slot waiters isOpen awaited disorderly owned => simp [filterMap_cons, owned]
  | kept task given isOpen owned => simp [owned]
  | closed isPool | quiet waiters fewer isPool => simp [isPool, PoolState.close]
  | returned given => simp [PoolState.returnCreated, Task.connection?]
  | discarded | failed => simp [PoolState.markCreationFailed]

theorem nodup_step (counted : system.Counted config) (distinct : system.connections.Nodup)
    (fresh : system.Fresh action)
    (moved : system.step config action = some after) : after.connections.Nodup := by
  have larger : (action.opened.toList ++ system.connections).Nodup := by
    cases opened : action.opened with
    | none => exact distinct
    | some connection => exact nodup_cons.mpr ⟨fresh connection opened, distinct⟩
  obtain ⟨ended, behind, started, outcome, pool, -, -, tasks, -⟩ := step_outcome moved
  rw [nodup_iff_count_le_one] at larger ⊢
  intro connection
  have once := larger connection
  have fewer := outcome.count_le counted connection
  have same := (tasks.filterMap Task.connection?).count_eq connection
  simp only [connections, pool, filterMap_append, count_append] at once same ⊢
  omega

/-- The pool never has more connections than it may, its total counts them and the creations in
progress, and no connection has two owners. -/
theorem connections_bounded_and_distinct (built : Built config idle) (distinct : idle.Nodup)
    (run : Runs config Fresh (initial idle) system) :
    system.pool.total ≤ config.maxSize ∧
      system.pool.total = system.pool.idle.length + system.tasks.countP Task.isLease +
        system.tasks.countP (¬ ·.isLease) ∧ system.connections.Nodup ∧
          system.connections.length ≤ config.maxSize := by
  obtain ⟨total, bounded⟩ := run.counted built.counted
  have fewer := @length_filterMap_le _ _ Task.connection? system.tasks
  have split := @length_eq_countP_add_countP _ Task.isLease system.tasks
  refine ⟨bounded, by omega, ?_, by rw [connections, length_append]; omega⟩
  clear total bounded fewer split
  induction run with
  | start => simpa [connections, initial] using distinct
  | next run fresh moved ih => exact nodup_step (run.counted built.counted) ih fresh moved

/-- Of two connections, one is idle and the other handed over to a waiter. -/
theorem connections_bounded_and_distinct_handOver : ∃ system :
    System Nat, Runs ⟨1, 2⟩ Fresh (initial [7]) system ∧
    system.tasks = [.slot 2 7, .lease 8] ∧ system.connections = [7, 8] ∧
      system.connections.Nodup := by
  have empty : Runs ⟨1, 2⟩ Fresh (initial [7]) (initial [7]) := .start
  have leased := empty.act (.acquire fun _ => false) nofun rfl
  have reserved := leased.act (.takeBlocking fun _ => false) nofun rfl
  have created := (reserved.act (.connected 8) (by unfold Fresh; decide) rfl).act
    (.acquired 8) nofun rfl
  have waiting := created.act (.acquire fun _ => false) nofun rfl
  have handed := waiting.act (.release 7 true) nofun rfl
  exact ⟨_, handed, rfl, rfl,
    (connections_bounded_and_distinct ⟨by decide, by decide, rfl⟩ (nodup_singleton 7) handed).2.2.1⟩

end System

end SpectraLang.Database

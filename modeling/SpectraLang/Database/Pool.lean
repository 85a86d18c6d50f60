import Mathlib.Data.List.Basic

/-! # The connection pool

`ConnectionPool` of `spectra-db`. Every locked section is one action on the state of the pool; what
callers, waiters and threads hold between the sections is a list of tasks. The clock, the factory
and the moments at which futures are dropped or time out are left open: an action says what they
did.
-/

namespace SpectraLang.Database

variable {γ : Type}

structure PoolConfig where
  minSize : Nat
  maxSize : Nat

/-- `State`; the queue names waiters by their identifiers. -/
structure PoolState (γ : Type) where
  idle : List γ
  waiters : List Nat
  total : Nat
  checkedOut : Nat
  closed : Bool

/-- `TakeResult`. -/
inductive TakeResult (γ : Type) where
  | idle (connection : γ)
  | reserved
  | unavailable

namespace PoolState

/-- `reap_idle`: connections idle for too long are closed, down to the minimal size. -/
def reapIdle (minSize : Nat) (expired : γ → Bool) : List γ → Nat → List γ × Nat
  | [], total => ([], total)
  | connection :: idle, total =>
    if ¬ expired connection ∨ total ≤ minSize then (connection :: idle, total) else reapIdle minSize
      expired idle (total - 1)

/-- `take_idle_or_reserve`, also the start of `begin_async_acquire`; nothing if the pool is
closed. -/
def takeIdleOrReserve (config : PoolConfig) (expired : γ → Bool) (state : PoolState γ) :
    Option (TakeResult γ × PoolState γ) :=
  if state.closed then none
  else
    match reapIdle config.minSize expired state.idle state.total with
    | (connection :: idle, total) =>
      some (.idle connection, { state with idle, total, checkedOut := state.checkedOut + 1 })
    | ([], total) =>
      if total < config.maxSize then
        some (.reserved,
          { state with idle := [], total := total + 1, checkedOut := state.checkedOut + 1 })
      else some (.unavailable, { state with idle := [], total })

/-- `pop_live_waiter`. -/
def popLiveWaiter (cancelled : Nat → Bool) : List Nat → Option Nat × List Nat
  | [] => (none, [])
  | waiter :: waiters =>
    if cancelled waiter then popLiveWaiter cancelled waiters else (some waiter, waiters)

/-- `release_raw`, with the waiter that gets the connection; `valid` is what the caller and the
factory say. -/
def releaseRaw (cancelled : Nat → Bool) (valid : Bool) (connection : γ) (state : PoolState γ) :
    PoolState γ × Option Nat :=
  let state := { state with checkedOut := state.checkedOut - 1 }
  if state.closed ∨ ¬ valid then ({ state with total := state.total - 1 }, none)
  else
    match popLiveWaiter cancelled state.waiters with
    | (some waiter, waiters) => ({ state with waiters }, some waiter)
    | (none, waiters) => ({ state with waiters, idle := state.idle ++ [connection] }, none)

/-- `mark_creation_failed`, also the end of a failed creation thread. -/
def markCreationFailed (state : PoolState γ) : PoolState γ :=
  { state with total := state.total - 1, checkedOut := state.checkedOut - 1 }

/-- The section of `deliver_connection` for a cancelled waiter. -/
def returnCreated (connection : γ) (state : PoolState γ) : PoolState γ :=
  { state with checkedOut := state.checkedOut - 1, idle := state.idle ++ [connection] }

/-- `remove_waiter`. -/
def removeWaiter (waiter : Nat) (state : PoolState γ) : PoolState γ :=
  { state with waiters := state.waiters.filter (· ≠ waiter) }

/-- The first section of `shutdown`. -/
def close (state : PoolState γ) : PoolState γ :=
  { state with closed := true, idle := [], total := state.total - state.idle.length, waiters := [] }

end PoolState

/-- What is going on outside the lock. -/
inductive Task (γ : Type) where
  /-- A `PooledConnection` in a caller's hands. -/
  | lease (connection : γ)
  /-- A `PooledConnection` in the result slot of a waiter. -/
  | slot (waiter : Nat) (connection : γ)
  /-- A blocking acquirer that has its connection but no lease yet. -/
  | acquiring (connection : γ)
  /-- A creation in progress, by a blocking acquirer or for a waiter. -/
  | connecting (target : Option Nat)
  /-- A creation thread that found its waiter cancelled. -/
  | returning (connection : γ)
  /-- A creation thread that found its waiter live. -/
  | delivering (waiter : Nat) (connection : γ)
deriving DecidableEq

structure System (γ : Type) where
  pool : PoolState γ
  tasks : List (Task γ)
  cancelled : Nat → Bool
  nextWaiter : Nat
  /-- The calls of `shutdown` that wait for the pool to become empty. -/
  shutdowns : Nat

inductive Action (γ : Type) where
  | takeBlocking (expired : γ → Bool)
  | connected (connection : γ)
  | acquired (connection : γ)
  | tooLate (connection : γ)
  | creationFailed (target : Option Nat)
  | acquire (expired : γ → Bool)
  | created (waiter : Nat) (connection : γ)
  | returned (connection : γ)
  | delivered (waiter : Nat) (connection : γ)
  | polled (waiter : Nat) (connection : γ)
  | release (connection : γ) (valid : Bool)
  | slotDropped (waiter : Nat) (connection : γ) (valid : Bool)
  | cancel (waiter : Nat)
  | removeWaiter (waiter : Nat)
  | shutdown
  | shutdownOk
  | shutdownTimeout

namespace System

/-- A connection given back: the tasks it leaves are the waiter it was handed to. -/
def giveBack (valid : Bool) (connection : γ) (system : System γ) : System γ × List (Task γ) :=
  let released := system.pool.releaseRaw system.cancelled valid connection
  ({ system with pool := released.1 }, released.2.toList.map (.slot · connection))

/-- The task an action ends, the state behind it and the tasks it starts. -/
def effect (config : PoolConfig) (system : System γ) :
    Action γ → Option (Option (Task γ) × System γ × List (Task γ))
  | .takeBlocking expired => (system.pool.takeIdleOrReserve config expired).map fun
    | (.idle connection, pool) => (none, { system with pool }, [.acquiring connection])
    | (.reserved, pool) => (none, { system with pool }, [.connecting none])
    | (.unavailable, pool) => (none, { system with pool }, [])
  | .connected connection => some (some (.connecting none), system, [.acquiring connection])
  | .acquired connection => some (some (.acquiring connection), system, [.lease connection])
  | .tooLate connection => some (some (.acquiring connection), system.giveBack false connection)
  | .creationFailed target =>
    some (some (.connecting target), { system with pool := system.pool.markCreationFailed }, [])
  | .acquire expired => (system.pool.takeIdleOrReserve config expired).map fun
    | (.idle connection, pool) =>
      (none, { system with pool, nextWaiter := system.nextWaiter + 1 }, [.lease connection])
    | (.reserved, pool) =>
      (none, { system with pool, nextWaiter := system.nextWaiter + 1 },
        [.connecting (some system.nextWaiter)])
    | (.unavailable, pool) =>
      let pool := { pool with waiters := pool.waiters ++ [system.nextWaiter] }
      (none, { system with pool, nextWaiter := system.nextWaiter + 1 }, [])
  | .created waiter connection => some (some (.connecting (some waiter)), system,
      [if system.cancelled waiter then .returning connection else .delivering waiter connection])
  | .returned connection =>
    some (some (.returning connection),
      { system with pool := system.pool.returnCreated connection }, [])
  | .delivered waiter connection =>
    some (some (.delivering waiter connection), system, [.slot waiter connection])
  | .polled waiter connection => some (some (.slot waiter connection), system, [.lease connection])
  | .release connection valid => some (some (.lease connection), system.giveBack valid connection)
  | .slotDropped waiter connection valid =>
    some (some (.slot waiter connection), system.giveBack valid connection)
  | .cancel waiter =>
    some (none, { system with cancelled := fun other => other == waiter || system.cancelled other },
      [])
  | .removeWaiter waiter => some (none, { system with pool := system.pool.removeWaiter waiter }, [])
  | .shutdown =>
    some (none, { system with pool := system.pool.close, shutdowns := system.shutdowns + 1 }, [])
  | .shutdownOk =>
    if system.shutdowns ≠ 0 ∧ system.pool.checkedOut = 0 then
      some (none, { system with shutdowns := system.shutdowns - 1 }, [])
    else none
  | .shutdownTimeout =>
    if system.shutdowns ≠ 0 then some (none, { system with shutdowns := system.shutdowns - 1 },
      []) else none

variable [DecidableEq γ]

def step (config : PoolConfig) (system : System γ) (action : Action γ) : Option (System γ) :=
  match system.effect config action with
  | none => none
  | some (none, after, started) => some { after with tasks := started ++ system.tasks }
  | some (some task, after, started) =>
    if task ∈ system.tasks then some { after with tasks := started ++ system.tasks.erase task } else
      none

/-- A pool as `ConnectionPool::new` leaves it. -/
def initial (idle : List γ) : System γ where
  pool := { idle, waiters := [], total := idle.length, checkedOut := 0, closed := false }
  tasks := []
  cancelled _ := false
  nextWaiter := 1
  shutdowns := 0

/-- The states that runs of actions with the property lead to. -/
inductive Runs (config : PoolConfig) (allowed : System γ → Action γ → Prop) (first : System γ) :
    System γ → Prop where
  | start : Runs config allowed first first
  | next {system after : System γ} {action : Action γ} (run : Runs config allowed first system)
      (condition : allowed system action) (moved : system.step config action = some after) :
        Runs config allowed first after

end System

end SpectraLang.Database

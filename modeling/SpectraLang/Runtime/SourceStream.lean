import Mathlib.Data.List.Induction

/-! # Source streams

A stream buffers the values that are pushed. A call of `next` takes one, or leaves a task that the
next value completes; tasks are named by the order of these calls. A task cancelled while it waits
stays in the queue, and the value pushed for it is lost.
-/

namespace SpectraLang.SourceStream

open List

structure AsyncTask where
  value : Int64
  completed : Bool
  cancelled : Bool := false

/-- One stream and the tasks of its `next` calls. -/
structure Registry where
  capacity : Nat
  tasks : List AsyncTask := []
  buffer : List Int64 := []
  pendingNext : List Nat := []
  done : Bool := false

inductive AsyncStreamPull where
  | item (value : Int64)
  | done
  | pending

/-- What `complete_task` makes of the task. -/
def AsyncTask.complete (value : Int64) (task : AsyncTask) : AsyncTask :=
  if task.cancelled then task else { task with value, completed := true }

namespace Registry

def completeTask (registry : Registry) (task : Nat) (value : Int64) : Registry :=
  { registry with tasks := registry.tasks.modify task (·.complete value) }

def cancelTask (registry : Registry) (task : Nat) : Registry :=
  { registry with tasks := registry.tasks.modify task ({ · with cancelled := true }) }

def pullStreamValue (registry : Registry) : AsyncStreamPull × Registry :=
  match registry.buffer with
  | value :: buffer => (.item value, { registry with buffer })
  | [] => (if registry.done then .done else .pending, registry)

/-- The loop of `drive_stream_pending` over the waiting tasks. -/
def driveStreamPending : List Nat → Registry → Registry
  | [], registry => registry
  | task :: pendingNext, registry =>
    match registry.pullStreamValue with
    | (.item value, pulled) =>
      driveStreamPending pendingNext ({ pulled with pendingNext }.completeTask task value)
    | (.done, pulled) =>
      driveStreamPending pendingNext ({ pulled with pendingNext }.completeTask task (-1))
    | (.pending, pulled) => pulled

/-- `drive_streams`: a second pass over the stream makes no progress. -/
def driveStreams (registry : Registry) : Registry :=
  driveStreamPending registry.pendingNext registry

def pushStreamValue (registry : Registry) (value : Int64) : Int × Registry :=
  if registry.done then (-1, registry)
  else
    match registry.pendingNext with
    | task :: pendingNext =>
      (1, ({ registry with pendingNext }.completeTask task value).driveStreams)
    | [] =>
      if registry.capacity ≤ registry.buffer.length then (0, registry)
      else (1, { registry with buffer := registry.buffer ++ [value] }.driveStreams)

def markStreamDone (registry : Registry) : Registry := { registry with done := true }.driveStreams

/-- `std_async_stream_next`. -/
def next (registry : Registry) : Registry :=
  match registry.pullStreamValue with
  | (.item value, pulled) => { pulled with tasks := pulled.tasks ++ [⟨value, true, false⟩] }
  | (.done, pulled) => { pulled with tasks := pulled.tasks ++ [⟨-1, true, false⟩] }
  | (.pending, pulled) =>
    { pulled with
      tasks := pulled.tasks ++ [⟨0, false, false⟩], pendingNext :=
        pulled.pendingNext ++ [pulled.tasks.length] }

end Registry

inductive Operation where
  | push (value : Int64)
  | done
  | next
  | cancel (task : Nat)

/-- The registry with the values whose push returned 1. -/
structure History where
  registry : Registry
  accepted : List Int64

def History.step (history : History) : Operation → History
  | .push value =>
    let (status, registry) := history.registry.pushStreamValue value
    ⟨registry, if status = 1 then history.accepted ++ [value] else history.accepted⟩
  | .done => { history with registry := history.registry.markStreamDone }
  | .next => { history with registry := history.registry.next }
  | .cancel task => { history with registry := history.registry.cancelTask task }

/-- The values of the completed tasks, in the order of the calls of `next`. -/
def results (tasks : List AsyncTask) : List Int64 := (tasks.filter (·.completed)).map (·.value)

/-- The results and then the buffer are the accepted values; only at the end of the stream do end
marks follow. -/
structure History.Delivers (history : History) : Prop where
  values : ∃ ended, results history.registry.tasks ++ history.registry.buffer = history.accepted ++
    replicate ended (-1) ∧ (ended ≠ 0 → history.registry.done = true ∧ history.registry.buffer = [])
  inOrder : history.registry.tasks.Pairwise fun earlier later =>
    later.completed = true → earlier.completed = true ∨ earlier.cancelled = true
  bounded : history.registry.buffer.length ≤ history.registry.capacity

/-- A task that is not cancelled waits for a value. -/
def Registry.Waits (registry : Registry) : Prop :=
  ∃ task ∈ registry.tasks, task.completed = false ∧ task.cancelled = false

/-- No task is cancelled while it waits, and a stream that has ended has room at a push. -/
def Registry.Timely (registry : Registry) : Operation → Prop
  | .cancel task => task ∉ registry.pendingNext
  | .push _ => registry.done = true → registry.buffer.length < registry.capacity
  | _ => True

inductive Reached (capacity : Nat) : History → Prop where
  | start : Reached capacity ⟨{ capacity }, []⟩
  | step {history : History} (reached : Reached capacity history) (operation : Operation)
      (timely : history.registry.Timely operation) : Reached capacity (history.step operation)

/-- A task of a `next` call that found nothing. -/
def unserved : AsyncTask := ⟨0, false, false⟩

/-- The tasks are completed but for the last ones, which wait, and nothing is buffered while there
are any. -/
structure Shape (history : History) (served : List AsyncTask) (waiting ended : Nat) : Prop where
  tasks : history.registry.tasks = served ++ replicate waiting unserved
  pending : history.registry.pendingNext = range' served.length waiting
  quiet : waiting ≠ 0 → history.registry.buffer = [] ∧ history.registry.done = false
  completed : ∀ task ∈ served, task.completed = true
  values : served.map (·.value) ++ history.registry.buffer = history.accepted ++ replicate ended
    (-1)
  marked : ended ≠ 0 → history.registry.done = true ∧ history.registry.buffer = []
  bounded : history.registry.buffer.length ≤ history.registry.capacity

variable {history : History} {served : List AsyncTask} {waiting ended : Nat}

theorem Shape.delivers (shape : Shape history served waiting ended) : history.Delivers := by
  refine ⟨⟨ended, ?_, shape.marked⟩, ?_, shape.bounded⟩
  · have all : served.filter (·.completed) = served := filter_eq_self.mpr shape.completed
    rw [← shape.values, results, shape.tasks, filter_append, all]
    simp [unserved]
  · rw [shape.tasks, pairwise_append]
    exact ⟨pairwise_of_forall_mem_list fun earlier done _ _ _ =>
      .inl (shape.completed earlier done),
      pairwise_replicate.mpr (.inr nofun), fun earlier done _ _ _ =>
        .inl (shape.completed earlier done)⟩

theorem complete_first (served : List AsyncTask) (waiting : Nat) (value : Int64) :
    (served ++ replicate (waiting + 1) unserved).modify served.length (·.complete value) =
      served ++ [⟨value, true, false⟩] ++ replicate waiting unserved := by
  simp [modify_eq_take_drop, replicate_succ, AsyncTask.complete, unserved]

variable {capacity : Nat} {buffer : List Int64}

/-- At the end of the stream all waiting tasks are completed. -/
theorem driveStreamPending_done (empty : waiting ≠ 0 → buffer = []) :
    Registry.driveStreamPending (range' served.length waiting)
      ⟨capacity, served ++ replicate waiting unserved, buffer, range' served.length waiting, true⟩ =
        ⟨capacity, served ++ replicate waiting ⟨-1, true, false⟩, buffer, [], true⟩ := by
  induction waiting generalizing served with
  | zero => simp [Registry.driveStreamPending]
  | succ waiting ih =>
    obtain rfl := empty nofun
    simp only [range'_succ, Registry.driveStreamPending, Registry.pullStreamValue,
      Registry.completeTask, if_true]
    have longer : served.length + 1 = (served ++ [⟨-1, true, false⟩] : List AsyncTask).length := by
      simp
    rw [complete_first, longer, ih fun _ => rfl]
    simp [replicate_succ]

theorem driveStreams_quiet {tasks : List AsyncTask} {pendingNext : List Nat} :
    Registry.driveStreams ⟨capacity, tasks, [], pendingNext, false⟩ =
      ⟨capacity, tasks, [], pendingNext, false⟩ := by
  cases pendingNext <;> rfl

theorem Shape.step (shape : Shape history served waiting ended) {operation : Operation}
    (timely : history.registry.Timely operation) :
    ∃ served waiting ended, Shape (history.step operation) served waiting ended := by
  obtain ⟨⟨capacity, tasks, buffer, pendingNext, over'⟩, accepted⟩ := history
  obtain ⟨rfl, rfl, quiet, completed, values, marked, bounded⟩ := shape
  dsimp only at *
  cases operation with
  | push value =>
    simp only [History.step, Registry.pushStreamValue]
    cases over' with
    | true => exact ⟨served, waiting, ended, rfl, rfl, quiet, completed, values, marked, bounded⟩
    | false =>
      obtain rfl : ended = 0 := by grind
      cases waiting with
      | zero =>
        by_cases full : capacity ≤ buffer.length
        · refine ⟨served, 0, 0, ?_⟩
          constructor <;> grind
        · refine ⟨served, 0, 0, ?_⟩
          constructor <;> grind [Registry.driveStreams, Registry.driveStreamPending]
      | succ waiting =>
        obtain ⟨rfl, -⟩ := quiet nofun
        refine ⟨served ++ [⟨value, true, false⟩], waiting, 0, ?_⟩
        simp only [range'_succ, Registry.completeTask, complete_first]
        rw [driveStreams_quiet]
        constructor <;> grind
  | done =>
    refine ⟨served ++ replicate waiting ⟨-1, true, false⟩, 0, ended + waiting, ?_⟩
    simp only [History.step, Registry.markStreamDone, Registry.driveStreams]
    rw [driveStreamPending_done fun some => (quiet some).1]
    constructor <;> simp
    all_goals grind
  | next =>
    simp only [History.step, Registry.next, Registry.pullStreamValue]
    rcases buffer with - | ⟨value, buffer⟩
    · cases over' with
      | true =>
        refine ⟨served ++ [⟨-1, true, false⟩], 0, ended + 1, ?_⟩
        obtain rfl : waiting = 0 := by grind
        constructor <;> grind [replicate_succ']
      | false =>
        refine ⟨served, waiting + 1, 0, ?_⟩
        constructor <;> grind [replicate_succ', range'_concat, unserved]
    · refine ⟨served ++ [⟨value, true, false⟩], 0, 0, ?_⟩
      obtain rfl : waiting = 0 := by grind
      obtain rfl : ended = 0 := by grind
      constructor <;> grind
  | cancel index =>
    have early : index ∉ range' served.length waiting := timely
    refine ⟨served.modify index ({ · with cancelled := true }), waiting, ended, ?_⟩
    simp only [History.step, Registry.cancelTask]
    refine ⟨?_, by simp, quiet, fun task member => ?_, ?_, marked, bounded⟩
    · ext1 place
      simp only [getElem?_modify, getElem?_append, length_modify]
      grind
    · obtain ⟨place, found⟩ := mem_iff_getElem?.mp member
      rw [getElem?_modify] at found
      grind
    · rw [← values]
      congr 1
      ext1 place
      simp only [getElem?_modify, getElem?_map]
      grind

theorem Reached.shape (reached : Reached capacity history) :
    ∃ served waiting ended, Shape history served waiting ended := by
  induction reached with
  | start => exact ⟨[], 0, 0, rfl, rfl, absurd rfl, nofun, rfl, absurd rfl, Nat.zero_le _⟩
  | step _ _ timely ih =>
    obtain ⟨served, waiting, ended, shape⟩ := ih
    exact shape.step timely

/-- Accepted values are delivered once and in order, and a push is refused exactly for want of
room. -/
theorem delivers_of_reached (reached : Reached capacity history) : history.Delivers ∧ ∀ value,
    history.registry.Timely (.push value) → ((history.registry.pushStreamValue value).1 = 0 ↔
      ¬ history.registry.Waits ∧ history.registry.capacity ≤ history.registry.buffer.length) := by
  obtain ⟨served, waiting, ended, shape⟩ := reached.shape
  refine ⟨shape.delivers, fun value timely => ?_⟩
  have waits : history.registry.Waits ↔ waiting ≠ 0 := by
    simp only [Registry.Waits, shape.tasks, mem_append, mem_replicate]
    constructor
    · rintro ⟨task, done | ⟨some, -⟩, open', -⟩
      · rw [shape.completed task done] at open'
        cases open'
      · exact some
    · exact fun some => ⟨unserved, .inr ⟨some, rfl⟩, rfl, rfl⟩
  rw [waits, Registry.pushStreamValue]
  by_cases over' : history.registry.done = true
  · have room := timely over'
    simp [over', room]
  · rw [if_neg over', shape.pending]
    cases waiting with
    | zero =>
      by_cases full : history.registry.capacity ≤ history.registry.buffer.length <;> simp [full]
    | succ waiting => simp [range'_succ]

/-- The operations one after another on a new stream. -/
def run (capacity : Nat) (operations : List Operation) : History :=
  operations.foldl History.step ⟨{ capacity }, []⟩

theorem delivers_of_reached_cancelled : ∃ history, Reached 1 history ∧ history.accepted = [7, 8] ∧
    history.Delivers := by
  have reached : Reached 1 (run 1 [.next, .push 7, .cancel 0, .push 8]) :=
    (((Reached.start.step .next trivial).step (.push 7) nofun).step (.cancel 0) nofun).step
      (.push 8) nofun
  exact ⟨_, reached, rfl, (delivers_of_reached reached).1⟩

/-- The value goes to the task that was cancelled while it waited. -/
theorem not_delivers_cancelled : (run 1 [.next, .cancel 0, .push 7]).accepted = [7] ∧
    ¬ (run 1 [.next, .cancel 0, .push 7]).Delivers := by
  refine ⟨rfl, fun delivers => ?_⟩
  obtain ⟨ended, same, -⟩ := delivers.values
  cases same

/-- Who still waits is in the queue. -/
def Registry.Queued (registry : Registry) : Prop :=
  ∀ (index : Nat) (task : AsyncTask), registry.tasks[index]? = some task → task.completed = false →
    task.cancelled = false → index ∈ registry.pendingNext

/-- Beyond that, nobody is queued beside a buffered value or at the end of the stream. -/
structure Registry.Attended (registry : Registry) : Prop where
  queued : registry.Queued
  quiet : registry.pendingNext ≠ [] → registry.buffer = [] ∧ registry.done = false

variable {registry : Registry}

theorem Registry.Queued.completeTask {first : Nat} {rest : List Nat} (queued : registry.Queued)
    (found : registry.pendingNext = first :: rest) (value : Int64) :
    ({ registry with pendingNext := rest }.completeTask first value).Queued := by
  intro index task present unfinished live
  simp only [Registry.completeTask, getElem?_modify] at present
  by_cases same : first = index
  · simp only [same, if_true, Option.map_eq_map, Option.map_eq_some_iff] at present
    obtain ⟨old, -, rfl⟩ := present
    unfold AsyncTask.complete at unfinished live
    split_ifs at unfinished live with gone
    exact absurd (live.symm.trans gone) nofun
  · have waits := queued index task (by simpa [same] using present) unfinished live
    rw [found, mem_cons] at waits
    exact waits.resolve_left (Ne.symm same)

/-- At the end of the stream nobody stays in the queue. -/
theorem Registry.Queued.driveStreamPending {pendingNext : List Nat} (queued : registry.Queued)
    (found : registry.pendingNext = pendingNext) (over' : registry.done = true)
      (empty : registry.buffer = []) :
    (driveStreamPending pendingNext registry).Attended := by
  induction pendingNext generalizing registry with
  | nil => exact ⟨queued, fun some => absurd found some⟩
  | cons first rest ih =>
    have ended : registry.pullStreamValue = (.done, registry) := by
      simp [pullStreamValue, empty, over']
    simp only [Registry.driveStreamPending, ended]
    exact ih (queued.completeTask found (-1)) rfl over' empty

theorem Registry.Attended.step {history : History} (attended : history.registry.Attended)
    (operation : Operation) : (history.step operation).registry.Attended := by
  obtain ⟨registry, accepted⟩ := history
  obtain ⟨queued, quiet⟩ := attended
  obtain ⟨capacity, tasks, buffer, pendingNext, over'⟩ := registry
  dsimp only at queued quiet
  cases operation with
  | push value =>
    simp only [History.step, Registry.pushStreamValue]
    cases over' with
    | true => exact ⟨queued, quiet⟩
    | false =>
      rcases pendingNext with - | ⟨first, rest⟩
      · by_cases full : capacity ≤ buffer.length
        · simpa [full] using ⟨queued, quiet⟩
        · simpa [full, Registry.driveStreams, Registry.driveStreamPending] using
            (⟨queued, fun some => absurd rfl some⟩ :
              Registry.Attended ⟨capacity, tasks, buffer ++ [value], [], false⟩)
      · obtain ⟨rfl, -⟩ := quiet nofun
        simp only [Registry.completeTask, driveStreams_quiet]
        exact ⟨queued.completeTask rfl value, fun _ => ⟨rfl, rfl⟩⟩
  | done =>
    simp only [History.step, Registry.markStreamDone, Registry.driveStreams]
    rcases pendingNext with - | ⟨first, rest⟩
    · exact ⟨queued, fun some => absurd rfl some⟩
    · exact Registry.Queued.driveStreamPending queued rfl rfl (quiet nofun).1
  | next =>
    simp only [History.step, Registry.next, Registry.pullStreamValue]
    have served (value : Int64) (buffer : List Int64) :
        Registry.Queued ⟨capacity, tasks ++ [⟨value, true, false⟩], buffer, pendingNext,
          over'⟩ := by
      intro index task present unfinished live
      grind [Registry.Queued]
    rcases buffer with - | ⟨value, buffer⟩
    · cases over' with
      | true => exact ⟨served _ _, quiet⟩
      | false =>
        refine ⟨fun index task present unfinished live => ?_, fun _ => ⟨rfl, rfl⟩⟩
        grind [Registry.Queued]
    · exact ⟨served _ _, fun some => absurd (quiet some).1 nofun⟩
  | cancel cancelled =>
    refine ⟨fun index task present unfinished live => ?_, quiet⟩
    simp only [History.step, Registry.cancelTask, getElem?_modify] at present ⊢
    grind [Registry.Queued]

theorem attended_run (capacity : Nat) (operations : List Operation) :
    (run capacity operations).registry.Attended := by
  induction operations using List.reverseRecOn with
  | nil => exact ⟨nofun, fun some => absurd rfl some⟩
  | append_singleton operations operation ih =>
    rw [run, foldl_append]
    exact ih.step operation

/-- No task waits beside a buffered value or at a stream that has ended. -/
theorem waits_of_run (capacity : Nat) (operations : List Operation)
    (waits : (run capacity operations).registry.Waits) :
    (run capacity operations).registry.buffer = [] ∧ (run capacity operations).registry.done =
      false := by
  have attended := attended_run capacity operations
  obtain ⟨task, member, unfinished, live⟩ := waits
  obtain ⟨index, present⟩ := mem_iff_getElem?.mp member
  exact attended.quiet (ne_nil_of_mem (attended.queued index task present unfinished live))

/-- One of two waiting calls is cancelled, a buffered value is taken, and the last call waits. -/
theorem waits_of_run_cancelled :
    (run 2 [.next, .next, .cancel 0, .push 7, .push 8, .push 9, .next, .next]).accepted =
      [7, 8, 9] ∧
      (run 2 [.next, .next, .cancel 0, .push 7, .push 8, .push 9, .next, .next]).registry.buffer =
        [] :=
  ⟨rfl, (waits_of_run _ _ ⟨unserved, mem_of_getElem? (i := 3) rfl, rfl, rfl⟩).1⟩

end SpectraLang.SourceStream

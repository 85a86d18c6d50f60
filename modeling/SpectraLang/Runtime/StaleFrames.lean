import SpectraLang.Runtime.ManualLifetimes

/-! # Frame identifiers across a clear

A clear empties the table at once, but a thread notices only when it uses its stack again, by
comparing generations. To a thread this is the same as losing all frames at the clear, until the
generation has wrapped around. Identifiers start over as well, so one from before the clear may name
a frame opened since.
-/

open Function

namespace SpectraLang

/-- The next identifier and the frames of one thread, which a clear closes at once. -/
structure OpenFrames where
  nextFrame : Nat
  frames : List Nat

namespace OpenFrames

variable {θ : Type} [DecidableEq θ]

def advance (thread : θ) (current : OpenFrames) : ManualOperation θ → OpenFrames
  | .frameEnter entering =>
    ⟨max ((current.nextFrame + 1) % 2 ^ 64) 1,
      if entering = thread then current.nextFrame :: current.frames else current.frames⟩
  | .frameExit exiting frameId =>
    if exiting = thread then { current with frames :=
      ((closeFrames frameId current.frames).map Prod.snd).getD current.frames }
    else current
  | .clear => ⟨1, []⟩
  | _ => current

/-- The frames the thread has entered since the latest clear and not left. -/
def after (thread : θ) (operations : List (ManualOperation θ)) : OpenFrames :=
  operations.foldl (advance thread) ⟨1, []⟩

end OpenFrames

namespace FrameRuntime

variable {θ : Type} [DecidableEq θ] {state : FrameRuntime θ} {thread : θ} {clears : Nat}
  {current : OpenFrames}

/-- After `clears` clears the stack of the thread, as it will be reconciled, is the one without
delay. -/
structure Follows (thread : θ) (clears : Nat) (state : FrameRuntime θ) (current : OpenFrames) :
    Prop where
  nextFrame : state.table.nextFrame = current.nextFrame
  generation : state.table.generation = clears
  seen : (state.threadStacks thread).generation ≤ clears
  frames : state.threadFrames thread = current.frames

section
variable (follows : Follows thread clears state current)
include follows

variable {changed : FrameRuntime θ}

omit [DecidableEq θ] in
theorem Follows.of_counters
    (counters : changed.table.nextFrame = state.table.nextFrame ∧
      changed.table.generation = state.table.generation)
    (frames : changed.threadStacks thread = state.threadStacks thread) :
      Follows thread clears changed current := by
  refine ⟨counters.1.trans follows.nextFrame,
    counters.2.trans follows.generation, by rw [frames]; exact follows.seen, ?_⟩
  rw [← follows.frames, threadFrames, threadFrames, frames, counters.2]

/-- The thread has used its stack. -/
theorem Follows.of_used {frames : List Nat}
    (counters : changed.table.nextFrame = state.table.nextFrame ∧
      changed.table.generation = state.table.generation)
    (used : changed.threadStacks = update state.threadStacks thread
      ⟨state.table.generation, frames⟩) :
    Follows thread clears changed { current with frames := frames } := by
  refine ⟨counters.1.trans follows.nextFrame, counters.2.trans follows.generation, ?_, ?_⟩
  · rw [used, update_self]
    exact follows.generation.le
  · rw [threadFrames, used, update_self, counters.2, if_pos rfl]

theorem Follows.frameEnter (entering : θ) :
    Follows thread clears (state.frameEnter entering).2
      (current.advance thread (.frameEnter entering)) := by
  have issued : (state.frameEnter entering).2.table.nextFrame = max
    ((current.nextFrame + 1) % 2 ^ 64) 1 := by
    rw [← follows.nextFrame]
    rfl
  by_cases same : entering = thread
  · subst same
    refine ⟨by simpa [OpenFrames.advance] using issued, follows.generation, ?_, ?_⟩
    · simp only [FrameRuntime.frameEnter, setThreadFrames, update_self]
      exact follows.generation.le
    · rw [OpenFrames.advance, if_pos rfl, ← follows.frames, ← follows.nextFrame]
      simp only [FrameRuntime.frameEnter, setThreadFrames, threadFrames, update_self, if_true]
      rfl
  · have unchanged : (state.frameEnter entering).2.threadStacks thread = state.threadStacks
      thread :=
      update_of_ne (Ne.symm same) ..
    refine ⟨by simpa [OpenFrames.advance] using issued, follows.generation, by
      rw [unchanged]; exact follows.seen, ?_⟩
    rw [OpenFrames.advance, if_neg same, ← follows.frames, threadFrames, threadFrames, unchanged]
    rfl

theorem Follows.frameExit (exiting : θ) (frameId : Nat) :
    Follows thread clears (state.frameExit exiting frameId)
      (current.advance thread (.frameExit exiting frameId)) := by
  have parts : ∃ frames, (state.frameExit exiting frameId).threadStacks =
        update state.threadStacks exiting ⟨state.table.generation, frames⟩ ∧
      frames = ((closeFrames frameId (state.threadFrames exiting)).map Prod.snd).getD
        (state.threadFrames exiting) ∧
      (state.frameExit exiting frameId).table.nextFrame = state.table.nextFrame ∧
      (state.frameExit exiting frameId).table.generation = state.table.generation := by
    unfold FrameRuntime.frameExit
    cases split : closeFrames frameId (state.threadFrames exiting) with
    | none => exact ⟨_, rfl, rfl, rfl, rfl⟩
    | some parts => exact ⟨parts.2, rfl, rfl, state.table.foldl_drainFrame_counters parts.1⟩
  obtain ⟨frames, used, left, counters⟩ := parts
  by_cases same : exiting = thread
  · subst same
    rw [OpenFrames.advance, if_pos rfl, ← follows.frames, ← left]
    exact follows.of_used counters used
  · rw [OpenFrames.advance, if_neg same]
    exact follows.of_counters counters (by rw [used, update_of_ne (Ne.symm same)])

theorem Follows.manualAlloc (allocating : θ) (size : Nat) (address : I64) :
    Follows thread clears (state.manualAlloc allocating size address) current := by
  unfold FrameRuntime.manualAlloc
  split_ifs with empty
  · exact follows
  · by_cases same : allocating = thread
    · subst same
      have unchanged : { current with frames := state.threadFrames allocating } = current := by
        rw [follows.frames]
      rw [← unchanged]
      exact follows.of_used ⟨rfl, rfl⟩ rfl
    · exact follows.of_counters ⟨rfl, rfl⟩ (update_of_ne (Ne.symm same) ..)

omit [DecidableEq θ] in
theorem Follows.manualClear (few : clears + 1 < 2 ^ 64) :
    Follows thread (clears + 1) state.manualClear ⟨1, []⟩ := by
  have generation : state.manualClear.table.generation = clears + 1 := by
    simp only [FrameRuntime.manualClear, FrameTable.clearAll, follows.generation,
      Nat.mod_eq_of_lt few]
  refine ⟨rfl, generation, follows.seen.trans (Nat.le_succ clears), if_neg ?_⟩
  have seen : (state.manualClear.threadStacks thread).generation ≤ clears := follows.seen
  omega

/-- One operation, and the number of clears after it. -/
theorem Follows.step {operation : ManualOperation θ}
    (few : clears + [operation].count .clear < 2 ^ 64) :
    Follows thread (clears + [operation].count .clear) (state.step operation)
      (current.advance thread operation) := by
  cases operation with
  | frameEnter entering => exact follows.frameEnter entering
  | frameExit exiting frameId => exact follows.frameExit exiting frameId
  | alloc allocating size address => exact follows.manualAlloc allocating size address
  | free ptr =>
    change Follows thread clears (state.manualFree ptr) current
    unfold manualFree
    split_ifs
    · exact follows.of_counters ⟨rfl, rfl⟩ rfl
    · exact follows.of_counters (FrameTable.freeTracked_counters ..) rfl
  | escape ptr currentFrame =>
    change Follows thread clears (state.manualEscape ptr currentFrame) current
    unfold manualEscape
    split_ifs
    · exact follows
    · exact follows.of_counters (FrameTable.escapeAllocation_counters ..) rfl
  | escapeStored value =>
    change Follows thread clears (state.manualEscapeStored value) current
    unfold manualEscapeStored
    split_ifs
    · exact follows
    · exact follows.of_counters (FrameTable.escapeStoredAllocation_counters ..) rfl
  | clear => exact follows.manualClear few

end

theorem follows_run (thread : θ) {operations : List (ManualOperation θ)}
    (few : operations.count .clear < 2 ^ 64) :
    Follows thread (operations.count .clear) (run operations) (.after thread operations) := by
  induction operations using List.reverseRecOn with
  | nil => exact ⟨rfl, rfl, Nat.le_refl 0, rfl⟩
  | append_singleton operations operation ih =>
    rw [List.count_append] at few ⊢
    have follows := (ih (by omega)).step few
    simpa [run, OpenFrames.after] using follows

/-- The exit frees nothing and records an error. -/
def RefusesExit (state : FrameRuntime θ) (thread : θ) (frameId : Nat) : Prop :=
  (state.frameExit thread frameId).table.allocations = state.table.allocations ∧
    (state.frameExit thread frameId).lastFrameExitStatus = hostStatusInvalidArgument

theorem refusesExit_iff (state : FrameRuntime θ) (thread : θ) (frameId : Nat) :
    state.RefusesExit thread frameId ↔ frameId ∉ state.threadFrames thread := by
  rw [RefusesExit, ← closeFrames_eq_none, frameExit]
  cases closeFrames frameId (state.threadFrames thread) with
  | none => simp [setThreadFrames]
  | some parts => simp [hostStatusSuccess, hostStatusInvalidArgument]

/-- The identifier was returned by an enter that a clear has followed. -/
def Stale (operations : List (ManualOperation θ)) (frameId : Nat) : Prop :=
  ∃ first entering rest, first ++ .frameEnter entering :: rest = operations ∧
    ((run first).frameEnter entering).1 = frameId ∧ .clear ∈ rest

/-- Exits with stale identifiers are refused throughout the run. -/
def RefusesStale (operations : List (ManualOperation θ)) : Prop :=
  ∀ before thread frameId, before ++ [.frameExit thread frameId] <+: operations →
    Stale before frameId → (run before).RefusesExit thread frameId

/-- No exit with a stale identifier names a frame its thread has entered since the latest clear. -/
def NotReopened (operations : List (ManualOperation θ)) : Prop :=
  ∀ before thread frameId, before ++ [.frameExit thread frameId] <+: operations →
    Stale before frameId → frameId ∉ (OpenFrames.after thread before).frames

theorem refusesStale_iff_notReopened {operations : List (ManualOperation θ)}
    (few : operations.count .clear < 2 ^ 64) :
    RefusesStale operations ↔ NotReopened operations := by
  refine forall₃_congr fun before thread frameId => forall₂_congr fun initial' _ => ?_
  have fewBefore : before.count .clear < 2 ^ 64 :=
    (((List.prefix_append before _).trans initial').sublist.count_le _).trans_lt few
  rw [refusesExit_iff, (follows_run thread fewBefore).frames]

/-- A thread leaves the frame it entered before the clear. -/
theorem refusesStale_abandoned :
    [ManualOperation.frameEnter true, .clear, .frameExit true 1].count .clear < 2 ^ 64 ∧
      (RefusesStale [ManualOperation.frameEnter true, .clear, .frameExit true 1] ↔
        NotReopened [ManualOperation.frameEnter true, .clear, .frameExit true 1]) :=
  ⟨by decide, refusesStale_iff_notReopened (by decide)⟩

/-- The thread enters frame 1 again after the clear; the exit meant for the first one frees the new
allocation. -/
theorem not_refusesStale_reentered :
    ¬ RefusesStale [ManualOperation.frameEnter true, .clear, .frameEnter true, .alloc true 16 64,
      .frameExit true 1] := by
  intro refuses
  have stale : Stale [ManualOperation.frameEnter true, .clear, .frameEnter true, .alloc true 16 64]
    1 :=
    ⟨[], true, [.clear, .frameEnter true, .alloc true 16 64], rfl, rfl, by simp⟩
  obtain ⟨unchanged, -⟩ := refuses _ true 1 (List.prefix_refl _) stale
  have freed :
    ((run [ManualOperation.frameEnter true, .clear, .frameEnter true, .alloc true 16 64]).frameExit
    true 1).table.allocations 64 = none := by decide
  rw [unchanged] at freed
  cases freed

end FrameRuntime

end SpectraLang

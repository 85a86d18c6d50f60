import SpectraLang.Runtime.ManualFrames

/-! # How long manual allocations live

An allocation is followed through the operations of any threads: it belongs to the innermost frame
of the allocating thread until it is freed, until that thread leaves the frame or one it opened
before, or until it is moved to the base frame, from where only a free removes it. The table agrees
as long as an identifier is not issued again while its frame is open.
-/

open Function

namespace SpectraLang

open List FrameTable ManualFrame

/-- What holds an allocation: a frame of its thread with the open frames below it, the base frame,
or nothing. -/
inductive Lifetime where
  | framed (frame : Nat) (older : List Nat)
  | based
  | ended
deriving DecidableEq

namespace Lifetime

variable {θ : Type} [DecidableEq θ]

/-- The lifetime of an allocation by a thread with these open frames, innermost first. -/
def start : List Nat → Lifetime
  | [] => based
  | frame :: older => framed frame older

/-- What an operation does to the lifetime of the allocation of `thread` at `ptr`. -/
def advance (thread : θ) (ptr : I64) : Lifetime → ManualOperation θ → Lifetime
  | framed frame older, .free freed => if freed = ptr then ended else framed frame older
  | framed frame older, .frameExit exiting frameId =>
    if exiting = thread ∧ frameId ∈ frame :: older then ended else framed frame older
  | framed frame older, .escape escaped currentFrame =>
    if escaped = ptr ∧ currentFrame = frame then based else framed frame older
  | framed frame older, .escapeStored value => if value = ptr then based else framed frame older
  | based, .free freed => if freed = ptr then ended else based
  | lifetime, _ => lifetime

/-- The lifetime after a sequence of operations. -/
def after (thread : θ) (ptr : I64) (lifetime : Lifetime) (operations : List (ManualOperation θ)) :
    Lifetime :=
  operations.foldl (advance thread ptr) lifetime

theorem after_ended (thread : θ) (ptr : I64) (operations : List (ManualOperation θ)) :
    after thread ptr ended operations = ended := by
  induction operations with
  | nil => rfl
  | cons operation rest ih => exact ih

end Lifetime

variable {frameId : Nat}

theorem closeFrames_eq_some {frames closed remaining : List Nat}
    (split : closeFrames frameId frames = some (closed, remaining)) :
    ∃ upper, frames = upper ++ frameId :: remaining ∧ closed = frameId :: upper.reverse := by
  induction frames generalizing closed with
  | nil => cases split
  | cons top rest ih =>
    by_cases same : top = frameId
    · obtain ⟨rfl, rfl⟩ : [top] = closed ∧ rest = remaining := by
        simpa [closeFrames, same] using split
      exact ⟨[], by simp [same]⟩
    · obtain ⟨inner, split', rfl⟩ : ∃ inner, closeFrames frameId rest = some (inner, remaining) ∧
        inner ++ [top] = closed := by
        simpa [closeFrames, same] using split
      obtain ⟨upper, rfl, rfl⟩ := ih split'
      exact ⟨top :: upper, by simp⟩

theorem closeFrames_eq_none {frames : List Nat} : closeFrames frameId frames = none ↔
    frameId ∉ frames := by
  induction frames with
  | nil => simp [closeFrames]
  | cons top rest ih =>
    by_cases same : top = frameId
    · simp [closeFrames, same]
    · simp [closeFrames, same, ih, Ne.symm same]

namespace FrameRuntime

variable {θ : Type}

/-- The system allocator returns an address that is not null and not held by a live or quarantined
buffer. -/
def Allocates (state : FrameRuntime θ) : ManualOperation θ → Prop
  | .alloc _ size address =>
    size ≠ 0 → address ≠ 0 ∧ state.table.allocations address = none ∧
      address ∉ state.table.quarantine
  | _ => True

/-- The identifier about to be issued does not belong to an open frame. -/
def IssuesFresh (state : FrameRuntime θ) : ManualOperation θ → Prop
  | .frameEnter _ => state.table.nextFrame ∉ ManualFrame.ids state.table.frames
  | _ => True

/-- Open frames have different identifiers, each on the stack of one thread, and the entries match
them. -/
structure Consistent (state : FrameRuntime θ) : Prop where
  unique : state.table.Unique
  invariants : state.table.view.CheckInvariants
  positive : state.table.nextFrame ≠ 0
  current : ∀ thread, (state.threadStacks thread).generation = state.table.generation
  registered : ∀ ⦃thread frameId⦄, frameId ∈ (state.threadStacks thread).frames →
    frameId ≠ 0 ∧ frameId ∈ ManualFrame.ids state.table.frames
  distinct : ∀ thread, (state.threadStacks thread).frames.Nodup
  apart : ∀ ⦃first second frameId⦄, frameId ∈ (state.threadStacks first).frames →
    frameId ∈ (state.threadStacks second).frames → first = second
  mirrored : state.table.Mirrored
  base : (ManualFrame.ids state.table.frames).head? = some 0
  pinned : state.table.Pinned

theorem consistent_initial : (initial : FrameRuntime θ).Consistent := by
  refine ⟨nodup_singleton 0, AllocationTable.checkInvariants_iff.mpr
    ⟨rfl, nofun, fun frameId ptrs found => ?_⟩,
    Nat.one_ne_zero, fun _ => rfl, nofun, fun _ => nodup_nil, nofun, forall_mem_singleton.mpr
      (mirrors_new 0), rfl, nofun⟩
  simp only [initial, FrameTable.new, ManualFrame.new, view, owned?_cons] at found ⊢
  grind [update_apply, owned?]

variable {state changed : FrameRuntime θ} {thread : θ} {frameId size : Nat} {ptr : I64}
  {lifetime : Lifetime}

section
variable (consistent : state.Consistent)
include consistent

theorem Consistent.threadFrames_eq (thread : θ) :
    state.threadFrames thread = (state.threadStacks thread).frames :=
  if_pos (consistent.current thread)

/-- The identifiers of the open frames and the stacks stay as they are. -/
theorem Consistent.of_table (stacks' : changed.threadStacks = state.threadStacks)
    (ids : ManualFrame.ids changed.table.frames = ManualFrame.ids state.table.frames)
    (counters : changed.table.nextFrame = state.table.nextFrame ∧
      changed.table.generation = state.table.generation)
    (invariants : changed.table.view.CheckInvariants) (mirrored : changed.table.Mirrored)
    (pinned : changed.table.Pinned) : changed.Consistent := by
  refine ⟨?_, invariants, ?_, ?_, ?_, ?_, ?_, mirrored, by rw [ids]; exact consistent.base, pinned⟩
  · rw [FrameTable.Unique, ids]
    exact consistent.unique
  · rw [counters.1]
    exact consistent.positive
  · rw [stacks', counters.2]
    exact consistent.current
  · rw [stacks', ids]
    exact consistent.registered
  · rw [stacks']
    exact consistent.distinct
  · rw [stacks']
    exact consistent.apart

theorem Consistent.closed_ne_zero {closed remaining : List Nat}
    (split : closeFrames frameId (state.threadStacks thread).frames = some (closed, remaining)) :
    ∀ other ∈ closed, other ≠ 0 := by
  obtain ⟨upper, parted, rfl⟩ := closeFrames_eq_some split
  have registered := @consistent.registered thread
  grind

theorem Consistent.currentThreadFrameId_eq (thread : θ) :
    state.currentThreadFrameId thread = ((state.threadStacks thread).frames.head?).getD 0 ∧
      ∃ ptrs, state.table.view.frames (state.currentThreadFrameId thread) = some ptrs := by
  have open' : ∀ ⦃frameId⦄, frameId ∈ ids state.table.frames →
      state.table.frames.any (·.id == frameId) = true ∧ ∃ ptrs, state.table.view.frames frameId =
        some ptrs := by
    intro frameId member
    obtain ⟨frame, inside, rfl⟩ := mem_map.mp member
    refine ⟨any_eq_true.mpr ⟨frame, inside, by simp⟩, ?_⟩
    obtain ⟨found, search⟩ := Option.isSome_iff_exists.mp
      (find?_isSome.mpr ⟨frame, inside, by simp⟩ :
        (state.table.frames.find? (·.id == frame.id)).isSome)
    exact ⟨found.allocations, by simp [view, owned?, search]⟩
  rw [currentThreadFrameId, consistent.threadFrames_eq]
  cases frames : (state.threadStacks thread).frames with
  | nil => exact ⟨rfl, Option.isSome_iff_exists.mp consistent.invariants.base⟩
  | cons top rest =>
    have mine : top ∈ (state.threadStacks thread).frames := by simp [frames]
    obtain ⟨-, member⟩ := consistent.registered mine
    obtain ⟨any, owned⟩ := open' member
    simp only [any, if_true]
    exact ⟨rfl, owned⟩

theorem Consistent.manualFree (ptr : I64) : (state.manualFree ptr).Consistent := by
  unfold FrameRuntime.manualFree
  split_ifs with null
  · exact consistent.of_table rfl rfl ⟨rfl, rfl⟩ consistent.invariants consistent.mirrored
      consistent.pinned
  · refine consistent.of_table rfl (ids_freeTracked ..) (freeTracked_counters ..) ?_
      (consistent.mirrored.freeTracked ptr) (consistent.pinned.freeTracked ptr)
    rw [consistent.unique.view_freeTracked consistent.mirrored]
    exact consistent.invariants.freeTracked ptr

theorem Consistent.manualEscape (ptr : I64) (currentFrame : Nat) :
    (state.manualEscape ptr currentFrame).Consistent := by
  unfold FrameRuntime.manualEscape
  split_ifs with null
  · exact consistent
  · refine consistent.of_table rfl (ids_escapeAllocation ..) (escapeAllocation_counters ..) ?_
      (consistent.mirrored.escapeAllocation consistent.unique consistent.invariants ptr
        currentFrame)
      (consistent.pinned.escapeAllocation ptr currentFrame)
    rw [consistent.unique.view_escapeAllocation consistent.mirrored]
    exact consistent.invariants.escapeAllocation ptr currentFrame

theorem Consistent.manualEscapeStored (value : I64) :
    (state.manualEscapeStored value).Consistent := by
  unfold FrameRuntime.manualEscapeStored
  split_ifs with null
  · exact consistent
  · refine consistent.of_table rfl (ids_escapeStoredAllocation ..)
      (escapeStoredAllocation_counters ..) ?_
      (consistent.mirrored.escapeStoredAllocation consistent.unique consistent.invariants value)
      (consistent.pinned.escapeStoredAllocation value)
    cases found : state.table.allocations value with
    | none =>
      simp only [escapeStoredAllocation, found]
      exact consistent.invariants
    | some entry =>
      rw [consistent.unique.view_escapeStoredAllocation consistent.mirrored found]
      exact consistent.invariants.escapeAllocation value entry.frameId

end

/-- The state agrees with the lifetime of an allocation of `thread`. -/
def Tracks (thread : θ) (size : Nat) (ptr : I64) (state : FrameRuntime θ) : Lifetime → Prop
  | .framed frame older => state.table.allocations ptr = some ⟨frame, size⟩ ∧
    ∃ newer, (state.threadStacks thread).frames = newer ++ frame :: older
  | .based => state.table.allocations ptr = some ⟨0, size⟩
  | .ended => state.table.allocations ptr = none

theorem Tracks.ne_none (tracks : Tracks thread size ptr state lifetime)
    (going : lifetime ≠ .ended) : state.table.allocations ptr ≠ none := by
  cases lifetime with
  | framed frame older => simp [tracks.1]
  | based => simp [show state.table.allocations ptr = some ⟨0, size⟩ from tracks]
  | ended => exact absurd rfl going

/-- The entry and the stack of the thread decide. -/
theorem Tracks.of_eq (tracks : Tracks thread size ptr state lifetime)
    (entry : changed.table.allocations ptr = state.table.allocations ptr)
    (frames : changed.threadStacks thread = state.threadStacks thread) :
      Tracks thread size ptr changed lifetime := by
  cases lifetime with
  | framed frame older => exact ⟨entry.trans tracks.1, by rw [frames]; exact tracks.2⟩
  | based | ended => exact entry.trans tracks

variable [DecidableEq θ] {operation : ManualOperation θ}

/-- Every operation meets the condition in the state it is performed in. -/
def Along (condition : FrameRuntime θ → ManualOperation θ → Prop) : FrameRuntime θ →
    List (ManualOperation θ) → Prop
  | _, [] => True
  | state, operation :: rest =>
    condition state operation ∧ Along condition (state.step operation) rest

theorem Consistent.setThreadFrames_self (consistent : state.Consistent) (thread : θ) :
    state.setThreadFrames thread (state.threadFrames thread) = state := by
  rw [consistent.threadFrames_eq, setThreadFrames, ← consistent.current thread, update_eq_self]

theorem Consistent.frameEnter (consistent : state.Consistent) (thread : θ)
    (fresh : state.table.nextFrame ∉ ManualFrame.ids state.table.frames) :
      (state.frameEnter thread).2.Consistent := by
  have frames : (state.frameEnter thread).2.threadStacks = update state.threadStacks thread
        ⟨state.table.generation, state.table.nextFrame :: (state.threadStacks thread).frames⟩ := by
    rw [← consistent.threadFrames_eq]
    rfl
  have ids : ids (state.frameEnter thread).2.table.frames = ids state.table.frames ++
    [state.table.nextFrame] := by
    simp [FrameRuntime.frameEnter, setThreadFrames, pushFrame, ManualFrame.new, ids]
  have viewed : (state.frameEnter thread).2.table.view = { state.table.view with
        frames := update state.table.view.frames state.table.nextFrame (some []) } := by
    have appended := @owned?_append_singleton state.table.frames (.new state.table.nextFrame) fresh
    simp only [FrameRuntime.frameEnter, setThreadFrames, pushFrame, view, appended]
    rfl
  obtain ⟨unique, invariants, positive, current, registered, distinct, apart, mirrored, base,
    pinned⟩ := consistent
  constructor
  case unique =>
    rw [FrameTable.Unique, ids]
    exact nodup_append.mpr ⟨unique, by simp, by grind⟩
  case invariants =>
    rw [viewed]
    exact invariants.openFrame (owned?_eq_none fresh)
  case positive =>
    simp only [FrameRuntime.frameEnter, setThreadFrames, pushFrame]
    omega
  case mirrored => exact forall_mem_append.mpr ⟨mirrored, forall_mem_singleton.mpr (mirrors_new _)⟩
  case base =>
    rw [ids, head?_append, base]
    rfl
  case pinned => exact pinned
  case current =>
    change ∀ other, _ = state.table.generation
    rw [frames]
    grind [update_apply]
  case registered =>
    rw [frames, ids]
    grind [update_apply]
  all_goals
    rw [frames]
    grind [update_apply]

section
variable (consistent : state.Consistent)
include consistent

/-- Leaving frames: what is closed and what stays. -/
theorem Consistent.frameExit_of_mem {closed remaining : List Nat}
    (split : closeFrames frameId (state.threadStacks thread).frames = some (closed, remaining)) :
    (state.frameExit thread frameId).threadStacks =
        update state.threadStacks thread ⟨state.table.generation, remaining⟩ ∧
      (state.frameExit thread frameId).table = closed.foldl FrameTable.drainFrame state.table := by
  rw [← consistent.threadFrames_eq] at split
  simp only [frameExit, split, setThreadFrames, and_self]

theorem Consistent.frameExit_of_not_mem (absent : frameId ∉ (state.threadStacks thread).frames) :
    state.frameExit thread frameId =
      { state with lastFrameExitStatus := hostStatusInvalidArgument } := by
  rw [← consistent.threadFrames_eq, ← closeFrames_eq_none] at absent
  simp only [frameExit, absent, consistent.setThreadFrames_self]

theorem Consistent.frameExit (thread : θ) (frameId : Nat) :
    (state.frameExit thread frameId).Consistent := by
  cases split : closeFrames frameId (state.threadStacks thread).frames with
  | none =>
    rw [consistent.frameExit_of_not_mem (closeFrames_eq_none.mp split)]
    exact consistent.of_table rfl rfl ⟨rfl, rfl⟩ consistent.invariants consistent.mirrored
      consistent.pinned
  | some parts =>
    obtain ⟨closed, remaining⟩ := parts
    obtain ⟨frames, table⟩ := consistent.frameExit_of_mem split
    have inner := consistent.closed_ne_zero split
    obtain ⟨viewed, ids, mirrored'⟩ :=
      consistent.unique.view_foldl_drainFrame consistent.mirrored inner
    obtain ⟨next, generation⟩ := state.table.foldl_drainFrame_counters closed
    have drained := List.foldlRecOn closed _ consistent.invariants fun _ kept frameId _ =>
      kept.drainFrame frameId
    obtain ⟨upper, parted, rfl⟩ := closeFrames_eq_some split
    obtain ⟨unique, invariants, positive, current, registered, distinct, apart, mirrored, base,
      pinned⟩ := consistent
    -- What stays on a stack is not among the closed frames.
    have parts := nodup_append.mp (parted ▸ distinct thread)
    constructor
    case unique =>
      rw [FrameTable.Unique, table, ids]
      exact unique.diff
    case invariants =>
      rw [table, viewed]
      exact drained
    case positive =>
      rw [table, next]
      exact positive
    case mirrored =>
      rw [table]
      exact mirrored'
    case base =>
      obtain ⟨rest, split⟩ := head?_eq_some_iff.mp base
      rw [table, ids, split, cons_diff_of_not_mem fun closed => inner 0 closed rfl]
      rfl
    case pinned =>
      rw [table]
      exact List.foldlRecOn _ _ pinned fun _ kept frameId _ => kept.drainFrame frameId
    case current =>
      rw [table, generation, frames]
      grind [update_apply]
    case registered =>
      rw [table, ids, frames]
      simp only [Nodup.mem_sdiff_iff unique]
      grind [update_apply]
    all_goals
      rw [frames]
      grind [update_apply]

/-- A new allocation belongs to the innermost frame of its thread. -/
theorem Consistent.manualAlloc_eq (thread : θ) {size : Nat} (nonempty : size ≠ 0)
    (address : I64) : state.manualAlloc thread size address =
      { state with table :=
        state.table.insertAllocation (state.currentThreadFrameId thread) size address } := by
  rw [manualAlloc, if_neg nonempty, consistent.setThreadFrames_self]

theorem Consistent.manualAlloc (thread : θ) (size : Nat) {address : I64}
    (untracked : size ≠ 0 → state.table.allocations address = none ∧
      address ∉ state.table.quarantine) :
    (state.manualAlloc thread size address).Consistent := by
  by_cases empty : size = 0
  · rwa [FrameRuntime.manualAlloc, if_pos empty]
  · obtain ⟨-, ptrs, owned⟩ := consistent.currentThreadFrameId_eq thread
    rw [consistent.manualAlloc_eq thread empty]
    obtain ⟨unallocated, unpinned⟩ := untracked empty
    refine consistent.of_table rfl ids_trackFirst ⟨rfl, rfl⟩ ?_
      (consistent.mirrored.insertAllocation consistent.unique consistent.invariants _ _ unallocated)
      (consistent.pinned.insertAllocation _ _ unpinned)
    rw [view_insertAllocation]
    exact consistent.invariants.insert unallocated owned

/-- An operation other than a clear that gets a new identifier and a new address. -/
structure Proper (state : FrameRuntime θ) (operation : ManualOperation θ) : Prop where
  allocates : state.Allocates operation
  issuesFresh : state.IssuesFresh operation
  notClear : operation ≠ .clear

theorem Consistent.step (proper : state.Proper operation) : (state.step operation).Consistent := by
  cases operation with
  | frameEnter thread => exact consistent.frameEnter thread proper.issuesFresh
  | frameExit thread frameId => exact consistent.frameExit thread frameId
  | alloc thread size address =>
    exact consistent.manualAlloc thread size fun nonempty => (proper.allocates nonempty).2
  | free ptr => exact consistent.manualFree ptr
  | escape ptr currentFrame => exact consistent.manualEscape ptr currentFrame
  | escapeStored value => exact consistent.manualEscapeStored value
  | clear => exact absurd rfl proper.notClear

end

section
variable (consistent : state.Consistent) (tracks : Tracks thread size ptr state lifetime)
include consistent tracks

theorem Tracks.frameEnter (entering : θ) :
    Tracks thread size ptr (state.frameEnter entering).2 lifetime := by
  by_cases same : entering = thread
  · subst same
    cases lifetime with
    | framed frame older =>
      obtain ⟨entry, newer, frames⟩ := tracks
      refine ⟨entry, state.table.nextFrame :: newer, ?_⟩
      rw [cons_append, ← frames, ← consistent.threadFrames_eq]
      simp only [FrameRuntime.frameEnter, setThreadFrames, update_self]
      rfl
    | based | ended => exact tracks
  · exact tracks.of_eq rfl (update_of_ne (Ne.symm same) ..)

theorem Tracks.frameExit (exiting : θ) (frameId : Nat) :
    Tracks thread size ptr (state.frameExit exiting frameId)
      (lifetime.advance thread ptr (.frameExit exiting frameId)) := by
  cases split : closeFrames frameId (state.threadStacks exiting).frames with
  | none =>
    have absent := closeFrames_eq_none.mp split
    have same : lifetime.advance thread ptr (.frameExit exiting frameId) = lifetime := by
      cases lifetime with
      | framed frame older =>
        obtain ⟨-, newer, frames⟩ := tracks
        grind [Lifetime.advance]
      | based | ended => rfl
    rw [same, consistent.frameExit_of_not_mem absent]
    exact tracks.of_eq rfl rfl
  | some parts =>
    obtain ⟨closed, remaining⟩ := parts
    obtain ⟨frames, table⟩ := consistent.frameExit_of_mem split
    have entries : (state.frameExit exiting frameId).table.allocations ptr =
        (state.table.allocations ptr).filter fun entry => entry.frameId = 0 ∨
          entry.frameId ∉ closed := by
      have viewed :=
        (consistent.unique.view_foldl_drainFrame consistent.mirrored
          (consistent.closed_ne_zero split)).1
      rw [table]
      exact (congrFun (congrArg _ viewed) ptr).trans
        (consistent.invariants.foldl_drainFrame closed ptr)
    obtain ⟨upper, parted, rfl⟩ := closeFrames_eq_some split
    cases lifetime with
    | framed frame older =>
      obtain ⟨entry, newer, mine⟩ := tracks
      have inside : frame ∈ (state.threadStacks thread).frames := by simp [mine]
      have inner := (consistent.registered inside).1
      simp only [entry, Option.filter_some, inner, false_or] at entries
      have nodup := consistent.distinct thread
      by_cases same : exiting = thread
      · subst same
        rw [mine] at nodup parted
        rcases append_eq_append_iff.mp parted with ⟨middle, rfl, below⟩ | ⟨middle, rfl, above⟩
        · -- The frame itself or one below it is left, and the frame is closed with it.
          rw [Lifetime.advance, if_pos ⟨rfl, by simp [below]⟩]
          cases middle <;> grind [Tracks]
        · rcases middle with - | ⟨top, middle⟩
          · cases above
            rw [Lifetime.advance, if_pos ⟨rfl, by simp⟩]
            exact entries.trans (by simp)
          · rw [cons_append] at above
            obtain ⟨rfl, rfl⟩ := cons.inj above
            have apart := (nodup_append.mp nodup).2.2
            rw [Lifetime.advance, if_neg (by grind)]
            exact ⟨entries.trans (if_pos (by grind)), middle, by rw [frames, update_self]⟩
      · -- Another thread's frames are closed.
        have kept := @consistent.apart exiting thread frame
        rw [Lifetime.advance, if_neg fun both => same both.1]
        exact ⟨entries.trans (if_pos (by grind)),
          newer, by rw [frames, update_of_ne (Ne.symm same), mine]⟩
    | based | ended =>
      simp only [Tracks] at tracks
      exact entries.trans (by simp [tracks, Option.filter_some])

theorem Tracks.manualAlloc (going : lifetime ≠ .ended) {other : θ} {size' : Nat} {address : I64}
    (untracked : size' ≠ 0 → state.table.allocations address = none) :
    Tracks thread size ptr (state.manualAlloc other size' address) lifetime := by
  by_cases empty : size' = 0
  · rwa [FrameRuntime.manualAlloc, if_pos empty]
  · have different : ptr ≠ address := by
      rintro rfl
      exact tracks.ne_none going (untracked empty)
    rw [consistent.manualAlloc_eq other empty]
    exact tracks.of_eq (update_of_ne different ..) rfl

end

section
variable (tracks : Tracks thread size ptr state lifetime) (notNull : ptr ≠ 0)
include tracks notNull

theorem Tracks.manualFree
    (freed : I64) : Tracks thread size ptr (state.manualFree freed)
      (lifetime.advance thread ptr (.free freed)) := by
  have entry : (state.manualFree freed).table.allocations ptr =
      if freed = ptr then none else state.table.allocations ptr := by
    unfold FrameRuntime.manualFree freeTracked removeFromFrame
    cases found : state.table.allocations freed <;> split_ifs <;> grind [update_apply]
  have unchanged : (state.manualFree freed).threadStacks = state.threadStacks := by
    rw [FrameRuntime.manualFree, apply_ite FrameRuntime.threadStacks, ite_self]
  by_cases same : freed = ptr <;> cases lifetime <;> simp_all [Tracks, Lifetime.advance]

theorem Tracks.manualEscape (escaped : I64) (currentFrame : Nat) :
    Tracks thread size ptr (state.manualEscape escaped currentFrame)
      (lifetime.advance thread ptr (.escape escaped currentFrame)) := by
  have entry : (state.manualEscape escaped currentFrame).table.allocations ptr =
      if escaped = ptr then (state.table.allocations ptr).map fun entry =>
        if entry.frameId = currentFrame then { entry with frameId := 0 } else entry
      else state.table.allocations ptr := by
    unfold FrameRuntime.manualEscape escapeAllocation removeFromFrame
    rcases found : state.table.allocations escaped with - | ⟨owner, bytes⟩ <;> dsimp only <;>
      split_ifs <;> grind [update_apply]
  have unchanged : (state.manualEscape escaped currentFrame).threadStacks = state.threadStacks := by
    rw [FrameRuntime.manualEscape, apply_ite FrameRuntime.threadStacks, ite_self]
  by_cases same : escaped = ptr
  · cases lifetime with
    | framed frame older =>
      by_cases owner : currentFrame = frame <;> grind [Tracks, Lifetime.advance]
    | based | ended => grind [Tracks, Lifetime.advance]
  · cases lifetime <;> simp_all [Tracks, Lifetime.advance]

theorem Tracks.manualEscapeStored (value : I64) :
    Tracks thread size ptr (state.manualEscapeStored value)
      (lifetime.advance thread ptr (.escapeStored value)) := by
  have entry : (state.manualEscapeStored value).table.allocations ptr =
      if value = ptr then (state.table.allocations ptr).map ({ · with frameId := 0 })
      else state.table.allocations ptr := by
    unfold FrameRuntime.manualEscapeStored escapeStoredAllocation removeFromFrame
    rcases found : state.table.allocations value with - | ⟨owner, bytes⟩ <;> dsimp only <;>
      split_ifs <;> grind [update_apply]
  have unchanged : (state.manualEscapeStored value).threadStacks = state.threadStacks := by
    rw [FrameRuntime.manualEscapeStored, apply_ite FrameRuntime.threadStacks, ite_self]
  by_cases same : value = ptr <;> cases lifetime <;> simp_all [Tracks, Lifetime.advance]

end

variable {operations : List (ManualOperation θ)}

section
variable (consistent : state.Consistent)
include consistent

/-- One operation moves the state as it moves the lifetime. -/
theorem Tracks.step (tracks : Tracks thread size ptr state lifetime)
    (going : lifetime ≠ .ended) (notNull : ptr ≠ 0) (proper : state.Proper operation) :
    Tracks thread size ptr (state.step operation) (lifetime.advance thread ptr operation) := by
  cases operation with
  | frameEnter entering =>
    have same : lifetime.advance thread ptr (.frameEnter entering) = lifetime := by
      cases lifetime <;> rfl
    rw [same]
    exact tracks.frameEnter consistent entering
  | frameExit exiting frameId => exact tracks.frameExit consistent exiting frameId
  | alloc other size' address =>
    have same : lifetime.advance thread ptr (.alloc other size' address) = lifetime := by
      cases lifetime <;> rfl
    rw [same]
    exact tracks.manualAlloc consistent going fun nonempty => (proper.allocates nonempty).2.1
  | free freed => exact tracks.manualFree notNull freed
  | escape escaped currentFrame => exact tracks.manualEscape notNull escaped currentFrame
  | escapeStored value => exact tracks.manualEscapeStored notNull value
  | clear => exact absurd rfl proper.notClear

theorem consistent_run (proper : Along Proper state operations) :
    (operations.foldl step state).Consistent := by
  induction operations generalizing state with
  | nil => exact consistent
  | cons operation rest ih => exact ih (consistent.step proper.1) proper.2

theorem tracks_run
    (proper : Along Proper state operations) (notNull : ptr ≠ 0)
      (tracks : Tracks thread size ptr state lifetime)
    (going : lifetime.after thread ptr operations ≠ .ended) :
    Tracks thread size ptr (operations.foldl FrameRuntime.step state)
      (lifetime.after thread ptr operations) := by
  induction operations generalizing state lifetime with
  | nil => exact tracks
  | cons operation rest ih =>
    have going' : lifetime ≠ .ended := by
      rintro rfl
      exact going (Lifetime.after_ended ..)
    exact ih (consistent.step proper.1) proper.2 (tracks.step consistent going' notNull proper.1)
      going

theorem tracks_manualAlloc (nonempty : size ≠ 0) :
    Tracks thread size ptr (state.manualAlloc thread size ptr)
      (.start (state.threadFrames thread)) := by
  have entry : (state.manualAlloc thread size ptr).table.allocations ptr =
      some ⟨state.currentThreadFrameId thread, size⟩ := by
    rw [consistent.manualAlloc_eq thread nonempty]
    exact update_self ..
  have unchanged : (state.manualAlloc thread size ptr).threadStacks = state.threadStacks := by
    rw [consistent.manualAlloc_eq thread nonempty]
  rw [(consistent.currentThreadFrameId_eq thread).1] at entry
  rw [consistent.threadFrames_eq]
  cases frames : (state.threadStacks thread).frames with
  | nil =>
    rw [frames] at entry
    exact entry
  | cons frame older =>
    rw [frames] at entry
    exact ⟨entry, [], by rw [unchanged, frames]; rfl⟩

end

/-- Without a clear, and with fresh identifiers, the base frame stays the first, identifiers are
unique, the index of each frame mirrors its pointers, entries and frames list each other, no
quarantined address is allocated or listed, and threads share no frame. -/
theorem checkInvariants_run (proper : Along Proper initial operations) :
    let table := (run operations).table
    (ManualFrame.ids table.frames).head? = some 0 ∧ table.Unique ∧ table.Mirrored ∧
      table.view.CheckInvariants ∧
      (∀ ptr ∈ table.quarantine, table.allocations ptr = none ∧ ∀ frame ∈ table.frames,
        ptr ∉ frame.allocations) ∧
      ∀ first second frameId, frameId ∈ (run operations).threadFrames first →
        frameId ∈ (run operations).threadFrames second → first = second := by
  have consistent := consistent_run consistent_initial proper
  refine ⟨consistent.base, consistent.unique, consistent.mirrored, consistent.invariants,
    fun ptr quarantined => ?_, fun first second frameId => ?_⟩
  · have dead := consistent.pinned ptr quarantined
    refine ⟨dead, fun frame member => consistent.unique.not_mem_allocations consistent.invariants
      member ?_⟩
    rintro entry found
    cases dead.symm.trans found
  · rw [run, consistent.threadFrames_eq, consistent.threadFrames_eq]
    exact @consistent.apart first second frameId

/-- One thread frees an allocation of another, which then leaves its frame with the rest. -/
theorem checkInvariants_run_exit :
    let operations : List (ManualOperation Bool) :=
      [.frameEnter true, .alloc true 16 64, .alloc true 8 96,
      .alloc true 4 128, .frameEnter false, .alloc false 2 160, .free 64, .escape 128 1,
        .frameExit true 1]
    (run operations).table.quarantine = [64, 96] ∧ (run operations).table.Mirrored ∧
      (run operations).table.view.CheckInvariants := by
  intro operations
  have proper : Along Proper initial operations := by
    refine ⟨⟨trivial, ?_, nofun⟩, ⟨fun _ => ⟨?_, rfl, ?_⟩, trivial, nofun⟩,
      ⟨fun _ => ⟨?_, rfl, ?_⟩, trivial, nofun⟩,
      ⟨fun _ => ⟨?_, rfl, ?_⟩, trivial, nofun⟩, ⟨trivial, ?_, nofun⟩,
        ⟨fun _ => ⟨?_, rfl, ?_⟩, trivial, nofun⟩,
      ⟨trivial, trivial, nofun⟩, ⟨trivial, trivial, nofun⟩, ⟨trivial, trivial, nofun⟩, trivial⟩
    all_goals first | decide | (unfold IssuesFresh; decide)
  obtain ⟨-, -, mirrored, invariants, -⟩ := checkInvariants_run proper
  exact ⟨by decide, mirrored, invariants⟩

theorem Along.append {condition : FrameRuntime θ → ManualOperation θ → Prop}
    {first second : List (ManualOperation θ)} :
    Along condition state (first ++ second) ↔
      Along condition state first ∧ Along condition (first.foldl FrameRuntime.step state)
        second := by
  induction first generalizing state with
  | nil => simp [Along]
  | cons operation rest ih => simp [Along, ih, and_assoc]

/-- The allocation of `thread` after `before` is in the table while its lifetime goes on, and leaves
with the operation that ends it. -/
def LivesExactly (before : List (ManualOperation θ)) (thread : θ) (size : Nat) (ptr : I64)
    (later : List (ManualOperation θ)) : Prop :=
  ∀ done operation, done ++ [operation] <+: later →
    let lifetime := Lifetime.after thread ptr (.start ((run before).threadFrames thread))
    lifetime done ≠ .ended →
      (run (before ++ .alloc thread size ptr :: done)).table.allocations ptr ≠ none ∧
        ((run (before ++ .alloc thread size ptr :: (done ++ [operation]))).table.allocations ptr =
          none ↔ lifetime (done ++ [operation]) = .ended)

/-- Without a clear, and while no identifier of an open frame is issued again, every allocation
lives exactly as long as its frame. -/
theorem livesExactly_of_issuesFresh {before later : List (ManualOperation θ)} {thread : θ}
    {size : Nat} {ptr : I64}
    (nonempty : size ≠ 0) (noClear : .clear ∉ before ++ .alloc thread size ptr :: later)
    (allocates : Along Allocates initial (before ++ .alloc thread size ptr :: later))
    (issuesFresh : Along IssuesFresh initial (before ++ .alloc thread size ptr :: later)) :
    LivesExactly before thread size ptr later := by
  have proper : Along Proper initial (before ++ .alloc thread size ptr :: later) := by
    generalize before ++ .alloc thread size ptr :: later = operations
      at noClear allocates issuesFresh
    generalize (initial : FrameRuntime θ) = start at allocates issuesFresh
    induction operations generalizing start with
    | nil => trivial
    | cons operation rest ih =>
      obtain ⟨notClear, noClear'⟩ : .clear ≠ operation ∧ .clear ∉ rest := by simpa using noClear
      exact ⟨⟨allocates.1, issuesFresh.1, Ne.symm notClear⟩,
        ih noClear' _ allocates.2 issuesFresh.2⟩
  obtain ⟨properBefore, properAlloc, properLater⟩ := Along.append.mp proper
  have consistent := consistent_run consistent_initial properBefore
  have notNull := (properAlloc.allocates nonempty).1
  have consistent' := consistent.step properAlloc
  rintro done operation ⟨rest, rfl⟩
  intro lifetime going
  rw [append_assoc] at properLater
  obtain ⟨properDone, properOperation, -⟩ := Along.append.mp properLater
  have tracks : Tracks thread size ptr _ (lifetime done) :=
    tracks_run consistent' properDone notNull (tracks_manualAlloc consistent nonempty) going
  have tracks' := tracks.step (consistent_run consistent' properDone) going notNull properOperation
  have ran : run (before ++ .alloc thread size ptr :: (done ++ [operation])) =
      ((done.foldl FrameRuntime.step ((run before).step (.alloc thread size ptr)))).step
        operation := by
    simp [run]
  have lasts : lifetime (done ++ [operation]) = (lifetime done).advance thread ptr operation := by
    simp [lifetime, Lifetime.after]
  constructor
  · have live := tracks.ne_none going
    simpa [run] using live
  · rw [ran, lasts]
    constructor
    · intro gone
      by_contra past
      exact tracks'.ne_none past gone
    · intro past
      rw [past] at tracks'
      exact tracks'

theorem livesExactly_exit : ((16 : Nat) ≠ 0 ∧
    .clear ∉ [.frameEnter true] ++ .alloc true 16 64 :: [ManualOperation.frameExit true 1] ∧
    Along Allocates initial ([.frameEnter true] ++ .alloc true 16 64 :: [.frameExit true 1]) ∧
    Along IssuesFresh initial ([.frameEnter true] ++ .alloc true 16 64 :: [.frameExit true 1])) ∧
    LivesExactly [.frameEnter true] true 16 64 [.frameExit true 1] := by
  suffices premises : _ ∧ _ ∧ _ ∧ _ from
    ⟨premises, livesExactly_of_issuesFresh premises.1 premises.2.1 premises.2.2.1 premises.2.2.2⟩
  refine ⟨by decide, by simp, ⟨trivial, fun _ => ⟨by decide, rfl, by decide⟩, trivial, trivial⟩, ?_⟩
  exact ⟨show 1 ∉ [0] by decide, trivial, trivial, trivial⟩

/-- A thread enters and leaves frames while the first frame of the other thread is open. -/
def turns (count : Nat) : List (ManualOperation Bool) :=
  (List.range count).flatMap fun turn => [.frameEnter false, .frameExit false (turn + 2)]

/-- The other thread has opened frame 1 and allocated in it. -/
private def waiting (nextFrame : Nat) : FrameRuntime Bool :=
  { table :=
    ⟨update (fun _ =>
      none) 64 (some ⟨1, 16⟩), [.new 0, (ManualFrame.new 1).track 64], nextFrame, 0, []⟩
    threadStacks := update (fun _ => ⟨0, []⟩) true ⟨0, [1]⟩
    lastFreeStatus := hostStatusSuccess
    lastFrameExitStatus := hostStatusSuccess }

theorem run_waiting : run [.frameEnter true, .alloc true 16 64] = waiting 2 := by
  simp [run, step, frameEnter, manualAlloc, initial, FrameTable.new, ManualFrame.new, pushFrame,
    setThreadFrames,
    threadFrames, currentThreadFrameId, insertAllocation, ManualFrame.updateFirst, waiting]

/-- One turn only advances the counter. -/
theorem waiting_turn {nextFrame : Nat} (small : nextFrame + 1 < 2 ^ 64) (inner : 2 ≤ nextFrame) :
    ((waiting nextFrame).step (.frameEnter false)).step (.frameExit false nextFrame) = waiting
      (nextFrame + 1) := by
  have wraps : max ((nextFrame + 1) % 2 ^ 64) 1 = nextFrame + 1 := by
    rw [Nat.mod_eq_of_lt small]
    omega
  have notBase : 0 ≠ nextFrame := by omega
  have notFirst : 1 ≠ nextFrame := by omega
  have stacks' : update (update (fun _ => ⟨0, []⟩) true ⟨0, [1]⟩) false ⟨0, []⟩ =
      (update (fun _ => ⟨0, []⟩) true ⟨0, [1]⟩ : Bool → ThreadFrameStack) := by
    rw [update_eq_self_iff]
    rfl
  simp [step, FrameRuntime.frameEnter, FrameRuntime.frameExit, pushFrame, setThreadFrames,
    threadFrames, waiting, closeFrames, drainFrame, takeFrame, ManualFrame.new, track,
      Ne.symm notBase, notBase,
    notFirst, stacks', update_idem]
  exact wraps

theorem turns_waiting (count : Nat) (small : count + 2 < 2 ^ 64) :
    (turns count).foldl step (waiting 2) = waiting (count + 2) := by
  induction count with
  | zero => rfl
  | succ count ih =>
    rw [turns, range_succ, flatMap_append, foldl_append, ← turns, ih (by omega)]
    exact waiting_turn (by omega) (by omega)

/-- When the counter has wrapped around, both threads have a frame 1, and the older one is
drained. -/
theorem waiting_overlap {nextFrame : Nat} (wraps : (nextFrame + 1) % 2 ^ 64 = 0) :
    ((((waiting nextFrame).step (.frameEnter false)).step (.frameEnter false)).step
      (.frameExit false 1)).table.allocations 64 =
      none := by
  have restarts : max ((nextFrame + 1) % 18446744073709551616) 1 = 1 := by
    rw [show 18446744073709551616 = 2 ^ 64 from rfl, wraps]
    rfl
  simp [step, FrameRuntime.frameEnter, FrameRuntime.frameExit, pushFrame, setThreadFrames,
    threadFrames, waiting, closeFrames, drainFrame, takeFrame, ManualFrame.new, track, restarts,
      freeTracked,
    removeFromFrame]

/-- The turns and the overlapping frame of the second thread. -/
private def overlap (count : Nat) : List (ManualOperation Bool) :=
  turns count ++ [.frameEnter false, .frameEnter false]

/-- The second thread enters or leaves a frame. -/
private def Elsewhere (operation : ManualOperation Bool) : Prop :=
  operation = .frameEnter false ∨ ∃ frameId, operation = .frameExit false frameId

theorem elsewhere_overlap (count : Nat) : ∀ operation ∈ overlap count, Elsewhere operation := by
  intro operation member
  simp only [overlap, turns, mem_append, mem_flatMap, mem_cons, not_mem_nil, or_false, or_self]
    at member
  rcases member with ⟨turn, -, rfl | rfl⟩ | rfl
  · exact .inl rfl
  · exact .inr ⟨turn + 2, rfl⟩
  · exact .inl rfl

theorem overlap_keeps (operations : List (ManualOperation Bool))
    (others : ∀ operation ∈ operations, Elsewhere operation) :
    (Lifetime.framed 1 []).after true 64 operations = .framed 1 [] ∧ .clear ∉ operations ∧
      ∀ state, Along Allocates state operations := by
  induction operations with
  | nil => exact ⟨rfl, by simp, fun _ => trivial⟩
  | cons operation rest ih =>
    obtain ⟨same, noClear, allocates⟩ := ih fun other member => others other (by simp [member])
    rcases others operation (by simp) with rfl | ⟨frameId, rfl⟩
    · exact ⟨same, by simpa using noClear, fun state => ⟨trivial, allocates _⟩⟩
    · exact ⟨same, by simpa using noClear, fun state => ⟨trivial, allocates _⟩⟩

/-- After `2 ^ 64` identifiers the first one is issued again, and the second thread's exit frees the
first one's allocation. -/
theorem not_livesExactly_turns : ∃ later : List (ManualOperation Bool),
    (.clear ∉ [.frameEnter true] ++ .alloc true 16 64 :: later ∧
      Along Allocates initial ([.frameEnter true] ++ .alloc true 16 64 :: later)) ∧
    ¬ LivesExactly [.frameEnter true] true 16 64 later := by
  obtain ⟨count, total⟩ : ∃ count, count + 3 = 2 ^ 64 := ⟨2 ^ 64 - 3, by omega⟩
  have others : ∀ operation ∈ overlap count ++ [.frameExit false 1], Elsewhere operation :=
    forall_mem_append.mpr ⟨elsewhere_overlap count, by simp [Elsewhere]⟩
  obtain ⟨same, noClear, allocates⟩ := overlap_keeps _ others
  refine ⟨overlap count ++ [.frameExit false 1],
    ⟨by simpa using noClear, trivial, fun _ => ⟨by decide, rfl, by decide⟩,
    allocates _⟩, fun lives => ?_⟩
  obtain ⟨going, -⟩ := overlap_keeps (overlap count) (elsewhere_overlap count)
  have ends := (lives (overlap count) (.frameExit false 1) (prefix_refl _) (by
    rw [show (run [.frameEnter true]).threadFrames true = [1] from rfl, Lifetime.start, going]
    simp)).2
  have gone :
    (run ([.frameEnter true] ++ .alloc true 16 64 ::
    (overlap count ++ [.frameExit false 1]))).table.allocations 64 =
      none := by
    have ran :
      run ([.frameEnter true] ++ .alloc true 16 64 :: (overlap count ++ [.frameExit false 1])) =
        (((waiting (count + 2)).step (.frameEnter false)).step (.frameEnter false)).step
          (.frameExit false 1) := by
      rw [← turns_waiting count (by omega), ← run_waiting]
      simp [run, overlap]
    rw [ran]
    exact waiting_overlap (by omega)
  have past := ends.mp gone
  rw [show (run [.frameEnter true]).threadFrames true = [1] from rfl, Lifetime.start, same] at past
  cases past

end FrameRuntime

end SpectraLang

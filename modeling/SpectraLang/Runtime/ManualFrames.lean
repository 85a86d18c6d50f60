import SpectraLang.Runtime.AllocationTable
import SpectraLang.Runtime.StringAccess

/-! # Frames of several threads

The registry of frames is a vector searched linearly, and identifiers come from a counter that wraps
around. Every thread keeps a stack of the frames it opened, stamped with the generation of its
table; a stack of an older generation is emptied when its thread uses it again. All operations hold
the lock of the table, so an execution is a sequence of whole operations.

As long as no two open frames share an identifier the registry is the function of `AllocationTable`,
and each operation acts on that view as its namesake there.
-/

open Function

namespace SpectraLang

open List

/-- A registered frame: its identifier, the pointers it owns and the position of each of them. -/
structure ManualFrame where
  id : Nat
  allocations : List I64
  index : I64 → Option Nat

namespace ManualFrame

def new (id : Nat) : ManualFrame := ⟨id, [], fun _ => none⟩

/-- `Frame::track`. -/
def track (ptr : I64) (frame : ManualFrame) : ManualFrame :=
  { frame with
    allocations := frame.allocations ++ [ptr]
    index := update frame.index ptr (some frame.allocations.length) }

/-- `Frame::untrack`: the last pointer takes the place of the removed one. -/
def untrack (ptr : I64) (frame : ManualFrame) : ManualFrame :=
  match frame.index ptr with
  | none => frame
  | some pos =>
    let allocations := (frame.allocations.set pos (frame.allocations.getLastD ptr)).dropLast
    let index := update frame.index ptr none
    { frame with
      allocations
      index := match allocations[pos]? with
        | some moved => update index moved (some pos)
        | none => index }

/-- Changes the first frame with the identifier. -/
def updateFirst (frameId : Nat) (change : ManualFrame → ManualFrame) : List ManualFrame →
    List ManualFrame
  | [] => []
  | frame :: rest =>
    if frame.id = frameId then change frame :: rest else frame :: updateFirst frameId change rest

/-- Changes the last frame with the identifier. -/
def updateLast (frameId : Nat) (change : ManualFrame → ManualFrame) (frames : List ManualFrame) :
    List ManualFrame :=
  (updateFirst frameId change frames.reverse).reverse

end ManualFrame

structure FrameTable where
  allocations : I64 → Option ManualAllocation
  frames : List ManualFrame
  nextFrame : Nat
  generation : Nat
  quarantine : List I64

/-- The frames a thread has opened, innermost first. -/
structure ThreadFrameStack where
  generation : Nat
  frames : List Nat

def hostStatusSuccess : Int := 0

namespace FrameTable

def new : FrameTable := ⟨fun _ => none, [.new 0], 1, 0, []⟩

/-- `push_frame`. -/
def pushFrame (table : FrameTable) : Nat × FrameTable :=
  (table.nextFrame,
    { table with
      nextFrame := max ((table.nextFrame + 1) % 2 ^ 64) 1
      frames := table.frames ++ [.new table.nextFrame] })

/-- `take_frame`: the first frame with the identifier leaves the registry; the base frame stays. -/
def takeFrame (table : FrameTable) (frameId : Nat) : List I64 × FrameTable :=
  if frameId = 0 then ([], table)
  else
    match table.frames.find? (·.id == frameId) with
    | some frame =>
      (frame.allocations, { table with frames := table.frames.eraseP (·.id == frameId) })
    | none => ([], table)

/-- `remove_from_frame` searches from the newest frame. -/
def removeFromFrame (table : FrameTable) (frameId : Nat) (ptr : I64) : FrameTable :=
  { table with frames := ManualFrame.updateLast frameId (.untrack ptr) table.frames }

/-- `free_tracked`: the status and the table. -/
def freeTracked (table : FrameTable) (ptr : I64) : Int × FrameTable :=
  match table.allocations ptr with
  | none => (hostStatusInvalidArgument, table)
  | some entry =>
    let freed := { table with allocations := update table.allocations ptr none }
    let quarantine := table.quarantine ++ [ptr]
    (hostStatusSuccess,
      { freed.removeFromFrame entry.frameId ptr with
        quarantine := quarantine.drop (quarantine.length - AllocationTable.quarantineCapacity) })

/-- Frees the pointers of one frame and closes it. -/
def drainFrame (table : FrameTable) (frameId : Nat) : FrameTable :=
  (table.takeFrame frameId).1.foldl (fun rest ptr => (rest.freeTracked ptr).2)
    (table.takeFrame frameId).2

/-- `clear_all`: identifiers start over, and every stack becomes stale. -/
def clearAll (table : FrameTable) : FrameTable :=
  { new with generation := (table.generation + 1) % 2 ^ 64 }

/-- `escape_allocation_locked`: the moved bytes and the table. -/
def escapeAllocation (table : FrameTable) (ptr : I64) (currentFrame : Nat) : Nat × FrameTable :=
  if currentFrame = 0 then (0, table)
  else
    match table.allocations ptr with
    | none => (0, table)
    | some entry =>
      if entry.frameId = currentFrame then
        let removed := table.removeFromFrame currentFrame ptr
        (entry.byteLen,
          { removed with
            allocations := update removed.allocations ptr (some { entry with frameId := 0 })
            frames := ManualFrame.updateLast 0 (.track ptr) removed.frames })
      else (0, table)

/-- `escape_stored_allocation_locked`: the owner does not matter. -/
def escapeStoredAllocation (table : FrameTable) (ptr : I64) : Nat × FrameTable :=
  match table.allocations ptr with
  | none => (0, table)
  | some entry =>
    if entry.frameId = 0 then (0, table)
    else
      let removed := table.removeFromFrame entry.frameId ptr
      (entry.byteLen,
        { removed with
          allocations := update removed.allocations ptr (some { entry with frameId := 0 })
          frames := ManualFrame.updateFirst 0 (.track ptr) removed.frames })

/-- The entry and the registration made by `spectra_rt_manual_alloc`. -/
def insertAllocation (table : FrameTable) (frameId size : Nat) (ptr : I64) : FrameTable :=
  { table with
    allocations := update table.allocations ptr (some ⟨frameId, size⟩)
    frames := ManualFrame.updateFirst frameId (.track ptr) table.frames }

end FrameTable

/-- The table, the stacks of all threads and the recorded statuses. -/
structure FrameRuntime (θ : Type) where
  table : FrameTable
  threadStacks : θ → ThreadFrameStack
  lastFreeStatus : Int
  lastFrameExitStatus : Int

/-- The operations of the runtime; the system allocator chooses the address of a new allocation. -/
inductive ManualOperation (θ : Type) where
  | frameEnter (thread : θ)
  | frameExit (thread : θ) (frameId : Nat)
  | alloc (thread : θ) (size : Nat) (address : I64)
  | free (ptr : I64)
  | escape (ptr : I64) (currentFrame : Nat)
  | escapeStored (value : I64)
  | clear
deriving DecidableEq

namespace FrameRuntime

variable {θ : Type} [DecidableEq θ]

def initial : FrameRuntime θ := ⟨.new, fun _ => ⟨0, []⟩, hostStatusSuccess, hostStatusSuccess⟩

/-- The stack `with_thread_frames` hands to its action. -/
def threadFrames (state : FrameRuntime θ) (thread : θ) : List Nat :=
  if (state.threadStacks thread).generation = state.table.generation then
    (state.threadStacks thread).frames else []

/-- The stack the action leaves behind. -/
def setThreadFrames (state : FrameRuntime θ) (thread : θ) (frames : List Nat) : FrameRuntime θ :=
  { state with threadStacks := update state.threadStacks thread ⟨state.table.generation, frames⟩ }

/-- `current_thread_frame_id`, with the base frame for a thread without a registered frame. -/
def currentThreadFrameId (state : FrameRuntime θ) (thread : θ) : Nat :=
  match state.threadFrames thread with
  | [] => 0
  | top :: _ => if state.table.frames.any (·.id == top) then top else 0

/-- `spectra_rt_manual_frame_enter`: the identifier and the state. -/
def frameEnter (state : FrameRuntime θ) (thread : θ) : Nat × FrameRuntime θ :=
  let pushed := state.table.pushFrame
  let next := { state with table := pushed.2 }
  (pushed.1, next.setThreadFrames thread (pushed.1 :: next.threadFrames thread))

/-- `spectra_rt_manual_frame_exit`. -/
def frameExit (state : FrameRuntime θ) (thread : θ) (frameId : Nat) : FrameRuntime θ :=
  match closeFrames frameId (state.threadFrames thread) with
  | none =>
    { state.setThreadFrames thread (state.threadFrames thread) with lastFrameExitStatus :=
      hostStatusInvalidArgument }
  | some (closed, remaining) =>
    { state.setThreadFrames thread remaining with
      table := closed.foldl FrameTable.drainFrame state.table
      lastFrameExitStatus := hostStatusSuccess }

/-- `spectra_rt_manual_alloc`; nothing is allocated for an empty request. -/
def manualAlloc (state : FrameRuntime θ) (thread : θ) (size : Nat) (address : I64) :
    FrameRuntime θ :=
  if size = 0 then state
  else
    { state.setThreadFrames thread (state.threadFrames thread) with
      table := state.table.insertAllocation (state.currentThreadFrameId thread) size address }

/-- `spectra_rt_manual_free`. -/
def manualFree (state : FrameRuntime θ) (ptr : I64) : FrameRuntime θ :=
  if ptr = 0 then { state with lastFreeStatus := hostStatusSuccess }
  else { state with table := (state.table.freeTracked ptr).2, lastFreeStatus :=
    (state.table.freeTracked ptr).1 }

/-- `spectra_rt_manual_escape`, up to the charge to the budget of the base frame. -/
def manualEscape (state : FrameRuntime θ) (ptr : I64) (currentFrame : Nat) : FrameRuntime θ :=
  if ptr = 0 then state else
    { state with table := (state.table.escapeAllocation ptr currentFrame).2 }

/-- `spectra_rt_manual_escape_stored`, up to the charge to the budget of the base frame. -/
def manualEscapeStored (state : FrameRuntime θ) (value : I64) : FrameRuntime θ :=
  if value = 0 then state else { state with table := (state.table.escapeStoredAllocation value).2 }

/-- The table's part of `spectra_rt_manual_clear`. -/
def manualClear (state : FrameRuntime θ) : FrameRuntime θ :=
  { state with table := state.table.clearAll }

def step (state : FrameRuntime θ) : ManualOperation θ → FrameRuntime θ
  | .frameEnter thread => (state.frameEnter thread).2
  | .frameExit thread frameId => state.frameExit thread frameId
  | .alloc thread size address => state.manualAlloc thread size address
  | .free ptr => state.manualFree ptr
  | .escape ptr currentFrame => state.manualEscape ptr currentFrame
  | .escapeStored value => state.manualEscapeStored value
  | .clear => state.manualClear

/-- The state after a sequence of operations. -/
def run (operations : List (ManualOperation θ)) : FrameRuntime θ := operations.foldl step initial

end FrameRuntime

namespace ManualFrame

/-- The index gives the position of every pointer of the frame. -/
def Mirrors (frame : ManualFrame) : Prop :=
  ∀ ptr pos, frame.index ptr = some pos ↔ frame.allocations[pos]? = some ptr

variable {frame : ManualFrame} {ptr : I64}

theorem mirrors_new (id : Nat) : (new id).Mirrors := by
  intro ptr pos
  simp [new]

@[simp] theorem track_id : (frame.track ptr).id = frame.id := rfl

@[simp] theorem untrack_id : (frame.untrack ptr).id = frame.id := by
  unfold untrack
  split <;> rfl

theorem Mirrors.nodup (mirrors : frame.Mirrors) : frame.allocations.Nodup := by
  rw [nodup_iff_injective_get]
  intro first second same
  have one := (mirrors (frame.allocations.get first) first).mpr (by simp)
  have two := (mirrors (frame.allocations.get first) second).mpr (by rw [same]; simp)
  exact Fin.ext (Option.some.inj (one.symm.trans two))

theorem Mirrors.track (mirrors : frame.Mirrors) (absent : ptr ∉ frame.allocations) :
    (frame.track ptr).Mirrors := by
  intro other pos
  have named := mirrors other pos
  by_cases same : other = ptr
  · subst same
    have nowhere : frame.allocations[pos]? ≠ some other :=
      fun found => absent (mem_of_getElem? found)
    simp only [ManualFrame.track, update_self]
    grind
  · simp only [ManualFrame.track, update_of_ne same]
    grind

theorem Mirrors.untrack (mirrors : frame.Mirrors) :
    (frame.untrack ptr).Mirrors ∧ (frame.untrack ptr).allocations =
      swapRemove ptr frame.allocations := by
  unfold ManualFrame.untrack
  cases found : frame.index ptr with
  | none =>
    have absent : ptr ∉ frame.allocations := by
      intro member
      obtain ⟨pos, here⟩ := mem_iff_getElem?.mp member
      rw [(mirrors ptr pos).mpr here] at found
      cases found
    exact ⟨mirrors, (if_neg absent).symm⟩
  | some pos =>
    have here := (mirrors ptr pos).mp found
    have member := mem_of_getElem? here
    have nodup := mirrors.nodup
    have place : frame.allocations.idxOf ptr = pos := by
      obtain ⟨bound, rfl⟩ := List.getElem?_eq_some_iff.mp here
      exact nodup.idxOf_getElem pos bound
    refine ⟨?_, by rw [swapRemove, if_pos member, place]⟩
    obtain ⟨id, allocations, index⟩ := frame
    obtain ⟨init, last, rfl⟩ := (eq_nil_or_concat' allocations).resolve_left (ne_nil_of_mem member)
    dsimp only at found here place mirrors
    simp only [getLastD_concat]
    by_cases isLast : pos = init.length
    · -- The last pointer itself is removed.
      subst isLast
      obtain rfl : last = ptr := by simpa using here
      have removed : ((init ++ [last]).set init.length last).dropLast = init := by simp
      intro other pos'
      have named := mirrors other pos'
      have known := mirrors last pos'
      simp only [removed, getElem?_eq_none (Nat.le_refl init.length), update_apply]
      grind
    · have before : pos < init.length := by grind
      have removed : ((init ++ [last]).set pos last).dropLast = init.set pos last := by
        rw [set_append_left _ _ before, dropLast_concat]
      intro other pos'
      have named := mirrors other pos'
      have known := mirrors ptr pos'
      have moved := mirrors last init.length
      have moved' := mirrors last pos'
      simp only [removed, getElem?_set_self before, update_apply]
      grind

end ManualFrame

namespace ManualFrame

def ids (frames : List ManualFrame) : List Nat := frames.map ManualFrame.id

/-- The pointers of the first frame with the identifier. -/
def owned? (frames : List ManualFrame) (frameId : Nat) : Option (List I64) :=
  (frames.find? (·.id == frameId)).map ManualFrame.allocations

variable {frames : List ManualFrame} {frame : ManualFrame} {frameId : Nat} {ptr : I64}
  {change : ManualFrame → ManualFrame}

theorem owned?_cons (frame : ManualFrame) (frames : List ManualFrame) :
    owned? (frame :: frames) = update (owned? frames) frame.id (some frame.allocations) := by
  funext other
  by_cases same : frame.id = other
  · subst same
    simp [owned?]
  · simp [owned?, same, update_of_ne (Ne.symm same)]

theorem owned?_eq_none (absent : frameId ∉ ids frames) : owned? frames frameId = none := by
  simp only [owned?, Option.map_eq_none_iff, find?_eq_none, beq_iff_eq]
  rintro frame member rfl
  exact absent (mem_map_of_mem member)

section
variable (sameId : ∀ frame, (change frame).id = frame.id)
include sameId

theorem ids_updateFirst : ids (updateFirst frameId change frames) = ids frames := by
  fun_induction updateFirst frameId change frames <;> simp_all [ids]

theorem ids_updateLast : ids (updateLast frameId change frames) = ids frames := by
  rw [updateLast, ids, map_reverse, ← ids, ids_updateFirst sameId, ids, map_reverse,
    reverse_reverse, ids]

theorem owned?_updateFirst {acts : List I64 → List I64}
    (same : ∀ frame ∈ frames, (change frame).allocations = acts frame.allocations) :
    owned? (updateFirst frameId change frames) =
      update (owned? frames) frameId ((owned? frames frameId).map acts) := by
  fun_induction updateFirst frameId change frames with
  | case1 => simp [owned?]
  | case2 frame rest here =>
    subst here
    simp [owned?_cons, sameId, same frame mem_cons_self]
  | case3 frame rest different ih =>
    rw [owned?_cons, ih fun other member => same other (mem_cons_of_mem _ member), owned?_cons,
      update_comm (Ne.symm different), update_of_ne (Ne.symm different)]

end

@[simp] theorem ids_trackFirst : ids (updateFirst frameId (track ptr) frames) = ids frames :=
  ids_updateFirst fun _ => rfl

@[simp] theorem ids_trackLast : ids (updateLast frameId (track ptr) frames) = ids frames :=
  ids_updateLast fun _ => rfl

@[simp] theorem ids_untrackLast : ids (updateLast frameId (untrack ptr) frames) = ids frames :=
  ids_updateLast fun _ => untrack_id

/-- What holds of all frames still holds if it is kept where a frame changes. -/
theorem forall_updateFirst {holds : ManualFrame → Prop} (all : ∀ frame ∈ frames, holds frame)
    (kept : ∀ frame ∈ frames, frame.id = frameId → holds (change frame)) :
    ∀ frame ∈ updateFirst frameId change frames, holds frame := by
  fun_induction updateFirst frameId change frames with
  | case1 => exact all
  | case2 frame rest here =>
    exact forall_mem_cons.mpr
      ⟨kept frame mem_cons_self here, fun other member => all other (mem_cons_of_mem _ member)⟩
  | case3 frame rest different ih =>
    exact forall_mem_cons.mpr
      ⟨all frame mem_cons_self, ih (fun other member => all other (mem_cons_of_mem _ member))
      fun other member => kept other (mem_cons_of_mem _ member)⟩

theorem forall_updateLast {holds : ManualFrame → Prop} (all : ∀ frame ∈ frames, holds frame)
    (kept : ∀ frame ∈ frames, frame.id = frameId → holds (change frame)) :
    ∀ frame ∈ updateLast frameId change frames, holds frame := by
  intro frame member
  refine forall_updateFirst (fun other inside => all other (mem_reverse.mp inside))
    (fun other inside => kept other (mem_reverse.mp inside)) frame (mem_reverse.mp member)

theorem owned?_append_singleton (fresh : frame.id ∉ ids frames) :
    owned? (frames ++ [frame]) = update (owned? frames) frame.id (some frame.allocations) := by
  induction frames with
  | nil => simp [owned?_cons]
  | cons first rest ih =>
    obtain ⟨different, fresh'⟩ : frame.id ≠ first.id ∧ frame.id ∉ ids rest := by
      simpa [ids] using fresh
    rw [cons_append, owned?_cons, owned?_cons, ih fresh', update_comm different]

theorem owned?_reverse (unique : (ids frames).Nodup) : owned? frames.reverse = owned? frames := by
  induction frames with
  | nil => rfl
  | cons frame rest ih =>
    obtain ⟨absent, unique'⟩ := nodup_cons.mp unique
    have absent' : frame.id ∉ ids rest.reverse := by simpa [ids] using absent
    rw [reverse_cons, owned?_append_singleton absent', ih unique', owned?_cons]

theorem owned?_of_mem (unique : (ids frames).Nodup) (member : frame ∈ frames) :
    owned? frames frame.id = some frame.allocations := by
  induction frames with
  | nil => cases member
  | cons first rest ih =>
    obtain ⟨absent, unique'⟩ := nodup_cons.mp unique
    rw [owned?_cons]
    rcases mem_cons.mp member with rfl | later
    · exact update_self ..
    · have different : frame.id ≠ first.id := fun same => absent (same ▸ mem_map_of_mem later)
      rw [update_of_ne different, ih unique' later]

section
variable (unique : (ids frames).Nodup)
include unique

theorem owned?_updateLast (sameId : ∀ frame, (change frame).id = frame.id)
    {acts : List I64 → List I64}
    (same : ∀ frame ∈ frames, (change frame).allocations = acts frame.allocations) :
    owned? (updateLast frameId change frames) =
      update (owned? frames) frameId ((owned? frames frameId).map acts) := by
  have reversed : (ids frames.reverse).Nodup := by simpa [ids] using unique
  rw [updateLast, owned?_reverse (by rwa [ids_updateFirst sameId]),
    owned?_updateFirst sameId fun frame member => same frame (mem_reverse.mp member),
      owned?_reverse unique]

theorem owned?_trackLast : owned? (updateLast frameId (track ptr) frames) =
    update (owned? frames) frameId ((owned? frames frameId).map (· ++ [ptr])) :=
  owned?_updateLast unique (fun _ => track_id) fun _ _ => rfl

theorem owned?_untrackLast (mirrored : ∀ frame ∈ frames, frame.Mirrors) :
    owned? (updateLast frameId (untrack ptr) frames) =
      update (owned? frames) frameId ((owned? frames frameId).map (swapRemove ptr)) :=
  owned?_updateLast unique (fun _ => untrack_id) fun frame member =>
    (mirrored frame member).untrack.2

end

theorem owned?_trackFirst : owned? (updateFirst frameId (track ptr) frames) =
    update (owned? frames) frameId ((owned? frames frameId).map (· ++ [ptr])) :=
  owned?_updateFirst (fun _ => track_id) fun _ _ => rfl

theorem ids_eraseP : ids (frames.eraseP (·.id == frameId)) = (ids frames).erase frameId := by
  induction frames with
  | nil => rfl
  | cons frame rest ih =>
    by_cases same : frame.id = frameId
    · simp [ids, same]
    · simpa [ids, same] using ih

theorem owned?_eraseP (unique : (ids frames).Nodup) :
    owned? (frames.eraseP (·.id == frameId)) = update (owned? frames) frameId none := by
  induction frames with
  | nil => simp [owned?]
  | cons frame rest ih =>
    obtain ⟨absent, unique'⟩ := nodup_cons.mp unique
    by_cases same : frame.id = frameId
    · subst same
      rw [eraseP_cons_of_pos (by simp), owned?_cons, update_idem, ← owned?_eq_none absent,
        update_eq_self]
    · rw [eraseP_cons_of_neg (by simpa using same), owned?_cons, ih unique', owned?_cons,
        update_comm (Ne.symm same)]

end ManualFrame

namespace FrameTable

/-- The table with its registry as a function. -/
def view (table : FrameTable) : AllocationTable :=
  ⟨table.allocations, ManualFrame.owned? table.frames, table.quarantine⟩

/-- No two open frames share an identifier. -/
def Unique (table : FrameTable) : Prop := (ManualFrame.ids table.frames).Nodup

/-- The index of every open frame mirrors its pointers. -/
def Mirrored (table : FrameTable) : Prop := ∀ frame ∈ table.frames, frame.Mirrors

variable {table : FrameTable} {ptr : I64}

section Mirrored
variable (mirrored : table.Mirrored)
include mirrored

theorem Mirrored.removeFromFrame (frameId : Nat) : (table.removeFromFrame frameId ptr).Mirrored :=
  ManualFrame.forall_updateLast mirrored fun frame member _ => (mirrored frame member).untrack.1

theorem Mirrored.freeTracked (ptr : I64) : (table.freeTracked ptr).2.Mirrored := by
  unfold FrameTable.freeTracked
  split
  · exact mirrored
  · exact mirrored.removeFromFrame _

theorem Mirrored.takeFrame (frameId : Nat) : (table.takeFrame frameId).2.Mirrored := by
  unfold FrameTable.takeFrame
  split_ifs
  · exact mirrored
  · split
    · exact fun frame member => mirrored frame (mem_of_mem_eraseP member)
    · exact mirrored

variable (unique : table.Unique) (invariants : table.view.CheckInvariants)
include unique invariants

omit mirrored in
/-- A frame other than its owner does not list a pointer. -/
theorem Unique.not_mem_allocations {frame : ManualFrame} (member : frame ∈ table.frames)
    (other : ∀ entry, table.allocations ptr = some entry → entry.frameId ≠ frame.id) :
      ptr ∉ frame.allocations := by
  intro inside
  obtain ⟨entry, found, owner⟩ := invariants.tracked (ManualFrame.owned?_of_mem unique member)
    inside
  exact other entry found owner

theorem Mirrored.insertAllocation (frameId size : Nat) (untracked : table.allocations ptr = none) :
    (table.insertAllocation frameId size ptr).Mirrored := by
  refine ManualFrame.forall_updateFirst mirrored fun frame member _ => (mirrored frame member).track
    ?_
  refine unique.not_mem_allocations invariants member fun entry found => ?_
  rw [untracked] at found
  cases found

/-- A pointer that has left its frame is not listed in the base frame. -/
theorem Mirrored.not_mem_base {entry : ManualAllocation}
    (found : table.allocations ptr = some entry)
    (inner : entry.frameId ≠ 0) {frame : ManualFrame}
    (member : frame ∈ (table.removeFromFrame entry.frameId ptr).frames) (base : frame.id = 0) :
    ptr ∉ frame.allocations := by
  have unique' : (ManualFrame.ids (table.removeFromFrame entry.frameId ptr).frames).Nodup := by
    rw [FrameTable.removeFromFrame, ManualFrame.ids_untrackLast]
    exact unique
  have listed := ManualFrame.owned?_of_mem unique' member
  rw [FrameTable.removeFromFrame, ManualFrame.owned?_untrackLast unique mirrored, base,
    update_of_ne (Ne.symm inner)] at listed
  intro inside
  obtain ⟨entry', found', owner⟩ := invariants.tracked listed inside
  cases found.symm.trans found'
  exact inner owner

theorem Mirrored.escapeAllocation (ptr : I64) (currentFrame : Nat) :
    (table.escapeAllocation ptr currentFrame).2.Mirrored := by
  unfold FrameTable.escapeAllocation
  split_ifs with base
  · exact mirrored
  · split
    · exact mirrored
    · next entry found =>
      split_ifs with owner
      · subst owner
        exact ManualFrame.forall_updateLast (mirrored.removeFromFrame _) fun frame member isBase =>
          (mirrored.removeFromFrame _ frame member).track
            (mirrored.not_mem_base unique invariants found base member isBase)
      · exact mirrored

theorem Mirrored.escapeStoredAllocation (ptr : I64) :
    (table.escapeStoredAllocation ptr).2.Mirrored := by
  unfold FrameTable.escapeStoredAllocation
  split
  · exact mirrored
  · next entry found =>
    split_ifs with base
    · exact mirrored
    · exact ManualFrame.forall_updateFirst (mirrored.removeFromFrame _) fun frame member isBase =>
        (mirrored.removeFromFrame _ frame member).track
          (mirrored.not_mem_base unique invariants found base member isBase)

end Mirrored

/-- A quarantined address is not allocated again. -/
def Pinned (table : FrameTable) : Prop := ∀ ptr ∈ table.quarantine, table.allocations ptr = none

section Pinned
variable (pinned : table.Pinned)
include pinned

theorem Pinned.freeTracked (ptr : I64) : (table.freeTracked ptr).2.Pinned := by
  unfold FrameTable.freeTracked
  split
  · exact pinned
  · intro other member
    change update table.allocations ptr none other = none
    rw [update_apply]
    split_ifs with same
    · rfl
    · refine pinned other ((mem_append.mp (mem_of_mem_drop member)).resolve_right ?_)
      simpa using same

theorem Pinned.drainFrame (frameId : Nat) : (table.drainFrame frameId).Pinned := by
  have taken : (table.takeFrame frameId).2.Pinned := by
    unfold FrameTable.takeFrame
    split_ifs
    · exact pinned
    · split <;> exact pinned
  exact List.foldlRecOn _ _ taken fun _ kept ptr _ => kept.freeTracked ptr

/-- The entry of a live pointer may change. -/
theorem Pinned.update {changed : FrameTable} {entry : ManualAllocation}
    {changes : Option ManualAllocation}
    (found : table.allocations ptr = some entry) (same : changed.quarantine = table.quarantine)
    (updated : changed.allocations = update table.allocations ptr changes) : changed.Pinned := by
  intro other member
  have dead := pinned other (same ▸ member)
  have different : other ≠ ptr := by
    rintro rfl
    cases dead.symm.trans found
  rw [updated, update_of_ne different, dead]

theorem Pinned.escapeAllocation (ptr : I64) (currentFrame : Nat) :
    (table.escapeAllocation ptr currentFrame).2.Pinned := by
  unfold FrameTable.escapeAllocation
  split_ifs
  · exact pinned
  · split
    · exact pinned
    · next entry found =>
      split_ifs
      · exact pinned.update found rfl rfl
      · exact pinned

theorem Pinned.escapeStoredAllocation (ptr : I64) :
    (table.escapeStoredAllocation ptr).2.Pinned := by
  unfold FrameTable.escapeStoredAllocation
  split
  · exact pinned
  · next entry found =>
    split_ifs
    · exact pinned
    · exact pinned.update found rfl rfl

theorem Pinned.insertAllocation (frameId size : Nat) (unpinned : ptr ∉ table.quarantine) :
    (table.insertAllocation frameId size ptr).Pinned := by
  intro other member
  have different : other ≠ ptr := fun same => unpinned (same ▸ member)
  exact (update_of_ne different ..).trans (pinned other member)

end Pinned

theorem ids_freeTracked (table : FrameTable) (ptr : I64) :
    ManualFrame.ids (table.freeTracked ptr).2.frames = ManualFrame.ids table.frames := by
  unfold freeTracked
  split <;> simp [removeFromFrame]

theorem ids_takeFrame (table : FrameTable) {frameId : Nat} (inner : frameId ≠ 0) :
    ManualFrame.ids (table.takeFrame frameId).2.frames = (ManualFrame.ids table.frames).erase
      frameId := by
  rw [takeFrame, if_neg inner]
  cases found : table.frames.find? (·.id == frameId) with
  | none =>
    have absent : frameId ∉ ManualFrame.ids table.frames := by
      intro member
      obtain ⟨frame, inside, same⟩ := mem_map.mp member
      exact find?_eq_none.mp found frame inside (by simpa using same)
    rw [erase_of_not_mem absent]
  | some frame => exact ManualFrame.ids_eraseP

theorem ids_escapeAllocation (table : FrameTable) (ptr : I64) (currentFrame : Nat) :
    ManualFrame.ids (table.escapeAllocation ptr currentFrame).2.frames =
      ManualFrame.ids table.frames := by
  unfold escapeAllocation
  split_ifs
  · rfl
  · split
    · rfl
    · split_ifs <;> simp [removeFromFrame]

section
variable (unique : table.Unique) (mirrored : table.Mirrored)
include unique mirrored

theorem Unique.view_freeTracked (ptr : I64) :
    (table.freeTracked ptr).2.view = table.view.freeTracked ptr := by
  unfold freeTracked AllocationTable.freeTracked
  rw [show table.view.allocations = table.allocations from rfl]
  cases table.allocations ptr with
  | none => rfl
  | some entry =>
    simp only [view, removeFromFrame, AllocationTable.removeFromFrame,
      ManualFrame.owned?_untrackLast unique mirrored]

omit mirrored in
theorem Unique.view_takeFrame (frameId : Nat) :
    (table.takeFrame frameId).1 = (table.view.takeFrame frameId).1 ∧
      (table.takeFrame frameId).2.view = (table.view.takeFrame frameId).2 := by
  unfold takeFrame AllocationTable.takeFrame
  by_cases base : frameId = 0
  · simp [base]
  rw [if_neg base, if_neg base]
  cases found : table.frames.find? (·.id == frameId) with
  | none =>
    have absent : ManualFrame.owned? table.frames frameId = none := by
      rw [ManualFrame.owned?, found, Option.map_none]
    refine ⟨by simp [view, absent], ?_⟩
    rw [show table.view.frames = ManualFrame.owned? table.frames from rfl, ← absent, update_eq_self]
    rfl
  | some frame =>
    exact ⟨by
      simp [view, ManualFrame.owned?, found], by simp only [view, ManualFrame.owned?_eraseP unique]⟩

omit unique mirrored in
theorem view_foldl_freeTracked (ptrs : List I64) (unique : table.Unique)
    (mirrored : table.Mirrored) :
    (ptrs.foldl (fun rest ptr => (rest.freeTracked ptr).2) table).view =
      ptrs.foldl AllocationTable.freeTracked table.view ∧
      ManualFrame.ids (ptrs.foldl (fun rest ptr => (rest.freeTracked ptr).2) table).frames =
        ManualFrame.ids table.frames ∧
      (ptrs.foldl (fun rest ptr => (rest.freeTracked ptr).2) table).Mirrored := by
  induction ptrs generalizing table with
  | nil => exact ⟨rfl, rfl, mirrored⟩
  | cons ptr rest ih =>
    have same := ids_freeTracked table ptr
    have unique' : (table.freeTracked ptr).2.Unique := by rwa [Unique, same]
    obtain ⟨viewed, ids, mirrored'⟩ := ih unique' (mirrored.freeTracked ptr)
    exact ⟨by rw [foldl_cons, foldl_cons, viewed, unique.view_freeTracked mirrored], by
      rw [foldl_cons, ids, same], mirrored'⟩

theorem Unique.view_drainFrame {frameId : Nat} (inner : frameId ≠ 0) :
    (table.drainFrame frameId).view = table.view.drainFrame frameId ∧
      ManualFrame.ids (table.drainFrame frameId).frames = (ManualFrame.ids table.frames).erase
        frameId ∧
      (table.drainFrame frameId).Mirrored := by
  have ids := ids_takeFrame table inner
  obtain ⟨ptrs, viewed⟩ := unique.view_takeFrame frameId
  have unique' : (table.takeFrame frameId).2.Unique := by
    rw [Unique, ids]
    exact unique.erase frameId
  obtain ⟨drained, ids', mirrored'⟩ :=
    view_foldl_freeTracked (table.takeFrame frameId).1 unique' (mirrored.takeFrame frameId)
  exact ⟨by rw [drainFrame, drained, AllocationTable.drainFrame, ptrs, viewed], by
    rw [drainFrame, ids', ids], mirrored'⟩

theorem Unique.view_escapeAllocation (ptr : I64) (currentFrame : Nat) :
    (table.escapeAllocation ptr currentFrame).2.view =
      (table.view.escapeAllocation ptr currentFrame).2 := by
  unfold escapeAllocation AllocationTable.escapeAllocation
  by_cases base : currentFrame = 0
  · simp [base]
  rw [if_neg base, if_neg base, show table.view.allocations = table.allocations from rfl]
  cases table.allocations ptr with
  | none => rfl
  | some entry =>
    by_cases owner : entry.frameId = currentFrame
    · have unique' :
        (ManualFrame.ids
        (ManualFrame.updateLast currentFrame (.untrack ptr) table.frames)).Nodup := by
        rwa [ManualFrame.ids_untrackLast]
      simp only [owner, if_true, view, removeFromFrame, AllocationTable.removeFromFrame,
        AllocationTable.trackIn,
        ManualFrame.owned?_trackLast unique', ManualFrame.owned?_untrackLast unique mirrored]
    · simp only [owner, if_false]

/-- A stored value is escaped from the frame that owns it. -/
theorem Unique.view_escapeStoredAllocation {ptr : I64} {entry : ManualAllocation}
    (found : table.allocations ptr = some entry) :
    (table.escapeStoredAllocation ptr).2.view =
      (table.view.escapeAllocation ptr entry.frameId).2 := by
  rw [← unique.view_escapeAllocation mirrored]
  simp only [escapeStoredAllocation, escapeAllocation, found, if_true]
  split_ifs
  · rfl
  · have unique' :
      (ManualFrame.ids
      (ManualFrame.updateLast entry.frameId (.untrack ptr) table.frames)).Nodup := by
      rwa [ManualFrame.ids_untrackLast]
    simp only [view, removeFromFrame, ManualFrame.owned?_trackFirst,
      ManualFrame.owned?_trackLast unique']

end

section
variable (table : FrameTable) (ptr : I64)

theorem ids_escapeStoredAllocation :
    ManualFrame.ids (table.escapeStoredAllocation ptr).2.frames = ManualFrame.ids table.frames := by
  unfold escapeStoredAllocation
  split
  · rfl
  · split_ifs <;> simp [removeFromFrame]

theorem freeTracked_counters :
    (table.freeTracked ptr).2.nextFrame = table.nextFrame ∧ (table.freeTracked ptr).2.generation =
      table.generation := by
  unfold freeTracked
  split <;> exact ⟨rfl, rfl⟩

theorem drainFrame_counters (frameId : Nat) :
    (table.drainFrame frameId).nextFrame = table.nextFrame ∧ (table.drainFrame frameId).generation =
      table.generation := by
  have freed : ∀ (ptrs : List I64) (table : FrameTable),
      (ptrs.foldl (fun rest ptr => (rest.freeTracked ptr).2) table).nextFrame = table.nextFrame ∧
        (ptrs.foldl (fun rest ptr => (rest.freeTracked ptr).2) table).generation =
          table.generation := by
    intro ptrs
    induction ptrs with
    | nil => exact fun _ => ⟨rfl, rfl⟩
    | cons ptr rest ih =>
      intro table
      rw [foldl_cons, (ih _).1, (ih _).2]
      exact table.freeTracked_counters ptr
  rw [drainFrame, (freed _ _).1, (freed _ _).2, takeFrame]
  split_ifs
  · exact ⟨rfl, rfl⟩
  · split <;> exact ⟨rfl, rfl⟩

theorem foldl_drainFrame_counters (closed : List Nat) :
    (closed.foldl drainFrame table).nextFrame = table.nextFrame ∧
      (closed.foldl drainFrame table).generation = table.generation := by
  induction closed generalizing table with
  | nil => exact ⟨rfl, rfl⟩
  | cons frameId rest ih =>
    obtain ⟨next, generation⟩ := table.drainFrame_counters frameId
    rw [foldl_cons, (ih _).1, (ih _).2]
    exact ⟨next, generation⟩

theorem escapeAllocation_counters (currentFrame : Nat) :
    (table.escapeAllocation ptr currentFrame).2.nextFrame = table.nextFrame ∧
      (table.escapeAllocation ptr currentFrame).2.generation = table.generation := by
  unfold escapeAllocation
  split_ifs
  · exact ⟨rfl, rfl⟩
  · split
    · exact ⟨rfl, rfl⟩
    · split_ifs <;> exact ⟨rfl, rfl⟩

theorem escapeStoredAllocation_counters :
    (table.escapeStoredAllocation ptr).2.nextFrame = table.nextFrame ∧
      (table.escapeStoredAllocation ptr).2.generation = table.generation := by
  unfold escapeStoredAllocation
  split
  · exact ⟨rfl, rfl⟩
  · split_ifs <;> exact ⟨rfl, rfl⟩

end

theorem Unique.view_foldl_drainFrame (unique : table.Unique) (mirrored : table.Mirrored)
    {closed : List Nat} (inner : ∀ frameId ∈ closed, frameId ≠ 0) :
    (closed.foldl drainFrame table).view = closed.foldl AllocationTable.drainFrame table.view ∧
      ManualFrame.ids (closed.foldl drainFrame table).frames = (ManualFrame.ids table.frames).diff
        closed ∧
      (closed.foldl drainFrame table).Mirrored := by
  induction closed generalizing table with
  | nil => simpa using mirrored
  | cons frameId rest ih =>
    obtain ⟨viewed, ids, mirrored'⟩ := unique.view_drainFrame mirrored (inner frameId (by simp))
    have unique' : (table.drainFrame frameId).Unique := by
      rw [Unique, ids]
      exact unique.erase frameId
    obtain ⟨viewed', ids', mirrored''⟩ := ih unique' mirrored' fun other member => inner other
      (by simp [member])
    exact ⟨by rw [foldl_cons, viewed', viewed, foldl_cons], by
      rw [foldl_cons, ids', ids, diff_cons], mirrored''⟩

theorem view_insertAllocation (table : FrameTable) (frameId size : Nat) (ptr : I64) :
    (table.insertAllocation frameId size ptr).view =
      { table.view with allocations := update table.allocations ptr (some ⟨frameId, size⟩) }.trackIn
        frameId ptr := by
  simp only [view, insertAllocation, AllocationTable.trackIn, ManualFrame.owned?_trackFirst]

end FrameTable

end SpectraLang

import SpectraLang.Semantics.Machine

/-! # Tracked allocations and their frames

The runtime keeps one entry for every manual allocation and one list of pointers for every open
frame; the base frame `0` is never closed. `frameExit` frees what the closed frames own, and
`manualEscape` moves a pointer of the current frame to the base frame, charging its size to a
budget. A hash map is its lookup function, the registry of frames the pointers listed under each
identifier.
-/

open Function

namespace SpectraLang

open List

/-- An entry of the table: the owning frame and the size. -/
structure ManualAllocation where
  frameId : Nat
  byteLen : Nat

structure AllocationTable where
  allocations : I64 → Option ManualAllocation
  frames : Nat → Option (List I64)
  quarantine : List I64

/-- `swap_remove` at the position of the element: the last element takes its place. -/
def swapRemove (ptr : I64) (ptrs : List I64) : List I64 :=
  if ptr ∈ ptrs then (ptrs.set (ptrs.idxOf ptr) (ptrs.getLastD ptr)).dropLast else ptrs

theorem swapRemove_perm (ptr : I64) (ptrs : List I64) :
    (swapRemove ptr ptrs).Perm (ptrs.erase ptr) := by
  unfold swapRemove
  split
  case isFalse absent => rw [erase_of_not_mem absent]
  case isTrue member =>
    obtain ⟨init, last, rfl⟩ := (eq_nil_or_concat' ptrs).resolve_left (ne_nil_of_mem member)
    simp only [getLastD_concat]
    by_cases inside : ptr ∈ init
    · have bound : init.idxOf ptr < init.length := idxOf_lt_length_of_mem inside
      rw [idxOf_append_of_mem inside, set_append_left _ _ bound, dropLast_concat,
        erase_append_left _ inside, erase_eq_eraseIdx_of_idxOf rfl]
      exact (set_perm_cons_eraseIdx bound last).trans (perm_append_singleton _ _).symm
    · obtain rfl : ptr = last := by simpa [inside] using member
      rw [idxOf_append_of_notMem inside]
      simp [erase_append_right _ inside]

variable {ptrs : List I64}

namespace AllocationTable

/-- `remove_from_frame`. -/
def removeFromFrame (table : AllocationTable) (frameId : Nat) (ptr : I64) : AllocationTable :=
  { table with frames := update table.frames frameId ((table.frames frameId).map (swapRemove ptr)) }

/-- `Frame::track` in the registered frame. -/
def trackIn (table : AllocationTable) (frameId : Nat) (ptr : I64) : AllocationTable :=
  { table with frames := update table.frames frameId ((table.frames frameId).map (· ++ [ptr])) }

/-- `take_frame`: the base frame is never removed. -/
def takeFrame (table : AllocationTable) (frameId : Nat) : List I64 × AllocationTable :=
  if frameId = 0 then ([], table)
  else ((table.frames frameId).getD [], { table with frames := update table.frames frameId none })

/-- Tombstones kept after a free. -/
def quarantineCapacity : Nat := 64

/-- `free_tracked`: unknown pointers change nothing. -/
def freeTracked (table : AllocationTable) (ptr : I64) : AllocationTable :=
  match table.allocations ptr with
  | none => table
  | some entry =>
    let freed := { table with allocations := update table.allocations ptr none }
    let quarantine := table.quarantine ++ [ptr]
    { freed.removeFromFrame entry.frameId ptr with
      quarantine := quarantine.drop (quarantine.length - quarantineCapacity) }

/-- `escape_allocation_locked`: the moved bytes and the table. -/
def escapeAllocation (table : AllocationTable) (ptr : I64) (currentFrame : Nat) :
    Nat × AllocationTable :=
  if currentFrame = 0 then (0, table)
  else
    match table.allocations ptr with
    | none => (0, table)
    | some entry =>
      if entry.frameId = currentFrame then
        let removed := table.removeFromFrame currentFrame ptr
        let moved := { removed with
          allocations := update removed.allocations ptr (some { entry with frameId := 0 }) }
        (entry.byteLen, moved.trackIn 0 ptr)
      else (0, table)

/-- `check_invariants`: the frames list exactly the tracked pointers, each under its owner and
once. -/
structure CheckInvariants (table : AllocationTable) : Prop where
  base : (table.frames 0).isSome
  tracked : ∀ ⦃frameId ptrs⦄, table.frames frameId = some ptrs → ∀ ⦃ptr⦄, ptr ∈ ptrs →
    ∃ entry, table.allocations ptr = some entry ∧ entry.frameId = frameId
  listed : ∀ ⦃ptr entry⦄, table.allocations ptr = some entry →
    ∃ ptrs, table.frames entry.frameId = some ptrs ∧ ptr ∈ ptrs
  nodup : ∀ ⦃frameId ptrs⦄, table.frames frameId = some ptrs → ptrs.Nodup

/-- The pointers a frame owns. -/
def owned (table : AllocationTable) (frameId : Nat) : List I64 := (table.frames frameId).getD []

/-- Frees the pointers of one frame and closes it. -/
def drainFrame (table : AllocationTable) (frameId : Nat) : AllocationTable :=
  (table.takeFrame frameId).1.foldl freeTracked (table.takeFrame frameId).2

variable {table : AllocationTable} {frameId : Nat} {ptr : I64} {entry : ManualAllocation}

/-- Frees of pointers whose frame is closed already remove their entries and nothing else. -/
theorem foldl_freeTracked (closed : table.frames frameId = none)
    (tracked : ∀ ptr ∈ ptrs, ∀ entry, table.allocations ptr = some entry →
      entry.frameId = frameId) :
    (ptrs.foldl freeTracked table).frames = table.frames ∧
      ∀ ptr, (ptrs.foldl freeTracked table).allocations ptr = if ptr ∈ ptrs then none else
        table.allocations ptr := by
  induction ptrs generalizing table with
  | nil => simp
  | cons first rest ih =>
    have step : (table.freeTracked first).frames = table.frames ∧
        (table.freeTracked first).allocations = update table.allocations first none := by
      cases found : table.allocations first with
      | none =>
        have unchanged : update table.allocations first none = table.allocations := by
          rw [← found, update_eq_self]
        simp only [freeTracked, found, unchanged, and_self]
      | some entry =>
        have owner := tracked first (by simp) entry found
        simp only [freeTracked, found, removeFromFrame, owner, closed, Option.map_none, and_true]
        rw [← closed, update_eq_self]
    have tracked' : ∀ ptr ∈ rest, ∀ entry, (table.freeTracked first).allocations ptr = some entry →
        entry.frameId = frameId := by
      intro ptr member entry found
      rw [step.2] at found
      by_cases same : ptr = first
      · simp [same] at found
      · rw [update_of_ne same] at found
        exact tracked ptr (by simp [member]) entry found
    obtain ⟨frames, allocations⟩ := ih (by rw [step.1]; exact closed) tracked'
    refine ⟨by rw [foldl_cons, frames, step.1], fun ptr => ?_⟩
    rw [foldl_cons, allocations, step.2]
    by_cases same : ptr = first <;> simp [same]

/-- Every owner is open, and an open frame lists what it owns, once. -/
theorem checkInvariants_iff : table.CheckInvariants ↔ (table.frames 0).isSome ∧
    (∀ ptr entry, table.allocations ptr = some entry → (table.frames entry.frameId).isSome) ∧
    ∀ frameId ptrs, table.frames frameId = some ptrs → ptrs.Nodup ∧ ∀ ptr, ptr ∈ ptrs ↔
      ∃ entry, table.allocations ptr = some entry ∧ entry.frameId = frameId := by
  constructor
  · refine fun invariants =>
      ⟨invariants.base, fun ptr entry found => ?_, fun frameId ptrs registered =>
      ⟨invariants.nodup registered,
        fun ptr => ⟨fun member => invariants.tracked registered member, ?_⟩⟩⟩
    · obtain ⟨ptrs, registered, -⟩ := invariants.listed found
      rw [registered, Option.isSome_some]
    · rintro ⟨entry, found, rfl⟩
      obtain ⟨owned, registered', member⟩ := invariants.listed found
      cases registered.symm.trans registered'
      exact member
  · rintro ⟨base, owners, listed⟩
    refine ⟨base, fun _ _ registered ptr =>
      ((listed _ _ registered).2 ptr).mp, fun ptr entry found => ?_,
      fun _ _ registered => (listed _ _ registered).1⟩
    obtain ⟨ptrs, registered⟩ := Option.isSome_iff_exists.mp (owners ptr entry found)
    exact ⟨ptrs, registered, ((listed _ _ registered).2 ptr).mpr ⟨entry, found, rfl⟩⟩

/-- The table after `ptr` moved from the frame to the base frame. -/
def moveToBase (table : AllocationTable) (ptr : I64) (entry : ManualAllocation) (frameId : Nat) :
    AllocationTable :=
  { table with
    allocations := update table.allocations ptr (some { entry with frameId := 0 })
    frames := update (update table.frames frameId ((table.frames frameId).map (swapRemove ptr))) 0
      ((table.frames 0).map (· ++ [ptr])) }

theorem escapeAllocation_of_owner (inner : frameId ≠ 0) (found : table.allocations ptr = some entry)
    (owner : entry.frameId = frameId) :
    table.escapeAllocation ptr frameId = (entry.byteLen, table.moveToBase ptr entry frameId) := by
  simp [escapeAllocation, inner, found, owner, removeFromFrame, trackIn, moveToBase,
    update_of_ne (Ne.symm inner)]

theorem escapeAllocation_of_not_owner
    (other : ∀ entry, table.allocations ptr = some entry → entry.frameId ≠ frameId) :
    table.escapeAllocation ptr frameId = (0, table) := by
  unfold escapeAllocation
  split
  case isTrue => rfl
  case isFalse =>
    cases found : table.allocations ptr with
    | none => rfl
    | some entry => exact if_neg (other entry found)

theorem moveToBase_allocations_of_ne {other : I64} (different : other ≠ ptr) :
    (table.moveToBase ptr entry frameId).allocations other = table.allocations other :=
  update_of_ne different ..

section
variable (invariants : table.CheckInvariants)
include invariants

theorem CheckInvariants.mem_owned :
    ptr ∈ table.owned frameId ↔ ∃ entry, table.allocations ptr = some entry ∧
      entry.frameId = frameId := by
  constructor
  · intro member
    cases frames : table.frames frameId with
    | none => simp [owned, frames] at member
    | some ptrs =>
      rw [owned, frames, Option.getD_some] at member
      exact invariants.tracked frames member
  · rintro ⟨entry, found, rfl⟩
    obtain ⟨ptrs, frames, member⟩ := invariants.listed found
    rwa [owned, frames, Option.getD_some]

theorem CheckInvariants.nodup_owned : (table.owned frameId).Nodup := by
  cases registered : table.frames frameId with
  | none => simp [owned, registered]
  | some ptrs => simpa [owned, registered] using invariants.nodup registered

theorem CheckInvariants.drainFrame_frames (open' : frameId ≠ 0) :
    (table.drainFrame frameId).frames = update table.frames frameId none ∧
      ∀ ptr, (table.drainFrame frameId).allocations ptr =
        if ptr ∈ table.owned frameId then none else table.allocations ptr := by
  have taken : table.takeFrame frameId =
      (table.owned frameId, { table with frames := update table.frames frameId none }) := by
    simp [takeFrame, open', owned]
  rw [drainFrame, taken]
  refine foldl_freeTracked (update_self ..) fun ptr member entry found => ?_
  obtain ⟨entry', found', owner⟩ := invariants.mem_owned.mp member
  obtain rfl := Option.some.inj (found.symm.trans found')
  exact owner

/-- Closing a frame frees exactly what it owns. -/
theorem CheckInvariants.drainFrame_allocations (frameId : Nat) (ptr : I64) :
    (table.drainFrame frameId).allocations ptr =
      (table.allocations ptr).filter fun entry => frameId = 0 ∨ entry.frameId ≠ frameId := by
  by_cases base : frameId = 0
  · cases found : table.allocations ptr <;>
      simp [AllocationTable.drainFrame, takeFrame, base, found, Option.filter_some]
  · simp only [(invariants.drainFrame_frames base).2, invariants.mem_owned]
    cases table.allocations ptr <;> simp [base, Option.filter_some]

theorem CheckInvariants.drainFrame (frameId : Nat) :
    (table.drainFrame frameId).CheckInvariants := by
  by_cases open' : frameId = 0
  · simpa [AllocationTable.drainFrame, takeFrame, open'] using invariants
  obtain ⟨frames, allocations⟩ := invariants.drainFrame_frames open'
  have owned := @invariants.mem_owned _ frameId
  rw [checkInvariants_iff] at invariants ⊢
  obtain ⟨base, owners, listed⟩ := invariants
  simp only [frames, allocations, owned]
  refine ⟨by grind [update_apply], by grind [update_apply], fun other ptrs registered => ?_⟩
  grind [update_apply]

theorem CheckInvariants.foldl_drainFrame (closed : List Nat) (ptr : I64) :
    (closed.foldl AllocationTable.drainFrame table).allocations ptr =
      (table.allocations ptr).filter fun entry => entry.frameId = 0 ∨ entry.frameId ∉ closed := by
  induction closed generalizing table with
  | nil => cases found : table.allocations ptr <;> simp [found, Option.filter_some]
  | cons frameId rest ih =>
    rw [foldl_cons, ih (invariants.drainFrame frameId), invariants.drainFrame_allocations,
      Option.filter_filter]
    congr 1
    grind

theorem CheckInvariants.freeTracked (ptr : I64) : (table.freeTracked ptr).CheckInvariants := by
  cases found : table.allocations ptr with
  | none => simpa only [AllocationTable.freeTracked, found] using invariants
  | some entry =>
    rw [checkInvariants_iff] at invariants ⊢
    obtain ⟨base, owners, listed⟩ := invariants
    simp only [AllocationTable.freeTracked, found, removeFromFrame]
    refine ⟨by grind [update_apply], by grind [update_apply], fun frameId ptrs registered => ?_⟩
    by_cases same : frameId = entry.frameId
    · rw [same, update_self, Option.map_eq_some_iff] at registered
      obtain ⟨old, before, rfl⟩ := registered
      obtain ⟨nodup, members⟩ := listed _ _ before
      refine ⟨(swapRemove_perm ptr old).nodup_iff.mpr (nodup.erase ptr), fun other => ?_⟩
      rw [(swapRemove_perm ptr old).mem_iff, nodup.mem_erase_iff, members]
      grind [update_apply]
    · rw [update_of_ne same] at registered
      grind [update_apply]

/-- A new pointer is registered in an open frame. -/
theorem CheckInvariants.insert (untracked : table.allocations ptr = none)
    {owned : List I64} (open' : table.frames entry.frameId = some owned) :
    ({ table with allocations := update table.allocations ptr (some entry) }.trackIn entry.frameId
      ptr).CheckInvariants := by
  rw [checkInvariants_iff] at invariants ⊢
  obtain ⟨base, owners, listed⟩ := invariants
  simp only [trackIn, open', Option.map_some]
  refine ⟨by grind [update_apply], by grind [update_apply], fun frameId ptrs registered => ?_⟩
  by_cases same : frameId = entry.frameId
  · rw [same, update_self] at registered
    cases registered
    obtain ⟨nodup, members⟩ := listed _ _ open'
    grind [update_apply, nodup_append]
  · rw [update_of_ne same] at registered
    grind [update_apply]

theorem CheckInvariants.openFrame (closed : table.frames frameId = none) :
    { table with frames := update table.frames frameId (some []) }.CheckInvariants := by
  rw [checkInvariants_iff] at invariants ⊢
  obtain ⟨base, owners, listed⟩ := invariants
  refine ⟨by grind [update_apply], by grind [update_apply], fun other ptrs registered => ?_⟩
  grind [update_apply]

theorem CheckInvariants.moveToBase (inner : frameId ≠ 0)
    (found : table.allocations ptr = some entry) (owner : entry.frameId = frameId) :
    (table.moveToBase ptr entry frameId).CheckInvariants := by
  subst owner
  have freed := invariants.freeTracked ptr
  obtain ⟨owned, registered⟩ := Option.isSome_iff_exists.mp freed.base
  have gone : (table.freeTracked ptr).allocations ptr = none := by
    simp only [AllocationTable.freeTracked, found, removeFromFrame, update_self]
  have moved := @CheckInvariants.insert _ _ { entry with frameId := 0 } freed gone _ registered
  simp only [AllocationTable.freeTracked, found, removeFromFrame, trackIn, update_idem,
    update_of_ne inner.symm] at moved
  exact ⟨moved.base, moved.tracked, moved.listed, moved.nodup⟩

theorem CheckInvariants.escapeAllocation (ptr : I64) (currentFrame : Nat) :
    (table.escapeAllocation ptr currentFrame).2.CheckInvariants := by
  by_cases base : currentFrame = 0
  · rwa [AllocationTable.escapeAllocation, if_pos base]
  by_cases owned : ∃ entry, table.allocations ptr = some entry ∧ entry.frameId = currentFrame
  · obtain ⟨entry, found, owner⟩ := owned
    rw [escapeAllocation_of_owner base found owner]
    exact invariants.moveToBase base found owner
  · rw [escapeAllocation_of_not_owner fun entry found owner => owned ⟨entry, found, owner⟩]
    exact invariants

end

end AllocationTable

/-- The state of the runtime as one thread sees it; its frames are listed innermost first. -/
structure RuntimeState where
  table : AllocationTable
  threadFrames : List Nat
  frame0EscapedBytes : Nat
  frame0BudgetMb : Nat

/-- `split_off` at the innermost occurrence: the frames to close, outermost first, and those that
stay. -/
def closeFrames (frameId : Nat) : List Nat → Option (List Nat × List Nat)
  | [] => none
  | top :: rest =>
    if top = frameId then some ([top], rest)
    else (closeFrames frameId rest).map fun split => (split.1 ++ [top], split.2)

/-- `frame0_budget_check`; a budget of zero is unlimited. -/
def frame0BudgetCheck (bytes budgetMb : Nat) : Bool :=
  budgetMb == 0 || decide (bytes ≤ budgetMb * (1024 * 1024))

/-- The exit code of `spectra_rt_panic`. -/
def Trap.panic : Trap := .external 101

namespace RuntimeState

/-- `account_frame0_escape`. -/
def accountEscape (state : RuntimeState) (escapedBytes : Nat) : Except Trap RuntimeState :=
  if escapedBytes = 0 then .ok state
  else
    let total := state.frame0EscapedBytes + escapedBytes
    if frame0BudgetCheck total state.frame0BudgetMb then .ok
      { state with frame0EscapedBytes := total }
    else .error .panic

/-- `spectra_rt_manual_escape`. -/
def manualEscape (state : RuntimeState) (ptr : I64) (currentFrame : Nat) :
    Except Trap RuntimeState :=
  if ptr = 0 then .ok state
  else
    let escaped := state.table.escapeAllocation ptr currentFrame
    { state with table := escaped.2 }.accountEscape escaped.1

/-- `spectra_rt_manual_frame_exit`: frames the thread does not own are left alone. -/
def frameExit (state : RuntimeState) (frameId : Nat) : RuntimeState :=
  match closeFrames frameId state.threadFrames with
  | none => state
  | some (closed, remaining) =>
    { state with table := closed.foldl AllocationTable.drainFrame state.table, threadFrames :=
      remaining }

/-- Escape the words in order; a breach of the budget ends the process. -/
def escapeAll (state : RuntimeState) (currentFrame : Nat) : List I64 → Except Trap RuntimeState
  | [] => .ok state
  | ptr :: rest =>
    (state.manualEscape ptr currentFrame).bind fun next => next.escapeAll currentFrame rest

theorem escapeAll_append (state : RuntimeState) (currentFrame : Nat) (first second : List I64) :
    state.escapeAll currentFrame (first ++ second) =
      (state.escapeAll currentFrame first).bind fun next => next.escapeAll currentFrame second := by
  induction first generalizing state with
  | nil => rfl
  | cons ptr rest ih =>
    rw [cons_append, escapeAll, escapeAll]
    cases state.manualEscape ptr currentFrame with
    | error trap => rfl
    | ok next => exact ih next

variable {state : RuntimeState} {currentFrame : Nat} {ptr : I64}

variable {entry : ManualAllocation}

theorem closeFrames_of_mem {frameId : Nat} {frames : List Nat} (member : frameId ∈ frames) :
    ∃ closed remaining, closeFrames frameId frames = some (closed, remaining) ∧
      frameId ∈ closed := by
  induction frames with
  | nil => cases member
  | cons top rest ih =>
    by_cases same : top = frameId
    · exact ⟨[top], rest, by simp [closeFrames, same], by simp [same]⟩
    · obtain ⟨closed, remaining, split, inside⟩ := ih (by simpa [Ne.symm same] using member)
      exact ⟨closed ++ [top], remaining, by simp [closeFrames, same, split], by simp [inside]⟩

/-- Leaving a frame of the thread frees an allocation of it and keeps those of the base frame. -/
theorem frameExit_allocations (invariants : state.table.CheckInvariants)
    (mine : currentFrame ∈ state.threadFrames)
    (found : state.table.allocations ptr = some entry)
      (place : entry.frameId = 0 ∨ entry.frameId = currentFrame) :
    (state.frameExit currentFrame).table.allocations ptr = if entry.frameId = 0 then some entry else
      none := by
  obtain ⟨closed, remaining, split, inside⟩ := closeFrames_of_mem mine
  have freed := invariants.foldl_drainFrame closed ptr
  simp only [frameExit, split]
  rw [freed, found, Option.filter_some]
  grind

/-- The budget covers that many more bytes. -/
def affords (state : RuntimeState) (bytes : Nat) : Bool :=
  bytes == 0 || frame0BudgetCheck (state.frame0EscapedBytes + bytes) state.frame0BudgetMb

theorem affords_add (state : RuntimeState) (first second : Nat) :
    state.affords (first + second) = true ↔ state.affords first = true ∧
      { state with frame0EscapedBytes := state.frame0EscapedBytes + first }.affords second =
        true := by
  simp only [affords, frame0BudgetCheck, Bool.or_eq_true, beq_iff_eq, decide_eq_true_eq]
  omega

theorem accountEscape_eq (state : RuntimeState) (bytes : Nat) :
    state.accountEscape bytes = if state.affords bytes then
      .ok { state with frame0EscapedBytes := state.frame0EscapedBytes + bytes } else .error
        .panic := by
  unfold accountEscape affords
  by_cases nothing : bytes = 0 <;> simp [nothing]

/-- The sizes of the pointers of the frame among the words. -/
def escapedBytes (state : RuntimeState) (currentFrame : Nat) (words : List I64) : Nat :=
  (((state.table.owned currentFrame).filter (· ∈ words)).map fun ptr =>
    ((state.table.allocations ptr).map (·.byteLen)).getD 0).sum

/-- The entry of a pointer after the words have been escaped. -/
def escapedEntry (currentFrame : Nat) (words : List I64) (ptr : I64) (entry : ManualAllocation) :
    ManualAllocation :=
  if ptr ∈ words ∧ entry.frameId = currentFrame then { entry with frameId := 0 } else entry

/-- The state after a pointer of the current frame has been moved and its size charged. -/
private def moved (state : RuntimeState) (ptr : I64) (entry : ManualAllocation)
    (currentFrame : Nat) : RuntimeState :=
  { state with
    table := state.table.moveToBase ptr entry currentFrame
    frame0EscapedBytes := state.frame0EscapedBytes + entry.byteLen }

section
variable (invariants : state.table.CheckInvariants)
include invariants

theorem escapedBytes_of_not_owner
    (other : ∀ entry, state.table.allocations ptr = some entry → entry.frameId ≠ currentFrame)
      (rest : List I64) :
    state.escapedBytes currentFrame (ptr :: rest) = state.escapedBytes currentFrame rest := by
  have same : (state.table.owned currentFrame).filter (· ∈ ptr :: rest) =
      (state.table.owned currentFrame).filter (· ∈ rest) := by
    refine filter_congr fun member inside => ?_
    obtain ⟨entry, found, owner⟩ := invariants.mem_owned.mp inside
    have different : member ≠ ptr := by
      rintro rfl
      exact other entry found owner
    simp [different]
  rw [escapedBytes, same, escapedBytes]

theorem escapedBytes_of_owner (inner : currentFrame ≠ 0)
    (found : state.table.allocations ptr = some entry) (owner : entry.frameId = currentFrame)
      (rest : List I64) :
    state.escapedBytes currentFrame (ptr :: rest) =
      entry.byteLen + (state.moved ptr entry currentFrame).escapedBytes currentFrame rest := by
  have later : (state.moved ptr entry currentFrame).table.CheckInvariants :=
    invariants.moveToBase inner found owner
  have kept : ∀ other, other ∈ (state.moved ptr entry currentFrame).table.owned currentFrame ↔
      other ≠ ptr ∧ other ∈ state.table.owned currentFrame := by
    intro other
    rw [later.mem_owned, invariants.mem_owned]
    simp only [moved, AllocationTable.moveToBase]
    grind [update_apply]
  have split : ((state.table.owned currentFrame).filter (· ∈ ptr :: rest)).Perm
      (ptr :: ((state.moved ptr entry currentFrame).table.owned currentFrame).filter
        (· ∈ rest)) := by
    have member := invariants.mem_owned.mpr ⟨entry, found, owner⟩
    refine (perm_ext_iff_of_nodup (invariants.nodup_owned.filter _)
      (nodup_cons.mpr ⟨by grind, later.nodup_owned.filter _⟩)).mpr fun other => ?_
    grind
  rw [escapedBytes, (split.map _).sum_nat, map_cons, sum_cons, found]
  refine congrArg _ (congrArg _ (map_congr_left fun other inside => ?_))
  have different : other ≠ ptr := ((kept other).mp (mem_filter.mp inside).1).1
  simp only [moved, AllocationTable.moveToBase_allocations_of_ne different]

/-- Escaping a list of words moves the pointers of the current frame among them, if the budget
covers them. -/
theorem escapeAll_spec (notNull : state.table.allocations 0 = none) (inner : currentFrame ≠ 0)
    (words : List I64) : if state.affords (state.escapedBytes currentFrame words) then
      ∃ after, state.escapeAll currentFrame words = .ok after ∧ after.table.CheckInvariants ∧
        after.threadFrames = state.threadFrames ∧ ∀ ptr, after.table.allocations ptr =
          (state.table.allocations ptr).map (escapedEntry currentFrame words ptr)
    else state.escapeAll currentFrame words = .error .panic := by
  induction words generalizing state with
  | nil =>
    have nothing : state.escapedBytes currentFrame [] = 0 := by simp [escapedBytes]
    rw [nothing, if_pos (by simp [affords])]
    have unchanged : ∀ ptr, escapedEntry currentFrame [] ptr = id := fun ptr => by
      funext entry
      simp [escapedEntry]
    exact ⟨state, rfl, invariants, rfl, fun ptr => by rw [unchanged, Option.map_id_fun, id]⟩
  | cons ptr rest ih =>
    by_cases owned : ∃ entry, state.table.allocations ptr = some entry ∧
      entry.frameId = currentFrame
    · obtain ⟨entry, found, owner⟩ := owned
      have ptrNotNull : ptr ≠ 0 := by
        rintro rfl
        rw [notNull] at found
        cases found
      have escaped : state.manualEscape ptr currentFrame =
          if state.affords entry.byteLen then .ok (state.moved ptr entry currentFrame) else .error
            .panic := by
        rw [manualEscape, if_neg ptrNotNull, AllocationTable.escapeAllocation_of_owner inner found
          owner, accountEscape_eq]
        rfl
      rw [escapedBytes_of_owner invariants inner found owner, escapeAll, escaped]
      have untracked : (state.moved ptr entry currentFrame).table.allocations 0 = none :=
        (AllocationTable.moveToBase_allocations_of_ne ptrNotNull.symm).trans notNull
      have later :=
        @ih (state.moved ptr entry currentFrame) (invariants.moveToBase inner found owner) untracked
      have covers (bytes : Nat) : state.affords (entry.byteLen + bytes) = true ↔
        state.affords entry.byteLen = true ∧
          (state.moved ptr entry currentFrame).affords bytes = true :=
            affords_add state entry.byteLen bytes
      by_cases first : state.affords entry.byteLen = true
      · simp only [covers, first, true_and, if_true]
        split_ifs at later ⊢ with all
        · obtain ⟨after, runs, kept, frames, entries⟩ := later
          refine ⟨after, runs, kept, frames, fun other => ?_⟩
          rw [entries other]
          simp only [moved, AllocationTable.moveToBase]
          by_cases same : other = ptr
          · simp [same, found, escapedEntry, owner, Ne.symm inner]
          · rw [update_of_ne same]
            cases state.table.allocations other <;> simp [escapedEntry, same]
        · exact later
      · rw [if_neg first, if_neg fun all => first ((covers _).mp all).1]
        rfl
    · have other : ∀ entry, state.table.allocations ptr = some entry →
        entry.frameId ≠ currentFrame :=
        fun entry found owner => owned ⟨entry, found, owner⟩
      have stays : state.manualEscape ptr currentFrame = .ok state := by
        rw [manualEscape, AllocationTable.escapeAllocation_of_not_owner other]
        simp [accountEscape]
      rw [escapedBytes_of_not_owner invariants other, escapeAll, stays]
      have later := ih invariants notNull
      split_ifs at later ⊢ with all
      · obtain ⟨after, runs, kept, frames, entries⟩ := later
        refine ⟨after, runs, kept, frames, fun member => ?_⟩
        rw [entries member]
        cases found : state.table.allocations member with
        | none => rfl
        | some entry => grind [escapedEntry]
      · exact later

end

end RuntimeState

end SpectraLang

import Mathlib.Algebra.BigOperators.Group.Multiset.Basic
import Mathlib.Algebra.Group.Action.Defs
import Mathlib.Data.BitVec

/-! # Accounting of the manual heap

Three atomic counters: the bytes charged against the limit, the bytes of live boxes and their
number. Allocation, release and the transfer to quarantine are sequences of single atomic
operations; any number may be in progress and interleave freely. The system allocator hands out
memory only while everything it has handed out fits in the address space.
-/

namespace SpectraLang

open Multiset

abbrev Usize := BitVec 64

/-- `saturating_add`. -/
def saturatingAdd (left right : Usize) : Usize :=
  if 2 ^ 64 ≤ left.toNat + right.toNat then .allOnes 64 else left + right

/-- An operation in progress, named by the atomic operation it performs next. -/
inductive ManualTask where
  /-- The compare-and-exchange loop of `register` with the resident bytes it saw last. -/
  | exchangeResident (size observed : Usize)
  | addLiveBytes (size : Usize)
  | addLiveAllocation (size : Usize)
  | reserve (size : Usize)
  | releaseLiveAllocation (size : Usize)
  | releaseLiveBytes (size : Usize)
  | releaseResident (size : Usize)
  | quarantineLiveAllocation (size : Usize)
  | quarantineLiveBytes (size : Usize)

/-- The counters, the sizes of the boxes held, and the operations in progress. -/
@[ext]
structure ManualState where
  residentBytes : Usize
  liveBytes : Usize
  liveAllocations : Usize
  live : Multiset Usize
  quarantined : Multiset Usize
  tasks : Multiset ManualTask

namespace ManualTask

/-- The size the operation has charged to the resident bytes. -/
@[simp]
def resident? : ManualTask → Option Usize
  | exchangeResident .. => none
  | addLiveBytes size | addLiveAllocation size | reserve size | releaseLiveAllocation size |
      releaseLiveBytes size
  | releaseResident size | quarantineLiveAllocation size | quarantineLiveBytes size => some size

/-- The size the operation has added to the live bytes. -/
@[simp]
def liveBytes? : ManualTask → Option Usize
  | exchangeResident .. | addLiveBytes _ | releaseResident _ => none
  | addLiveAllocation size | reserve size | releaseLiveAllocation size | releaseLiveBytes size
  | quarantineLiveAllocation size | quarantineLiveBytes size => some size

/-- The operation has been counted as a live allocation. -/
@[simp]
def liveAllocation? : ManualTask → Option Usize
  | reserve size | releaseLiveAllocation size | quarantineLiveAllocation size => some size
  | _ => none

/-- The size of a box whose memory is kept during the operation. -/
@[simp]
def kept? : ManualTask → Option Usize
  | quarantineLiveAllocation size | quarantineLiveBytes size => some size
  | _ => none

end ManualTask

namespace ManualState

def initial : ManualState := ⟨0, 0, 0, 0, 0, 0⟩

/-- The sizes behind the resident bytes. -/
@[simp]
def charged (state : ManualState) : Multiset Usize :=
  state.live + state.quarantined + state.tasks.filterMap ManualTask.resident?

/-- The sizes behind the live bytes. -/
@[simp]
def countedBytes (state : ManualState) : Multiset Usize :=
  state.live + state.tasks.filterMap ManualTask.liveBytes?

/-- The sizes of what is counted as a live allocation. -/
@[simp]
def countedAllocations (state : ManualState) : Multiset Usize :=
  state.live + state.tasks.filterMap ManualTask.liveAllocation?

/-- The address space taken by boxes: each buffer and the three words of its vector. -/
def occupied (state : ManualState) : Nat :=
  ((state.live + state.quarantined + state.tasks.filterMap ManualTask.kept?).map fun size =>
    size.toNat + 24).sum

end ManualState

/-- One atomic operation under the configured limit; subtracting a size of zero is skipped by the
code. -/
inductive ManualStep (limit : Usize) : ManualState → ManualState → Prop where
  | chargeUnlimited (state : ManualState) (size : Usize) (unlimited : limit = 0) :
    ManualStep limit state
      { state with residentBytes := state.residentBytes + size, tasks :=
        .addLiveBytes size ::ₘ state.tasks }
  | load (state : ManualState) (size : Usize) (limited : limit ≠ 0) :
    ManualStep limit state
      { state with tasks := .exchangeResident size state.residentBytes ::ₘ state.tasks }
  | refuse {state : ManualState} {rest : Multiset ManualTask} {size observed : Usize}
    (task : state.tasks = .exchangeResident size observed ::ₘ rest)
      (exceeds : limit < saturatingAdd observed size) :
    ManualStep limit state { state with tasks := rest }
  | retry {state : ManualState} {rest : Multiset ManualTask} {size observed : Usize}
    (task : state.tasks = .exchangeResident size observed ::ₘ rest)
      (admitted : saturatingAdd observed size ≤ limit) :
    ManualStep limit state
      { state with tasks := .exchangeResident size state.residentBytes ::ₘ rest }
  | exchange {state : ManualState} {rest : Multiset ManualTask} {size : Usize}
    (task : state.tasks = .exchangeResident size state.residentBytes ::ₘ rest)
    (admitted : saturatingAdd state.residentBytes size ≤ limit) :
    ManualStep limit state
      { state with residentBytes := saturatingAdd state.residentBytes size, tasks :=
        .addLiveBytes size ::ₘ rest }
  | addLiveBytes {state : ManualState} {rest : Multiset ManualTask} {size : Usize}
    (task : state.tasks = .addLiveBytes size ::ₘ rest) :
    ManualStep limit state
      { state with liveBytes := state.liveBytes + size, tasks := .addLiveAllocation size ::ₘ rest }
  | addLiveAllocation {state : ManualState} {rest : Multiset ManualTask} {size : Usize}
    (task : state.tasks = .addLiveAllocation size ::ₘ rest) :
    ManualStep limit state { state with
      liveAllocations := state.liveAllocations + 1
      tasks := .reserve size ::ₘ rest }
  | reserved {state : ManualState} {rest : Multiset ManualTask} {size : Usize}
      (task : state.tasks = .reserve size ::ₘ rest)
    (room : state.occupied + size.toNat + 24 < 2 ^ 64) :
    ManualStep limit state { state with live := size ::ₘ state.live, tasks := rest }
  | notReserved {state : ManualState} {rest : Multiset ManualTask} {size : Usize}
    (task : state.tasks = .reserve size ::ₘ rest) :
    ManualStep limit state { state with tasks := .releaseLiveAllocation size ::ₘ rest }
  | dropLive {state : ManualState} {rest : Multiset Usize} {size : Usize}
      (box : state.live = size ::ₘ rest) :
    ManualStep limit state
      { state with live := rest, tasks := .releaseLiveAllocation size ::ₘ state.tasks }
  | releaseLiveAllocation {state : ManualState} {rest : Multiset ManualTask} {size : Usize}
    (task : state.tasks = .releaseLiveAllocation size ::ₘ rest) :
    ManualStep limit state
      { state with liveAllocations := state.liveAllocations - 1, tasks :=
        .releaseLiveBytes size ::ₘ rest }
  | releaseLiveBytes {state : ManualState} {rest : Multiset ManualTask} {size : Usize}
    (task : state.tasks = .releaseLiveBytes size ::ₘ rest) :
    ManualStep limit state
      { state with liveBytes := state.liveBytes - size, tasks := .releaseResident size ::ₘ rest }
  | releaseResident {state : ManualState} {rest : Multiset ManualTask} {size : Usize}
    (task : state.tasks = .releaseResident size ::ₘ rest) :
    ManualStep limit state { state with residentBytes := state.residentBytes - size, tasks := rest }
  | intoQuarantine {state : ManualState} {rest : Multiset Usize} {size : Usize}
      (box : state.live = size ::ₘ rest) :
    ManualStep limit state
      { state with live := rest, tasks := .quarantineLiveAllocation size ::ₘ state.tasks }
  | quarantineLiveAllocation {state : ManualState} {rest : Multiset ManualTask} {size : Usize}
    (task : state.tasks = .quarantineLiveAllocation size ::ₘ rest) :
    ManualStep limit state
      { state with liveAllocations := state.liveAllocations - 1, tasks :=
        .quarantineLiveBytes size ::ₘ rest }
  | quarantineLiveBytes {state : ManualState} {rest : Multiset ManualTask} {size : Usize}
    (task : state.tasks = .quarantineLiveBytes size ::ₘ rest) :
    ManualStep limit state
      { state with liveBytes := state.liveBytes - size, quarantined :=
        size ::ₘ state.quarantined, tasks := rest }
  | dropQuarantined {state : ManualState} {rest : Multiset Usize} {size : Usize}
      (box : state.quarantined = size ::ₘ rest) :
    ManualStep limit state
      { state with quarantined := rest, tasks := .releaseResident size ::ₘ state.tasks }

/-- No request that is about to be charged makes the resident bytes overflow; only the largest limit
lets one pass. -/
def ManualState.Fits (limit : Usize) (state : ManualState) : Prop :=
  limit = .allOnes 64 → ∀ size, .exchangeResident size state.residentBytes ∈ state.tasks →
    state.residentBytes.toNat + size.toNat < 2 ^ 64

/-- A run in which no request overflows the resident bytes. -/
def ManualRun (limit : Usize) : ManualState → ManualState → Prop :=
  Relation.ReflTransGen fun before after => before.Fits limit ∧ ManualStep limit before after

/-- A counter and the sizes behind it change together; what is added has been admitted. -/
inductive Moves (admits : Usize → Usize → Prop) : Usize → Multiset Usize → Usize → Multiset Usize →
    Prop where
  | keep (counter : Usize) (sizes : Multiset Usize) : Moves admits counter sizes counter sizes
  | add {counter size : Usize} (sizes : Multiset Usize) (admitted : admits counter size) :
    Moves admits counter sizes (counter + size) (size ::ₘ sizes)
  | remove (counter : Usize) (sizes : Multiset Usize) (size : Usize) :
    Moves admits counter (size ::ₘ sizes) (counter - size) sizes

theorem Moves.eq_sum {admits : Usize → Usize → Prop} {counter counter' : Usize}
    {sizes sizes' : Multiset Usize}
    (moves : Moves admits counter sizes counter' sizes') (exact_ : counter = sizes.sum) :
      counter' = sizes'.sum := by
  cases moves with
  | keep => exact exact_
  | add => rw [sum_cons, exact_, add_comm]
  | remove => rw [exact_, sum_cons, add_sub_cancel_left]

/-- A request is admitted to the resident bytes only within a limit other than zero. -/
def Admitted (limit counter size : Usize) : Prop :=
  limit ≠ 0 → counter.toNat + size.toNat ≤ limit.toNat

/-- With a limit the counter is the sum of the sizes as numbers and stays within the limit. -/
theorem Moves.toNat_eq_sum {limit counter counter' : Usize} {sizes sizes' : Multiset Usize}
    (limited : limit ≠ 0) (moves : Moves (Admitted limit) counter sizes counter' sizes')
    (before : counter.toNat = (sizes.map BitVec.toNat).sum ∧ counter.toNat ≤ limit.toNat) :
    counter'.toNat = (sizes'.map BitVec.toNat).sum ∧ counter'.toNat ≤ limit.toNat := by
  have width := limit.isLt
  obtain ⟨exact_, within⟩ := before
  cases moves with
  | keep => exact ⟨exact_, within⟩
  | @add size _ admitted =>
    have sum : (counter + size).toNat = counter.toNat + size.toNat := by
      rw [BitVec.toNat_add]
      exact Nat.mod_eq_of_lt ((admitted limited).trans_lt width)
    rw [sum, map_cons, sum_cons, exact_, Nat.add_comm]
    exact ⟨rfl, by rw [Nat.add_comm, ← exact_]; exact admitted limited⟩
  | remove _ size =>
    rw [map_cons, sum_cons] at exact_
    have difference : (counter - size).toNat = counter.toNat - size.toNat :=
      BitVec.toNat_sub_of_le (BitVec.le_def.mpr (by omega))
    omega

theorem saturatingAdd_eq {limit counter size : Usize}
    (admitted : saturatingAdd counter size ≤ limit)
    (fits : limit = .allOnes 64 → counter.toNat + size.toNat < 2 ^ 64) :
    saturatingAdd counter size = counter + size ∧ counter.toNat + size.toNat ≤ limit.toNat := by
  unfold saturatingAdd at admitted ⊢
  split_ifs at admitted ⊢ with overflow
  · have largest : limit = .allOnes 64 := by
      rw [BitVec.le_def, BitVec.toNat_allOnes] at admitted
      exact BitVec.eq_of_toNat_eq (by have := limit.isLt; rw [BitVec.toNat_allOnes]; omega)
    exact absurd (fits largest) (by omega)
  · rw [BitVec.le_def, BitVec.toNat_add, Nat.mod_eq_of_lt (by omega)] at admitted
    exact ⟨rfl, admitted⟩

variable {limit : Usize} {before after : ManualState}

section Moved
variable {admits : Usize → Usize → Prop} {counter size : Usize} {sizes sizes' : Multiset Usize}

theorem Moves.kept (same : sizes' = sizes) : Moves admits counter sizes counter sizes' := by
  rw [same]
  exact .keep ..

theorem Moves.added (admitted : admits counter size) (more : sizes' = size ::ₘ sizes) :
    Moves admits counter sizes (counter + size) sizes' := by
  rw [more]
  exact .add _ admitted

theorem Moves.removed (fewer : sizes = size ::ₘ sizes') :
    Moves admits counter sizes (counter - size) sizes' := by
  rw [fewer]
  exact .remove ..

end Moved

attribute [local simp] filterMap_cons

/-- What one atomic operation does to the counters and the sizes behind them. -/
theorem ManualStep.moves (step : ManualStep limit before after) (fits : before.Fits limit) :
    Moves (Admitted limit) before.residentBytes before.charged after.residentBytes after.charged ∧
      Moves (fun _ _ => True) before.liveBytes before.countedBytes after.liveBytes
        after.countedBytes ∧
      Moves (fun _ _ => True) before.liveAllocations (before.countedAllocations.map fun _ => 1)
        after.liveAllocations (after.countedAllocations.map fun _ => 1) := by
  cases step with
  | chargeUnlimited size unlimited =>
    refine ⟨.added (fun limited => absurd unlimited limited) ?_, .kept ?_, .kept ?_⟩ <;> simp
  | load size limited => refine ⟨.kept ?_, .kept ?_, .kept ?_⟩ <;> simp
  | refuse task exceeds | retry task admitted =>
    refine ⟨.kept ?_, .kept ?_, .kept ?_⟩ <;> simp [task]
  | exchange task admitted =>
    obtain ⟨sum, within⟩ := saturatingAdd_eq admitted fun largest => fits largest _ (by simp [task])
    rw [sum]
    refine ⟨.added (fun _ => within) ?_, .kept ?_, .kept ?_⟩ <;> simp [task]
  | addLiveBytes task =>
    refine ⟨.kept ?_, .added trivial ?_, .kept ?_⟩ <;> simp [task]
  | addLiveAllocation task =>
    refine ⟨.kept ?_, .kept ?_, .added trivial ?_⟩ <;> simp [task]
  | reserved task room | notReserved task => refine ⟨.kept ?_, .kept ?_, .kept ?_⟩ <;> simp [task]
  | dropLive box | intoQuarantine box => refine ⟨.kept ?_, .kept ?_, .kept ?_⟩ <;> simp [box]
  | releaseLiveAllocation task | quarantineLiveAllocation task =>
    refine ⟨.kept ?_, .kept ?_, .removed ?_⟩ <;> simp [task]
  | releaseLiveBytes task | quarantineLiveBytes task =>
    refine ⟨.kept ?_, .removed ?_, .kept ?_⟩ <;> simp [task]
  | releaseResident task =>
    refine ⟨.removed ?_, .kept ?_, .kept ?_⟩ <;> simp [task]
  | dropQuarantined box => refine ⟨.kept ?_, .kept ?_, .kept ?_⟩ <;> simp [box]

/-- Boxes never take more than the address space. -/
theorem ManualStep.occupied_lt (step : ManualStep limit before after)
    (small : before.occupied < 2 ^ 64) : after.occupied < 2 ^ 64 := by
  cases step <;> simp_all [ManualState.occupied] <;> omega

/-- The counters are the sums of their sizes modulo the word size, the resident bytes exactly under
a limit. -/
structure ManualState.Accounted (limit : Usize) (state : ManualState) : Prop where
  resident : state.residentBytes = state.charged.sum
  liveBytes : state.liveBytes = state.countedBytes.sum
  liveAllocations : state.liveAllocations = (state.countedAllocations.map fun _ => 1).sum
  small : state.occupied < 2 ^ 64
  within : limit ≠ 0 → state.residentBytes.toNat = (state.charged.map BitVec.toNat).sum ∧
    state.residentBytes.toNat ≤ limit.toNat

theorem accounted_initial (limit : Usize) : ManualState.initial.Accounted limit := by
  constructor <;> simp [ManualState.initial, ManualState.occupied]

theorem ManualState.Accounted.step (accounted : before.Accounted limit) (fits : before.Fits limit)
    (step : ManualStep limit before after) : after.Accounted limit := by
  obtain ⟨resident, bytes, allocations⟩ := step.moves fits
  exact ⟨resident.eq_sum accounted.resident, bytes.eq_sum accounted.liveBytes,
    allocations.eq_sum accounted.liveAllocations, step.occupied_lt accounted.small,
    fun limited => resident.toNat_eq_sum limited (accounted.within limited)⟩

theorem accounted_run {state : ManualState} (run : ManualRun limit .initial state) :
    state.Accounted limit := by
  induction run with
  | refl => exact accounted_initial limit
  | tail _ step ih => exact ih.step step.1 step.2

theorem toNat_sum (sizes : Multiset Usize) :
    sizes.sum.toNat = (sizes.map BitVec.toNat).sum % 2 ^ 64 := by
  induction sizes using Multiset.induction_on with
  | empty => simp
  | cons size rest ih => simp [ih]

/-- The exact accounting between operations. -/
structure ManualState.Balanced (state : ManualState) : Prop where
  resident : state.residentBytes.toNat = (state.live.map BitVec.toNat).sum +
    (state.quarantined.map BitVec.toNat).sum
  liveBytes : state.liveBytes.toNat = (state.live.map BitVec.toNat).sum
  liveAllocations : state.liveAllocations.toNat = state.live.card

theorem ManualState.Accounted.balanced {state : ManualState} (accounted : state.Accounted limit)
    (idle : state.tasks = 0) : state.Balanced := by
  have small := accounted.small
  simp only [occupied, idle, filterMap_zero, add_zero, map_add, sum_add, sum_map_add,
    map_const', sum_replicate, smul_eq_mul] at small
  refine ⟨?_, ?_, ?_⟩
  · rw [accounted.resident, toNat_sum]
    simp only [charged, idle, filterMap_zero, add_zero, map_add, sum_add]
    exact Nat.mod_eq_of_lt (by omega)
  · rw [accounted.liveBytes, toNat_sum]
    simp only [countedBytes, idle, filterMap_zero, add_zero]
    exact Nat.mod_eq_of_lt (by omega)
  · rw [accounted.liveAllocations, toNat_sum]
    simp only [countedAllocations, idle, filterMap_zero, add_zero, map_const', map_replicate,
      sum_replicate, smul_eq_mul]
    rw [show BitVec.toNat (1 : Usize) = 1 from rfl, Nat.mul_one]
    exact Nat.mod_eq_of_lt (by omega)

/-- In every interleaving without an overflowing request the accounting is exact between operations,
the resident bytes respect the limit, and the boxes and operations in progress determine the
counters, so a refused allocation leaves them unchanged. -/
theorem manualRun_accounting {state : ManualState} (run : ManualRun limit .initial state) :
    (state.tasks = 0 → state.Balanced) ∧ (limit ≠ 0 → state.residentBytes ≤ limit) ∧
      ∀ other : ManualState, ManualRun limit .initial other → other.live = state.live →
        other.quarantined = state.quarantined → other.tasks = state.tasks → other = state := by
  have accounted := accounted_run run
  refine ⟨accounted.balanced, fun limited => BitVec.le_def.mpr (accounted.within limited).2, ?_⟩
  intro other run' live quarantined tasks
  have accounted' := accounted_run run'
  refine ManualState.ext ?_ ?_ ?_ live quarantined tasks
  · simp [accounted'.resident, accounted.resident, ManualState.charged, live, quarantined, tasks]
  · simp [accounted'.liveBytes, accounted.liveBytes, ManualState.countedBytes, live, tasks]
  · simp [accounted'.liveAllocations, accounted.liveAllocations, ManualState.countedAllocations,
      live, tasks]

section
variable {allowed : ManualState → Prop}
  (quiet : ∀ state : ManualState, (∀ size observed, .exchangeResident size observed ∉ state.tasks) →
    allowed state)
  (state : ManualState) (idle : state.tasks = 0) (size : Usize)
  (charging :
    allowed { state with tasks := .exchangeResident size state.residentBytes ::ₘ state.tasks })
  (limited : limit ≠ 0) (admitted : saturatingAdd state.residentBytes size ≤ limit)
include quiet idle charging limited admitted

/-- A request that is admitted is charged to all counters before memory is reserved. -/
theorem charges :
    Relation.ReflTransGen (fun before after =>
      allowed before ∧ ManualStep limit before after) state { state with
        residentBytes := saturatingAdd state.residentBytes size
        liveBytes := state.liveBytes + size
        liveAllocations := state.liveAllocations + 1
        tasks := .reserve size ::ₘ state.tasks } :=
  .head ⟨quiet _ (by simp [idle]), .load state size limited⟩
    (.head ⟨charging, .exchange rfl admitted⟩
      (.head ⟨quiet _ (by simp [idle]), .addLiveBytes rfl⟩
        (.single ⟨quiet _ (by simp [idle]), .addLiveAllocation rfl⟩)))

theorem allocates (room : state.occupied + size.toNat + 24 < 2 ^ 64) :
    Relation.ReflTransGen (fun before after =>
      allowed before ∧ ManualStep limit before after) state { state with
        residentBytes := saturatingAdd state.residentBytes size
        liveBytes := state.liveBytes + size
        liveAllocations := state.liveAllocations + 1
        live := size ::ₘ state.live } := by
  refine (charges quiet state idle size charging limited admitted).tail
    ⟨quiet _ (by simp [idle]), .reserved rfl ?_⟩
  have nothingKept : Multiset.filterMap ManualTask.kept? {.reserve size} = 0 := rfl
  simpa [ManualState.occupied, idle, nothingKept] using room

/-- A request the system allocator refuses is released again. -/
theorem refuses :
    Relation.ReflTransGen (fun before after => allowed before ∧ ManualStep limit before after)
      state { state with
        residentBytes := saturatingAdd state.residentBytes size - size
        liveBytes := state.liveBytes + size - size
        liveAllocations := state.liveAllocations + 1 - 1 } :=
  (charges quiet state idle size charging limited admitted).trans
    (.head ⟨quiet _ (by simp [idle]), .notReserved rfl⟩
      (.head ⟨quiet _ (by simp [idle]), .releaseLiveAllocation rfl⟩
        (.head ⟨quiet _ (by simp [idle]), .releaseLiveBytes rfl⟩
          (.single ⟨quiet _ (by simp [idle]), .releaseResident rfl⟩))))

omit charging limited admitted

variable (rest : Multiset Usize) (box : state.live = size ::ₘ rest)
include box

theorem drops :
    Relation.ReflTransGen (fun before after => allowed before ∧ ManualStep limit before after)
      state { state with
        residentBytes := state.residentBytes - size
        liveBytes := state.liveBytes - size
        liveAllocations := state.liveAllocations - 1
        live := rest } :=
  .head ⟨quiet _ (by simp [idle]), .dropLive box⟩
    (.head ⟨quiet _ (by simp [idle]), .releaseLiveAllocation rfl⟩
      (.head ⟨quiet _ (by simp [idle]), .releaseLiveBytes rfl⟩
        (.single ⟨quiet _ (by simp [idle]), .releaseResident rfl⟩)))

theorem quarantines :
    Relation.ReflTransGen (fun before after => allowed before ∧ ManualStep limit before after)
      state { state with
        liveBytes := state.liveBytes - size
        liveAllocations := state.liveAllocations - 1
        live := rest
        quarantined := size ::ₘ state.quarantined } :=
  .head ⟨quiet _ (by simp [idle]), .intoQuarantine box⟩
    (.head ⟨quiet _ (by simp [idle]), .quarantineLiveAllocation rfl⟩
      (.single ⟨quiet _ (by simp [idle]), .quarantineLiveBytes rfl⟩))

end

theorem fits_of_quiet (state : ManualState)
    (none : ∀ size observed, .exchangeResident size observed ∉ state.tasks) :
    state.Fits limit :=
  fun _ _ member => absurd member (none _ _)

theorem fits_charging {state : ManualState} (idle : state.tasks = 0) {size : Usize}
    (fits : state.residentBytes.toNat + size.toNat < 2 ^ 64) :
    ManualState.Fits limit
      { state with tasks := .exchangeResident size state.residentBytes ::ₘ state.tasks } := by
  rintro - other member
  obtain rfl : other = size := by simpa [idle] using member
  exact fits

/-- Of two boxes one goes to the quarantine and one is dropped; a request of half the address space
is refused. -/
theorem manualRun_accounting_largest : ManualRun (.allOnes 64) .initial ⟨16, 0, 0, 0, {16}, 0⟩ ∧
    (ManualState.mk 16 0 0 0 {16} 0).Balanced := by
  have first : ManualRun (.allOnes 64) .initial ⟨16, 16, 1, {16}, 0, 0⟩ :=
    allocates fits_of_quiet .initial rfl 16 (fits_charging rfl (by decide)) (by decide) (by decide)
      (by decide)
  have second : ManualRun (.allOnes 64) ⟨16, 16, 1, {16}, 0, 0⟩ ⟨48, 48, 2, {32, 16}, 0, 0⟩ :=
    allocates fits_of_quiet ⟨16, 16, 1, {16}, 0, 0⟩ rfl 32 (fits_charging rfl (by decide))
      (by decide) (by decide) (by decide)
  have refused : ManualRun (.allOnes 64) ⟨48, 48, 2, {32, 16}, 0, 0⟩ ⟨48, 48, 2, {32, 16}, 0, 0⟩ :=
    refuses fits_of_quiet ⟨48, 48, 2, {32, 16}, 0, 0⟩ rfl 9223372036854775808
      (fits_charging rfl (by decide)) (by decide)
      (by decide)
  have dropped : ManualRun (.allOnes 64) ⟨48, 48, 2, {32, 16}, 0, 0⟩ ⟨16, 16, 1, {16}, 0, 0⟩ :=
    drops fits_of_quiet ⟨48, 48, 2, {32, 16}, 0, 0⟩ rfl 32 {16} rfl
  have kept : ManualRun (.allOnes 64) ⟨16, 16, 1, {16}, 0, 0⟩ ⟨16, 0, 0, 0, {16}, 0⟩ :=
    quarantines fits_of_quiet ⟨16, 16, 1, {16}, 0, 0⟩ rfl 16 0 rfl
  have run := first.trans (second.trans (refused.trans (dropped.trans kept)))
  exact ⟨run, (manualRun_accounting run).1 rfl⟩

/-- Under the largest limit an impossible request saturates the resident bytes; its release takes
more than it charged, and a live box of 16 bytes is not accounted for. -/
theorem not_balanced_saturated : ∃ state : ManualState,
    Relation.ReflTransGen (ManualStep (.allOnes 64)) .initial state ∧ state.tasks = 0 ∧
      ¬ state.Balanced := by
  have allocated :=
    @allocates (.allOnes 64) _ (fun _ _ => trivial) .initial rfl 16 trivial (by decide) (by decide)
    (by decide)
  have refused := @refuses (.allOnes 64) _ (fun _ _ => trivial) ⟨16, 16, 1, {16}, 0, 0⟩ rfl
    (.allOnes 64) trivial (by decide) (by decide)
  refine ⟨_, Relation.ReflTransGen.mono (fun _ _ => And.right) _ _ (allocated.trans refused), rfl,
    ?_⟩
  intro balanced
  exact absurd balanced.resident (by decide)

end SpectraLang

import Mathlib.Algebra.Group.Nat.Defs
import Mathlib.Data.List.Infix
import Mathlib.Data.List.Count
import Mathlib.Data.List.Nodup

/-! # Handle tables

A handle names a slot of a table and the generation the slot had when it was issued. Releasing an
entry advances the generation of its slot and puts the slot on the free list. Generations are 16
bits wide and skip zero, so they come around after 65535 releases.
-/

namespace SpectraLang

open List

structure HandleId (κ : Type*) where
  kind : κ
  slot : UInt32
  generation : UInt16
  deriving DecidableEq

inductive HandleError (κ : Type*) where
  | invalid
  | typeMismatch (expected actual : κ)
  | stale

structure HandleSlot (α : Type*) where
  generation : UInt16
  value : Option α

/-- The last element of the free vector is the head of the list. -/
structure HandleTable (κ α : Type*) where
  kind : κ
  slots : List (HandleSlot α)
  free : List UInt32

variable {κ α : Type*}

/-- Generation zero is never issued. -/
def HandleId.new (kind : κ) (slot : UInt32) (generation : UInt16) : HandleId κ :=
  ⟨kind, slot, max generation 1⟩

/-- The generation after a release: `wrapping_add(1).max(1)`. -/
def nextGeneration (generation : UInt16) : UInt16 := max (generation + 1) 1

namespace HandleTable

def new (kind : κ) : HandleTable κ α := ⟨kind, [], []⟩

/-- `insert_fresh`: a new slot, whatever the free list holds. -/
def insertFresh (table : HandleTable κ α) (value : α) : HandleId κ × HandleTable κ α :=
  (.new table.kind (.ofNat table.slots.length) 1,
    { table with slots := table.slots ++ [⟨1, some value⟩] })

/-- `insert`: the slot released last is filled again. -/
def insert (table : HandleTable κ α) (value : α) : HandleId κ × HandleTable κ α :=
  match table.free with
  | [] => table.insertFresh value
  | slot :: rest =>
    let entry := table.slots.getD slot.toNat ⟨1, none⟩
    (.new table.kind slot entry.generation,
      { table with slots := table.slots.set slot.toNat { entry with value := some value }, free :=
        rest })

/-- Take the value out of the slot, advance its generation and free it. -/
def release (table : HandleTable κ α) (slot : UInt32) (index : Nat) (entry : HandleSlot α) :
    HandleTable κ α :=
  { table with
    slots := table.slots.set index ⟨nextGeneration entry.generation, none⟩
    free := slot :: table.free }

/-- One turn of the loop of `drain`. -/
def drainSlot (state : List (HandleId κ × α) × HandleTable κ α) (index : Nat) :
    List (HandleId κ × α) × HandleTable κ α :=
  match state.2.slots[index]? with
  | some ⟨generation, some value⟩ =>
    (state.1 ++ [(.new state.2.kind (.ofNat index) generation, value)],
      state.2.release (.ofNat index) index ⟨generation, some value⟩)
  | _ => state

/-- `drain`: every live value with the handle that owned it. -/
def drain (table : HandleTable κ α) : List (HandleId κ × α) × HandleTable κ α :=
  (List.range table.slots.length).foldl drainSlot ([], table)

variable [DecidableEq κ]

def validateSlot (table : HandleTable κ α) (handle : HandleId κ) :
    Except (HandleError κ) (Nat × HandleSlot α) :=
  if handle.kind ≠ table.kind then .error (.typeMismatch table.kind handle.kind)
  else
    match table.slots[handle.slot.toNat]? with
    | none => .error .stale
    | some entry =>
      if entry.generation ≠ handle.generation then .error .stale else .ok (handle.slot.toNat, entry)

def validate (table : HandleTable κ α) (handle : HandleId κ) :
    Except (HandleError κ) (Nat × HandleSlot α × α) :=
  match table.validateSlot handle with
  | .error error => .error error
  | .ok (index, entry) =>
    match entry.value with
    | none => .error .stale
    | some value => .ok (index, entry, value)

/-- `take`: the value leaves its slot, which is not released. -/
def take (table : HandleTable κ α) (handle : HandleId κ) :
    Except (HandleError κ) (α × HandleTable κ α) :=
  (table.validate handle).map fun (index, entry, value) =>
    (value, { table with slots := table.slots.set index { entry with value := none } })

/-- `put`: fill a slot of the same generation that holds no value. -/
def put (table : HandleTable κ α) (handle : HandleId κ) (value : α) :
    Except (HandleError κ) (HandleTable κ α) :=
  match table.validateSlot handle with
  | .error error => .error error
  | .ok (index, entry) =>
    if entry.value.isSome then .error .stale
    else .ok { table with slots := table.slots.set index { entry with value := some value } }

def remove (table : HandleTable κ α) (handle : HandleId κ) :
    Except (HandleError κ) (α × HandleTable κ α) :=
  (table.validate handle).map fun (index, entry, value) =>
    (value, table.release handle.slot index entry)

end HandleTable

inductive HandleOperation (κ α : Type*) where
  | insert (value : α)
  | insertFresh (value : α)
  | take (handle : HandleId κ)
  | put (handle : HandleId κ) (value : α)
  | remove (handle : HandleId κ)
  | drain

/-- A table with the handles issued so far and those whose entries have been released. -/
structure HandleHistory (κ α : Type*) where
  table : HandleTable κ α
  issued : List (HandleId κ)
  released : List (HandleId κ)

namespace HandleHistory

def start (kind : κ) : HandleHistory κ α := ⟨.new kind, [], []⟩

/-- How often a slot has been released. -/
def releases (history : HandleHistory κ α) (index : Nat) : Nat :=
  history.released.countP fun handle => handle.slot.toNat = index

variable [DecidableEq κ]

/-- One operation; a refused one changes nothing. -/
def step (history : HandleHistory κ α) : HandleOperation κ α → HandleHistory κ α
  | .insert value =>
    let (handle, table) := history.table.insert value
    { history with table, issued := handle :: history.issued }
  | .insertFresh value =>
    let (handle, table) := history.table.insertFresh value
    { history with table, issued := handle :: history.issued }
  | .take handle =>
    match history.table.take handle with
    | .error _ => history
    | .ok (_, table) => { history with table }
  | .put handle value =>
    match history.table.put handle value with
    | .error _ => history
    | .ok table => { history with table }
  | .remove handle =>
    match history.table.remove handle with
    | .error _ => history
    | .ok (_, table) => { history with table, released := handle :: history.released }
  | .drain =>
    let (removed, table) := history.table.drain
    { history with table, released := removed.map Prod.fst ++ history.released }

def run (kind : κ) (operations : List (HandleOperation κ α)) : HandleHistory κ α :=
  operations.foldl step (start kind)

theorem run_append_singleton (kind : κ) (operations : List (HandleOperation κ α))
    (operation : HandleOperation κ α) :
    run kind (operations ++ [operation]) = (run kind operations).step operation := by
  simp [run]

/-- Released handles never validate, and no handle is issued twice. -/
def DetectsStale (kind : κ) (operations : List (HandleOperation κ α)) : Prop :=
  (∀ before, before <+: operations → ∀ handle ∈ (run kind before).released,
    ∀ entry, (run kind before).table.validate handle ≠ .ok entry) ∧
      (run kind operations).issued.Nodup

/-- `put` is only called with handles that an insert returned. -/
def ReturnsIssued (kind : κ) (operations : List (HandleOperation κ α)) : Prop :=
  ∀ before handle value, before ++ [.put handle value] <+: operations →
    handle ∈ (run kind before).issued

/-- The operation gives a value to a slot on the free list. -/
def Refills (history : HandleHistory κ α) (slot : UInt32) : HandleOperation κ α → Prop
  | .insert _ => history.table.free.head? = some slot
  | .put handle value =>
    handle.slot = slot ∧ slot ∈ history.table.free ∧ (history.table.put handle value).isOk
  | _ => False

/-- The operation appends a slot. -/
def AddsSlot (history : HandleHistory κ α) : HandleOperation κ α → Prop
  | .insert _ => history.table.free = []
  | .insertFresh _ => True
  | _ => False

/-- No exhausted counter is met: a slot released 65535 times is not filled again, and slot numbers
fit in 32 bits. -/
structure Affordable (history : HandleHistory κ α) (operation : HandleOperation κ α) : Prop where
  refill : ∀ slot, history.Refills slot operation → history.releases slot.toNat < 65535
  grow : history.AddsSlot operation → history.table.slots.length < 2 ^ 32

def WithinCounters (kind : κ) (operations : List (HandleOperation κ α)) : Prop :=
  ∀ before operation, before ++ [operation] <+: operations → (run kind before).Affordable operation

/-- The generation of a slot counts its releases, and the handles issued for it are those of all its
generations. -/
structure Sound (history : HandleHistory κ α) : Prop where
  room : history.table.slots.length ≤ 2 ^ 32
  generation : ∀ ⦃index entry⦄, history.table.slots[index]? = some entry →
    entry.generation.toNat = history.releases index % 65535 + 1
  counted : ∀ index, history.releases index ≤ 65535
  freeNodup : history.table.free.Nodup
  vacant : ∀ slot ∈ history.table.free, ∃ entry, history.table.slots[slot.toNat]? = some entry ∧
    entry.value = none
  freed : ∀ slot ∈ history.table.free, 0 < history.releases slot.toNat
  occupied : ∀ slot : UInt32, slot.toNat < history.table.slots.length → slot ∉ history.table.free →
    history.releases slot.toNat < 65535
  issued : ∀ handle, handle ∈ history.issued ↔ handle.kind = history.table.kind ∧
    handle.slot.toNat < history.table.slots.length ∧ 0 < handle.generation.toNat ∧
    handle.generation.toNat ≤ history.releases handle.slot.toNat + if handle.slot ∈
      history.table.free then 0 else 1
  released : ∀ handle, handle ∈ history.released ↔ handle.kind = history.table.kind ∧
    handle.slot.toNat < history.table.slots.length ∧ 0 < handle.generation.toNat ∧
    handle.generation.toNat ≤ history.releases handle.slot.toNat
  nodup : history.issued.Nodup

theorem nextGeneration_toNat (generation : UInt16) :
    (nextGeneration generation).toNat = if generation.toNat = 65535 then 1 else generation.toNat +
      1 := by
  have bound := generation.toNat_lt
  change (if generation + 1 ≤ 1 then 1 else generation + 1).toNat = _
  split_ifs with less last last <;> simp_all [UInt16.le_iff_toNat_le, UInt16.toNat_add] <;> omega

variable {generation : UInt16} {history : HandleHistory κ α} {slot : UInt32} {entry : HandleSlot α}
  {handle : HandleId κ} {kind : κ} {table : HandleTable κ α}
    {before operations : List (HandleOperation κ α)}

section

omit [DecidableEq κ]

theorem new_of_pos (kind : κ) (slot : UInt32) (positive : 0 < generation.toNat) :
    HandleId.new kind slot generation = ⟨kind, slot, generation⟩ := by
  have same : (if generation ≤ 1 then 1 else generation) = generation := by
    split_ifs with least
    · rw [UInt16.le_iff_toNat_le] at least
      exact UInt16.toNat.inj (le_antisymm positive least)
    · rfl
  exact congrArg (HandleId.mk kind slot) same

theorem eq_iff_toNat {other : HandleId κ} : handle = other ↔ handle.kind = other.kind ∧
    handle.slot.toNat = other.slot.toNat ∧ handle.generation.toNat = other.generation.toNat := by
  cases handle
  cases other
  simp [UInt32.toNat_inj, UInt16.toNat_inj]

theorem lookup_set {slots : List (HandleSlot α)} {number : Nat} (inRange : number < slots.length)
    (changed : HandleSlot α) (index : Nat) :
    (slots.set number changed)[index]? = if number = index then some changed else
      slots[index]? := by
  rw [getElem?_set]
  simp [inRange]

theorem insert_of_nil (free : table.free = []) (value : α) :
    table.insert value = table.insertFresh value := by
  simp [HandleTable.insert, free]

variable {rest : List UInt32}

theorem insert_of_cons (top : table.free = slot :: rest)
    (found : table.slots[slot.toNat]? = some entry) (positive : 0 < entry.generation.toNat)
      (value : α) :
    table.insert value = (⟨table.kind, slot, entry.generation⟩,
      { table with slots := table.slots.set slot.toNat { entry with value := some value }, free :=
        rest }) := by
  unfold HandleTable.insert
  rw [top]
  simp only [getD_eq_getElem?_getD, found, Option.getD_some]
  rw [new_of_pos _ _ positive]

theorem insertFresh_eq (table : HandleTable κ α) (value : α) : table.insertFresh value =
    (⟨table.kind, .ofNat table.slots.length, 1⟩,
      { table with slots := table.slots ++ [⟨1, some value⟩] }) := by
  rw [HandleTable.insertFresh, new_of_pos _ _ (by decide)]

theorem sound_start (kind : κ) : (start kind : HandleHistory κ α).Sound := by
  constructor <;> simp [start, HandleTable.new, releases]

variable (sound : history.Sound)
include sound

theorem Sound.release (found : history.table.slots[slot.toNat]? = some entry)
    (live : entry.value ≠ none) : Sound { history with
      table := history.table.release slot slot.toNat entry
      released := ⟨history.table.kind, slot, entry.generation⟩ :: history.released } := by
  obtain ⟨room, generations, counted, freeNodup, vacant, freed, occupied, issued, released,
    nodup⟩ := sound
  have inRange := (List.getElem?_eq_some_iff.mp found).1
  have notFree : slot ∉ history.table.free := by grind
  have few := occupied slot inRange notFree
  have generation := generations found
  rw [Nat.mod_eq_of_lt few] at generation
  have count : ∀ index, HandleHistory.releases { history with
      table := history.table.release slot slot.toNat entry
      released := ⟨history.table.kind, slot, entry.generation⟩ :: history.released } index =
        history.releases index + if slot.toNat = index then 1 else 0 := by
    intro index
    simp [releases, countP_cons]
  have elsewhere : ∀ other : UInt32, slot.toNat = other.toNat → slot = other :=
    fun _ => UInt32.toNat.inj
  have lookup := lookup_set inRange ⟨nextGeneration entry.generation, none⟩
  have size : (history.table.release slot slot.toNat entry).slots.length =
    history.table.slots.length := by
    simp [HandleTable.release]
  constructor <;> simp only [count, size]
  case room => exact room
  case generation | vacant | freed | occupied | issued =>
    simp only [HandleTable.release, lookup]
    grind [nextGeneration_toNat]
  case counted => grind
  case freeNodup => exact nodup_cons.mpr ⟨notFree, freeNodup⟩
  case released =>
    simp only [mem_cons, released, eq_iff_toNat, HandleTable.release]
    grind
  case nodup => exact nodup

theorem Sound.of_perm {released : List (HandleId κ)}
    (same : history.released.Perm released) : Sound { history with released } := by
  have count : ∀ index, HandleHistory.releases { history with released } index = history.releases
    index :=
    fun index => (same.countP_eq _).symm
  cases sound
  constructor <;> simp only [count, ← same.mem_iff] <;> assumption

omit sound in
/-- One turn of `drain` releases at most one entry. -/
theorem Sound.drainSlot {issued base : List (HandleId κ)}
    {state : List (HandleId κ × α) × HandleTable κ α}
    (sound : Sound ⟨state.2, issued, state.1.map Prod.fst ++ base⟩) (index : Nat) :
    Sound ⟨(HandleTable.drainSlot state index).2, issued,
      (HandleTable.drainSlot state index).1.map Prod.fst ++ base⟩ := by
  unfold HandleTable.drainSlot
  split
  case h_2 => exact sound
  case h_1 generation value found =>
    have inRange : index < state.2.slots.length := (List.getElem?_eq_some_iff.mp found).1
    have number : (UInt32.ofNat index).toNat = index :=
      UInt32.toNat_ofNat_of_lt' (inRange.trans_le sound.room)
    have positive : 0 < generation.toNat := by
      rw [sound.generation found]
      exact Nat.succ_pos _
    have released := sound.release (by rwa [number]) (by simp)
    rw [number] at released
    rw [new_of_pos _ _ positive]
    apply released.of_perm
    rw [map_append, append_assoc]
    exact perm_middle.symm

theorem Sound.drain :
    Sound { history with
      table := history.table.drain.2
      released := history.table.drain.1.map Prod.fst ++ history.released } := by
  have turns : ∀ (indices : List Nat) (state : List (HandleId κ × α) × HandleTable κ α),
      Sound ⟨state.2, history.issued, state.1.map Prod.fst ++ history.released⟩ →
      Sound ⟨(indices.foldl HandleTable.drainSlot state).2, history.issued,
        (indices.foldl HandleTable.drainSlot state).1.map Prod.fst ++ history.released⟩ := by
    intro indices
    induction indices with
    | nil => exact fun _ sound => sound
    | cons index rest ih => exact fun state sound => ih _ (sound.drainSlot index)
  exact turns _ ([], history.table) sound

/-- Giving or taking the value of a slot that is not released. -/
theorem Sound.setValue (found : history.table.slots[slot.toNat]? = some entry)
    {value : Option α} (empty : slot ∈ history.table.free → value = none) :
    Sound { history with table :=
      { history.table with slots :=
        history.table.slots.set slot.toNat { entry with value } } } := by
  have lookup := lookup_set (List.getElem?_eq_some_iff.mp found).1 { entry with value }
  have number : ∀ other : UInt32, slot.toNat = other.toNat → slot = other :=
    fun _ => UInt32.toNat.inj
  cases sound
  constructor <;> simp only [length_set, lookup] <;> first | assumption | grind [releases]

/-- Filling the slot released last issues its next generation. -/
theorem Sound.refill (top : history.table.free = slot :: rest)
    (few : history.releases slot.toNat < 65535) (value : α) :
    Sound { history with
      table := (history.table.insert value).2
      issued := (history.table.insert value).1 :: history.issued } := by
  obtain ⟨entry, found, -⟩ := sound.vacant slot (by simp [top])
  have inRange := (List.getElem?_eq_some_iff.mp found).1
  have generation := sound.generation found
  rw [Nat.mod_eq_of_lt few] at generation
  have popped : Sound { history with
      table := { history.table with free := rest }
      issued := ⟨history.table.kind, slot, entry.generation⟩ :: history.issued } := by
    have number : ∀ other : UInt32, other.toNat = slot.toNat → other = slot :=
      fun _ => UInt32.toNat.inj
    obtain ⟨room, generations, counted, freeNodup, vacant, freed, occupied, issued, released,
      nodup⟩ := sound
    rw [top] at freeNodup vacant freed occupied issued
    constructor
    case issued =>
      simp only [mem_cons, issued, eq_iff_toNat]
      grind [releases]
    all_goals first | assumption | grind [releases]
  rw [insert_of_cons top found (by omega)]
  exact popped.setValue found (by grind [sound.freeNodup])

/-- A new slot starts with generation one. -/
theorem Sound.grow (small : history.table.slots.length < 2 ^ 32) (value : α) :
    Sound { history with
      table := (history.table.insertFresh value).2
      issued := (history.table.insertFresh value).1 :: history.issued } := by
  have number := UInt32.toNat_ofNat_of_lt' small
  have unreleased : history.releases history.table.slots.length = 0 := by
    refine countP_eq_zero.mpr fun handle member => ?_
    have within := ((sound.released handle).mp member).2.1
    simp [within.ne]
  have notFree : .ofNat history.table.slots.length ∉ history.table.free := by
    intro member
    obtain ⟨entry, found, -⟩ := sound.vacant _ member
    rw [number] at found
    simp at found
  rw [insertFresh_eq]
  constructor
  case issued =>
    simp only [mem_cons, sound.issued, eq_iff_toNat, number, length_append]
    cases sound
    grind [releases]
  case generation =>
    intro index entry found
    obtain old | ⟨rfl, rfl⟩ : history.table.slots[index]? = some entry ∨
        index = history.table.slots.length ∧ entry = ⟨1, some value⟩ := by grind
    · exact sound.generation old
    · exact (congrArg (· % 65535 + 1) unreleased).symm
  all_goals
    cases sound
    first | assumption | grind [releases]

/-- A put of an issued handle that fills a released slot has met an exhausted counter. -/
theorem Sound.put_exhausted (known : handle ∈ history.issued)
    (found : history.table.slots[handle.slot.toNat]? = some entry)
      (same : entry.generation = handle.generation)
    (free : handle.slot ∈ history.table.free) : history.releases handle.slot.toNat = 65535 := by
  obtain ⟨-, -, -, bound⟩ := (sound.issued handle).mp known
  have generation := sound.generation found
  have counted := sound.counted handle.slot.toNat
  rw [same] at generation
  rw [if_pos free] at bound
  omega

end

variable {operation : HandleOperation κ α}

theorem validateSlot_ok {index : Nat} (valid : table.validateSlot handle = .ok (index, entry)) :
    handle.kind = table.kind ∧ index = handle.slot.toNat ∧ table.slots[handle.slot.toNat]? =
      some entry ∧ entry.generation = handle.generation := by
  unfold HandleTable.validateSlot at valid
  split_ifs at valid with sameKind
  split at valid
  case h_1 => cases valid
  case h_2 found =>
    split_ifs at valid with sameGeneration
    cases valid
    exact ⟨not_not.mp sameKind, rfl, found, not_not.mp sameGeneration⟩

theorem validate_ok {index : Nat} {value : α}
    (valid : table.validate handle = .ok (index, entry, value)) :
    handle.kind = table.kind ∧ index = handle.slot.toNat ∧ table.slots[handle.slot.toNat]? =
      some entry ∧ entry.generation = handle.generation ∧ entry.value = some value := by
  unfold HandleTable.validate at valid
  split at valid
  case h_1 => cases valid
  case h_2 inSlot =>
    split at valid
    case h_1 => cases valid
    case h_2 present =>
      cases valid
      obtain ⟨sameKind, same, found, sameGeneration⟩ := validateSlot_ok inSlot
      exact ⟨sameKind, same, found, sameGeneration, present⟩

theorem put_ok {value : α} {filled : HandleTable κ α}
    (accepted : table.put handle value = .ok filled) :
    ∃ entry, handle.kind = table.kind ∧ table.slots[handle.slot.toNat]? = some entry ∧
      entry.generation = handle.generation ∧
      filled = { table with
        slots := table.slots.set handle.slot.toNat { entry with value := some value } } := by
  unfold HandleTable.put at accepted
  split at accepted
  case h_1 => cases accepted
  case h_2 inSlot =>
    split_ifs at accepted
    obtain ⟨sameKind, rfl, found, same⟩ := validateSlot_ok inSlot
    exact ⟨_, sameKind, found, same, (Except.ok.inj accepted).symm⟩

attribute [local simp] HandleHistory.step

/-- An affordable operation keeps the invariant. -/
theorem Sound.step (sound : history.Sound) (affordable : history.Affordable operation)
    (known : ∀ handle value, operation = .put handle value → handle ∈ history.issued) :
    (history.step operation).Sound := by
  cases operation with
  | insert value =>
    cases free : history.table.free with
    | nil =>
      simp only [HandleHistory.step, insert_of_nil free]
      exact sound.grow (affordable.grow free) value
    | cons slot rest =>
      exact sound.refill free (affordable.refill slot (by simp [Refills, free])) value
  | insertFresh value => exact sound.grow (affordable.grow trivial) value
  | take handle =>
    cases valid : history.table.validate handle with
    | error error => simpa [HandleTable.take, valid, Except.map] using sound
    | ok entry =>
      obtain ⟨index, entry, value⟩ := entry
      obtain ⟨-, rfl, found, -, -⟩ := validate_ok valid
      simpa [HandleTable.take, valid, Except.map] using sound.setValue found fun _ => rfl
  | put handle value =>
    cases accepted : history.table.put handle value with
    | error error => simpa [accepted] using sound
    | ok filled =>
      obtain ⟨entry, -, found, same, rfl⟩ := put_ok accepted
      have notFree : handle.slot ∉ history.table.free := by
        intro free
        have few := affordable.refill handle.slot ⟨rfl, free, by rw [accepted]; rfl⟩
        exact few.ne (sound.put_exhausted (known handle value rfl) found same free)
      simpa [accepted] using sound.setValue found fun free => absurd free notFree
  | remove handle =>
    cases valid : history.table.validate handle with
    | error error => simpa [HandleTable.remove, valid, Except.map] using sound
    | ok entry =>
      obtain ⟨index, entry, value⟩ := entry
      obtain ⟨sameKind, rfl, found, same, present⟩ := validate_ok valid
      obtain ⟨kind, slot, generation⟩ := handle
      obtain rfl : kind = history.table.kind := sameKind
      obtain rfl : entry.generation = generation := same
      simpa [HandleTable.remove, valid, Except.map] using sound.release found (by simp [present])
  | drain => exact sound.drain

theorem ReturnsIssued.of_isPrefix (returns : ReturnsIssued kind operations)
    (initial : before <+: operations) : ReturnsIssued kind before :=
  fun earlier handle value listed => returns earlier handle value (listed.trans initial)

theorem WithinCounters.of_isPrefix (within : WithinCounters kind operations)
    (initial : before <+: operations) : WithinCounters kind before :=
  fun earlier operation listed => within earlier operation (listed.trans initial)

/-- The invariant holds after every affordable run. -/
theorem sound_run (returns : ReturnsIssued kind operations)
    (within : WithinCounters kind operations) :
    (run kind operations).Sound := by
  induction operations using List.reverseRecOn with
  | nil => exact sound_start kind
  | append_singleton operations operation ih =>
    have initial : operations <+: operations ++ [operation] := prefix_append ..
    rw [run_append_singleton]
    apply (ih (returns.of_isPrefix initial) (within.of_isPrefix initial)).step
      (within _ _ (prefix_refl _))
    rintro handle value rfl
    exact returns operations handle value (prefix_refl _)

/-- Under the invariant no released handle validates. -/
theorem Sound.validate_ne_ok (sound : history.Sound) (gone : handle ∈ history.released)
    (entry : Nat × HandleSlot α × α) : history.table.validate handle ≠ .ok entry := by
  intro valid
  obtain ⟨index, entry, value⟩ := entry
  obtain ⟨-, -, found, same, present⟩ := validate_ok valid
  obtain ⟨-, inRange, -, old⟩ := (sound.released handle).mp gone
  have notFree : handle.slot ∉ history.table.free := by
    intro free
    obtain ⟨other, found', empty⟩ := sound.vacant handle.slot free
    obtain rfl := Option.some.inj (found.symm.trans found')
    rw [present] at empty
    cases empty
  have few := sound.occupied handle.slot inRange notFree
  have generation := sound.generation found
  rw [same, Nat.mod_eq_of_lt few] at generation
  omega

theorem issued_step_suffix (history : HandleHistory κ α) (operation : HandleOperation κ α) :
    history.issued <:+ (history.step operation).issued := by
  cases operation with
  | insert value | insertFresh value => exact suffix_cons ..
  | drain => exact suffix_refl _
  | take handle | put handle value | remove handle =>
    simp only [step]
    split <;> exact suffix_refl _

theorem issued_run_suffix (initial : before <+: operations) :
    (run kind before).issued <:+ (run kind operations).issued := by
  obtain ⟨rest, rfl⟩ := initial
  induction rest using List.reverseRecOn with
  | nil => simp
  | append_singleton rest operation ih =>
    rw [← append_assoc, run_append_singleton]
    exact ih.trans (issued_step_suffix _ operation)

omit [DecidableEq κ] in
theorem Sound.first_issued (sound : history.Sound)
    (inRange : slot.toNat < history.table.slots.length) :
    ⟨history.table.kind, slot, 1⟩ ∈ history.issued := by
  refine (sound.issued _).mpr ⟨rfl, inRange, Nat.one_pos, ?_⟩
  split_ifs with free
  · exact sound.freed slot free
  · exact Nat.le_add_left ..

omit [DecidableEq κ] in
/-- After 65535 releases the slot is back at its first generation. -/
theorem Sound.generation_of_exhausted (sound : history.Sound)
    (found : history.table.slots[slot.toNat]? = some entry)
    (exhausted : ¬ history.releases slot.toNat < 65535) :
    entry.generation = 1 := by
  have counted := sound.counted slot.toNat
  have generation := sound.generation found
  exact UInt16.toNat.inj (by rw [generation]; simp; omega)

section
variable (sound : history.Sound) (distinct : (history.step operation).issued.Nodup)
include sound distinct

theorem Sound.not_refill
    (stale : ∀ handle ∈ (history.step operation).released, ∀ entry,
      (history.step operation).table.validate handle ≠ .ok entry)
    (exhausted : ¬ history.releases slot.toNat < 65535) : ¬ history.Refills slot operation := by
  intro refills
  cases operation with
  | insert value =>
    obtain ⟨rest, free⟩ : ∃ rest, history.table.free = slot :: rest := head?_eq_some_iff.mp refills
    obtain ⟨entry, found, -⟩ := sound.vacant slot (by simp [free])
    have first := sound.generation_of_exhausted found exhausted
    have fresh : (history.table.insert value).1 ∉ history.issued := (nodup_cons.mp distinct).1
    rw [insert_of_cons free found (by rw [first]; exact Nat.one_pos), first] at fresh
    exact fresh (sound.first_issued (List.getElem?_eq_some_iff.mp found).1)
  | put handle value =>
    obtain ⟨rfl, free, accepted⟩ := refills
    cases put : history.table.put handle value with
    | error error =>
      rw [put] at accepted
      cases accepted
    | ok filled =>
      obtain ⟨entry, sameKind, found, same, rfl⟩ := put_ok put
      have first := sound.generation_of_exhausted found exhausted
      have inRange := (List.getElem?_eq_some_iff.mp found).1
      have gone : handle ∈ history.released :=
        (sound.released handle).mpr ⟨sameKind, inRange, by rw [← same, first]; exact Nat.one_pos, by
          rw [← same, first]
          exact sound.freed handle.slot free⟩
      simp only [HandleHistory.step, put] at stale
      apply stale handle gone (handle.slot.toNat, { entry with value := some value }, value)
      simp [HandleTable.validate, HandleTable.validateSlot, sameKind, inRange, same]
  | _ => exact refills

theorem Sound.not_full (adds : history.AddsSlot operation) :
    history.table.slots.length < 2 ^ 32 := by
  refine lt_of_le_of_ne sound.room fun full => ?_
  have known : ∀ value : α, (history.table.insertFresh value).1 ∈ history.issued := by
    intro value
    rw [insertFresh_eq, full]
    exact sound.first_issued (by rw [full]; decide)
  cases operation with
  | insert value =>
    have fresh : (history.table.insert value).1 ∉ history.issued := (nodup_cons.mp distinct).1
    rw [insert_of_nil adds] at fresh
    exact fresh (known value)
  | insertFresh value => exact (nodup_cons.mp distinct).1 (known value)
  | _ => exact adds

end

/-- A run that detects stale handles meets no exhausted counter. -/
theorem withinCounters_of_detectsStale (returns : ReturnsIssued kind operations)
    (detects : DetectsStale kind operations) : WithinCounters kind operations := by
  have prefixes : ∀ before, before <+: operations → WithinCounters kind before := by
    intro before
    induction before using List.reverseRecOn with
    | nil =>
      intro _ earlier operation listed
      simp at listed
    | append_singleton before operation ih =>
      intro initial earlier other listed
      have shorter : before <+: operations := (prefix_append ..).trans initial
      rcases prefix_concat_iff.mp listed with equal | old
      · obtain ⟨rfl, rfl⟩ : earlier = before ∧ other = operation := by simpa using equal
        have sound := sound_run (returns.of_isPrefix shorter) (ih shorter)
        have distinct : ((run kind earlier).step other).issued.Nodup := by
          rw [← run_append_singleton]
          exact detects.2.sublist (issued_run_suffix initial).sublist
        have stale := detects.1 _ initial
        rw [run_append_singleton] at stale
        exact ⟨fun slot refills => by_contra fun exhausted => sound.not_refill distinct stale
          exhausted refills, sound.not_full distinct⟩
      · exact ih shorter earlier other old
  exact prefixes operations (prefix_refl _)

/-- When `put` only gets handles that were issued, stale handles are detected exactly as long as no
slot is filled again after 65535 releases and slot numbers fit in 32 bits. -/
theorem detectsStale_iff_withinCounters {kind : κ} {operations : List (HandleOperation κ α)}
    (returns : ReturnsIssued kind operations) : DetectsStale kind operations ↔
      WithinCounters kind operations := by
  refine ⟨withinCounters_of_detectsStale returns, fun within =>
    ⟨fun before initial handle gone => ?_, ?_⟩⟩
  · exact (sound_run (returns.of_isPrefix initial) (within.of_isPrefix initial)).validate_ne_ok gone
  · exact (sound_run returns within).nodup

/-- A value is taken, put back and removed, and its slot is filled again. -/
def reuse : List (HandleOperation Unit Nat) :=
  [.insert 7, .take ⟨(), 0, 1⟩, .put ⟨(), 0, 1⟩ 9, .remove ⟨(), 0, 1⟩, .insert 8]

theorem detectsStale_reuse : ReturnsIssued () reuse ∧
    (DetectsStale () reuse ↔ WithinCounters () reuse) := by
  have returns : ReturnsIssued () reuse := by
    rintro before handle value ⟨rest, equal⟩
    rcases before with - | ⟨first, - | ⟨second, - | ⟨third, - | ⟨fourth, - | ⟨fifth, before⟩⟩⟩⟩⟩ <;>
      simp [reuse] at equal
    obtain ⟨rfl, rfl, ⟨rfl, rfl⟩, -⟩ := equal
    decide
  exact ⟨returns, detectsStale_iff_withinCounters returns⟩

/-- The same slot filled and drained again and again. -/
def cycles (count : Nat) : List (HandleOperation Unit Nat) :=
  (List.replicate count [.insert 0, .drain]).flatten

variable (count : Nat)

theorem cycles_succ : cycles (count + 1) = cycles count ++ [.insert 0, .drain] := by
  simp [cycles, replicate_succ', flatten_append]

theorem run_cycles :
    ∃ generation issued released, run () (cycles (count + 1)) =
      ⟨⟨(), [⟨generation, none⟩], [0]⟩, issued, released⟩ ∧
      released.countP (fun handle => handle.slot.toNat = 0) = count + 1 := by
  induction count with
  | zero => exact ⟨2, [⟨(), 0, 1⟩], [⟨(), 0, 1⟩], rfl, rfl⟩
  | succ count ih =>
    obtain ⟨generation, issued, released, equal, released0⟩ := ih
    refine ⟨nextGeneration generation, .new () 0 generation :: issued, .new () 0 generation ::
      released, ?_, ?_⟩
    · rw [cycles_succ, run, foldl_append, ← run, equal]
      rfl
    · rw [countP_cons_of_pos (by simp [HandleId.new]), released0]

theorem returnsIssued_cycles : ReturnsIssued () (cycles count ++ [.insert 0]) := by
  intro before handle value listed
  have member : .put handle value ∈ cycles count ++ [.insert 0] := listed.subset (by simp)
  simp [cycles, mem_flatten, mem_replicate] at member

/-- After 65535 releases of its slot the first handle is issued again. -/
theorem not_detectsStale_cycles : ¬ DetectsStale () (cycles 65535 ++ [.insert 0]) := by
  intro detects
  have affordable := withinCounters_of_detectsStale (returnsIssued_cycles 65535) detects _ _
    (prefix_refl _)
  obtain ⟨generation, issued, released, equal, count⟩ := run_cycles 65534
  rw [equal] at affordable
  exact (affordable.refill 0 rfl).ne count

end HandleHistory

end SpectraLang

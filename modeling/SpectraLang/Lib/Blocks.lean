import Mathlib.Data.List.Basic

/-! # Block codes

A writer turns the items in front of it into a block and goes on behind the first `width` of them; a
reader takes a block off the front and says how much it has passed. A reader that undoes every
single block, whatever is written behind it, reads back everything that was written.
-/

namespace Blocks

open List

variable {α β : Type*}

/-- Writes block after block. -/
def write (width : Nat) (block : List α → List β) : Nat → List α → List β → List β
  | _, [], written => written
  | 0, _ :: _, written => written
  | turns + 1, item :: items, written =>
    write width block turns ((item :: items).drop width) (written ++ block (item :: items))

/-- Reads block after block; the number with a block is what it has passed. -/
def read (block : List β → Option (List α × Nat)) : Nat → List β → List α → Option (List α)
  | _, [], items => some items
  | 0, _ :: _, _ => none
  | turns + 1, code :: codes, items =>
    match block (code :: codes) with
    | none => none
    | some (more, passed) => read block turns ((code :: codes).drop passed) (items ++ more)

/-- The items and what is written for them. -/
inductive Written (width : Nat) (block : List α → List β) : List α → List β → Prop where
  | nil : Written width block [] []
  | block {items : List α} {later : List β} (nonempty : items ≠ [])
    (rest : Written width block (items.drop width) later) :
      Written width block items (block items ++ later)

section Writer
variable {width : Nat} {block : List α → List β} {items : List α} {codes : List β}

theorem written_write (positive : 0 < width) {turns : Nat} {written : List β}
    (enough : items.length ≤ turns) :
    ∃ later, write width block turns items written = written ++ later ∧
      Written width block items later := by
  induction turns generalizing items written with
  | zero =>
    obtain rfl := length_eq_zero_iff.mp (Nat.le_zero.mp enough)
    exact ⟨[], by rw [write, append_nil], .nil⟩
  | succ turns ih =>
    rcases items with - | ⟨item, items⟩
    · exact ⟨[], by rw [write, append_nil], .nil⟩
    · have shorter : ((item :: items).drop width).length ≤ turns := by
        rw [length_drop]
        omega
      obtain ⟨later, same, rest⟩ := ih shorter
      exact ⟨block (item :: items) ++
        later, by rw [write, same, append_assoc], .block (cons_ne_nil _ _) rest⟩

theorem Written.eq_nil (written : Written width block [] codes) : codes = [] := by
  cases written with
  | nil => rfl
  | block nonempty _ => exact absurd rfl nonempty

section
variable {good : α → Prop} (written : Written width block items codes)
  (allGood : ∀ item ∈ items, good item)
include written allGood

/-- What holds of every code of a block holds of every code. -/
theorem Written.forall_mem {fine : β → Prop}
    (blockFine : ∀ items, items ≠ [] → (∀ item ∈ items, good item) → ∀ code ∈ block items,
      fine code) :
    ∀ code ∈ codes, fine code := by
  induction written with
  | nil => simp
  | @block items later nonempty _ ih =>
    refine forall_mem_append.mpr ⟨blockFine items nonempty allGood, ih ?_⟩
    exact fun item member => allGood item (mem_of_mem_drop member)

/-- Blocks of a whole number of codes add up to a whole number of codes. -/
theorem Written.dvd_length {size : Nat}
    (blockDvd : ∀ items, items ≠ [] → (∀ item ∈ items, good item) → size ∣ (block items).length) :
    size ∣ codes.length := by
  induction written with
  | nil => exact Nat.dvd_zero _
  | @block items later nonempty _ ih =>
    rw [length_append]
    refine Nat.dvd_add (blockDvd items nonempty allGood) (ih ?_)
    exact fun item member => allGood item (mem_of_mem_drop member)

/-- A reader that undoes each block reads back all items. -/
theorem Written.read_eq {readBlock : List β → Option (List α × Nat)}
    (undo : ∀ items later, items ≠ [] → (∀ item ∈ items, good item) →
      (items.length ≤ width → later = []) →
      block items ≠ [] ∧ readBlock (block items ++ later) = some
        (items.take width, (block items).length))
    {turns : Nat} {before : List α} (enough : codes.length ≤ turns) :
    read readBlock turns codes before = some (before ++ items) := by
  induction written generalizing turns before with
  | nil => simp [read]
  | @block items later nonempty rest ih =>
    have last : items.length ≤ width → later = [] := by
      intro short
      rw [drop_eq_nil_of_le short] at rest
      exact rest.eq_nil
    obtain ⟨blockNonempty, undone⟩ := undo items later nonempty allGood last
    rw [length_append] at enough
    have positive := length_pos_iff.mpr blockNonempty
    obtain ⟨turns, rfl⟩ : ∃ fewer, turns = fewer + 1 := Nat.exists_eq_succ_of_ne_zero (by omega)
    obtain ⟨code, codes, split⟩ :=
      exists_cons_of_ne_nil (append_ne_nil_of_left_ne_nil blockNonempty later)
    have behind : (block items ++ later).drop (block items).length = later := drop_left
    rw [split] at undone behind ⊢
    rw [read, undone]
    simp only
    rw [behind, ih (fun item member => allGood item (mem_of_mem_drop member)) (by omega),
      append_assoc, take_append_drop]

end

end Writer

end Blocks

import Mathlib.Data.List.Basic
import Mathlib.Order.Bounds.Basic
import Mathlib.Order.MinMax

/-! # Patches

An edit script keeps, drops and adds lines. Its windows, with the lines in front of them counted on
both sides, are the hunks of a patch: applied to the source of the script they give its target,
whatever unchanged lines are left out between them. The lines that two sides share in order are
counted by `common`.
-/

namespace Patch

open List

variable {α : Type*}

inductive Edit (α : Type*) where
  | keep (line : α)
  | drop (line : α)
  | add (line : α)

def Edit.source : Edit α → Option α
  | .keep line | .drop line => some line
  | .add _ => none

def Edit.target : Edit α → Option α
  | .keep line | .add line => some line
  | .drop _ => none

def Edit.isKeep : Edit α → Bool
  | .keep _ => true
  | _ => false

/-- The lines a script reads. -/
def source (script : List (Edit α)) : List α := script.filterMap Edit.source

/-- The lines a script writes. -/
def target (script : List (Edit α)) : List α := script.filterMap Edit.target

/-- Edits behind the given numbers of lines. -/
structure Hunk (α : Type*) where
  sourceStart : Nat
  targetStart : Nat
  edits : List (Edit α)

/-- The lines written by the edits and the lines behind them, if every line kept or dropped is
there. -/
def applyEdits [DecidableEq α] : List (Edit α) → List α → Option (List α × List α)
  | [], lines => some ([], lines)
  | .keep line :: edits, next :: lines =>
    if line = next then (applyEdits edits lines).map fun (written, rest) =>
      (line :: written, rest) else none
  | .drop line :: edits, next :: lines => if line = next then applyEdits edits lines else none
  | .add line :: edits, lines =>
    (applyEdits edits lines).map fun (written, rest) => (line :: written, rest)
  | _ :: _, [] => none

/-- Apply hunks to the lines left after `read` lines were read and `made` lines written. -/
def apply [DecidableEq α] : List (Hunk α) → Nat → Nat → List α → Option (List α)
  | [], _, _, lines => some lines
  | hunk :: hunks, read, made, lines =>
    let gap := hunk.sourceStart - read
    if read ≤ hunk.sourceStart ∧ gap ≤ lines.length ∧ hunk.targetStart = made + gap then do
      let (written, rest) ← applyEdits hunk.edits (lines.drop gap)
      let last ← apply hunks (hunk.sourceStart + (source hunk.edits).length)
        (hunk.targetStart + written.length) rest
      some (lines.take gap ++ written ++ last)
    else none

/-- The first hunk ends before the second one starts, on both sides. -/
def Hunk.Before (first second : Hunk α) : Prop :=
  first.sourceStart + (source first.edits).length ≤ second.sourceStart ∧
    first.targetStart + (target first.edits).length ≤ second.targetStart

/-- The hunks are windows of the script, with unchanged lines between them. -/
inductive Windows : Nat → Nat → List (Edit α) → List (Hunk α) → Prop
  | unchanged {read made : Nat} {gap : List (Edit α)} (same : ∀ edit ∈ gap, edit.isKeep = true) :
      Windows read made gap []
  | window {read made : Nat} {gap edits rest : List (Edit α)} {hunks : List (Hunk α)}
      (same : ∀ edit ∈ gap, edit.isKeep = true)
      (later : Windows (read + gap.length + (source edits).length)
        (made + gap.length + (target edits).length) rest hunks) :
      Windows read made (gap ++ edits ++ rest)
        (⟨read + gap.length, made + gap.length, edits⟩ :: hunks)

@[simp] theorem source_append (script rest : List (Edit α)) :
    source (script ++ rest) = source script ++ source rest :=
  List.filterMap_append

@[simp] theorem target_append (script rest : List (Edit α)) :
    target (script ++ rest) = target script ++ target rest :=
  List.filterMap_append

theorem source_cons (edit : Edit α) (script : List (Edit α)) :
    source (edit :: script) = edit.source.toList ++ source script := by
  cases edit <;> rfl

theorem target_cons (edit : Edit α) (script : List (Edit α)) :
    target (edit :: script) = edit.target.toList ++ target script := by
  cases edit <;> rfl

/-- Unchanged lines are read and written alike. -/
theorem source_eq_target {gap : List (Edit α)} (same : ∀ edit ∈ gap, edit.isKeep = true) :
    source gap = target gap ∧ (source gap).length = gap.length := by
  induction gap with
  | nil => exact ⟨rfl, rfl⟩
  | cons edit gap ih =>
    obtain ⟨kept, others⟩ := List.forall_mem_cons.mp same
    obtain ⟨equal, length⟩ := ih others
    cases edit with
    | keep line => exact ⟨congrArg (line :: ·) equal, congrArg (· + 1) length⟩
    | drop line | add line => cases kept

theorem applyEdits_source [DecidableEq α] (edits : List (Edit α)) (rest : List α) :
    applyEdits edits (source edits ++ rest) = some (target edits, rest) := by
  induction edits with
  | nil => rfl
  | cons edit edits ih =>
    cases edit <;> simp [source_cons, target_cons, Edit.source, Edit.target, applyEdits, ih]

namespace Windows

variable {read made : Nat} {script : List (Edit α)} {hunks : List (Hunk α)}

section
variable (windows : Windows read made script hunks)
include windows

/-- The hunks turn the source of the script into its target. -/
theorem apply_source [DecidableEq α] : apply hunks read made (source script) = some
    (target script) := by
  induction windows with
  | unchanged same => rw [apply, (source_eq_target same).1]
  | @window read made gap edits rest hunks same later ih =>
    obtain ⟨equal, length⟩ := source_eq_target same
    rw [← length, equal] at ih
    have lines : source (gap ++ edits ++ rest) = source gap ++ (source edits ++ source rest) := by
      simp
    rw [apply, lines]
    simp only [Nat.add_sub_cancel_left, ← length, List.drop_left, List.take_left, applyEdits_source]
    rw [if_pos ⟨Nat.le_add_right _ _, by simp, trivial⟩]
    simp [ih, equal]

theorem starts : ∀ hunk ∈ hunks, read ≤ hunk.sourceStart ∧ made ≤ hunk.targetStart := by
  induction windows with
  | unchanged => simp
  | window same later ih =>
    intro hunk member
    rcases List.mem_cons.mp member with rfl | later
    · exact ⟨Nat.le_add_right _ _, Nat.le_add_right _ _⟩
    · have := ih hunk later
      omega

/-- The hunks are in order and do not overlap. -/
theorem ordered : hunks.Pairwise Hunk.Before := by
  induction windows with
  | unchanged => exact .nil
  | window same later ih => exact .cons (fun hunk member => later.starts hunk member) ih

end

end Windows

section Common
variable [DecidableEq α]

/-- The length of a longest common subsequence. -/
def common : List α → List α → Nat
  | [], _ | _, [] => 0
  | line :: left, other :: right =>
    if line = other then common left right + 1 else max (common left (other :: right))
      (common (line :: left) right)
termination_by left right => left.length + right.length

@[simp]
theorem common_nil_left (right : List α) : common [] right = 0 := by
  rw [common]

@[simp]
theorem common_nil_right (left : List α) : common left [] = 0 := by
  cases left <;> simp [common]

theorem common_isGreatest (left right : List α) :
    IsGreatest {length | ∃ shared, shared <+ left ∧ shared <+ right ∧ shared.length = length}
      (common left right) := by
  fun_induction common left right with
  | case1 | case2 => exact ⟨⟨[], by simp⟩, fun length ⟨shared, first, second, is⟩ => by simp_all⟩
  | case3 left line right ih =>
    obtain ⟨⟨shared, first, second, is⟩, most⟩ := ih
    refine ⟨⟨line :: shared, first.cons_cons line, second.cons_cons line, by simp [is]⟩, ?_⟩
    rintro _ ⟨shared, first, second, rfl⟩
    have := most ⟨shared.tail, first.tail, second.tail, rfl⟩
    rw [length_tail] at this
    omega
  | case4 line left other right differs ihLeft ihRight =>
    constructor
    · rcases max_choice (common left (other :: right)) (common (line :: left) right) with is |
        is <;> rw [is]
      · obtain ⟨shared, first, second, is⟩ := ihLeft.1
        exact ⟨shared, first.cons line, second, is⟩
      · obtain ⟨shared, first, second, is⟩ := ihRight.1
        exact ⟨shared, first, second.cons other, is⟩
    · rintro _ ⟨shared, first, second, rfl⟩
      rcases sublist_cons_iff.mp first with shorter | ⟨rest, rfl, _⟩
      · exact le_max_of_le_left (ihLeft.2 ⟨shared, shorter, second, rfl⟩)
      · rcases sublist_cons_iff.mp second with shorter | ⟨_, same, _⟩
        · exact le_max_of_le_right (ihRight.2 ⟨_, first, shorter, rfl⟩)
        · exact absurd (head_eq_of_cons_eq same) differs

end Common

end Patch

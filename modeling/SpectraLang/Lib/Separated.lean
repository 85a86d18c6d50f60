import Mathlib.Tactic.Common

/-! # Sequences joined by a separator

Joining parts with a separator that may also occur inside the parts loses their boundaries. They can
be recovered when no part continues another one behind a separator.
-/

namespace Separated

variable {α : Type*}

/-- The parts one after another, each behind a separator. -/
def behind (separator : α) (parts : List (List α)) : List α := parts.flatMap (separator :: ·)

/-- The longer sequence is the shorter one followed by a separator and more. -/
def Continues (separator : α) (shorter longer : List α) : Prop :=
  ∃ rest, longer = shorter ++ separator :: rest

/-- Different parts of which neither continues the other. -/
def Apart (separator : α) (first second : List α) : Prop :=
  first ≠ second → ¬Continues separator first second ∧ ¬Continues separator second first

variable {separator : α}

theorem eq_of_append_behind {first second rest : List α} {parts : List (List α)}
    (split : second = first ++ rest) {more : List α}
      (starts : behind separator parts = rest ++ more)
    (apart : ¬Continues separator first second) : rest = [] := by
  cases rest with
  | nil => rfl
  | cons head tail =>
    exfalso
    apply apart
    cases parts with
    | nil => simp [behind] at starts
    | cons part parts =>
      simp only [behind, List.flatMap_cons, List.cons_append, List.cons.injEq] at starts
      exact ⟨tail, by rw [split, starts.1]⟩

theorem head_unique {first second : List α} {parts others : List (List α)}
    (joined : first ++ behind separator parts = second ++ behind separator others)
    (apart : Apart separator first second) : first = second ∧
      behind separator parts = behind separator others := by
  by_cases same : first = second
  · subst same
    exact ⟨rfl, List.append_cancel_left joined⟩
  · exfalso
    obtain ⟨forward, backward⟩ := apart same
    rcases List.append_eq_append_iff.mp joined with ⟨rest, split, starts⟩ | ⟨rest, split, starts⟩
    · have empty := eq_of_append_behind split starts forward
      exact same (by simpa [empty] using split.symm)
    · have empty := eq_of_append_behind split starts backward
      exact same (by simpa [empty] using split)

end Separated

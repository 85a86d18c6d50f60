import Mathlib.Order.Basic
import Mathlib.Tactic.Common

/-! # Loops that run until nothing changes

A loop body that reports whether it changed the state is an optional step. `saturate` repeats it,
and a measure that every step decreases both bounds the number of rounds and makes the final state a
fixed point. Invariants of one step carry over to the final state.
-/

namespace Saturate

variable {σ : Type*}

/-- Repeat an optional step, at most `fuel` times, until it reports no change. -/
def saturate (step : σ → Option σ) : Nat → σ → σ
  | 0, state => state
  | fuel + 1, state =>
    match step state with
    | none => state
    | some next => saturate step fuel next

variable {step : σ → Option σ} {state : σ} {fuel : Nat}

@[simp] theorem saturate_of_none (stable : step state = none) :
    saturate step fuel state = state := by
  cases fuel with
  | zero => rfl
  | succ fuel => simp [saturate, stable]

theorem saturate_of_some {next : σ} (change : step state = some next) :
    saturate step (fuel + 1) state = saturate step fuel next := by
  simp [saturate, change]

variable (invariant : σ → Prop)

/-- What one step preserves holds of the final state. -/
theorem saturate_invariant (preserved : ∀ before after, invariant before →
    step before = some after → invariant after)
    (initial : invariant state) : invariant (saturate step fuel state) := by
  induction fuel generalizing state with
  | zero => exact initial
  | succ fuel ih =>
    cases change : step state with
    | none => simpa only [saturate, change] using initial
    | some next =>
      rw [saturate_of_some change]
      exact ih (preserved state next initial change)

/-- A measure bounded by the fuel that each step decreases leaves nothing to change. -/
theorem saturate_stable (measure : σ → Nat)
    (preserved : ∀ before after, invariant before → step before = some after → invariant after)
    (decreases : ∀ before after, invariant before → step before = some after →
      measure after < measure before)
    (initial : invariant state) (enough : measure state ≤ fuel) :
      step (saturate step fuel state) = none := by
  induction fuel generalizing state with
  | zero =>
    cases change : step state with
    | none => simpa only [saturate] using change
    | some next =>
      have smaller := decreases state next initial change
      omega
  | succ fuel ih =>
    cases change : step state with
    | none => simp only [saturate, change]
    | some next =>
      have smaller := decreases state next initial change
      rw [saturate_of_some change]
      exact ih (preserved state next initial change) (by omega)

section Rounds
variable {ι : Type*} {visit : σ × Bool → ι → σ × Bool} {items : List ι}

/-- One round of visits over the items, when one of them reports a change. -/
def round (visit : σ × Bool → ι → σ × Bool) (items : List ι) (state : σ) : Option σ :=
  let outcome := items.foldl visit (state, false)
  if outcome.2 then some outcome.1 else none

variable {invariant} {measure : σ → Nat} {settled : σ → ι → Prop}
  (visits : ∀ state, ∀ item ∈ items, invariant state.1 →
    (visit state item = state ∧ settled state.1 item) ∨
    ∃ next, visit state item = (next, true) ∧ invariant next ∧ measure next < measure state.1)
include visits

theorem foldl_visit {state : σ × Bool} (valid : invariant state.1) :
    (items.foldl visit state = state ∧ ∀ item ∈ items, settled state.1 item) ∨
      ∃ next, items.foldl visit state = (next, true) ∧ invariant next ∧
        measure next < measure state.1 := by
  induction items generalizing state with
  | nil => exact .inl ⟨rfl, nofun⟩
  | cons item items ih =>
    have rest := @ih fun state other member => visits state other (List.mem_cons_of_mem _ member)
    rw [List.foldl_cons]
    rcases visits state item List.mem_cons_self valid with ⟨same, isSettled⟩ |
      ⟨next, changed, kept, smaller⟩
    · rw [same]
      refine (rest valid).imp_left fun ⟨same, others⟩ => ⟨same, fun other member => ?_⟩
      rcases List.mem_cons.mp member with rfl | member
      · exact isSettled
      · exact others other member
    · rw [changed]
      right
      rcases @rest (next, true) kept with ⟨same, -⟩ | ⟨last, ends, valid, less⟩
      · exact ⟨next, same, kept, smaller⟩
      · exact ⟨last, ends, valid, Nat.lt_trans less smaller⟩

/-- Rounds whose visits change nothing or are paid for by the measure end with every item
settled. -/
theorem saturate_round (valid : invariant state) (enough : measure state ≤ fuel) :
    invariant (saturate (round visit items) fuel state) ∧
      round visit items (saturate (round visit items) fuel state) = none ∧
      ∀ item ∈ items, settled (saturate (round visit items) fuel state) item := by
  have paid : ∀ before after, invariant before → round visit items before = some after →
      invariant after ∧ measure after < measure before := by
    intro before after valid step
    rcases foldl_visit visits (show invariant (before, false).1 from valid) with ⟨same, -⟩ |
      ⟨next, changed, kept⟩
    · simp [round, same] at step
    · simp only [round, changed, if_true, Option.some.injEq] at step
      exact step ▸ kept
  have final :=
    @saturate_invariant _ _ _ fuel invariant
      (fun before after valid step => (paid before after valid step).1) valid
  have stable :=
    saturate_stable invariant measure
      (fun before after valid step => (paid before after valid step).1)
    (fun before after valid step => (paid before after valid step).2) valid enough
  refine ⟨final, stable, ?_⟩
  rcases foldl_visit visits (show invariant (_, false).1 from final) with ⟨-, all⟩ |
    ⟨next, changed, -⟩
  · exact all
  · simp [round, changed] at stable

end Rounds

/-- Counting is a strict measure for a predicate that gives up an element. -/
theorem countP_lt_of_lost {α : Type*} {fewer more : α → Bool} {elements : List α}
    (below : ∀ element ∈ elements, fewer element = true → more element = true) {lost : α}
      (member : lost ∈ elements)
    (before : more lost = true) (after : fewer lost = false) :
      elements.countP fewer < elements.countP more := by
  obtain ⟨front, back, rfl⟩ := List.append_of_mem member
  have left : front.countP fewer ≤ front.countP more :=
    List.countP_mono_left fun element inside => below element (by simp [inside])
  have right : back.countP fewer ≤ back.countP more :=
    List.countP_mono_left fun element inside => below element (by simp [inside])
  simp only [List.countP_append, List.countP_cons, before, after, if_true, Bool.false_eq_true,
    if_false]
  omega

/-- Two loops that keep step stay related. -/
theorem saturate_related {step : σ → Option σ} {step' : τ → Option τ} (related : σ → τ → Prop)
    (moves : ∀ state state', related state state' → (step state = none ∧ step' state' = none) ∨
      ∃ next next', step state = some next ∧ step' state' = some next' ∧ related next next')
    {state : σ} {state' : τ} (initial : related state state') (fuel : Nat) :
    related (saturate step fuel state) (saturate step' fuel state') := by
  induction fuel generalizing state state' with
  | zero => exact initial
  | succ fuel ih =>
    rcases moves state state' initial with ⟨stable, stable'⟩ | ⟨next, next', change, change', kept⟩
    · rwa [saturate_of_none stable, saturate_of_none stable']
    · rw [saturate_of_some change, saturate_of_some change']
      exact ih kept

end Saturate

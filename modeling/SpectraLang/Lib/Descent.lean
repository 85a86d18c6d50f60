import Mathlib.Algebra.Order.BigOperators.Group.Finset
import SpectraLang.Lib.Saturate

/-! # Round-robin iteration from above

A family of finite sets is recomputed node by node in a fixed order, each visit reading what earlier
visits of the round have left, until a round changes nothing. When the recomputation is monotone and
the start lies above it, sets only shrink and the final family solves the equations.
-/

open Function

namespace Descent

open Saturate

variable {ι β : Type*} [DecidableEq ι] [DecidableEq β]

/-- One visit: a set that differs from its recomputation is replaced and the change is noted. -/
def visit (recompute : (ι → Finset β) → ι → Finset β) (state : (ι → Finset β) × Bool) (node : ι) :
    (ι → Finset β) × Bool :=
  if state.1 node = recompute state.1 node then state
  else (update state.1 node (recompute state.1 node), true)

/-- One round over the nodes in order, when it changes something. -/
def pass (recompute : (ι → Finset β) → ι → Finset β) (order : List ι) (sets : ι → Finset β) :
    Option (ι → Finset β) :=
  let round := order.foldl (visit recompute) (sets, false)
  if round.2 then some round.1 else none

/-- What the visited sets may still lose. -/
def size (order : List ι) (sets : ι → Finset β) : Nat := ∑ node ∈ order.toFinset, (sets node).card

/-- The family the rounds end with. -/
def descend (recompute : (ι → Finset β) → ι → Finset β) (order : List ι) (start : ι → Finset β) :
    ι → Finset β :=
  saturate (pass recompute order) (size order start) start

/-- Pointwise smaller families are recomputed to smaller sets. -/
def Monotonic (recompute : (ι → Finset β) → ι → Finset β) : Prop :=
  ∀ smaller larger : ι → Finset β, (∀ node, smaller node ⊆ larger node) →
    ∀ node, recompute smaller node ⊆ recompute larger node

/-- Between the start and its own recomputation, and untouched outside the visited nodes. -/
structure Above (recompute : (ι → Finset β) → ι → Finset β) (order : List ι)
    (start sets : ι → Finset β) : Prop where
  shrinking : ∀ node ∈ order, recompute sets node ⊆ sets node
  outside : ∀ node, node ∉ order → sets node = start node

variable {recompute : (ι → Finset β) → ι → Finset β} {order : List ι} {start : ι → Finset β}
  {sets : ι → Finset β} {node : ι}

section
variable (known : node ∈ order) (valid : Above recompute order start sets)
include known valid
omit [DecidableEq β]

theorem update_below : ∀ target, update sets node (recompute sets node) target ⊆ sets target := by
  intro target
  by_cases same : target = node
  · subst same
    simpa using valid.shrinking target known
  · simp [update_of_ne same]

theorem update_above (monotonic : Monotonic recompute) :
    Above recompute order start (update sets node (recompute sets node)) := by
  have below := update_below known valid
  refine ⟨fun target inside => ?_, fun target outside => ?_⟩
  · apply (monotonic _ _ below target).trans
    by_cases same : target = node
    · subst same
      simp
    · simpa [update_of_ne same] using valid.shrinking target inside
  · have other : target ≠ node := by
      rintro rfl
      exact outside known
    rw [update_of_ne other]
    exact valid.outside target outside

theorem update_decreases (changed : sets node ≠ recompute sets node) :
    size order (update sets node (recompute sets node)) < size order sets := by
  have below := update_below known valid
  apply Finset.sum_lt_sum
  · intro target _
    exact Finset.card_le_card (below target)
  · refine ⟨node, List.mem_toFinset.mpr known, Finset.card_lt_card ?_⟩
    rw [update_self]
    exact (valid.shrinking node known).ssubset_of_ne changed.symm

end

section
variable (monotonic : Monotonic recompute)
include monotonic

section
variable (initial : ∀ node ∈ order, recompute start node ⊆ start node)
include initial

theorem descend_settled :
    Above recompute order start (descend recompute order start) ∧
      pass recompute order (descend recompute order start) = none ∧
      ∀ node ∈ order, descend recompute order start node = recompute (descend recompute order start)
        node := by
  refine @saturate_round _ _ _ (Above recompute order start) _ (visit recompute) order (size order)
    (fun sets node => sets node = recompute sets node) (fun state node known valid => ?_)
      ⟨initial, fun _ _ => rfl⟩ le_rfl
  by_cases same : state.1 node = recompute state.1 node
  · exact .inl ⟨if_pos same, same⟩
  · exact .inr ⟨_, if_neg same, update_above known valid monotonic,
      update_decreases known valid same⟩

/-- Nodes that are never visited keep their set. -/
theorem descend_outside (outside : node ∉ order) :
    descend recompute order start node = start node :=
  (descend_settled monotonic initial).1.outside node outside

/-- The rounds end because one of them changes nothing. -/
theorem descend_stops : pass recompute order (descend recompute order start) = none :=
  (descend_settled monotonic initial).2.1

/-- The iteration ends in a solution of the equations. -/
theorem descend_fixed
    (member : node ∈ order) : descend recompute order start node = recompute
      (descend recompute order start) node :=
  (descend_settled monotonic initial).2.2 node member

end

end

/-- What the start contains and every recomputation keeps is never lost. -/
theorem descend_contains {kept : ι → β → Prop} (initial : ∀ node element, kept node element →
    element ∈ start node)
    (stays : ∀ sets : ι → Finset β, (∀ node element, kept node element → element ∈ sets node) →
      ∀ node ∈ order, ∀ element, kept node element → element ∈ recompute sets node) :
    ∀ node element, kept node element → element ∈ descend recompute order start node := by
  let Contains (sets : ι → Finset β) := ∀ node element, kept node element → element ∈ sets node
  have round : ∀ visited : List ι, (∀ node ∈ visited, node ∈ order) → ∀ state :
    (ι → Finset β) × Bool,
      Contains state.1 → Contains (visited.foldl (visit recompute) state).1 := by
    intro visited inside
    induction visited with
    | nil => exact fun _ contains => contains
    | cons node visited ih =>
      intro state contains
      apply ih fun other member => inside other (List.mem_cons_of_mem _ member)
      intro target element member
      unfold visit
      split
      · exact contains target element member
      · by_cases same : target = node
        · subst same
          simpa using stays state.1 contains target (inside target List.mem_cons_self) element
            member
        · simpa [update_of_ne same] using contains target element member
  refine saturate_invariant Contains (fun before after contains step => ?_) initial
  simp only [pass] at step
  split_ifs at step
  cases step
  exact round order (fun _ member => member) (before, false) contains

end Descent

import Mathlib.Tactic.Common

/-! # Ranked simulation of deterministic systems

A system is an optional step; a halted system stays where it is. In a ranked simulation either
system may take steps of its own, each decreasing a rank, so that every state of either run is
related to one of the other and both exhibit the same observations.
-/

namespace Simulation

variable {σ τ β γ : Type*}

/-- The state after `n` steps; a halted system no longer moves. -/
def run (step : σ → Option σ) : Nat → σ → σ
  | 0, state => state
  | n + 1, state =>
    match step state with
    | none => state
    | some next => run step n next

/-- Some state of the run shows the observation. -/
def Exhibits (step : σ → Option σ) (observe : σ → β) (state : σ) (observation : β) : Prop :=
  ∃ n, observe (run step n state) = observation

section Run
variable {step : σ → Option σ} {state next : σ}

theorem run_of_none (halted : step state = none) (n : Nat) : run step n state = state := by
  cases n with
  | zero => rfl
  | succ n => simp [run, halted]

theorem run_of_some (move : step state = some next) (n : Nat) :
    run step (n + 1) state = run step n next := by
  simp [run, move]

theorem run_succ (step : σ → Option σ) (n : Nat) (state : σ) :
    run step (n + 1) state = (step (run step n state)).getD (run step n state) := by
  induction n generalizing state with
  | zero => cases move : step state <;> simp [run, move]
  | succ n ih =>
    cases move : step state with
    | none => simp [run_of_none move, move]
    | some next =>
      rw [run_of_some move, run_of_some move]
      exact ih next

theorem run_add (step : σ → Option σ) (n m : Nat) (state : σ) :
    run step (n + m) state = run step m (run step n state) := by
  induction n generalizing state with
  | zero => rw [Nat.zero_add, run]
  | succ n ih =>
    cases move : step state with
    | none => simp only [run_of_none move]
    | some next => rw [Nat.succ_add, run_of_some move, run_of_some move, ih]

/-- What steps from good states preserve holds along a run through good states. -/
theorem run_invariant_of_good {good : σ → Prop} (invariant : σ → Prop)
    (preserved : ∀ before after, good before → invariant before → step before = some after →
      invariant after)
    (initial : invariant state) {n : Nat} (allowed : ∀ i < n, good (run step i state)) :
      invariant (run step n state) := by
  induction n with
  | zero => exact initial
  | succ n ih =>
    have holds := ih fun i before => allowed i (Nat.lt_succ_of_lt before)
    rw [run_succ]
    cases move : step (run step n state) with
    | none => exact holds
    | some next => exact preserved _ next (allowed n (Nat.lt_succ_self n)) holds move

/-- What every step preserves holds along the run. -/
theorem run_invariant (invariant : σ → Prop)
    (preserved : ∀ before after, invariant before → step before = some after → invariant after)
    (initial : invariant state) (n : Nat) : invariant (run step n state) :=
  run_invariant_of_good invariant (fun before after (_ : True) => preserved before after) initial
    fun _ _ => trivial

/-- A system whose steps descend in a well-founded order comes to a halt. -/
theorem exists_halt {relation : γ → γ → Prop} (wellFounded : WellFounded relation) (measure : σ → γ)
    (descends : ∀ before after, step before = some after →
      relation (measure after) (measure before)) (state : σ) :
    ∃ n, step (run step n state) = none := by
  induction value : measure state using wellFounded.induction generalizing state with
  | _ value ih =>
    cases move : step state with
    | none => exact ⟨0, move⟩
    | some next =>
      obtain ⟨n, halted⟩ := ih (measure next) (value ▸ descends state next move) next rfl
      exact ⟨n + 1, by rwa [run_of_some move]⟩

end Run

/-- `n` steps lead from the first state to the last one, each from a state with the property. -/
inductive Leads (step : σ → Option σ) (good : σ → Prop) : Nat → σ → σ → Prop where
  | refl (state : σ) : Leads step good 0 state state
  | next {n : Nat} {state middle last : σ} (allowed : good state) (move : step state = some middle)
      (rest : Leads step good n middle last) : Leads step good (n + 1) state last

section Leads
variable {step : σ → Option σ} {good : σ → Prop} {state middle last : σ} {n m : Nat}

theorem Leads.single (allowed : good state) (move : step state = some last) :
    Leads step good 1 state last :=
  .next allowed move (.refl last)

theorem Leads.trans (first : Leads step good n state middle)
    (second : Leads step good m middle last) :
    Leads step good (n + m) state last := by
  induction first with
  | refl => simpa using second
  | next allowed move _ ih =>
    rw [Nat.succ_add]
    exact .next allowed move (ih second)

theorem Leads.run_eq (leads : Leads step good n state last) : run step n state = last := by
  induction leads with
  | refl => rfl
  | next _ move _ ih => rw [run_of_some move, ih]

/-- The property holds at every state passed on the way. -/
theorem Leads.good_of_lt (leads : Leads step good n state last) {k : Nat} (before : k < n) :
    good (run step k state) := by
  induction leads generalizing k with
  | refl => cases before
  | next allowed move _ ih =>
    cases k with
    | zero => exact allowed
    | succ k =>
      rw [run_of_some move]
      exact ih (Nat.lt_of_succ_lt_succ before)

end Leads

/-- How two related states go on: both halt, both step, or one steps alone with a smaller rank. -/
inductive Progress (stepA : σ → Option σ) (stepB : τ → Option τ) (related : σ → τ → Prop)
    (rank : σ → τ → Nat) (a : σ) (b : τ) : Prop where
  | halted (first : stepA a = none) (second : stepB b = none)
  | both {a' : σ} {b' : τ} (first : stepA a = some a') (second : stepB b = some b')
      (next : related a' b')
  | first {a' : σ} (move : stepA a = some a') (next : related a' b) (less : rank a' b < rank a b)
  | second {b' : τ} (move : stepB b = some b') (next : related a b') (less : rank a b' < rank a b)

structure RankedSimulation (stepA : σ → Option σ) (stepB : τ → Option τ) (related : σ → τ → Prop)
    (rank : σ → τ → Nat) : Prop where
  progress : ∀ a b, related a b → Progress stepA stepB related rank a b

namespace RankedSimulation

variable {stepA : σ → Option σ} {stepB : τ → Option τ} {related : σ → τ → Prop} {rank : σ → τ → Nat}
  {a : σ} {b : τ}

section
variable (simulation : RankedSimulation stepA stepB related rank)
include simulation

theorem flip :
    RankedSimulation stepB stepA (fun b a => related a b) (fun b a => rank a b) where
  progress b a start := by
    cases simulation.progress a b start with
    | halted first second => exact .halted second first
    | both first second next => exact .both second first next
    | first move next less => exact .second move next less
    | second move next less => exact .first move next less

/-- Every state of the first run is related to a state of the second. -/
theorem forward (start : related a b) (n : Nat) : ∃ k, related (run stepA n a) (run stepB k b) := by
  induction n generalizing a b with
  | zero => exact ⟨0, start⟩
  | succ n ih =>
    -- The rank bounds the steps the second system takes alone before the first one moves.
    induction bound : rank a b using Nat.strongRecOn generalizing b with
    | ind r smaller =>
      cases simulation.progress a b start with
      | halted haltA haltB =>
        exact ⟨0, by simpa only [run_of_none haltA, run_of_none haltB] using start⟩
      | both moveA moveB next =>
        obtain ⟨k, reached⟩ := ih next
        exact ⟨k + 1, by simpa only [run_of_some moveA, run_of_some moveB] using reached⟩
      | first moveA next less =>
        obtain ⟨k, reached⟩ := ih next
        exact ⟨k, by simpa only [run_of_some moveA] using reached⟩
      | second moveB next less =>
        obtain ⟨k, reached⟩ := smaller (rank a _) (bound ▸ less) next rfl
        exact ⟨k + 1, by simpa only [run_of_some moveB] using reached⟩

/-- Every state of the second run is related to a state of the first. -/
theorem backward (start : related a b) (k : Nat) : ∃ n, related (run stepA n a) (run stepB k b) :=
  simulation.flip.forward start k

/-- Related states that look alike exhibit the same observations. -/
theorem exhibits_iff {observeA : σ → β} {observeB : τ → β}
    (alike : ∀ a b, related a b → observeA a = observeB b) (start : related a b) (observation : β) :
    Exhibits stepA observeA a observation ↔ Exhibits stepB observeB b observation := by
  constructor
  · rintro ⟨n, rfl⟩
    obtain ⟨k, reached⟩ := simulation.forward start n
    exact ⟨k, (alike _ _ reached).symm⟩
  · rintro ⟨k, rfl⟩
    obtain ⟨n, reached⟩ := simulation.backward start k
    exact ⟨n, alike _ _ reached⟩

end

end RankedSimulation

end Simulation

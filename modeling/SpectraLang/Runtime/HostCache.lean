import Mathlib.Tactic.Common

/-! # Cached host calls

The threads that call one host function by name share a cache slot of a pointer and a generation,
which every mutation of the registry advances. A call compares generations around its load of the
pointer; otherwise it looks the name up under the lock and publishes the pointer, then the
generation.
-/

open Function

namespace SpectraLang.HostCache

/-- Where a thread is in `resolve_cached_host`, between two atomic steps, with what it has read. -/
inductive Phase where
  | idle
  | sampled (generation : Nat)
  | matched (generation : Nat)
  | loaded (generation function : Nat)
  | missed
  | resolved (generation function : Nat)
  | stored (generation function : Nat)
  deriving DecidableEq

/-- The registry, the cache slot of one name, and the threads; the last field records the pointers
the registry has held for the name since a thread's call started. -/
structure HostState (θ : Type) where
  functions : String → Option Nat := fun _ => none
  generation : Nat := 1
  cacheFunction : Nat := 0
  cacheGeneration : Nat := 0
  threads : θ → Phase := fun _ => .idle
  held : θ → List Nat := fun _ => []

inductive Event (θ : Type) where
  | register (name : String) (function : Nat)
  | unregister (name : String)
  | clear
  | proceed (thread : θ)

variable {θ : Type} [DecidableEq θ] (name : String) (state : HostState θ)

/-- `HostRegistry::lookup`; the null pointer is 0. -/
def lookup : Nat := (state.functions name).getD 0

/-- A mutation under the lock: the generation advances. -/
def mutate (functions : String → Option Nat) : HostState θ :=
  { state with
    functions, generation := state.generation + 1
    held := fun thread => state.held thread ++ [(functions name).getD 0] }

/-- The next atomic step of a thread in `resolve_cached_host` and `publish_host_cache`. -/
def proceed (thread : θ) : HostState θ :=
  let enter phase := { state with threads := update state.threads thread phase }
  match state.threads thread with
  | .idle =>
    { enter (.sampled state.generation) with held := update state.held thread [lookup name state] }
  | .sampled generation =>
    enter (if state.cacheGeneration = generation then .matched generation else .missed)
  | .matched generation => enter (.loaded generation state.cacheFunction)
  | .loaded generation _ => enter (if state.generation = generation then .idle else .missed)
  | .missed => enter (.resolved state.generation (lookup name state))
  | .resolved generation function =>
    { enter (.stored generation function) with cacheFunction := function }
  | .stored generation _ => { enter .idle with cacheGeneration := generation }

def step : Event θ → HostState θ
  | .register other function => mutate name state (update state.functions other (some function))
  | .unregister other =>
    if (state.functions other).isSome then mutate name state
      (update state.functions other none) else state
  | .clear => mutate name state fun _ => none
  | .proceed thread => proceed name state thread

/-- What the call of the thread returns in its next step, if it does. -/
def returns (thread : θ) : Option Nat :=
  match state.threads thread with
  | .loaded generation function => if state.generation = generation then some function else none
  | .stored _ function => some function
  | _ => none

/-- No mutation comes between the lookup of a call and its store of the pointer. -/
def Timely : Event θ → Prop
  | .proceed thread =>
    match state.threads thread with
    | .resolved generation _ => state.generation = generation
    | _ => True
  | _ => True

/-- The runs from the empty registry in which every pointer is stored in time. -/
inductive Reached : HostState θ → Prop where
  | start : Reached {}
  | step {state : HostState θ} (reached : Reached state) (event : Event θ)
      (timely : Timely state event) : Reached (step name state event)

/-- What a phase knows, with the generation, the registered pointer, the cached pointer and those
held. -/
def Phase.Knows (now current cached : Nat) (held : List Nat) : Phase → Prop
  | .idle => True
  | .sampled generation => generation ≤ now ∧ current ∈ held
  | .matched generation => generation ≤ now ∧ current ∈ held ∧ (generation = now → cached = current)
  | .loaded generation function =>
    generation ≤ now ∧ current ∈ held ∧ (generation = now → function = current)
  | .missed => current ∈ held
  | .resolved generation function =>
    generation ≤ now ∧ function ∈ held ∧ (generation = now → function = current)
  | .stored generation function =>
    generation ≤ now ∧ function ∈ held ∧ (generation = now → cached = current)

structure Coherent : Prop where
  bounded : state.cacheGeneration ≤ state.generation
  cached : state.cacheGeneration = state.generation → state.cacheFunction = lookup name state
  threads : ∀ thread, (state.threads thread).Knows state.generation (lookup name state)
    state.cacheFunction (state.held thread)

variable {name state}

section
variable (coherent : Coherent name state)
include coherent

omit [DecidableEq θ] in
/-- A new generation leaves no claim about the cache. -/
theorem Coherent.mutate (functions : String → Option Nat) :
    Coherent name (mutate name state functions) where
  bounded := Nat.le_succ_of_le coherent.bounded
  cached same := absurd (same ▸ coherent.bounded) (Nat.not_succ_le_self _)
  threads thread := by
    have knows := coherent.threads thread
    cases phase : state.threads thread <;>
      simp only [phase, Phase.Knows, HostCache.mutate, lookup, List.mem_append, List.mem_singleton]
        at knows ⊢ <;> grind

theorem Coherent.enter {thread : θ} {next : Phase}
    (knows : next.Knows state.generation (lookup name state) state.cacheFunction
      (state.held thread)) :
    Coherent name { state with threads := update state.threads thread next } :=
  ⟨coherent.bounded, coherent.cached, (forall_update_iff _ _).mpr
    ⟨knows, fun other _ => coherent.threads other⟩⟩

omit [DecidableEq θ] in
theorem Coherent.publish : Coherent name { state with cacheFunction := lookup name state } := by
  refine ⟨coherent.bounded, fun _ => rfl, fun thread => ?_⟩
  have knows := coherent.threads thread
  cases phase : state.threads thread <;> simp only [phase, Phase.Knows] at knows ⊢ <;>
    grind [lookup]

theorem Coherent.proceed {thread : θ} (timely : Timely state (.proceed thread)) :
    Coherent name (proceed name state thread) := by
  have knows := coherent.threads thread
  unfold HostCache.proceed
  simp only [Timely] at timely
  generalize phase : state.threads thread = current at knows timely ⊢
  cases current with
  | idle =>
    have began :
      Coherent name { state with held := update state.held thread [lookup name state] } := by
      refine ⟨coherent.bounded, coherent.cached, fun other => ?_⟩
      rcases eq_or_ne other thread with rfl | different
      · simp [phase, Phase.Knows]
      · dsimp only
        rw [update_of_ne different]
        exact coherent.threads other
    exact began.enter ⟨Nat.le_refl _, by simp [lookup]⟩
  | sampled generation =>
    apply coherent.enter
    split_ifs with same
    · exact ⟨knows.1, knows.2, fun now => coherent.cached (same.trans now)⟩
    · exact knows.2
  | matched generation => exact coherent.enter knows
  | loaded generation function =>
    apply coherent.enter
    split_ifs
    · trivial
    · exact knows.2.1
  | missed => exact coherent.enter ⟨Nat.le_refl _, knows, fun _ => rfl⟩
  | resolved generation function =>
    -- in time, the pointer is the one registered now
    obtain rfl := knows.2.2 timely.symm
    exact coherent.publish.enter ⟨knows.1, knows.2.1, fun _ => rfl⟩
  | stored generation function =>
    have left : Coherent name { state with threads := update state.threads thread .idle } :=
      coherent.enter trivial
    exact { left with bounded := knows.1, cached := knows.2.2 }

end

theorem coherent_of_reached (reached : Reached name state) : Coherent name state := by
  induction reached with
  | start => exact ⟨Nat.zero_le _, nofun, fun _ => trivial⟩
  | step reached event timely coherent =>
    cases event with
    | register other function | clear => exact coherent.mutate _
    | unregister other =>
      simp only [step]
      split_ifs
      · exact coherent.mutate _
      · exact coherent
    | proceed thread => exact coherent.proceed timely

/-- A call returns a pointer that the registry has held for the name since the call started. -/
theorem returns_mem_held (reached : Reached name state) {thread : θ} {function : Nat}
    (result : returns state thread = some function) : function ∈ state.held thread := by
  have knows := (coherent_of_reached reached).threads thread
  unfold returns at result
  split at result
  · next generation _ phase =>
    split_ifs at result with same
    cases result
    rw [phase] at knows
    exact knows.2.2 same.symm ▸ knows.2.1
  · next phase =>
    cases result
    rw [phase] at knows
    exact knows.2.1
  · cases result

/-- The second thread publishes the new pointer, which the first one then finds in the cache. -/
theorem returns_mem_held_hit : ∃ state : HostState Bool, Reached "f" state ∧
    state.threads true = .loaded 3 2 ∧ returns state true = some 2 ∧ 2 ∈ state.held true := by
  have registered : Reached (θ := Bool) "f" _ := Reached.start.step (.register "f" 1) trivial
  have resolved := ((registered.step (.proceed true) trivial).step (.proceed true) trivial).step
    (.proceed true) trivial
  have published := (resolved.step (.proceed true) rfl).step (.proceed true) trivial
  have replaced := published.step (.register "f" 2) trivial
  have resolved' := ((replaced.step (.proceed false) trivial).step (.proceed true) trivial).step
    (.proceed false) trivial
  have published' := ((resolved'.step (.proceed false) trivial).step (.proceed false) rfl).step
    (.proceed false) trivial
  have loaded := (published'.step (.proceed true) trivial).step (.proceed true) trivial
  exact ⟨_, loaded, rfl, rfl, returns_mem_held loaded rfl⟩

/-- A pointer stored late is returned, under the new generation, by a call that starts
afterwards. -/
def lateStore : List (Event Bool) :=
  [.register "f" 1] ++ List.replicate 3 (.proceed true) ++ [.register "f" 2] ++ List.replicate 5
    (.proceed false) ++ [.proceed true] ++ List.replicate 3 (.proceed false)

theorem not_returns_mem_held : ∃ function, returns (lateStore.foldl (step "f") {}) false =
    some function ∧ function ∉ (lateStore.foldl (step "f") {}).held false :=
  ⟨1, by decide, by decide⟩

end SpectraLang.HostCache

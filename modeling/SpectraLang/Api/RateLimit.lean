import Mathlib.Data.List.Sort
import Mathlib.Logic.Function.Basic
import Mathlib.Tactic.Common

/-! # The sliding-window rate limiter

`consume` of `RateLimitMiddleware` for the sliding window, with times in nanoseconds. Calls in the
order of their clock readings are counted exactly, but the hint of a refusal is cut down to whole
milliseconds. The clock is read before the lock is taken: a call that enters late can be allowed
beyond the limit.
-/

namespace SpectraLang.Api.RateLimit

open List

/-- `RateLimitConfig` as far as the sliding window reads it; `new` refuses zeros. -/
structure RateLimitConfig where
  limit : Nat
  windowMs : Nat
  limit_pos : 0 < limit
  windowMs_pos : 0 < windowMs

def RateLimitConfig.window (config : RateLimitConfig) : Nat :=
  config.windowMs * 1000000

structure RateLimitDecision where
  allowed : Bool
  remaining : Nat
  retryAfterMs : Nat
deriving DecidableEq

/-- The loop that drops expired events from the front; `duration_since` is zero for a later
instant. -/
def evict (window now : Nat) (events : List Nat) : List Nat :=
  events.dropWhile fun started => now - started ≥ window

/-- The locked section of `consume` on the events of the request's key. -/
def consume (config : RateLimitConfig) (now : Nat) (events : List Nat) :
    RateLimitDecision × List Nat :=
  let events := evict config.window now events
  if events.length < config.limit then
    (⟨true, config.limit - (events.length + 1), 0⟩, events ++ [now])
  else
    let retryAfterMs := match events with
      | started :: _ => max ((config.window - (now - started)) / 1000000) 1
      | [] => 1
    (⟨false, 0, retryAfterMs⟩, events)

/-- The events of a key and its allowed calls after calls at non-decreasing times, and the latest
time. -/
inductive Calls (config : RateLimitConfig) : Nat → List Nat → List Nat → Prop where
  | start : Calls config 0 [] []
  | next {last now : Nat} {events allowed : List Nat} (calls : Calls config last events allowed)
      (later : last ≤ now) : Calls config now (consume config now events).2
        (if (consume config now events).1.allowed then allowed ++ [now] else allowed)

/-- The allowed calls of the window before a time. -/
def recent (config : RateLimitConfig) (now : Nat) (allowed : List Nat) : List Nat :=
  allowed.filter fun started => now < started + config.window

variable {config : RateLimitConfig} {last now : Nat} {events allowed : List Nat}

theorem RateLimitConfig.window_pos (config : RateLimitConfig) : 0 < config.window :=
  Nat.mul_pos config.windowMs_pos (by decide)

theorem consume_allowed :
    (consume config now events).1.allowed = true ↔ (evict config.window now events).length <
      config.limit := by
  by_cases room : (evict config.window now events).length < config.limit <;> simp [consume, room]

theorem evict_eq_recent (ordered : events.Pairwise (· ≤ ·)) :
    evict config.window now events = recent config now events := by
  have positive := config.window_pos
  rw [recent]
  induction events with
  | nil => rfl
  | cons started events ih =>
    obtain ⟨first, rest⟩ := pairwise_cons.mp ordered
    by_cases expired : now - started ≥ config.window
    · rw [evict, dropWhile_cons_of_pos (by simpa), filter_cons_of_neg (by simp; omega), ← ih rest,
        evict]
    · rw [evict, dropWhile_cons_of_neg (by simpa using expired), filter_eq_self.mpr]
      refine forall_mem_cons.mpr ⟨by simp; omega, fun other member => ?_⟩
      have := first other member
      simp only [decide_eq_true_eq]
      omega

/-- The retained events are the allowed calls of the window before the latest call. -/
structure Exact (config : RateLimitConfig) (last : Nat) (events allowed : List Nat) : Prop where
  kept : events = recent config last allowed
  ordered : allowed.Pairwise (· ≤ ·)
  past : ∀ reading ∈ allowed, reading ≤ last
  bounded : events.length ≤ config.limit

theorem Exact.later (exact : Exact config last events allowed) (later : last ≤ now) :
    evict config.window now events = recent config now allowed ∧
      (recent config now allowed).length ≤ config.limit := by
  have kept : evict config.window now events = recent config now allowed := by
    rw [exact.kept, recent, recent, evict_eq_recent (exact.ordered.filter _), recent, filter_filter]
    refine filter_congr fun reading _ => ?_
    simp only [Bool.and_eq_left_iff_imp, decide_eq_true_eq]
    omega
  exact ⟨kept, kept ▸ (dropWhile_sublist _).length_le.trans exact.bounded⟩

theorem Calls.exact (calls : Calls config last events allowed) :
    Exact config last events allowed := by
  induction calls with
  | start => exact ⟨rfl, .nil, by simp, Nat.zero_le _⟩
  | @next last now events allowed _ later ih =>
    obtain ⟨kept, bounded⟩ := ih.later later
    have past := fun reading member => (ih.past reading member).trans later
    by_cases room : (recent config now allowed).length < config.limit
    · simp only [consume, kept, if_pos room, if_true]
      refine ⟨?_, pairwise_append.mpr ⟨ih.ordered, pairwise_singleton _ _, by simpa using past⟩, ?_,
        ?_⟩
      · have positive := config.window_pos
        rw [recent, recent, filter_append, filter_cons_of_pos (by simp; omega), filter_nil]
      · simpa [or_imp, forall_and] using past
      · rw [length_append]
        exact room
    · simp only [consume, kept, if_neg room]
      exact ⟨rfl, ih.ordered, past, bounded⟩

/-- A call is allowed iff fewer than `limit` were allowed in the window before it, and a call at the
time of the hint of a refusal is allowed iff the oldest of them leaves the window in time. -/
theorem consume_exact (calls : Calls config last events allowed) (later : last ≤ now) :
    let answer := consume config now events
    (answer.1.allowed = true ↔ (recent config now allowed).length < config.limit) ∧
      (answer.1.allowed = false → ∃ oldest, (recent config now allowed).head? = some oldest ∧
        ((consume config (now + answer.1.retryAfterMs * 1000000) answer.2).1.allowed = true ↔
          oldest + config.window - now ≤ 1000000 ∨ 1000000 ∣ oldest + config.window - now)) := by
  obtain ⟨kept, bounded⟩ := calls.exact.later later
  refine ⟨by rw [consume_allowed, kept], fun refused => ?_⟩
  have full : config.limit ≤ (recent config now allowed).length := by
    rw [← not_lt, ← kept, ← consume_allowed, refused]
    exact Bool.false_ne_true
  obtain ⟨oldest, rest, shape⟩ := exists_cons_of_length_pos (config.limit_pos.trans_le full)
  obtain ⟨member, counted⟩ :=
    mem_filter.mp (show oldest ∈ recent config now allowed from shape ▸ mem_cons_self)
  have past := (calls.exact.past oldest member).trans later
  rw [shape] at bounded full ⊢
  have answer : consume config now events =
      (⟨false, 0, max ((config.window - (now - oldest)) / 1000000) 1⟩, oldest :: rest) := by
    rw [consume, kept, shape, if_neg (not_lt.mpr full)]
  refine ⟨oldest, rfl, ?_⟩
  simp only [answer, consume_allowed, evict]
  rw [decide_eq_true_eq] at counted
  by_cases expired : config.window ≤ now + max ((config.window - (now - oldest)) / 1000000) 1 *
    1000000 - oldest
  · rw [dropWhile_cons_of_pos (by simpa using expired)]
    exact iff_of_true ((dropWhile_sublist _).length_le.trans_lt bounded) (by omega)
  · rw [dropWhile_cons_of_neg (by simpa using expired)]
    exact iff_of_false (not_lt.mpr full) (by omega)

theorem consume_exact_within_millisecond : ∃ config : RateLimitConfig,
    (consume config 1500000 [0]).1 = ⟨false, 0, 1⟩ ∧
      (consume config (1500000 + 1 * 1000000) [0]).1.allowed = true := by
  refine ⟨⟨1, 2, by decide, by decide⟩, by decide, ?_⟩
  obtain ⟨oldest, first, enough⟩ := (@consume_exact ⟨1, 2, by decide, by decide⟩ 0 1500000 [0] [0]
    (.next .start le_rfl) (by decide)).2 (by decide)
  cases (show some 0 = some oldest from first)
  exact enough.mpr (by decide)

/-- With a window of two milliseconds, a call one nanosecond after the only allowed one is told to
wait one millisecond, and refused again. -/
theorem hint_too_short : ∃ config : RateLimitConfig, config.limit = 1 ∧ config.windowMs = 2 ∧
    Calls config 0 [0] [0] ∧ consume config 1 [0] = (⟨false, 0, 1⟩, [0]) ∧
      (consume config (1 + 1 * 1000000) [0]).1.allowed = false :=
  ⟨⟨1, 2, by decide, by decide⟩, rfl, rfl, .next .start le_rfl, by decide, by decide⟩

/-- No interval shorter than the window holds the readings of more than `limit` allowed calls. -/
def Limited (config : RateLimitConfig) (allowed : List Nat) : Prop :=
  ∀ first last, last - first < config.window →
    allowed.countP (fun reading => first ≤ reading ∧ reading ≤ last) ≤ config.limit

/-- The reading of the latest call of a key that entered the locked section, its events and its
allowed calls. -/
structure Counter where
  last : Nat
  events : List Nat
  allowed : List Nat

def Counter.enter (config : RateLimitConfig) (now : Nat) (counter : Counter) : Counter :=
  let (answer, events) := consume config now counter.events
  ⟨now, events, if answer.allowed then counter.allowed ++ [now] else counter.allowed⟩

/-- The clock, the calls that wait for the lock and the counters after any interleaving of calls;
`ordered` calls enter in the order of their readings. -/
inductive Reached (config : RateLimitConfig) (ordered : Bool) : Nat → List (String × Nat) →
    (String → Counter) → Prop where
  | start : Reached config ordered 0 [] fun _ => ⟨0, [], []⟩
  | read {clock now : Nat} {waiting counters} (key : String)
      (reached : Reached config ordered clock waiting counters)
      (later : clock ≤ now) : Reached config ordered now ((key, now) :: waiting) counters
  | enter {clock : Nat} {waiting counters} (key : String) (now : Nat)
      (reached : Reached config ordered clock waiting counters) (waits : (key, now) ∈ waiting)
      (inOrder : ordered → (counters key).last ≤ now) :
      Reached config ordered clock (waiting.erase (key, now))
        (Function.update counters key ((counters key).enter config now))

theorem Calls.limited (calls : Calls config last events allowed) : Limited config allowed := by
  intro first till short
  induction calls with
  | start => exact Nat.zero_le _
  | @next last now events allowed calls later ih =>
    split_ifs with room
    · rw [consume_allowed, (calls.exact.later later).1, recent, ← countP_eq_length_filter] at room
      rw [countP_append, countP_singleton]
      split_ifs with inside
      · -- The other allowed readings of the interval are in the window before this call.
        refine Nat.succ_le_of_lt ((countP_mono_left fun reading _ => ?_).trans_lt room)
        simp only [decide_eq_true_eq] at inside ⊢
        omega
      · exact ih
    · exact ih

/-- The limit holds if the calls of a key enter in the order of their readings. -/
theorem limited_of_ordered {clock : Nat} {waiting : List (String × Nat)}
    {counters : String → Counter}
    (reached : Reached config true clock waiting counters) (key : String) :
      Limited config (counters key).allowed := by
  suffices calls : Calls config (counters key).last (counters key).events
    (counters key).allowed from calls.limited
  induction reached with
  | start => exact .start
  | read _ _ _ ih => exact ih
  | enter other now _ _ inOrder ih =>
    by_cases same : key = other
    · subst same
      rw [Function.update_self]
      exact ih.next (inOrder rfl)
    · simpa [same] using ih

/-- Two threads fill the limit; the next call is refused, and a later one evicts the first. -/
theorem limited_of_ordered_threads : ∃ config : RateLimitConfig, config.limit = 2 ∧
    ∃ clock waiting counters, Reached config true clock waiting counters ∧
      (counters "a").allowed = [0, 5, 1000000] ∧ (counters "b").allowed = [6] ∧
        Limited config (counters "a").allowed := by
  let config : RateLimitConfig := ⟨2, 1, by decide, by decide⟩
  have reads := ((@Reached.start config true).read "a" (Nat.zero_le 0)).read "a" (Nat.zero_le 5)
  have first := (reads.read "b" (Nat.le_succ 5)).enter "a" 0 (by decide) (by decide)
  have filled := (first.enter "a" 5 (by decide) (by decide)).enter "b" 6 (by decide) (by decide)
  have later := (filled.read "a" (Nat.le_succ 6)).read "a" (show 7 ≤ 1000000 by decide)
  have refused := later.enter "a" 7 (by decide) (by decide)
  have evicted := refused.enter "a" 1000000 (by decide) (by decide)
  exact ⟨config, rfl, _, _, _, evicted, by decide, by decide, limited_of_ordered evicted "a"⟩

/-- Two calls fill the limit. A third reads the clock, and enters when the fourth has evicted
them. -/
theorem not_limited_late : ∃ config : RateLimitConfig, config.limit = 2 ∧ config.windowMs = 1 ∧
    ∃ clock waiting counters,
    Reached config false clock waiting counters ∧ ¬ Limited config (counters "global").allowed := by
  let config : RateLimitConfig := ⟨2, 1, by decide, by decide⟩
  have first := Reached.enter "global" 0 (.read "global" (@Reached.start config false) le_rfl)
    (by decide) nofun
  have second := Reached.enter "global" 0 (.read "global" first le_rfl) (by decide) nofun
  have read := Reached.read "global" (second.read "global" (Nat.zero_le 1))
    (show 1 ≤ 1000000 by decide)
  have evicted := read.enter "global" 1000000 (by decide) nofun
  refine ⟨config, rfl, rfl, _, _, _, evicted.enter "global" 1 (by decide) nofun, fun limited => ?_⟩
  exact absurd (limited 0 1 (by decide)) (by decide)

end SpectraLang.Api.RateLimit

import Mathlib.Algebra.GroupWithZero.Nat
import SpectraLang.Lib.Descent

/-! # Reachability and dominators in finite flow graphs

Trails start at the entry and list the visited nodes, the latest first. `reach` is the stack
worklist for the nodes reachable from the entry, `dominators` the iterative set intersection in a
given visiting order. Every node of a trail is reachable, and every computed dominator of its last
node lies on it.
-/

namespace FlowGraph

open List Saturate

variable {α : Type*}

/-- The nonempty node sequences that start at the entry and follow edges, latest node first. -/
inductive Trail (edge : α → α → Prop) (entry : α) : List α → Prop where
  | start : Trail edge entry [entry]
  | step {last next : α} {earlier : List α} (trail : Trail edge entry (last :: earlier))
      (move : edge last next) : Trail edge entry (next :: last :: earlier)

variable {edge : α → α → Prop} {trail : List α} {entry : α}

/-- The image of a trail under a map that sends its edges to edges. -/
theorem Trail.map {β : Type*} (walk : Trail edge entry trail) (image : α → β) {edge' : β → β → Prop}
    (moves : ∀ last ∈ trail, ∀ next ∈ trail, edge last next → edge' (image last) (image next)) :
    Trail edge' (image entry) (trail.map image) := by
  induction walk with
  | start => exact .start
  | @step last next earlier walk move ih =>
    refine .step (ih fun last inside next inside' => ?_) (moves last (by simp) next (by simp) move)
    exact moves last (mem_cons_of_mem _ inside) next (mem_cons_of_mem _ inside')

theorem Trail.entry_mem (walk : Trail edge entry trail) : entry ∈ trail := by
  induction walk with
  | start => exact mem_cons_self
  | step _ _ ih => exact mem_cons_of_mem _ ih

variable {node : α}

section Reach
variable [DecidableEq α]

/-- Visited nodes and the stack of nodes still to visit. -/
abbrev ReachState (α : Type*) := List α × List α

def reachStep (nodes : List α) (succ : α → List α) : ReachState α → Option (ReachState α)
  | (_, []) => none
  | (visited, node :: rest) =>
    if node ∈ nodes ∧ node ∉ visited then some (node :: visited, (succ node).reverse ++ rest)
    else some (visited, rest)

/-- Edges that unvisited nodes may still push. -/
def remainingEdges (nodes : List α) (succ : α → List α) (visited : List α) : Nat :=
  ((nodes.filter (· ∉ visited)).map fun node => (succ node).length).sum

def reachMeasure (nodes : List α) (succ : α → List α) (state : ReachState α) : Nat :=
  state.2.length + remainingEdges nodes succ state.1

/-- The nodes a depth-first worklist from the entry visits. -/
def reach (nodes : List α) (succ : α → List α) (entry : α) : List α :=
  (saturate (reachStep nodes succ) (reachMeasure nodes succ ([], [entry])) ([], [entry])).1

theorem remainingEdges_cons (nodes : List α) (succ : α → List α) (visited : List α) (node : α) :
    remainingEdges nodes succ (node :: visited) ≤ remainingEdges nodes succ visited := by
  have fewer : nodes.filter (· ∉ node :: visited) <+ nodes.filter (· ∉ visited) :=
    monotone_filter_right nodes fun other unseen => by simp_all
  exact (fewer.map _).sum_le_sum fun _ _ => Nat.zero_le _

variable {nodes : List α} {succ : α → List α} {before after : ReachState α} {entry : α}

theorem remainingEdges_visit {visited : List α} (known : node ∈ nodes) (fresh : node ∉ visited) :
    remainingEdges nodes succ (node :: visited) + (succ node).length ≤ remainingEdges nodes succ
      visited := by
  obtain ⟨front, back, rfl⟩ := append_of_mem known
  have left := remainingEdges_cons front succ visited node
  have right := remainingEdges_cons back succ visited node
  unfold remainingEdges at left right ⊢
  rw [filter_append, filter_append, filter_cons_of_neg (by simp),
    filter_cons_of_pos (by simpa using fresh)]
  simp only [map_append, map_cons, sum_append, sum_cons]
  omega

/-- Visited nodes and known pending ones are ends of trails over known nodes; the entry and the
known successors of visited nodes are among them. -/
structure ReachInvariant (nodes : List α) (succ : α → List α) (entry : α) (state : ReachState α) :
    Prop where
  ends : ∀ node, node ∈ state.1 ∨ node ∈ state.2 ∧ node ∈ nodes →
    ∃ earlier, Trail (fun last next => next ∈ succ last ∧ next ∈ nodes) entry (node :: earlier)
  closed : ∀ next ∈ nodes, (next = entry ∨ ∃ node ∈ state.1, next ∈ succ node) → next ∈ state.1 ∨
    next ∈ state.2

section
variable (step : reachStep nodes succ before = some after)
include step

theorem reachStep_cases :
    ∃ node rest, before.2 = node :: rest ∧
      ((node ∈ nodes ∧ node ∉ before.1 ∧ after = (node :: before.1, (succ node).reverse ++ rest)) ∨
        ((node ∉ nodes ∨ node ∈ before.1) ∧ after = (before.1, rest))) := by
  obtain ⟨visited, pending⟩ := before
  cases pending with
  | nil => simp [reachStep] at step
  | cons node rest =>
    refine ⟨node, rest, rfl, ?_⟩
    simp only [reachStep] at step
    split_ifs at step with fresh
    · exact .inl ⟨fresh.1, fresh.2, (Option.some.inj step).symm⟩
    · refine .inr ⟨?_, (Option.some.inj step).symm⟩
      by_contra neither
      push Not at neither
      exact fresh neither

theorem reachStep_decreases : reachMeasure nodes succ after < reachMeasure nodes succ before := by
  obtain ⟨node, rest, pending, ⟨known, fresh, rfl⟩ | ⟨_, rfl⟩⟩ := reachStep_cases step
  · have released : remainingEdges nodes succ (node :: before.1) + (succ node).length ≤
        remainingEdges nodes succ before.1 := remainingEdges_visit known fresh
    simp only [reachMeasure, pending, length_append, length_reverse, length_cons]
    omega
  · simp only [reachMeasure, pending, length_cons]
    omega

theorem reachStep_invariant (valid : ReachInvariant nodes succ entry before) :
    ReachInvariant nodes succ entry after := by
  obtain ⟨node, rest, pending, ⟨known, fresh, rfl⟩ | ⟨skipped, rfl⟩⟩ := reachStep_cases step
  · obtain ⟨earlier, walk⟩ := valid.ends node (.inr ⟨by simp [pending], known⟩)
    refine ⟨fun next found => ?_, fun next inside source => ?_⟩
    · by_cases move : next ∈ succ node ∧ next ∈ nodes
      · exact ⟨_, walk.step move⟩
      · by_cases same : next = node
        · exact ⟨earlier, same ▸ walk⟩
        · exact valid.ends next (by grind)
    · by_cases move : next ∈ succ node
      · exact .inr (mem_append_left _ (mem_reverse.mpr move))
      · have visited := valid.closed next inside (by grind)
        grind
  · refine ⟨fun next found => valid.ends next (by grind), fun next inside source => ?_⟩
    have visited := valid.closed next inside source
    grind

end

theorem reach_settled (nodes : List α) (succ : α → List α) (entry : α) :
    ReachInvariant nodes succ entry (reach nodes succ entry, []) := by
  have valid : ReachInvariant nodes succ entry
      (saturate (reachStep nodes succ) (reachMeasure nodes succ ([], [entry])) ([], [entry])) :=
    saturate_invariant _ (fun _ _ valid step => reachStep_invariant step valid)
      ⟨by simpa using fun _ => ⟨[], .start⟩, by simp⟩
  have stable : reachStep nodes succ
      (saturate (reachStep nodes succ) (reachMeasure nodes succ ([], [entry])) ([], [entry])) =
        none :=
    saturate_stable (fun _ => True) (reachMeasure nodes succ) (fun _ _ _ _ => trivial)
      (fun _ _ _ step => reachStep_decreases step) trivial le_rfl
  unfold reach
  generalize saturate (reachStep nodes succ) _ _ = final at valid stable
  obtain ⟨visited, _ | ⟨node, rest⟩⟩ := final
  · exact valid
  · simp only [reachStep] at stable
    split_ifs at stable

theorem entry_mem_reach (known : entry ∈ nodes) : entry ∈ reach nodes succ entry :=
  ((reach_settled nodes succ entry).closed entry known (.inl rfl)).resolve_right not_mem_nil

theorem reach_closed {next : α} (member : node ∈ reach nodes succ entry) (edge : next ∈ succ node)
    (known : next ∈ nodes) : next ∈ reach nodes succ entry :=
  ((reach_settled nodes succ entry).closed next known (.inr ⟨node, member, edge⟩)).resolve_right
    not_mem_nil

/-- A trail over known nodes only visits nodes the worklist finds. -/
theorem trail_mem_reach (walk : Trail edge entry trail) (known : entry ∈ nodes)
    (follows : ∀ last next, edge last next → next ∈ succ last ∧ next ∈ nodes) :
    ∀ node ∈ trail, node ∈ reach nodes succ entry := by
  induction walk with
  | start => simpa using entry_mem_reach known
  | step walk move ih =>
    intro node member
    rcases mem_cons.mp member with rfl | member
    · have target := follows _ _ move
      exact reach_closed (ih _ mem_cons_self) target.1 target.2
    · exact ih node member

/-- The worklist finds only nodes that a trail over known nodes ends in. -/
theorem trail_of_mem_reach (member : node ∈ reach nodes succ entry) :
    ∃ earlier, Trail (fun last next => next ∈ succ last ∧ next ∈ nodes) entry (node :: earlier) :=
  (reach_settled nodes succ entry).ends node (.inl member)

end Reach

section Dominators

open Descent

/-- A family of sets that every edge of a trail allows to grow by its target only lists nodes of the
trail. -/
theorem mem_trail_of_grows [DecidableEq α] (sets : α → Finset α)
    (walk : Trail edge entry trail) (initial : sets entry ⊆ {entry})
    (grows : ∀ last ∈ trail, ∀ next ∈ trail, edge last next → next ≠ entry →
      sets next ⊆ insert next (sets last)) :
    ∀ last earlier, trail = last :: earlier → ∀ node ∈ sets last, node ∈ trail := by
  induction walk with
  | start =>
    intro last earlier shape node member
    obtain ⟨rfl, -⟩ := List.cons.inj shape
    simpa using initial member
  | @step previous next earlier walk move ih =>
    intro last tail shape node member
    obtain ⟨rfl, -⟩ := List.cons.inj shape
    by_cases atEntry : next = entry
    · subst atEntry
      simp [Finset.mem_singleton.mp (initial member)]
    · have split := grows previous (by simp) next (by simp) move atEntry member
      rcases Finset.mem_insert.mp split with rfl | before
      · exact mem_cons_self
      · refine mem_cons_of_mem _
          (ih (fun last inside next inside' => ?_) previous earlier rfl node before)
        exact grows last (mem_cons_of_mem _ inside) next (mem_cons_of_mem _ inside')

variable [DecidableEq α]

/-- The set that one visit of a node other than the entry assigns to it. -/
def dominatorMeet (reachable : List α) (preds : α → List α) (dominators : α → Finset α) (node : α) :
    Finset α :=
  let incoming := (preds node).filter (· ∈ reachable)
  let intersection := reachable.toFinset.filter fun candidate => ∀ pred ∈ incoming,
    candidate ∈ dominators pred
  insert node (if incoming = [] then ∅ else intersection)

def dominatorInit (reachable : List α) (entry : α) (node : α) : Finset α :=
  if node = entry then {node}
  else if node ∉ reachable then {entry, node}
  else reachable.toFinset

/-- The dominator sets the iteration ends with; the entry is skipped. -/
def dominators (reachable : List α) (preds : α → List α) (entry : α) : α → Finset α :=
  descend (dominatorMeet reachable preds) (reachable.filter (· ≠ entry))
    (dominatorInit reachable entry)

section Lemmas
variable {reachable : List α} {preds : α → List α} {entry : α}

theorem mem_dominatorMeet {dominators : α → Finset α} {candidate : α} :
    candidate ∈ dominatorMeet reachable preds dominators node ↔
      candidate = node ∨ candidate ∈ reachable ∧ (∃ pred ∈ preds node, pred ∈ reachable) ∧
        ∀ pred ∈ preds node, pred ∈ reachable → candidate ∈ dominators pred := by
  by_cases none : ∀ pred ∈ preds node, pred ∉ reachable
  · have empty : (preds node).filter (· ∈ reachable) = [] := by simpa using none
    have absent : ¬∃ pred ∈ preds node, pred ∈ reachable := by simpa using none
    simp [dominatorMeet, empty, absent]
  · have present : ∃ pred ∈ preds node, pred ∈ reachable := by simpa using none
    have nonempty : (preds node).filter (· ∈ reachable) ≠ [] := by simpa using none
    simp [dominatorMeet, nonempty, present]

theorem dominatorMeet_monotonic : Monotonic (dominatorMeet reachable preds) := by
  intro smaller larger below node candidate member
  rw [mem_dominatorMeet] at member ⊢
  refine member.imp_right fun inside => ⟨inside.1, inside.2.1, fun pred incoming known => ?_⟩
  exact below pred (inside.2.2 pred incoming known)

theorem dominatorInit_above (node : α) (member : node ∈ reachable.filter (· ≠ entry)) :
    dominatorMeet reachable preds (dominatorInit reachable entry) node ⊆
      dominatorInit reachable entry node := by
  obtain ⟨known, other⟩ : node ∈ reachable ∧ node ≠ entry := by simpa using member
  intro candidate inside
  simp only [dominatorInit, other, known, not_true_eq_false, if_false, mem_toFinset]
  rcases mem_dominatorMeet.mp inside with rfl | inside
  · exact known
  · exact inside.1

theorem dominators_entry (reachable : List α) (preds : α → List α) (entry : α) :
    dominators reachable preds entry entry = {entry} := by
  rw [dominators, descend_outside dominatorMeet_monotonic dominatorInit_above (by simp)]
  simp [dominatorInit]

/-- The iteration ends in a solution of the dominator equations. -/
theorem dominators_fixed (known : node ∈ reachable) (other : node ≠ entry) :
    dominators reachable preds entry node = dominatorMeet reachable preds
      (dominators reachable preds entry) node :=
  descend_fixed dominatorMeet_monotonic dominatorInit_above (by simp [known, other])

/-- The rounds end because one of them changes nothing. -/
theorem dominators_stops (reachable : List α) (preds : α → List α) (entry : α) :
    pass (dominatorMeet reachable preds) (reachable.filter (· ≠ entry))
      (dominators reachable preds entry) = none :=
  descend_stops dominatorMeet_monotonic dominatorInit_above

/-- On exactly the reachable nodes, in any order, the computed sets hold the nodes that no trail
avoids. -/
theorem mem_dominators_iff {dominator : α}
    (lists : ∀ node, node ∈ reachable ↔ ∃ earlier, Trail edge entry (node :: earlier))
    (incoming : ∀ last, ∀ next ∈ reachable, last ∈ preds next ↔ edge last next)
      (known : node ∈ reachable) :
    dominator ∈ dominators reachable preds entry node ↔
      ∀ earlier, Trail edge entry (node :: earlier) → dominator ∈ node :: earlier := by
  have visited : ∀ {trail}, Trail edge entry trail → ∀ node ∈ trail, node ∈ reachable := by
    intro trail walk
    induction walk with
    | start => simpa using (lists entry).mpr ⟨[], .start⟩
    | step walk move ih =>
      intro node member
      rcases mem_cons.mp member with rfl | member
      · exact (lists node).mpr ⟨_, walk.step move⟩
      · exact ih node member
  constructor
  · intro member earlier walk
    refine mem_trail_of_grows _ walk (dominators_entry reachable preds entry).subset ?_ _ _ rfl _
      member
    intro last lastVisited next nextVisited move other dominator member
    have known := visited walk next nextVisited
    rw [dominators_fixed known other, mem_dominatorMeet] at member
    rw [Finset.mem_insert]
    exact member.imp_right fun inside => inside.2.2 last ((incoming last next known).mpr move)
      (visited walk last lastVisited)
  · intro unavoidable
    -- The sets of unavoidable nodes satisfy the equations, so no visit removes one of their
    -- elements.
    refine @descend_contains α α _ _ _ _ _ (fun node element => node ∈ reachable ∧
      ∀ earlier, Trail edge entry (node :: earlier) → element ∈ node :: earlier) ?_ ?_ node
        dominator
      ⟨known, unavoidable⟩
    · rintro node element ⟨known, unavoidable⟩
      obtain ⟨earlier, walk⟩ := (lists node).mp known
      unfold dominatorInit
      split_ifs with same
      · subst same
        simpa using unavoidable [] .start
      · simpa using visited walk element (unavoidable earlier walk)
    · rintro sets contains node member element ⟨known, unavoidable⟩
      obtain ⟨-, other⟩ : node ∈ reachable ∧ node ≠ entry := by simpa using member
      rw [mem_dominatorMeet]
      by_cases same : element = node
      · exact .inl same
      obtain ⟨earlier, walk⟩ := (lists node).mp known
      refine .inr ⟨visited walk element (unavoidable earlier walk), ?_, fun pred isPred inside =>
        ?_⟩
      · cases walk with
        | start => exact absurd rfl other
        | @step last _ _ walk move =>
          exact ⟨last, (incoming _ _ known).mpr move, visited walk last mem_cons_self⟩
      · refine contains pred element ⟨inside, fun earlier walk => ?_⟩
        have move := (incoming pred node known).mp isPred
        exact (mem_cons.mp (unavoidable _ (walk.step move))).resolve_left same

end Lemmas

end Dominators

end FlowGraph

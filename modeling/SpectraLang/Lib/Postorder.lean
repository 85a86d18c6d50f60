import SpectraLang.Lib.FlowGraph

/-! # Reverse postorder of a depth-first walk

The walk keeps a stack of nodes, each flagged as expanded or not, and lists a node as finished when
its expanded entry is popped, the latest first. The open nodes, from the entry on, followed by the
finished ones form a line in which nodes are inserted and never moved. In it every node but the
entry stands after one that leads to it, and an edge out of a finished node leads forward or to a
node that reaches its source.
-/

namespace Postorder

open List Saturate FlowGraph Relation

variable {α : Type*}

/-- Paths along the successors. -/
abbrev Reach (succ : α → List α) : α → α → Prop :=
  ReflTransGen fun source target => target ∈ succ source

/-- What the finished nodes of a walk form. -/
structure Ordered (succ : α → List α) (entry : α) (line : List α) : Prop where
  nodup : line.Nodup
  head : line.head? = some entry
  reached : ∀ node, node ∈ line ↔ Reach succ entry node
  parent : ∀ node ∈ line, node = entry ∨ ∃ source, [source, node] <+ line ∧ node ∈ succ source
  edge : ∀ source ∈ line, ∀ target ∈ succ source, [source, target] <+ line ∨
    Reach succ target source

/-- The finished nodes have the latest first; the flag of a stack entry says that it has been
expanded. -/
structure Walk (α : Type*) where
  visited : List α
  finished : List α
  stack : List (α × Bool)

section Frames

/-- Open nodes, each below those of its successors that are still to visit. -/
def entries : List (α × List α) → List (α × Bool)
  | [] => []
  | (node, pending) :: frames => pending.map (·, false) ++ (node, true) :: entries frames

/-- The frames are the open nodes, latest first, with their pending successors. -/
structure Invariant (succ : α → List α) (entry : α) (walk : Walk α) (frames : List (α × List α))
    (line : List α) : Prop where
  split : line = (frames.map Prod.fst).reverse ++ walk.finished
  stack : walk.stack = entries frames
  visited : ∀ node, node ∈ walk.visited ↔ node ∈ line
  nodup : line.Nodup
  head : line.head? = some entry
  nested : (frames.map Prod.fst).Pairwise fun later earlier => Reach succ earlier later
  parent : ∀ node ∈ line, node = entry ∨
    ∃ source, [source, node] <+ line ∧ node ∈ succ source ∧ Reach succ entry source
  edge : ∀ source ∈ walk.finished, ∀ target ∈ succ source,
    target ∈ line ∧ ([source, target] <+ line ∨ Reach succ target source)
  pending : ∀ frame ∈ frames, ∀ target ∈ frame.2, target ∈ succ frame.1
  settled : ∀ frame ∈ frames, ∀ target ∈ succ frame.1, target ∈ frame.2 ∨ target ∈ line

variable {succ : α → List α} {entry node target : α} {walk : Walk α} {frames : List (α × List α)}
  {line pending unvisited : List α}

theorem Invariant.reached (inv : Invariant succ entry walk frames line) (member : node ∈ line) :
    Reach succ entry node := by
  rcases inv.parent node member with rfl | ⟨source, -, leads, reached⟩
  · exact .refl
  · exact reached.tail leads

/-- The latest open node is finished. -/
theorem Invariant.finish (inv : Invariant succ entry walk ((node, []) :: frames) line) :
    Invariant succ entry { walk with finished := node :: walk.finished, stack := entries frames }
      frames line := by
  have split : line = (frames.map Prod.fst).reverse ++ node :: walk.finished := by simp [inv.split]
  obtain ⟨above, nested⟩ := pairwise_cons.mp inv.nested
  obtain ⟨done, settled⟩ := forall_mem_cons.mp inv.settled
  refine { inv with split, stack := rfl, nested, settled, edge := ?_, pending :=
    (forall_mem_cons.mp inv.pending).2 }
  refine forall_mem_cons.mpr ⟨fun target leads => ?_, inv.edge⟩
  have known : target ∈ line := (done target leads).resolve_left not_mem_nil
  refine ⟨known, ?_⟩
  rw [split, mem_append, mem_reverse, mem_cons] at known
  rcases known with isOpen | rfl | finished
  · exact .inr (above target isOpen)
  · exact .inr .refl
  · rw [split]
    exact .inl (((singleton_sublist.mpr finished).cons_cons node).trans (sublist_append_right _ _))

section
variable (inv : Invariant succ entry walk ((node, target :: pending) :: frames) line)
include inv

/-- A pending successor that has been visited meanwhile is dropped. -/
theorem Invariant.skip (seen : target ∈ walk.visited) :
    Invariant succ entry { walk with stack := entries ((node, pending) :: frames) }
      ((node, pending) :: frames) line := by
  have known := (inv.visited target).mp seen
  obtain ⟨own, pendings⟩ := forall_mem_cons.mp inv.pending
  obtain ⟨done, settled⟩ := forall_mem_cons.mp inv.settled
  refine { inv with stack := rfl, pending := forall_mem_cons.mpr ⟨?_, pendings⟩,
                    settled := forall_mem_cons.mpr ⟨?_, settled⟩ }
  · exact fun other member => own other (mem_cons_of_mem _ member)
  · grind

/-- A pending successor is opened: it stands behind the open nodes and before the finished ones. -/
theorem Invariant.expand (fresh : target ∉ walk.visited)
    (rest : ∀ other, other ∈ unvisited ↔ other ∈ succ target ∧ other ∉ target :: walk.visited) :
    ∃ longer, Invariant succ entry { walk with
        visited := target :: walk.visited
        stack := entries ((target, unvisited) :: (node, pending) :: frames) }
      ((target, unvisited) :: (node, pending) :: frames) longer := by
  have reached : Reach succ entry node := inv.reached (by simp [inv.split])
  obtain ⟨split, -, visited, nodup, head, nested, parent, edge, pendings, settled⟩ := inv
  obtain ⟨own, pendings⟩ := forall_mem_cons.mp pendings
  obtain ⟨done, settled⟩ := forall_mem_cons.mp settled
  have leads : target ∈ succ node := own target mem_cons_self
  simp only [map_cons, reverse_cons, append_assoc, singleton_append] at split
  let longer := (frames.map Prod.fst).reverse ++ node :: target :: walk.finished
  have kept : line <+ longer := split ▸ ((sublist_cons_self _ _).cons_cons _).append_left _
  have members : ∀ other, other ∈ longer ↔ other = target ∨ other ∈ line := by grind
  refine ⟨longer, by simp [longer], rfl, by simp [members, visited], ?_, ?_, ?_, ?_, ?_, ?_, ?_⟩
  · rw [visited] at fresh
    grind
  · grind
  · refine pairwise_cons.mpr ⟨?_, nested⟩
    rintro other (_ | ⟨_, isOpen⟩)
    · exact .single leads
    · exact ((pairwise_cons.mp nested).1 other isOpen).tail leads
  · intro other member
    rcases (members other).mp member with rfl | member
    · refine .inr ⟨node, ?_, leads, reached⟩
      exact (((nil_sublist _).cons_cons other).cons_cons node).trans (sublist_append_right _ _)
    · refine (parent other member).imp_right fun ⟨source, before, facts⟩ =>
        ⟨source, before.trans kept, facts⟩
  · intro source finished other leads
    obtain ⟨member, forward⟩ := edge source finished other leads
    exact ⟨kept.mem member, forward.imp_left fun before => before.trans kept⟩
  · simp only [forall_mem_cons]
    exact ⟨fun other member => ((rest other).mp member).1, fun other member => own other
      (mem_cons_of_mem _ member), pendings⟩
  · simp only [forall_mem_cons, members] at rest ⊢
    refine ⟨fun other next => ?_, fun other next => ?_, fun frame member other next => ?_⟩
    · grind
    · grind
    · exact (settled frame member other next).imp_right .inr

end

end Frames

variable [DecidableEq α] {nodes : List α} {succ : α → List α} {entry : α} {walk next : Walk α}

/-- Pop an entry. A node that is expanded goes back on the stack below its unvisited successors. -/
def step (succ : α → List α) (walk : Walk α) : Option (Walk α) :=
  match walk.stack with
  | [] => none
  | (node, true) :: rest => some { walk with finished := node :: walk.finished, stack := rest }
  | (node, false) :: rest =>
    if node ∈ walk.visited then some { walk with stack := rest }
    else
      let unvisited := (succ node).filter (· ∉ node :: walk.visited)
      some { walk with
        visited := node :: walk.visited
        stack := unvisited.reverse.map (·, false) ++ (node, true) :: rest }

def start (entry : α) : Walk α := ⟨[], [], [(entry, false)]⟩

/-- Expanding a node pays for its own second entry. -/
def measure (nodes : List α) (succ : α → List α) (walk : Walk α) : Nat :=
  (walk.stack.map fun entry => if entry.2 then 1 else 2).sum + 2 * remainingEdges nodes succ
    walk.visited

/-- The walk from an entry, for successors that only the listed nodes have. -/
def walkFrom (nodes : List α) (succ : α → List α) (entry : α) : Walk α :=
  saturate (step succ) (measure nodes succ (start entry)) (start entry)

theorem step_decreases (closed : ∀ node ∉ nodes, succ node = [])
    (turn : step succ walk = some next) : measure nodes succ next < measure nodes succ walk := by
  obtain ⟨visited, finished, stack⟩ := walk
  match stack, turn with
  | (node, true) :: rest, turn =>
    obtain rfl := Option.some.inj turn
    simp [measure]
  | (node, false) :: rest, turn =>
    simp only [step] at turn
    split_ifs at turn with seen <;> obtain rfl := Option.some.inj turn
    · simp [measure]
    · have fewer := length_filter_le (· ∉ node :: visited) (succ node)
      have paid : remainingEdges nodes succ (node :: visited) + (succ node).length ≤
        remainingEdges nodes succ visited := by
        by_cases known : node ∈ nodes
        · exact remainingEdges_visit known seen
        · simpa [closed node known] using remainingEdges_cons nodes succ visited node
      simp only [measure, map_append, List.map_map, map_cons, sum_append, sum_cons,
        Function.comp_def, if_true,
        Bool.false_eq_true, if_false, map_const', sum_replicate_nat, length_reverse]
      omega

/-- The walk has yet to begin or has opened the entry. -/
def Underway (succ : α → List α) (entry : α) (walk : Walk α) : Prop :=
  walk = start entry ∨ ∃ frames line, Invariant succ entry walk frames line

theorem Underway.step (underway : Underway succ entry walk) (turn : step succ walk = some next) :
    Underway succ entry next := by
  right
  rcases underway with rfl | ⟨frames, line, inv⟩
  · obtain rfl := Option.some.inj turn
    refine ⟨[(entry, ((succ entry).filter (· ∉ [entry])).reverse)], [entry], ?_⟩
    constructor <;> simp [entries, start]
    · exact fun _ leads _ => leads
    · grind
  · rw [Postorder.step, inv.stack] at turn
    match frames, inv with
    | [], _ => cases turn
    | (node, []) :: frames, inv =>
      obtain rfl := Option.some.inj turn
      exact ⟨frames, line, inv.finish⟩
    | (node, target :: pending) :: frames, inv =>
      simp only [entries, map_cons, cons_append] at turn
      split_ifs at turn with seen <;> obtain rfl := Option.some.inj turn
      · exact ⟨_, line, inv.skip seen⟩
      · have unvisited (other : α) :
          other ∈ ((succ target).filter (· ∉ target :: walk.visited)).reverse ↔
            other ∈ succ target ∧ other ∉ target :: walk.visited := by simp
        obtain ⟨longer, expanded⟩ := inv.expand seen unvisited
        exact ⟨_, longer, expanded⟩

theorem walkFrom_ordered (closed : ∀ node ∉ nodes, succ node = []) (entry : α) :
    Ordered succ entry (walkFrom nodes succ entry).finished ∧
      ∀ node, node ∈ (walkFrom nodes succ entry).visited ↔
        node ∈ (walkFrom nodes succ entry).finished := by
  have underway : Underway succ entry (walkFrom nodes succ entry) :=
    saturate_invariant _ (fun _ _ => Underway.step) (.inl rfl)
  have stable : step succ (walkFrom nodes succ entry) = none :=
    saturate_stable (fun _ => True) (measure nodes succ) (fun _ _ _ _ => trivial)
      (fun _ _ _ => step_decreases closed) trivial le_rfl
  generalize walkFrom nodes succ entry = walk at underway stable
  obtain rfl | ⟨frames, line, inv⟩ := underway
  · simp [step, start] at stable
  · rw [step, inv.stack] at stable
    obtain rfl : frames = [] := by
      rcases frames with _ | ⟨⟨node, _ | ⟨target, pending⟩⟩, frames⟩
      · rfl
      · cases stable
      · simp only [entries, map_cons, cons_append] at stable
        split_ifs at stable
    obtain rfl : line = walk.finished := inv.split
    refine ⟨⟨inv.nodup, inv.head, fun node => ⟨inv.reached, fun reach => ?_⟩, ?_, ?_⟩, inv.visited⟩
    · induction reach with
      | refl => exact mem_of_mem_head? inv.head
      | tail _ leads ih => exact (inv.edge _ ih _ leads).1
    · exact fun node member => (inv.parent node member).imp_right fun ⟨source, before, leads, _⟩ =>
        ⟨source, before, leads⟩
    · exact fun source member target leads => (inv.edge source member target leads).2

end Postorder

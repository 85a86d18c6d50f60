import Mathlib.Algebra.GroupWithZero.Nat
import SpectraLang.Lib.Saturate
import Mathlib.Algebra.Order.BigOperators.Group.List
import Mathlib.Algebra.Order.Group.Nat
import Mathlib.Data.List.TakeWhile

/-! # Strongly connected components

Tarjan's algorithm with an explicit work stack, whose frames hold a node and the successors it has
yet to visit. The node stack falls into one part per frame: the frame's own node and the finished
nodes above it, which all lie on cycles with it. With the parts explicit every step keeps an
invariant about one frame at a time, and in the end the components are the classes of mutually
reachable nodes.
-/

open Function

namespace Components

open List Saturate

variable {α : Type*}

/-- There is a path from the first node to the second. -/
abbrev Reach (succ : α → List α) : α → α → Prop := Relation.ReflTransGen fun node next =>
    next ∈ succ node

/-- There is a path of one edge or more. -/
abbrev Onward (succ : α → List α) : α → α → Prop :=
  Relation.TransGen fun node next => next ∈ succ node

/-- A list of nodes, each once, that is a class of mutually reachable nodes. -/
structure IsComponent (succ : α → List α) (component : List α) : Prop where
  nodup : component.Nodup
  ne_nil : component ≠ []
  mem_iff : ∀ node ∈ component, ∀ other, other ∈ component ↔ Reach succ node other ∧
    Reach succ other node

/-- The nodes of a component lie on a cycle when it has several nodes or an edge to itself. -/
theorem IsComponent.loop_iff {succ : α → List α} {component : List α} {node : α}
    (sound : IsComponent succ component)
    (member : node ∈ component) : (1 < component.length ∨ node ∈ succ node) ↔
      Onward succ node node := by
  have several : 1 < component.length ↔ ∃ other ∈ component, other ≠ node := by
    have nodup := sound.nodup
    rcases component with _ | ⟨first, _ | ⟨second, rest⟩⟩ <;> simp at nodup member ⊢ <;> grind
  rw [several]
  constructor
  · rintro (⟨other, inside, different⟩ | loop)
    · obtain ⟨there, back⟩ := (sound.mem_iff node member other).mp inside
      rcases Relation.reflTransGen_iff_eq_or_transGen.mp there with same | path
      · exact absurd same different
      · exact path.trans_left back
    · exact .single loop
  · intro cycle
    obtain ⟨next, edge, back⟩ := Relation.TransGen.head'_iff.mp cycle
    by_cases same : next = node
    · exact .inr (same ▸ edge)
    · exact .inl ⟨next, (sound.mem_iff node member next).mpr ⟨.single edge, back⟩, same⟩

/-- The state of the search; the top of each stack is its head. -/
structure Search (α : Type*) where
  index : α → Option Nat
  low : α → Nat
  stack : List α
  work : List (α × List α)
  components : List (List α)
  next : Nat

def Search.initial : Search α := ⟨fun _ => none, fun _ => 0, [], [], [], 0⟩

/-- A frame of the work stack with the finished nodes above it on the node stack. -/
structure Frame (α : Type*) where
  node : α
  rest : List α
  finished : List α
  low : Nat

def Frame.entry (frame : Frame α) : α × List α := (frame.node, frame.rest)
def Frame.members (frame : Frame α) : List α := frame.finished ++ [frame.node]

/-- The nodes on the stack. -/
def members (frames : List (Frame α)) : List α := frames.flatMap Frame.members

/-- Where the target of an explored edge is: in a component, or on the stack and not below the low
link. -/
def Settled (index : α → Option Nat) (stack closed : List α) (low : Nat) (node : α) : Prop :=
  node ∈ closed ∨ node ∈ stack ∧ ∃ found, index node = some found ∧ low ≤ found

/-- What a frame knows about its part of the stack. -/
structure Grounded (succ : α → List α) (index : α → Option Nat) (stack closed : List α)
    (frame : Frame α) (lower : List (Frame α)) : Prop where
  cycle : ∀ node ∈ frame.members, Reach succ frame.node node ∧ Reach succ node frame.node
  explored : ∃ explored, succ frame.node = explored ++ frame.rest ∧
    ∀ node ∈ explored, Settled index stack closed frame.low node
  finished : ∀ node ∈ frame.finished, ∀ next ∈ succ node, Settled index stack closed frame.low next
  witness : ∃ node ∈ members (frame :: lower), index node = some frame.low ∧
    Reach succ frame.node node
  low_le : ∃ found, index frame.node = some found ∧ frame.low ≤ found
  parent : ∀ parent ∈ lower.head?, Reach succ parent.node frame.node

/-- Every frame knows about its part. -/
def AllGrounded (succ : α → List α) (index : α → Option Nat) (stack closed : List α) :
    List (Frame α) → Prop
  | [] => True
  | frame :: lower =>
      Grounded succ index stack closed frame lower ∧ AllGrounded succ index stack closed lower

/-- The first node was numbered after the second. -/
def Above (index : α → Option Nat) (later earlier : α) : Prop :=
  ∃ high low, index later = some high ∧ index earlier = some low ∧ low < high

/-- What holds between two turns of the search. -/
structure Invariant (nodes : List α) (succ : α → List α) (search : Search α)
    (frames : List (Frame α)) : Prop where
  work : search.work = frames.map Frame.entry
  stack : search.stack = members frames
  low : ∀ frame ∈ frames, search.low frame.node = frame.low
  fresh : ∀ node found, search.index node = some found → found < search.next
  order : search.stack.Pairwise (Above search.index)
  seen : ∀ node, (search.index node).isSome ↔ node ∈ search.stack ∨ node ∈ search.components.flatten
  apart : ∀ node ∈ search.stack, node ∉ search.components.flatten
  closed : ∀ node ∈ search.components.flatten, ∀ next ∈ succ node, next ∈ search.components.flatten
  components : ∀ component ∈ search.components, IsComponent succ component
  distinct : search.components.flatten.Nodup
  grounded : AllGrounded succ search.index search.stack search.components.flatten frames
  known : ∀ node, (search.index node).isSome → node ∈ nodes

variable {frames : List (Frame α)}

section World
variable {succ : α → List α} {index index' : α → Option Nat} {stack stack' closed closed' : List α}

theorem Settled.lower {low less : Nat} {node : α} (settled : Settled index stack closed low node)
    (below : less ≤ low) : Settled index stack closed less node := by
  rcases settled with inside | ⟨onStack, found, numbered, above⟩
  · exact .inl inside
  · exact .inr ⟨onStack, found, numbered, below.trans above⟩

section
variable (keeps : ∀ low node, Settled index stack closed low node →
  Settled index' stack' closed' low node)
include keeps

theorem Grounded.mono {frame : Frame α} {lower : List (Frame α)}
    (same : ∀ node ∈ members (frame :: lower), index' node = index node)
    (grounded : Grounded succ index stack closed frame lower) :
      Grounded succ index' stack' closed' frame lower := by
  have own : frame.node ∈ members (frame :: lower) := by simp [members, Frame.members]
  obtain ⟨explored, split, settled⟩ := grounded.explored
  obtain ⟨node, member, numbered, reached⟩ := grounded.witness
  exact {
    cycle := grounded.cycle
    explored := ⟨explored, split, fun node inside => keeps _ node (settled node inside)⟩
    finished := fun node inside next edge => keeps _ next (grounded.finished node inside next edge)
    witness := ⟨node, member, (same node member).trans numbered, reached⟩
    low_le := same frame.node own ▸ grounded.low_le
    parent := grounded.parent }

theorem AllGrounded.mono (same : ∀ node ∈ members frames, index' node = index node)
    (grounded : AllGrounded succ index stack closed frames) :
      AllGrounded succ index' stack' closed' frames := by
  induction frames with
  | nil => trivial
  | cons frame lower ih =>
    refine ⟨grounded.1.mono keeps same, ih (fun node member => same node ?_) grounded.2⟩
    exact mem_append_right _ member

end

/-- From a node of any part the frame that is on top can be reached. -/
theorem AllGrounded.reach_top {frame : Frame α} {lower : List (Frame α)}
    (grounded : AllGrounded succ index stack closed (frame :: lower)) {node : α}
      (member : node ∈ members (frame :: lower)) :
    Reach succ node frame.node := by
  induction lower generalizing frame with
  | nil =>
    simp only [members, flatMap_cons, flatMap_nil, append_nil] at member
    exact (grounded.1.cycle node member).2
  | cons parent lower ih =>
    rcases mem_append.mp member with here | below
    · exact (grounded.1.cycle node here).2
    · exact (ih grounded.2 below).trans (grounded.1.parent parent rfl)

end World

theorem node_ne_of_nodup {frame other : Frame α} {lower : List (Frame α)}
    (nodup : (members (frame :: lower)).Nodup)
    (member : other ∈ lower) : other.node ≠ frame.node := by
  have below : other.node ∈ members lower :=
    mem_flatMap.mpr ⟨other, member, mem_append_right _ mem_cons_self⟩
  exact fun same => (nodup_append.mp nodup).2.2 frame.node (mem_append_right _ mem_cons_self) _
    below same.symm

variable {nodes : List α} {succ : α → List α} {search : Search α} {frame : Frame α}
  {lower : List (Frame α)} {node : α} {first found : Nat} {rest : List α}

namespace Invariant

section
variable (inv : Invariant nodes succ search frames)
include inv

theorem nodup : search.stack.Nodup := by
  apply inv.order.imp
  rintro later earlier ⟨high, low, laterIs, earlierIs, below⟩
  grind

theorem unseen_iff (unseen : search.index node = none) : node ∉ search.stack ∧
    node ∉ search.components.flatten := by
  have notSeen := (inv.seen node).not.mp (by simp [unseen])
  exact not_or.mp notSeen

/-- Paths from a finished component stay in finished components. -/
theorem reach_closed {other : α}
    (inside : node ∈ search.components.flatten) (path : Reach succ node other) :
      other ∈ search.components.flatten := by
  induction path with
  | refl => exact inside
  | tail _ edge ih => exact inv.closed _ ih _ edge

end

section
variable (inv : Invariant nodes succ search (frame :: lower))
include inv

theorem stack_cons : search.stack = frame.finished ++ frame.node :: members lower := by
  simp [inv.stack, members, Frame.members]

/-- What was numbered no earlier than the top frame's node lies in its part. -/
theorem mem_members_of_le (onStack : node ∈ search.stack)
    (own : search.index frame.node = some first) (numbered : search.index node = some found)
      (above : first ≤ found) :
    node ∈ frame.members := by
  have order := inv.order
  rw [inv.stack_cons, mem_append, mem_cons] at onStack
  rw [inv.stack_cons, pairwise_append, pairwise_cons] at order
  rcases onStack with here | rfl | below
  · exact mem_append_left _ here
  · exact mem_append_right _ mem_cons_self
  · obtain ⟨high, low, ownIs, nodeIs, less⟩ := order.2.1.1 node below
    grind

theorem node_ne {other : Frame α} (member : other ∈ lower) : other.node ≠ frame.node :=
  node_ne_of_nodup (inv.stack ▸ inv.nodup) member

/-- The search moves past an edge whose target has been numbered. -/
theorem advance (next : frame.rest = node :: rest) {low : Nat} (lowers : low ≤ frame.low)
    (target : Settled search.index search.stack search.components.flatten low node)
    (witness : ∃ other ∈ members (frame :: lower), search.index other = some low ∧
      Reach succ frame.node other)
    {lows : α → Nat} (own : lows frame.node = low)
      (others : ∀ other ∈ lower, lows other.node = search.low other.node) :
    Invariant nodes succ { search with work := (frame.node, rest) :: lower.map Frame.entry, low :=
      lows } ({ frame with rest, low } :: lower) := by
  obtain ⟨grounded, below⟩ := inv.grounded
  obtain ⟨explored, split, settled⟩ := grounded.explored
  obtain ⟨first, numbered, lowest⟩ := grounded.low_le
  refine { inv with
    work := rfl
    low := fun other member => ?_
    grounded := ⟨{ grounded with
      explored := ⟨explored ++ [node], by simp [split, next], fun other member => ?_⟩
      finished := fun other member target edge => (grounded.finished other member target edge).lower
        lowers
      witness := witness
      low_le := ⟨first, numbered, lowers.trans lowest⟩ }, below⟩ }
  · rcases mem_cons.mp member with rfl | member
    · exact own
    · exact (others other member).trans (inv.low other (mem_cons_of_mem _ member))
  · rcases mem_append.mp member with old | new
    · exact (settled other old).lower lowers
    · obtain rfl := mem_singleton.mp new
      exact target

theorem skip (next : frame.rest = node :: rest)
    (numbered : search.index node = some found) (offStack : node ∉ search.stack) :
    Invariant nodes succ { search with work := (frame.node, rest) :: lower.map Frame.entry }
      ({ frame with rest } :: lower) := by
  have inside := ((inv.seen node).mp (by simp [numbered])).resolve_left offStack
  exact inv.advance next le_rfl (.inl inside) inv.grounded.1.witness (inv.low frame mem_cons_self)
    fun _ _ => rfl

/-- Every edge out of a finished frame's part has been explored. -/
theorem part_settled (done : frame.rest = []) (member : node ∈ frame.members) {next : α}
    (edge : next ∈ succ node) :
    Settled search.index search.stack search.components.flatten frame.low next := by
  rcases mem_append.mp member with finished | own
  · exact inv.grounded.1.finished node finished next edge
  · obtain rfl := mem_singleton.mp own
    obtain ⟨explored, split, settled⟩ := inv.grounded.1.explored
    rw [done, append_nil] at split
    exact settled next (split ▸ edge)

/-- A low link below the node's own number leads to a lower frame. -/
theorem witness_below (own : search.index frame.node = some first) (less : frame.low < first) :
    ∃ node ∈ members lower, search.index node = some frame.low ∧ Reach succ frame.node node := by
  obtain ⟨node, member, numbered, reached⟩ := inv.grounded.1.witness
  have order := inv.order
  rw [inv.stack_cons, pairwise_append] at order
  rcases mem_append.mp member with here | below
  · exfalso
    rcases mem_append.mp here with finished | isOwn
    · obtain ⟨high, low, nodeIs, ownIs, above⟩ := order.2.2 node finished _ mem_cons_self
      grind
    · grind
  · exact ⟨node, below, numbered, reached⟩

section
variable (done : frame.rest = []) (own : search.index frame.node = some frame.low)
include done own

/-- From the part of a finished frame whose node is its own low link, no path leads to the rest of
the stack. -/
theorem part_closed {other : α} (member : node ∈ frame.members)
    (path : Reach succ node other) : other ∈ search.components.flatten ∨ other ∈ frame.members := by
  induction path with
  | refl => exact .inr member
  | tail _ edge ih =>
    rcases ih with inside | inside
    · exact .inl (inv.closed _ inside _ edge)
    · rcases inv.part_settled done inside edge with closed | ⟨onStack, found, numbered, above⟩
      · exact .inl closed
      · exact .inr (inv.mem_members_of_le onStack own numbered above)

theorem part_component : IsComponent succ frame.members := by
  refine ⟨?_, by
    simp [Frame.members], fun node member other => ⟨fun otherIn => ?_, fun cycle => ?_⟩⟩
  · have nodup := inv.nodup
    rw [inv.stack, members, flatMap_cons] at nodup
    exact (nodup_append.mp nodup).1
  · obtain ⟨toNode, fromNode⟩ := inv.grounded.1.cycle node member
    obtain ⟨toOther, fromOther⟩ := inv.grounded.1.cycle other otherIn
    exact ⟨fromNode.trans toOther, fromOther.trans toNode⟩
  · refine (inv.part_closed done own member cycle.1).resolve_left fun inside => ?_
    refine inv.apart node ?_ (inv.reach_closed inside cycle.2)
    rw [inv.stack]
    exact mem_append_left _ member

end

end

end Invariant

variable [DecidableEq α]

/-- Numbers a node and starts to visit its successors. -/
def Search.enter (succ : α → List α) (search : Search α) (node : α) : Search α :=
  { search with
    index := update search.index node (some search.next)
    low := update search.low node search.next
    stack := node :: search.stack
    work := (node, succ node) :: search.work
    next := search.next + 1 }

/-- Passes the low link of a finished node on to its parent. -/
def Search.leave (search : Search α) (node : α) (frames : List (α × List α)) : Search α :=
  { search with
    work := frames
    low :=
      match frames with
      | [] => search.low
      | (parent, _) :: _ => update search.low parent (min (search.low parent) (search.low node)) }

/-- Takes the component of its first node off the stack. -/
def Search.close (search : Search α) (node : α) : Search α :=
  { search with
    stack := (search.stack.dropWhile (· ≠ node)).tail
    components := search.components ++ [search.stack.takeWhile (· ≠ node) ++ [node]] }

/-- One turn of the search from a root. -/
def step (succ : α → List α) (search : Search α) : Option (Search α) :=
  match search.work with
  | [] => none
  | (node, successor :: rest) :: frames =>
      let advanced := { search with work := (node, rest) :: frames }
      match search.index successor with
      | none => some (advanced.enter succ successor)
      | some found =>
          if successor ∈ search.stack then
            some { advanced with low := update search.low node (min (search.low node) found) }
          else some advanced
  | (node, []) :: frames =>
      let left := search.leave node frames
      if search.index node = some (left.low node) then some (left.close node) else some left

/-- The turns a search needs at most. -/
def budget (nodes : List α) (succ : α → List α) : Nat :=
  (nodes.map fun node => (succ node).length + 1).sum

/-- Searches from a root that has not been numbered yet. -/
def visit (nodes : List α) (succ : α → List α) (search : Search α) (root : α) : Search α :=
  if (search.index root).isSome then search
  else saturate (step succ) (budget nodes succ) (search.enter succ root)

/-- The components in the order in which they are completed. -/
def components (nodes : List α) (succ : α → List α) : List (List α) :=
  (nodes.foldl (visit nodes succ) Search.initial).components

namespace Invariant

variable {index : α → Option Nat}

theorem isSome_update {node other : α} {number : Nat} :
    (update index node (some number) other).isSome ↔ other = node ∨ (index other).isSome := by
  by_cases same : other = node <;> simp [same]

theorem settled_enter {stack closed : List α} {node : α} {number : Nat}
    (unseen : index node = none) (low : Nat) (other : α)
      (settled : Settled index stack closed low other) :
    Settled (update index node (some number)) (node :: stack) closed low other := by
  rcases settled with inside | ⟨onStack, found, numbered, above⟩
  · exact .inl inside
  · exact .inr ⟨mem_cons_of_mem _ onStack, found, by grind [update_apply], above⟩

/-- A node is numbered and put on both stacks, above frames that hold in the new state. -/
theorem enter_frames (inv : Invariant nodes succ search frames) {node : α}
    (unseen : search.index node = none)
    (inNodes : node ∈ nodes) {advanced : List (Frame α)}
      (sameMembers : members advanced = members frames)
    (sameLow : ∀ frame ∈ advanced, search.low frame.node = frame.low)
    (grounded : AllGrounded succ (update search.index node (some search.next))
      (node :: search.stack)
      search.components.flatten advanced)
        (reached : ∀ parent ∈ advanced.head?, Reach succ parent.node node) :
    Invariant nodes succ (Search.enter succ { search with work := advanced.map Frame.entry } node)
      (⟨node, succ node, [], search.next⟩ :: advanced) := by
  obtain ⟨notStacked, notClosed⟩ := inv.unseen_iff unseen
  have frameNode : ∀ frame ∈ advanced, frame.node ∈ search.stack := by
    intro frame member
    rw [inv.stack, ← sameMembers]
    exact mem_flatMap.mpr ⟨frame, member, mem_append_right _ mem_cons_self⟩
  obtain ⟨-, stack, -, fresh, order, seen, apart, closed, components, distinct, -, known⟩ := inv
  refine {
    work := rfl
    stack := ?_
    low := ?_
    fresh := ?_
    order := ?_
    seen := ?_
    apart := ?_
    closed := closed
    components := components
    distinct := distinct
    grounded := ⟨?_, grounded⟩
    known := ?_ } <;> simp only [Search.enter]
  · change node :: search.stack = [] ++ [node] ++ members advanced
    rw [stack, sameMembers]
    rfl
  · grind [update_apply]
  · grind [update_apply]
  · refine pairwise_cons.mpr ⟨fun other onStack => ?_, order.imp ?_⟩
    · obtain ⟨found, numbered⟩ := Option.isSome_iff_exists.mp ((seen other).mpr (.inl onStack))
      exact ⟨search.next, found,
        update_self .., by grind [update_apply], fresh other found numbered⟩
    · rintro later earlier ⟨high, low, laterIs, earlierIs, below⟩
      exact ⟨high, low, by grind [update_apply], by grind [update_apply], below⟩
  · grind [update_apply]
  · grind
  · exact {
      cycle := by
        intro other member
        obtain rfl : other = node := by simpa [Frame.members] using member
        exact ⟨.refl, .refl⟩
      explored := ⟨[], rfl, nofun⟩
      finished := nofun
      witness := ⟨node, by simp [members, Frame.members], update_self .., .refl⟩
      low_le := ⟨search.next, update_self .., le_rfl⟩
      parent := reached }
  · grind [update_apply]

/-- The search starts from a root. -/
theorem root (inv : Invariant nodes succ search []) (unseen : search.index node = none)
    (inNodes : node ∈ nodes) :
    Invariant nodes succ (search.enter succ node) [⟨node, succ node, [], search.next⟩] := by
  have entered := @enter_frames _ _ _ _ _ _ inv node unseen inNodes [] rfl nofun trivial nofun
  have idle : search.work = [] := inv.work
  rwa [map_nil, ← idle] at entered

section
variable (inv : Invariant nodes succ search (frame :: lower))
include inv

/-- The search goes down to a new node. -/
theorem descend (next : frame.rest = node :: rest) (unseen : search.index node = none)
    (inNodes : node ∈ nodes) :
    Invariant nodes succ
      (Search.enter succ { search with work := (frame.node, rest) :: lower.map Frame.entry } node)
      (⟨node, succ node, [], search.next⟩ :: { frame with rest } :: lower) := by
  have keeps := fun low other => @settled_enter _ _ search.index search.stack
    search.components.flatten node search.next
    unseen low other
  have same : ∀ other ∈ members (frame :: lower),
      update search.index node (some search.next) other = search.index other := by
    intro other member
    refine update_of_ne ?_ _ _
    rintro rfl
    exact (inv.unseen_iff unseen).1 (inv.stack ▸ member)
  obtain ⟨own, below⟩ := AllGrounded.mono keeps same inv.grounded
  obtain ⟨explored, split, settled⟩ := own.explored
  have edge : node ∈ succ frame.node := by
    rw [split, next]
    simp
  refine @enter_frames _ _ _ _ _ _ inv node unseen inNodes ({ frame with rest } :: lower) rfl ?_
    ⟨?_, below⟩ ?_
  · intro other member
    rcases mem_cons.mp member with rfl | member
    · exact inv.low frame mem_cons_self
    · exact inv.low other (mem_cons_of_mem _ member)
  · obtain ⟨first, numbered, lowest⟩ := inv.grounded.1.low_le
    have bounded := inv.fresh _ _ numbered
    refine { own with explored :=
      ⟨explored ++ [node], by simp [split, next], fun other member => ?_⟩ }
    rcases mem_append.mp member with old | new
    · exact settled other old
    · obtain rfl := mem_singleton.mp new
      exact .inr ⟨mem_cons_self, search.next, update_self .., lowest.trans bounded.le⟩
  · rintro parent ⟨⟩
    exact .single edge

/-- An edge to a node on the stack lowers the low link. -/
theorem cross (next : frame.rest = node :: rest)
    (numbered : search.index node = some found) (onStack : node ∈ search.stack) :
    Invariant nodes succ { search with
        work := (frame.node, rest) :: lower.map Frame.entry
        low := update search.low frame.node (min (search.low frame.node) found) }
      ({ frame with rest, low := min frame.low found } :: lower) := by
  have ownLow := inv.low frame mem_cons_self
  have edge : node ∈ succ frame.node := by
    obtain ⟨explored, split, -⟩ := inv.grounded.1.explored
    rw [split, next]
    simp
  refine inv.advance next (min_le_left _ _) (.inr ⟨onStack, found, numbered, min_le_right _ _⟩) ?_
    ?_ ?_
  · rcases le_total frame.low found with less | less
    · rw [min_eq_left less]
      exact inv.grounded.1.witness
    · rw [min_eq_right less]
      exact ⟨node, inv.stack ▸ onStack, numbered, .single edge⟩
  · rw [update_self, ownLow]
  · exact fun other member => update_of_ne (inv.node_ne member) ..

/-- The members of the frame lie on the stack down to its node. -/
theorem stack_cut : (search.stack.dropWhile (· ≠ frame.node)).tail = members lower ∧
    search.stack.takeWhile (· ≠ frame.node) ++ [frame.node] = frame.members := by
  have noOwn : ∀ node ∈ frame.finished, (decide (node ≠ frame.node)) = true := by
    intro node finished
    have nodup := inv.nodup
    rw [inv.stack_cons] at nodup
    simpa using (nodup_append.mp nodup).2.2 node finished frame.node mem_cons_self
  rw [inv.stack_cons, dropWhile_append_of_pos noOwn, takeWhile_append_of_pos noOwn]
  simp [Frame.members]

/-- The parent was numbered before a node that is its own low link. -/
theorem low_leave_of_own (own : search.index frame.node = some frame.low) :
    (search.leave frame.node (lower.map Frame.entry)).low = search.low := by
  cases lower with
  | nil => rfl
  | cons parent lower =>
    have order := inv.order
    obtain ⟨first, numbered, lowest⟩ := inv.grounded.2.1.low_le
    rw [inv.stack_cons, pairwise_append, pairwise_cons] at order
    obtain ⟨high, low, ownIs, parentIs, below⟩ :=
      order.2.1.1 parent.node (by simp [members, Frame.members])
    have smaller : min (search.low parent.node) (search.low frame.node) =
        search.low parent.node := by
      rw [inv.low frame mem_cons_self, inv.low parent (by simp)]
      grind
    simp only [Search.leave, map_cons, Frame.entry, smaller, update_eq_self]

/-- A node that is its own low link completes its component. -/
theorem complete (done : frame.rest = []) (own : search.index frame.node = some frame.low) :
    Invariant nodes succ ((search.leave frame.node (lower.map Frame.entry)).close frame.node)
      lower := by
  have nodup := inv.nodup
  have order := inv.order
  have stackIs : search.stack = frame.members ++ members lower := inv.stack
  have flattened : (search.components ++ [frame.members]).flatten =
      search.components.flatten ++ frame.members := by
    simp
  have unchanged := inv.low_leave_of_own own
  have state : (search.leave frame.node (lower.map Frame.entry)).close frame.node =
      { search.leave frame.node (lower.map Frame.entry) with
        stack := members lower
        components := search.components ++ [frame.members] } := by
    simp only [Search.close, Search.leave, inv.stack_cut]
  rw [state]
  refine {
    work := rfl
    stack := rfl
    low := fun other member => unchanged ▸ inv.low other (mem_cons_of_mem _ member)
    fresh := inv.fresh
    order := ?_
    seen := fun node => ?_
    apart := fun node member => ?_
    closed := fun node member next edge => ?_
    components := fun component member => ?_
    distinct := ?_
    grounded := ?_
    known := inv.known }
  · rw [stackIs] at order
    exact (pairwise_append.mp order).2.1
  · change (search.index node).isSome ↔ _
    rw [flattened, inv.seen, stackIs, mem_append, mem_append]
    tauto
  · have onStack : node ∈ search.stack := stackIs ▸ mem_append_right _ member
    rw [stackIs] at nodup
    rw [flattened, mem_append, not_or]
    exact ⟨inv.apart node onStack, fun inside => (nodup_append.mp nodup).2.2 node inside node member
      rfl⟩
  · rw [flattened, mem_append] at member ⊢
    rcases member with inside | inside
    · exact .inl (inv.closed node inside next edge)
    · exact inv.part_closed done own inside (.single edge)
  · rcases mem_append.mp member with old | new
    · exact inv.components component old
    · obtain rfl := mem_singleton.mp new
      exact inv.part_component done own
  · rw [flattened, nodup_append]
    refine ⟨inv.distinct, (inv.part_component done own).nodup, fun node closed other inside => ?_⟩
    rintro rfl
    exact inv.apart node (stackIs ▸ mem_append_left _ inside) closed
  · refine AllGrounded.mono (fun low node settled => ?_) (fun _ _ => rfl) inv.grounded.2
    rcases settled with inside | ⟨onStack, found⟩
    · exact .inl (flattened ▸ mem_append_left _ inside)
    · rcases mem_append.mp (stackIs ▸ onStack) with here | below
      · exact .inl (flattened ▸ mem_append_right _ here)
      · exact .inr ⟨below, found⟩

theorem leave_low : (search.leave frame.node (lower.map Frame.entry)).low frame.node =
    frame.low := by
  refine Eq.trans ?_ (inv.low frame mem_cons_self)
  cases lower with
  | nil => rfl
  | cons parent lower => exact update_of_ne (inv.node_ne mem_cons_self).symm ..

end

/-- A node that is not the first of its component joins its parent's part. -/
theorem join {parent : Frame α} (inv : Invariant nodes succ search (frame :: parent :: lower))
    (done : frame.rest = [])
    (own : search.index frame.node = some first) (less : frame.low < first) :
    Invariant nodes succ (search.leave frame.node ((parent :: lower).map Frame.entry))
      ({ parent with
        finished := frame.members ++ parent.finished
        low := min parent.low frame.low } :: lower) := by
  obtain ⟨grounded, parentGrounded, below⟩ := inv.grounded
  obtain ⟨node, member, numbered, reached⟩ := inv.witness_below own less
  have down : Reach succ parent.node frame.node := grounded.parent parent rfl
  have up : Reach succ frame.node parent.node :=
    reached.trans (@AllGrounded.reach_top _ _ _ _ _ parent lower ⟨parentGrounded, below⟩ _ member)
  have ownLow := inv.low frame mem_cons_self
  have parentLow := inv.low parent (by simp)
  have different : ∀ other ∈ lower, other.node ≠ parent.node := fun other inside =>
    node_ne_of_nodup (nodup_append.mp (inv.stack ▸ inv.nodup)).2.1 inside
  have joinedMembers : members ({ parent with
      finished := frame.members ++ parent.finished
      low := min parent.low frame.low } :: lower) = frame.members ++ members (parent :: lower) := by
    simp [members, Frame.members]
  obtain ⟨explored, split, settled⟩ := parentGrounded.explored
  obtain ⟨parentFirst, parentNumbered, parentLowest⟩ := parentGrounded.low_le
  refine { inv with
    work := rfl
    stack := ?_
    low := ?_
    grounded := ⟨{ parentGrounded with
      cycle := ?_
      explored :=
        ⟨explored, split, fun other inside => (settled other inside).lower (min_le_left _ _)⟩
      finished := ?_
      witness := ?_
      low_le := ⟨parentFirst, parentNumbered, (min_le_left _ _).trans parentLowest⟩ }, below⟩ }
  · exact inv.stack.trans joinedMembers.symm
  · intro other inside
    rcases mem_cons.mp inside with rfl | inside
    · change update search.low parent.node _ parent.node = _
      rw [update_self, ownLow, parentLow]
    · exact (update_of_ne (different other inside) ..).trans (inv.low other (by simp [inside]))
  · intro other inside
    rw [Frame.members, append_assoc] at inside
    rcases mem_append.mp inside with joined | old
    · obtain ⟨toOther, fromOther⟩ := grounded.cycle other joined
      exact ⟨down.trans toOther, fromOther.trans up⟩
    · exact parentGrounded.cycle other old
  · intro other inside next edge
    rcases mem_append.mp inside with joined | old
    · exact (inv.part_settled done joined edge).lower (min_le_right _ _)
    · exact (parentGrounded.finished other old next edge).lower (min_le_left _ _)
  · rw [joinedMembers]
    rcases le_total parent.low frame.low with smaller | smaller
    · rw [min_eq_left smaller]
      obtain ⟨target, targetIn, targetNumbered, targetReached⟩ := parentGrounded.witness
      exact ⟨target, mem_append_right _ targetIn, targetNumbered, targetReached⟩
    · rw [min_eq_right smaller]
      exact ⟨node, mem_append_right _ member, numbered, down.trans reached⟩

end Invariant

section Runs

/-- The turns for the nodes that have no number yet. -/
def unseen (nodes : List α) (succ : α → List α) (index : α → Option Nat) : Nat :=
  (nodes.map fun node => if index node = none then (succ node).length + 1 else 0).sum

/-- The turns that are left. -/
def remaining (nodes : List α) (succ : α → List α) (search : Search α) : Nat :=
  (search.work.map fun frame => frame.2.length + 1).sum + unseen nodes succ search.index

variable (index : α → Option Nat)

omit [DecidableEq α] in
theorem unseen_le_budget : unseen nodes succ index ≤ budget nodes succ := by
  refine sum_le_sum fun node _ => ?_
  split
  · exact le_rfl
  · exact Nat.zero_le _

theorem unseen_update_le (node : α) (number : Nat) :
    unseen nodes succ (update index node (some number)) ≤ unseen nodes succ index := by
  refine sum_le_sum fun other _ => ?_
  by_cases same : other = node
  · subst same
    rw [update_self, if_neg nofun]
    exact Nat.zero_le _
  · rw [update_of_ne same]

/-- Numbering a node pays for the visit of its successors. -/
theorem unseen_update {node : α} (number : Nat) (member : node ∈ nodes)
    (fresh : index node = none) :
    unseen nodes succ (update index node (some number)) + ((succ node).length + 1) ≤
      unseen nodes succ index := by
  obtain ⟨front, back, rfl⟩ := append_of_mem member
  have first := @unseen_update_le _ front succ _ index node number
  have last := @unseen_update_le _ back succ _ index node number
  simp only [unseen, map_append, map_cons, sum_append, sum_cons, update_self, fresh,
    reduceCtorEq, if_false, if_true] at first last ⊢
  omega

theorem step_eq_none (stable : step succ search = none) : search.work = [] := by
  revert stable
  fun_cases step with
  | case1 idle => exact fun _ => idle
  | _ => simp

section
variable (inside : ∀ node ∈ nodes, ∀ next ∈ succ node, next ∈ nodes)
include inside

/-- A turn keeps the invariant and uses up one of the turns. -/
theorem Invariant.turn {after : Search α} (inv : Invariant nodes succ search frames)
    (turn : step succ search = some after) :
    (∃ frames, Invariant nodes succ after frames) ∧
      remaining nodes succ after < remaining nodes succ search := by
  have work := inv.work
  cases frames with
  | nil =>
    rw [step, work] at turn
    cases turn
  | cons frame lower =>
    cases rest : frame.rest with
    | cons node others =>
      rw [map_cons, Frame.entry, rest] at work
      simp only [step, work] at turn
      cases numbered : search.index node with
      | none =>
        have edge : node ∈ nodes := by
          obtain ⟨explored, split, -⟩ := inv.grounded.1.explored
          obtain ⟨first, ownIs, -⟩ := inv.grounded.1.low_le
          exact inside frame.node (inv.known _ (by simp [ownIs])) node (by simp [split, rest])
        rw [numbered] at turn
        cases turn
        refine ⟨⟨_, inv.descend rest numbered edge⟩, ?_⟩
        have paid := @unseen_update _ nodes succ _ search.index node search.next edge numbered
        simp only [remaining, Search.enter, work, map_cons, sum_cons, length_cons]
        omega
      | some found =>
        rw [numbered] at turn
        have less :
          ∀ low, remaining nodes succ
          { search with work := (frame.node, others) :: lower.map Frame.entry, low } <
            remaining nodes succ search := by simp [remaining, work]
        split_ifs at turn with onStack
        · cases turn
          exact ⟨⟨_, inv.cross rest numbered onStack⟩, less _⟩
        · cases turn
          exact ⟨⟨_, inv.skip rest numbered onStack⟩, less _⟩
    | nil =>
      rw [map_cons, Frame.entry, rest] at work
      simp only [step, work, inv.leave_low] at turn
      obtain ⟨first, numbered, lowest⟩ := inv.grounded.1.low_le
      split at turn
      · next own =>
        cases turn
        refine ⟨⟨_, inv.complete rest own⟩, ?_⟩
        simp only [remaining, Search.close, Search.leave, work, map_cons, sum_cons, length_nil]
        omega
      · next unclosed =>
        cases turn
        have less : frame.low < first := by
          refine lt_of_le_of_ne lowest fun same => unclosed ?_
          rw [same, numbered]
        cases lower with
        | nil =>
          obtain ⟨node, member, -⟩ := inv.witness_below numbered less
          cases member
        | cons parent lower =>
          refine ⟨⟨_, inv.join rest numbered less⟩, ?_⟩
          simp only [remaining, Search.leave, work, map_cons, sum_cons, length_nil]
          omega

omit inside in
theorem step_seen {after : Search α} (turn : step succ search = some after) {node : α}
    (seen : (search.index node).isSome) : (after.index node).isSome := by
  revert turn
  fun_cases step with
  | case1 => simp
  | case2 => exact fun turn => Option.some.inj turn ▸ Invariant.isSome_update.mpr (.inr seen)
  | _ => exact fun turn => Option.some.inj turn ▸ seen

/-- A search from a root numbers it and what was numbered before, and leaves no frame open. -/
theorem Invariant.visit (inv : Invariant nodes succ search []) {root : α} (member : root ∈ nodes) :
    Invariant nodes succ (visit nodes succ search root) [] ∧
      ∀ node, node = root ∨ (search.index node).isSome →
        ((visit nodes succ search root).index node).isSome := by
  rw [Components.visit]
  split
  · next seen =>
    refine ⟨inv, fun node known => ?_⟩
    rcases known with rfl | known
    · exact seen
    · exact known
  · next fresh =>
    rw [Bool.not_eq_true, Option.isSome_eq_false_iff, Option.isNone_iff_eq_none] at fresh
    have initial := inv.root fresh member
    have keeps : ∀ before after, (∃ frames, Invariant nodes succ before frames) →
      step succ before = some after → ∃ frames, Invariant nodes succ after frames := by
      rintro before after ⟨frames, inv⟩ turn
      exact (inv.turn inside turn).1
    have enough : remaining nodes succ (search.enter succ root) ≤ budget nodes succ := by
      refine le_trans ?_ (@unseen_le_budget _ nodes succ search.index)
      have paid := @unseen_update _ nodes succ _ search.index root search.next member fresh
      have idle : search.work = [] := inv.work
      simp only [remaining, Search.enter, idle, map_cons, map_nil, sum_cons, sum_nil]
      omega
    have stable := saturate_stable _ (remaining nodes succ) keeps
      (fun before after ⟨_, inv⟩ turn => (inv.turn inside turn).2) ⟨_, initial⟩ enough
    obtain ⟨frames, final⟩ := @saturate_invariant _ _ _ (budget nodes succ) _ keeps ⟨_, initial⟩
    obtain rfl : frames = [] := map_eq_nil_iff.mp (final.work.symm.trans (step_eq_none stable))
    refine ⟨final, fun node known => ?_⟩
    have seenFirst : ((search.enter succ root).index node).isSome :=
      Invariant.isSome_update.mpr known
    exact saturate_invariant (fun search => (search.index node).isSome)
      (fun before after seen turn => step_seen turn seen) seenFirst

/-- Searches from known roots complete the components of everything they number. -/
theorem visits_spec (roots : List α) (known : ∀ root ∈ roots, root ∈ nodes) :
    Invariant nodes succ (roots.foldl (visit nodes succ) Search.initial) [] ∧
      ∀ root ∈ roots, ∃ component ∈ (roots.foldl (visit nodes succ) Search.initial).components,
        root ∈ component := by
  have initial : Invariant nodes succ Search.initial [] :=
    ⟨rfl, rfl, nofun, nofun, .nil,
      fun node => by simp [Search.initial], nofun, nofun, nofun, .nil, trivial, nofun⟩
  generalize Search.initial = search at initial
  have runs : Invariant nodes succ (roots.foldl (visit nodes succ) search) [] ∧
      ∀ node, node ∈ roots ∨ (search.index node).isSome →
        ((roots.foldl (visit nodes succ) search).index node).isSome := by
    induction roots generalizing search with
    | nil => exact ⟨initial, fun node known => known.resolve_left not_mem_nil⟩
    | cons root roots ih =>
      obtain ⟨visited, seen⟩ := initial.visit inside (known root mem_cons_self)
      obtain ⟨final, all⟩ := ih (fun other member => known other (mem_cons_of_mem _ member)) _
        visited
      refine ⟨final, fun node member => all node ?_⟩
      rw [mem_cons, or_assoc, or_left_comm] at member
      exact member.imp_right (seen node)
  obtain ⟨final, seen⟩ := runs
  refine ⟨final, fun root member => mem_flatten.mp
    (((final.seen root).mp (seen root (.inl member))).resolve_left ?_)⟩
  rw [final.stack]
  exact not_mem_nil

/-- The components are classes of mutually reachable nodes, and every node is in one of them. -/
theorem components_spec :
    (∀ component ∈ components nodes succ, IsComponent succ component ∧ ∀ node ∈ component,
      node ∈ nodes) ∧ ∀ node ∈ nodes, ∃ component ∈ components nodes succ, node ∈ component := by
  obtain ⟨final, covered⟩ := visits_spec inside nodes fun _ member => member
  refine ⟨fun component member => ⟨final.components component member, fun node inComponent => ?_⟩,
    covered⟩
  exact final.known node
    ((final.seen node).mpr (.inr (mem_flatten.mpr ⟨component, member, inComponent⟩)))

theorem components_flatten_nodup : (components nodes succ).flatten.Nodup :=
  (visits_spec inside nodes fun _ member => member).1.distinct

end

end Runs

end Components

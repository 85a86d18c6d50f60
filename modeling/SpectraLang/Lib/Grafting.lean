import Mathlib.Logic.Relation
import Mathlib.Tactic.Common

/-! # Replacing a node by a copy of a graph

A node is split: its front leads to the entry of a copy of another graph, and where the copy is
left, control continues behind it with the node's old successors. Paths between the old nodes stay
what they were as long as the copy can be left, so a class of nodes that no path leaves comes from
such a class of the old graph or of the copied one.
-/

namespace Grafting

open Relation

variable {α β : Type*}

/-- A node on a cycle that no path leaves. -/
def Trapped (edge : α → α → Prop) (node : α) : Prop :=
  (∃ next, edge node next) ∧ ∀ other, ReflTransGen edge node other → ReflTransGen edge other node

/-- What is reached from a trapped node is trapped. -/
theorem Trapped.of_reach {edge : α → α → Prop} {node other : α} (trapped : Trapped edge node)
    (path : ReflTransGen edge node other) : Trapped edge other := by
  have back := trapped.2 other path
  refine ⟨?_, fun last onward => (trapped.2 last (path.trans onward)).trans path⟩
  obtain rfl | ⟨next, first, -⟩ := back.cases_head
  · exact trapped.1
  · exact ⟨next, first⟩

/-- The new graph arises from the old one by putting a copy of the inner graph at the site. -/
structure Graft (known : α → Prop) (old : α → α → Prop) (inside : β → Prop) (inner : β → β → Prop)
    (leaves : β → Prop) (entry : β) (copy : β → α) (site rest : α) (new : α → α → Prop) : Prop where
  site_known : known site
  entry_inside : inside entry
  old_known : ∀ {node next}, old node next → known node ∧ known next
  inner_inside : ∀ {node next}, inner node next → inside node ∧ inside next
  rest_fresh : ¬ known rest
  copy_fresh : ∀ {node}, inside node → ¬ known (copy node)
  copy_ne_rest : ∀ {node}, inside node → copy node ≠ rest
  copy_injective : ∀ {node other}, inside node → inside other → copy node = copy other →
    node = other
  new_known : ∀ {node next}, new node next → known node ∨ node = rest ∨
    ∃ original, inside original ∧ node = copy original
  new_old : ∀ {node next}, known node → node ≠ site → (new node next ↔ old node next)
  new_site : ∀ {next}, new site next ↔ next = copy entry
  new_copy : ∀ {node next}, inside node →
    (new (copy node) next ↔ (∃ target, inner node target ∧ next = copy target) ∨ leaves node ∧
      next = rest)
  new_rest : ∀ {next}, new rest next ↔ old site next

namespace Graft

variable {known : α → Prop} {old : α → α → Prop} {inside : β → Prop} {inner : β → β → Prop}
  {leaves : β → Prop} {entry : β} {copy : β → α} {site rest : α} {new : α → α → Prop}
  (graft : Graft known old inside inner leaves entry copy site rest new)

include graft

variable {node other : α}

theorem targeted_iff (isKnown : known node) : (∃ source, new source node) ↔
    ∃ source, old source node := by
  constructor
  · rintro ⟨source, edge⟩
    rcases graft.new_known edge with sourceKnown | rfl | ⟨original, originalIn, rfl⟩
    · by_cases same : source = site
      · subst same
        rw [graft.new_site.mp edge] at isKnown
        exact absurd isKnown (graft.copy_fresh graft.entry_inside)
      · exact ⟨source, (graft.new_old sourceKnown same).mp edge⟩
    · exact ⟨site, graft.new_rest.mp edge⟩
    · rcases (graft.new_copy originalIn).mp edge with ⟨target, step, rfl⟩ | ⟨-, rfl⟩
      · exact absurd isKnown (graft.copy_fresh (graft.inner_inside step).2)
      · exact absurd isKnown graft.rest_fresh
  · rintro ⟨source, edge⟩
    by_cases same : source = site
    · exact ⟨rest, graft.new_rest.mpr (same ▸ edge)⟩
    · exact ⟨source, (graft.new_old (graft.old_known edge).1 same).mpr edge⟩

theorem reach_copy {node other : β} (path : ReflTransGen inner node other) :
    ReflTransGen new (copy node) (copy other) := by
  induction path with
  | refl => exact .refl
  | tail _ edge ih =>
    exact ih.tail ((graft.new_copy (graft.inner_inside edge).1).mpr (.inl ⟨_, edge, rfl⟩))

/-- A path from the copy stays in it or leaves it behind a node that may be left. -/
theorem reach_from_copy {node : β} (isInside : inside node)
    (path : ReflTransGen new (copy node) other) :
    (∃ target, inside target ∧ other = copy target ∧ ReflTransGen inner node target) ∨
      ReflTransGen new (copy node) rest ∧ ReflTransGen new rest other := by
  induction path with
  | refl => exact .inl ⟨node, isInside, rfl, .refl⟩
  | tail path edge ih =>
    rcases ih with ⟨target, targetIn, rfl, reached⟩ | ⟨left, onward⟩
    · rcases (graft.new_copy targetIn).mp edge with ⟨next, step, rfl⟩ | ⟨-, rfl⟩
      · exact .inl ⟨next, (graft.inner_inside step).2, rfl, reached.tail step⟩
      · exact .inr ⟨path.tail edge, .refl⟩
    · exact .inr ⟨left, onward.tail edge⟩

/-- If no node of the inner graph is trapped, a trapped copy leads behind the copy. -/
theorem reach_rest (free : ∀ node, ¬ Trapped inner node) {node : β} (isInside : inside node)
    (trapped : Trapped new (copy node)) : ReflTransGen new (copy node) rest := by
  by_contra stays
  have inner_of_new : ∀ {source target}, inside source → inside target →
    ReflTransGen new (copy node) (copy source) →
      ReflTransGen new (copy source) (copy target) → ReflTransGen inner source target := by
    intro source target sourceIn targetIn reached path
    rcases graft.reach_from_copy sourceIn path with ⟨last, lastIn, same, inside⟩ | ⟨left, -⟩
    · rwa [graft.copy_injective targetIn lastIn same]
    · exact absurd (reached.trans left) stays
  refine free node ⟨?_, fun other path => ?_⟩
  · obtain ⟨next, edge⟩ := trapped.1
    rcases (graft.new_copy isInside).mp edge with ⟨target, step, -⟩ | ⟨-, rfl⟩
    · exact ⟨target, step⟩
    · exact absurd (.single edge) stays
  · obtain rfl | ⟨before, -, step⟩ := path.cases_tail
    · exact .refl
    · have otherIn := (graft.inner_inside step).2
      have forward := graft.reach_copy path
      exact inner_of_new otherIn isInside forward (trapped.2 _ forward)

section
variable (nodeKnown : known node)
include nodeKnown

/-- A path from an old node that ends in the new part has come through the site. -/
theorem reach_from_known (path : ReflTransGen new node other) :
    known other ∧ ReflTransGen old node other ∨
      (other = rest ∨ ∃ target, inside target ∧ other = copy target ∧
        ReflTransGen inner entry target) ∧ ReflTransGen old node site := by
  induction path with
  | refl => exact .inl ⟨nodeKnown, .refl⟩
  | @tail middle next path edge ih =>
    rcases ih with ⟨isKnown, reached⟩ | ⟨rfl | ⟨target, targetIn, rfl, within⟩, entered⟩
    · by_cases same : middle = site
      · subst same
        exact .inr ⟨.inr ⟨entry, graft.entry_inside, graft.new_site.mp edge, .refl⟩, reached⟩
      · have step := (graft.new_old isKnown same).mp edge
        exact .inl ⟨(graft.old_known step).2, reached.tail step⟩
    · have step := graft.new_rest.mp edge
      exact .inl ⟨(graft.old_known step).2, entered.tail step⟩
    · rcases (graft.new_copy targetIn).mp edge with ⟨next, step, rfl⟩ | ⟨-, rfl⟩
      · exact .inr ⟨.inr ⟨next, (graft.inner_inside step).2, rfl, within.tail step⟩, entered⟩
      · exact .inr ⟨.inl rfl, entered⟩

theorem reach_old (otherKnown : known other) (path : ReflTransGen new node other) :
    ReflTransGen old node other := by
  rcases graft.reach_from_known nodeKnown path with ⟨-, reached⟩ |
    ⟨rfl | ⟨target, targetIn, rfl, -⟩, -⟩
  · exact reached
  · exact absurd otherKnown graft.rest_fresh
  · exact absurd otherKnown (graft.copy_fresh targetIn)

theorem reach_site (path : ReflTransGen new node rest) : ReflTransGen old node site := by
  rcases graft.reach_from_known nodeKnown path with ⟨isKnown, -⟩ | ⟨-, reached⟩
  · exact absurd isKnown graft.rest_fresh
  · exact reached

theorem reach_entry {target : β} (isInside : inside target)
    (path : ReflTransGen new node (copy target)) : ReflTransGen old node site ∧
      ReflTransGen inner entry target := by
  rcases graft.reach_from_known nodeKnown path with ⟨isKnown, -⟩ |
    ⟨same | ⟨other, otherIn, same, within⟩, reached⟩
  · exact absurd isKnown (graft.copy_fresh isInside)
  · exact absurd same (graft.copy_ne_rest isInside)
  · exact ⟨reached, graft.copy_injective isInside otherIn same ▸ within⟩

end

section
variable (free : ∀ node, ¬ Trapped inner node) (trapped : Trapped new node)
include free trapped

/-- Old paths from a trapped node are paths of the new graph, because the copy can be left. -/
theorem reach_new (path : ReflTransGen old node other) : ReflTransGen new node other := by
  induction path with
  | refl => exact .refl
  | @tail middle next path edge ih =>
    by_cases same : middle = site
    · subst same
      have entered := ih.tail (graft.new_site.mpr rfl)
      exact (entered.trans
        (graft.reach_rest free graft.entry_inside (trapped.of_reach entered))).tail
        (graft.new_rest.mpr edge)
    · exact ih.tail ((graft.new_old (graft.old_known edge).1 same).mpr edge)

theorem trapped_old (nodeKnown : known node) : Trapped old node := by
  refine ⟨?_, fun other path => ?_⟩
  · by_cases same : node = site
    · subst same
      have entered : ReflTransGen new node (copy entry) := .single (graft.new_site.mpr rfl)
      have behind :=
        entered.trans (graft.reach_rest free graft.entry_inside (trapped.of_reach entered))
      obtain ⟨next, edge⟩ := (trapped.of_reach behind).1
      exact ⟨next, graft.new_rest.mp edge⟩
    · obtain ⟨next, edge⟩ := trapped.1
      exact ⟨next, (graft.new_old nodeKnown same).mp edge⟩
  · have forward := graft.reach_new free trapped path
    obtain rfl | ⟨before, -, edge⟩ := path.cases_tail
    · exact .refl
    · exact graft.reach_old (graft.old_known edge).2 nodeKnown (trapped.2 other forward)

/-- From every trapped node of the new graph an old node can be reached. -/
theorem reach_known_of_trapped : ∃ original, known original ∧ ReflTransGen new node original := by
  have fromRest : ∀ {source}, Trapped new source → ReflTransGen new source rest →
      ∃ original, known original ∧ ReflTransGen new source original := by
    intro source isTrapped behind
    obtain ⟨next, edge⟩ := (isTrapped.of_reach behind).1
    exact ⟨next, (graft.old_known (graft.new_rest.mp edge)).2, behind.tail edge⟩
  obtain ⟨next, edge⟩ := trapped.1
  rcases graft.new_known edge with isKnown | rfl | ⟨original, originalIn, rfl⟩
  · exact ⟨node, isKnown, .refl⟩
  · exact fromRest trapped .refl
  · exact fromRest trapped (graft.reach_rest free originalIn trapped)

end

end Graft

end Grafting

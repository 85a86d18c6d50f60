import Mathlib.Data.List.Lex
import Mathlib.Data.Prod.Lex
import Mathlib.Data.Sum.Order

/-! # Three-way comparisons

The sign of a comparison in a linear order: -1 below, 0 equal, 1 above. Signs of parts are combined
the way lexicographic orders are.
-/

namespace ThreeWay

variable {α β : Type*} [LinearOrder α] [LinearOrder β]

/-- The sign says how the first value compares with the second. -/
def Compares (sign : Int) (a b : α) : Prop := (a < b ∧ sign = -1) ∨ (a = b ∧ sign = 0) ∨
    (b < a ∧ sign = 1)

/-- The first sign unless it is zero. -/
def andThen (first second : Int) : Int :=
  if first ≠ 0 then first else second

namespace Compares

variable {sign other : Int} {a b : α}

section
variable (compares : Compares sign a b)
include compares

theorem swap : Compares (-sign) b a := by
  rcases compares with ⟨less, rfl⟩ | ⟨rfl, rfl⟩ | ⟨greater, rfl⟩
  · exact .inr (.inr ⟨less, rfl⟩)
  · exact .inr (.inl ⟨rfl, rfl⟩)
  · exact .inl ⟨greater, rfl⟩

theorem unique (again : Compares other a b) : sign = other := by
  unfold Compares at compares again
  grind

theorem neg_iff : sign < 0 ↔ a < b := by
  rcases compares with ⟨less, rfl⟩ | ⟨rfl, rfl⟩ | ⟨greater, rfl⟩
  · exact iff_of_true (by decide) less
  · exact iff_of_false (by decide) (lt_irrefl a)
  · exact iff_of_false (by decide) (lt_asymm greater)

theorem nonpos_iff : sign ≤ 0 ↔ a ≤ b := by
  have flipped := compares.swap.neg_iff
  rw [← not_lt, ← not_lt, ← flipped]
  omega

theorem map {f : α → β} (embeds : StrictMono f) : Compares sign (f a) (f b) := by
  rcases compares with ⟨less, rfl⟩ | ⟨rfl, rfl⟩ | ⟨greater, rfl⟩
  · exact .inl ⟨embeds less, rfl⟩
  · exact .inr (.inl ⟨rfl, rfl⟩)
  · exact .inr (.inr ⟨embeds greater, rfl⟩)

end

theorem prod {d e : β} (first : Compares sign a b) (second : Compares other d e) :
    Compares (andThen sign other) (toLex (a, d)) (toLex (b, e)) := by
  unfold Compares
  simp only [Prod.Lex.toLex_lt_toLex, toLex_inj, Prod.mk.injEq]
  rcases first with ⟨less, rfl⟩ | ⟨rfl, rfl⟩ | ⟨greater, rfl⟩
  · exact .inl ⟨.inl less, rfl⟩
  · rcases second with ⟨less, rfl⟩ | ⟨rfl, rfl⟩ | ⟨greater, rfl⟩
    · exact .inl ⟨.inr ⟨rfl, less⟩, rfl⟩
    · exact .inr (.inl ⟨⟨rfl, rfl⟩, rfl⟩)
    · exact .inr (.inr ⟨.inr ⟨rfl, greater⟩, rfl⟩)
  · exact .inr (.inr ⟨.inl greater, rfl⟩)

theorem cons {list list' : List α} (first : Compares sign a b)
    (second : Compares other list list') :
    Compares (andThen sign other) (a :: list) (b :: list') := by
  apply (first.prod second).map (f := fun pair => (ofLex pair).1 :: (ofLex pair).2)
  intro left right less
  exact List.cons_lt_cons_iff.mpr (Prod.Lex.lt_iff.mp less)

end Compares

theorem compares_refl (a : α) : Compares 0 a a := .inr (.inl ⟨rfl, rfl⟩)

theorem compares_nil_cons (a : α) (list : List α) : Compares (-1) [] (a :: list) :=
  .inl ⟨List.nil_lt_cons a list, rfl⟩

/-- Two numbers compared and then something else. -/
def signThen (a b : Nat) (second : Int) : Int :=
  if a < b then -1 else if a > b then 1 else second

theorem andThen_signThen (a b : Nat) (first second : Int) :
    andThen (signThen a b first) second = signThen a b (andThen first second) := by
  unfold andThen signThen
  split_ifs <;> first | rfl | contradiction

theorem andThen_zero (second : Int) : andThen 0 second = second :=
  if_neg fun different => different rfl

theorem compares_signThen (a b : Nat) : Compares (signThen a b 0) a b := by
  unfold Compares signThen
  split_ifs <;> omega

end ThreeWay

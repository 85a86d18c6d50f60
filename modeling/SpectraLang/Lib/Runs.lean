import Mathlib.Data.List.Basic

/-! # Runs between separators

The maximal runs of a list that hold no separator. Separators may be doubled, lead or trail, and
runs that were put together with single separators between them are found again.
-/

namespace Runs

open List

variable {α : Type*} (sep : α → Bool)

/-- The maximal runs without a separator. -/
def runs : List α → List (List α)
  | [] => []
  | c :: rest =>
    if sep c then runs rest
    else if rest.head?.all sep then [c] :: runs rest
    else
      match runs rest with
      | [] => [[c]]
      | first :: more => (c :: first) :: more

/-- A run is not empty and has no separator. -/
def IsRun (run : List α) : Prop := run ≠ [] ∧ ∀ c ∈ run, sep c = false

variable {sep} {c : α}

theorem runs_sep (isSep : sep c = true) (rest : List α) : runs sep (c :: rest) = runs sep rest := by
  rw [runs, if_pos isSep]

/-- A run in front of a separator or of the end. -/
theorem runs_append {run rest : List α} (isRun : IsRun sep run)
    (stops : rest.head?.all sep = true) : runs sep (run ++ rest) = run :: runs sep rest := by
  obtain ⟨nonempty, plain⟩ := isRun
  induction run with
  | nil => exact absurd rfl nonempty
  | cons c run ih =>
    obtain ⟨notSep, others⟩ := forall_mem_cons.mp plain
    rw [cons_append, runs, if_neg (by rw [notSep]; exact Bool.false_ne_true)]
    rcases run with - | ⟨d, run⟩
    · rw [nil_append, if_pos stops]
    · have goesOn : ¬ ((d :: run ++ rest).head?.all sep = true) := by
        rw [cons_append, head?_cons, Option.all_some, others d mem_cons_self]
        exact Bool.false_ne_true
      rw [if_neg goesOn, ih (cons_ne_nil d run) others]

/-- Every list is empty, starts with a separator or starts with a run. -/
theorem cases_front (list : List α) :
    list = [] ∨ (∃ c rest, list = c :: rest ∧ sep c = true) ∨
      ∃ run rest, list = run ++ rest ∧ IsRun sep run ∧ rest.head?.all sep = true := by
  induction list with
  | nil => exact .inl rfl
  | cons c list ih =>
    refine .inr ?_
    cases isSep : sep c with
    | true => exact .inl ⟨c, list, rfl, isSep⟩
    | false =>
      have single : IsRun sep [c] :=
        ⟨cons_ne_nil c [], fun d member => mem_singleton.mp member ▸ isSep⟩
      rcases ih with rfl | ⟨d, rest, rfl, stops⟩ | ⟨run, rest, rfl, isRun, stops⟩
      · exact .inr ⟨[c], [], rfl, single, rfl⟩
      · exact .inr ⟨[c], d :: rest, rfl, single, stops⟩
      · refine .inr ⟨c :: run, rest, rfl, ⟨cons_ne_nil c run, ?_⟩, stops⟩
        exact forall_mem_cons.mpr ⟨isSep, isRun.2⟩

/-- Induction over the runs of a list. -/
theorem front_induction {motive : List α → Prop} (nil : motive [])
    (separator : ∀ c rest, sep c = true → motive rest → motive (c :: rest))
    (run : ∀ run rest, IsRun sep run → rest.head?.all sep = true → motive rest →
      motive (run ++ rest)) (list : List α) :
    motive list := by
  induction length : list.length using Nat.strongRecOn generalizing list with
  | ind size ih =>
    rcases @cases_front _ sep list with rfl | ⟨c, rest, rfl, isSep⟩ |
      ⟨front, rest, rfl, isRun, stops⟩
    · exact nil
    · exact separator c rest isSep (ih rest.length (by rw [← length, length_cons]; omega) rest rfl)
    · have positive := length_pos_iff.mpr isRun.1
      exact run front rest isRun stops
        (ih rest.length (by rw [← length, length_append]; omega) rest rfl)

theorem isRun_of_mem {list run : List α} (member : run ∈ runs sep list) : IsRun sep run := by
  induction list using @front_induction _ sep with
  | nil => cases member
  | separator c rest isSep ih => exact ih (by rwa [runs_sep isSep] at member)
  | run front rest isRun stops ih =>
    rw [runs_append isRun stops, mem_cons] at member
    rcases member with rfl | later
    · exact isRun
    · exact ih later

/-- Runs with single separators between them. -/
theorem runs_intercalate (isSep : sep c = true) {segments : List (List α)}
    (areRuns : ∀ segment ∈ segments, IsRun sep segment) :
      runs sep ([c].intercalate segments) = segments := by
  induction segments with
  | nil => rfl
  | cons segment segments ih =>
    obtain ⟨isRun, others⟩ := forall_mem_cons.mp areRuns
    rcases segments with - | ⟨next, segments⟩
    · have alone := @runs_append _ _ _ [] isRun rfl
      rw [append_nil] at alone
      simpa [List.intercalate, runs] using alone
    · have split : [c].intercalate (segment :: next :: segments) = segment ++ c :: [c].intercalate
        (next :: segments) := by
        simp [List.intercalate, List.intersperse]
      rw [split, runs_append isRun (by rwa [head?_cons, Option.all_some]), runs_sep isSep,
        ih others]

end Runs

import Mathlib.Data.List.Infix

/-! # Glob patterns

`glob_match` of `std.path`, over the bytes still to come of the pattern and of the text. The
language of a pattern is stated by one rule per kind of pattern item, and the backtracking matcher
decides it.
-/

namespace SpectraLang.Stdlib.Glob

open List

/-- The loop of `class_match`: -1 is `none`, and an unterminated class resumes right behind its
bracket. -/
def classLoop (opened : List Nat) (negated : Bool) (code : Nat) : List Nat → Bool →
    Option (List Nat)
  | [], _ => some opened
  | candidate :: rest, allowed =>
    if candidate = 93 then
      if negated then if allowed then none else some rest
      else if allowed then some rest else none
    else classLoop opened negated code rest (allowed || decide (candidate = code))

/-- `class_match`, on the pattern behind the bracket. -/
def classMatch (opened : List Nat) (code : Nat) : Option (List Nat) :=
  if opened.head? = some 33 then classLoop opened true code opened.tail false
  else classLoop opened false code opened false

variable {opened members pattern text : List Nat} {negated allowed : Bool} {code byte : Nat}

section
variable (unclosed : 93 ∉ members)
include unclosed

theorem classLoop_append :
    classLoop opened negated code (members ++ 93 :: pattern) allowed =
      if (allowed || decide (code ∈ members)) = negated then none else some pattern := by
  induction members generalizing allowed with
  | nil => cases negated <;> cases allowed <;> simp [classLoop]
  | cons candidate members ih =>
    obtain ⟨first, rest⟩ := not_or.mp (mem_cons.not.mp unclosed)
    rw [cons_append, classLoop, if_neg (Ne.symm first), ih rest]
    by_cases same : candidate = code
    · simp [same]
    · simp [same, Ne.symm same]

theorem classLoop_of_unclosed : classLoop opened negated code members allowed = some opened := by
  induction members generalizing allowed with
  | nil => rfl
  | cons candidate members ih =>
    obtain ⟨first, rest⟩ := not_or.mp (mem_cons.not.mp unclosed)
    rw [classLoop, if_neg (Ne.symm first), ih rest]

theorem classMatch_listed (plain : members.head? ≠ some 33) :
    classMatch (members ++ 93 :: pattern) code = if code ∈ members then some pattern else none := by
  have first : (members ++ 93 :: pattern).head? ≠ some 33 := by
    cases members <;> simp_all
  rw [classMatch, if_neg first, classLoop_append unclosed]
  by_cases listed : code ∈ members <;> simp [listed]

theorem classMatch_unlisted :
    classMatch (33 :: (members ++ 93 :: pattern)) code = if code ∈ members then none else some
      pattern := by
  simp [classMatch, classLoop_append unclosed]

end

theorem classMatch_unclosed (unclosed : 93 ∉ opened) : classMatch opened code = some opened := by
  rw [classMatch]
  split_ifs
  · exact classLoop_of_unclosed fun inside => unclosed (mem_of_mem_tail inside)
  · exact classLoop_of_unclosed unclosed

/-- What stands behind a bracket: no closing bracket, a class, or a negated class. -/
theorem bracket_cases (opened : List Nat) :
    93 ∉ opened ∨ ∃ members pattern, 93 ∉ members ∧
      (members.head? ≠ some 33 ∧ opened = members ++ 93 :: pattern ∨
        opened = 33 :: (members ++ 93 :: pattern)) := by
  by_cases closed : 93 ∈ opened
  · obtain ⟨members, pattern, rfl, unclosed⟩ := eq_append_cons_of_mem closed
    rcases members with _ | ⟨first, members⟩
    · exact .inr ⟨[], pattern, unclosed, .inl ⟨by simp, rfl⟩⟩
    · by_cases negated : first = 33
      · exact .inr ⟨members, pattern, not_mem_of_not_mem_cons unclosed, .inr (by rw [negated]; rfl)⟩
      · exact .inr ⟨first :: members, pattern, unclosed, .inl ⟨by simpa using negated, rfl⟩⟩
  · exact .inl closed

theorem length_of_classMatch {after : List Nat} (resumes : classMatch opened code = some after) :
    after.length ≤ opened.length := by
  rcases bracket_cases opened with unclosed | ⟨members, pattern, unclosed, ⟨plain, rfl⟩ | rfl⟩
  · rw [classMatch_unclosed unclosed, Option.some.injEq] at resumes
    exact resumes ▸ Nat.le_refl _
  · rw [classMatch_listed unclosed plain, Option.ite_none_right_eq_some, Option.some.injEq]
      at resumes
    simp [← resumes.2]
    omega
  · rw [classMatch_unlisted unclosed, Option.ite_none_left_eq_some, Option.some.injEq] at resumes
    simp [← resumes.2]
    omega

/-- `glob_at`; a star tries every position of the text still to come. -/
def globAt : List Nat → List Nat → Bool
  | [], text => text.isEmpty
  | code :: pattern, text =>
    if code = 42 then text.tails.any fun next => globAt pattern next
    else
      match text with
      | [] => false
      | byte :: later =>
        if code = 63 then globAt pattern later
        else if code = 91 then
          match _resumes : classMatch pattern byte with
          | none => false
          | some resume =>
            if resume.length = pattern.length ∧ byte ≠ 91 then false
            else globAt resume later
        else if code ≠ byte then false
        else globAt pattern later
termination_by pattern => pattern.length
decreasing_by
  all_goals simp
  have := length_of_classMatch _resumes
  omega

def globMatch (pattern text : List Nat) : Bool := globAt pattern text

/-- The language of a pattern. A class is closed by the first `]` behind its optional `!`. -/
inductive Denotes : List Nat → List Nat → Prop where
  | nil : Denotes [] []
  | star (run : List Nat) {pattern text : List Nat} (rest : Denotes pattern text) :
      Denotes (42 :: pattern) (run ++ text)
  | single (byte : Nat) {pattern text : List Nat} (rest : Denotes pattern text) :
      Denotes (63 :: pattern) (byte :: text)
  | listed {byte : Nat} {members pattern text : List Nat} (unclosed : 93 ∉ members)
      (plain : members.head? ≠ some 33) (isListed : byte ∈ members) (rest : Denotes pattern text) :
      Denotes (91 :: (members ++ 93 :: pattern)) (byte :: text)
  | unlisted {byte : Nat} {members pattern text : List Nat} (unclosed : 93 ∉ members)
      (isUnlisted : byte ∉ members)
      (rest : Denotes pattern text) : Denotes (91 :: 33 :: (members ++ 93 :: pattern))
        (byte :: text)
  | bracket {pattern text : List Nat} (unclosed : 93 ∉ pattern) (rest : Denotes pattern text) :
      Denotes (91 :: pattern) (91 :: text)
  | byte {code : Nat} {pattern text : List Nat} (ordinary : code ∉ [42, 63, 91])
      (rest : Denotes pattern text) : Denotes (code :: pattern) (code :: text)

theorem globAt_nil : globAt [] text = true ↔ text = [] := by
  rw [globAt, List.isEmpty_iff]

theorem globAt_star : globAt (42 :: pattern) text = true ↔ ∃ next, next <:+ text ∧
    globAt pattern next = true := by
  rw [globAt.eq_def]
  simp

theorem globAt_class : globAt (91 :: pattern) (byte :: text) = true ↔
    ∃ resume, classMatch pattern byte = some resume ∧ (resume.length = pattern.length → byte = 91) ∧
      globAt resume text = true := by
  rw [globAt, if_neg (by decide), if_neg (by decide), if_pos rfl]
  split <;> simp_all
  tauto

/-- The matcher decides the language of the pattern. -/
theorem globMatch_iff (pattern text : List Nat) : globMatch pattern text = true ↔
    Denotes pattern text := by
  rw [globMatch]
  constructor
  · intro accepts
    induction pattern, text using globAt.induct with
    | case1 text => exact globAt_nil.mp accepts ▸ .nil
    | case2 pattern text ih =>
      obtain ⟨next, ⟨run, rfl⟩, found⟩ := globAt_star.mp accepts
      exact .star run (ih next found)
    | case4 pattern byte later _ ih => exact .single byte (ih (by simpa [globAt] using accepts))
    | case7 pattern byte later resume resumes _ _ _ ih =>
      obtain ⟨after, same, opens, accepts⟩ := globAt_class.mp accepts
      obtain rfl : resume = after := Option.some.inj (resumes.symm.trans same)
      have rest := ih accepts
      rcases bracket_cases pattern with unclosed | ⟨members, pattern, unclosed, ⟨plain, rfl⟩ | rfl⟩
      · rw [classMatch_unclosed unclosed, Option.some.injEq] at resumes
        subst resumes
        exact opens rfl ▸ .bracket unclosed rest
      · rw [classMatch_listed unclosed plain, Option.ite_none_right_eq_some, Option.some.injEq]
          at resumes
        exact .listed unclosed plain resumes.1 (resumes.2 ▸ rest)
      · rw [classMatch_unlisted unclosed, Option.ite_none_left_eq_some, Option.some.injEq]
          at resumes
        exact .unlisted unclosed resumes.1 (resumes.2 ▸ rest)
    | case5 | case6 => simp_all [globAt_class]
    | case9 code pattern notStar byte later notSingle notBracket same ih =>
      obtain rfl := not_not.mp same
      exact .byte (by simp [notStar, notSingle, notBracket]) (ih (by simp_all [globAt]))
    | _ => simp_all [globAt]
  · intro denotes
    induction denotes with
    | nil => exact globAt_nil.mpr rfl
    | star run _ ih => exact globAt_star.mpr ⟨_, suffix_append .., ih⟩
    | single byte _ ih => simpa [globAt] using ih
    | @listed byte members pattern text unclosed plain isListed _ ih =>
      refine globAt_class.mpr
        ⟨pattern, by rw [classMatch_listed unclosed plain, if_pos isListed], fun same => ?_, ih⟩
      simp at same
      omega
    | @unlisted byte members pattern text unclosed isUnlisted _ ih =>
      refine globAt_class.mpr
        ⟨pattern, by rw [classMatch_unlisted unclosed, if_neg isUnlisted], fun same => ?_, ih⟩
      simp at same
      omega
    | bracket unclosed _ ih =>
      exact globAt_class.mpr ⟨_, classMatch_unclosed unclosed, fun _ => rfl, ih⟩
    | byte ordinary _ ih =>
      simp only [mem_cons, not_or] at ordinary
      simp [globAt, ordinary, ih]

end SpectraLang.Stdlib.Glob

import Mathlib.Data.List.GetD
import Mathlib.Data.List.Infix
import Mathlib.Order.Bounds.Defs
import Mathlib.Tactic.Common

/-! # Searching a string

`kmp_find` of `std.algorithms`, on the bytes of both strings. A read outside a string and running
out of turns give no result. Both loops keep the longest beginning of the needle at the end of what
was read that can still go on; the failure table holds these lengths for the needle itself.
-/

namespace SpectraLang.Stdlib.Kmp

open List

/-- The loop that fills the failure table. -/
def tableLoop (needle : List Nat) : Nat → Nat → Nat → List Nat → Option (List Nat)
  | 0, _, _, _ => none
  | turns + 1, length, matched, failure =>
    if length < needle.length then do
      if (← needle[length]?) = (← needle[matched]?) then
        tableLoop needle turns (length + 1) (matched + 1) (failure ++ [matched + 1])
      else if matched > 0 then tableLoop needle turns length (failure.getD (matched - 1) 0) failure
      else tableLoop needle turns (length + 1) matched (failure ++ [0])
    else some failure

/-- The loop over the haystack. -/
def searchLoop (haystack needle failure : List Nat) : Nat → Nat → Nat → Option Int
  | 0, _, _ => none
  | turns + 1, position, matched =>
    if position < haystack.length then do
      if (← haystack[position]?) = (← needle[matched]?) then
        if matched + 1 = needle.length then some ((position + 1 : Nat) - needle.length)
        else searchLoop haystack needle failure turns (position + 1) (matched + 1)
      else if matched > 0 then
        searchLoop haystack needle failure turns position (failure.getD (matched - 1) 0)
      else searchLoop haystack needle failure turns (position + 1) matched
    else some (-1)

def kmpFind (haystack needle : List Nat) : Option Int :=
  if needle.length = 0 then some 0
  else if haystack.length = 0 then some (-1)
  else do
    let failure ← tableLoop needle (2 * needle.length) 1 0 [0]
    searchLoop haystack needle failure (2 * haystack.length + 1) 0 0

variable {needle text : List Nat} {read matched border limit : Nat}

/-- The read part of the text ends with a beginning of the needle. -/
def Ends (needle text : List Nat) (read matched : Nat) : Prop :=
  needle.take matched <:+ text.take read

/-- The longest beginning of the needle, below a limit, that the read part ends with. -/
def Longest (needle text : List Nat) (limit read matched : Nat) : Prop :=
  IsGreatest {border | border < limit ∧ Ends needle text read border} matched

theorem ends_succ (inside : matched < needle.length) (more : read < text.length) :
    Ends needle text (read + 1) (matched + 1) ↔ Ends needle text read matched ∧
      text[read]? = needle[matched]? := by
  rw [Ends, Ends, take_succ_eq_append_getElem inside, take_succ_eq_append_getElem more,
    getElem?_eq_getElem inside,
    getElem?_eq_getElem more, ← reverse_prefix, reverse_concat, reverse_concat, cons_prefix_cons,
      reverse_prefix,
    Option.some.injEq, eq_comm, and_comm]

/-- Of two beginnings at the end of the text, the shorter one ends the longer one. -/
theorem Ends.of_le (ends : Ends needle text read matched) (shorter : Ends needle text read border)
    (less : border ≤ matched) : Ends needle needle matched border :=
  suffix_of_suffix_length_le shorter ends (by simp; omega)

/-- Between two turns no longer beginning of the needle goes on with the next byte. -/
structure Reading (needle text : List Nat) (limit read matched : Nat) : Prop where
  below : matched < limit
  ends : Ends needle text read matched
  most : ∀ border < limit, Ends needle text read border → text[read]? = needle[border]? →
    border ≤ matched

theorem Longest.reading (longest : Longest needle text limit read matched) :
    Reading needle text limit read matched :=
  ⟨longest.1.1, longest.1.2, fun _ below ends _ => longest.2 ⟨below, ends⟩⟩

namespace Reading

variable (reading : Reading needle text limit read matched)
include reading

theorem fall (differs : text[read]? ≠ needle[matched]?)
    (longest : Longest needle needle matched matched border) :
    Reading needle text limit read border where
  below := longest.1.1.trans reading.below
  ends := longest.1.2.trans reading.ends
  most other below ends same := by
    have le := reading.most other below ends same
    have ne : other ≠ matched := fun is => differs (is ▸ same)
    exact longest.2 ⟨Nat.lt_of_le_of_ne le ne, reading.ends.of_le ends le⟩

variable (more : read < text.length) (small : limit ≤ needle.length)
include more small

/-- A beginning that ends with the byte just read was one byte shorter before. -/
theorem pred {other : Nat} (below : other + 1 < limit + 1)
    (ends : Ends needle text (read + 1) (other + 1)) :
    other ≤ matched ∧ text[read]? = needle[other]? := by
  have inside : other < limit := Nat.lt_of_succ_lt_succ below
  obtain ⟨shorter, same⟩ := (ends_succ (inside.trans_le small) more).mp ends
  exact ⟨reading.most other inside shorter same, same⟩

theorem grow (same : text[read]? = needle[matched]?) :
    Longest needle text (limit + 1) (read + 1) (matched + 1) := by
  refine ⟨⟨Nat.succ_lt_succ reading.below, (ends_succ (reading.below.trans_le small) more).mpr
    ⟨reading.ends, same⟩⟩, ?_⟩
  rintro (_ | other) ⟨below, ends⟩
  · exact Nat.zero_le _
  · exact Nat.succ_le_succ (reading.pred more small below ends).1

theorem restart (differs : text[read]? ≠ needle[matched]?) (none : matched = 0) :
    Longest needle text (limit + 1) (read + 1) matched := by
  subst none
  refine ⟨⟨Nat.succ_pos _, nil_suffix⟩, ?_⟩
  rintro (_ | other) ⟨below, ends⟩
  · exact Nat.zero_le _
  · obtain ⟨le, same⟩ := reading.pred more small below ends
    exact absurd (Nat.le_zero.mp le ▸ same) differs

end Reading

/-- The entries of a failure table for the beginnings up to a length. -/
def IsTable (needle failure : List Nat) (length : Nat) : Prop :=
  failure.length = length ∧ ∀ entry < length, Longest needle needle (entry + 1) (entry + 1)
    (failure.getD entry 0)

theorem IsTable.push {failure : List Nat} {length entry : Nat}
    (table : IsTable needle failure length)
    (longest : Longest needle needle (length + 1) (length + 1) entry) :
      IsTable needle (failure ++ [entry]) (length + 1) := by
  refine ⟨by simp [table.1], fun other below => ?_⟩
  rcases Nat.lt_succ_iff_lt_or_eq.mp below with earlier | rfl
  · rw [getD_append _ _ _ _ (table.1.symm ▸ earlier)]
    exact table.2 other earlier
  · rw [getD_append_right _ _ _ _ (by rw [table.1]), table.1, Nat.sub_self]
    exact longest

theorem IsTable.at {failure : List Nat} {length : Nat} (table : IsTable needle failure length)
    (positive : 0 < matched)
    (inside : matched ≤ length) :
      Longest needle needle matched matched (failure.getD (matched - 1) 0) := by
  have entry := table.2 (matched - 1) (by omega)
  rwa [Nat.sub_add_cancel positive] at entry

theorem tableLoop_exact (turns : Nat) {length : Nat} {failure : List Nat}
    (inside : length ≤ needle.length)
    (enough : 2 * (needle.length - length) + matched < turns)
      (table : IsTable needle failure length)
    (reading : Reading needle needle length length matched) :
    ∃ table, tableLoop needle turns length matched failure = some table ∧
      IsTable needle table needle.length := by
  induction turns generalizing length matched failure with
  | zero => exact absurd enough (Nat.not_lt_zero _)
  | succ turns ih =>
    rw [tableLoop]
    by_cases more : length < needle.length
    · have below := reading.below
      rw [if_pos more, getElem?_eq_getElem more, getElem?_eq_getElem (below.trans more),
        Option.bind_eq_bind, Option.bind_some, Option.bind_some]
      have next : needle[length] = needle[matched] ↔ needle[length]? = needle[matched]? := by
        simp [more, below.trans more]
      split_ifs with same falls
      · have longest := reading.grow more inside (next.mp same)
        exact ih more (by omega) (table.push longest) longest.reading
      · have longest := table.at falls below.le
        have less := longest.1.1
        exact ih inside (by omega) table (reading.fall (next.not.mp same) longest)
      · have longest := reading.restart more inside (next.not.mp same) (by omega)
        exact ih more (by omega) (table.push ((by omega : matched = 0) ▸ longest)) longest.reading
    · obtain rfl : length = needle.length := by omega
      exact ⟨failure, if_neg more, table⟩

/-- The needle stands at an index. -/
def Occurs (haystack needle : List Nat) (start : Nat) : Prop := needle <+: haystack.drop start

variable {haystack : List Nat}

theorem occurs_iff {start : Nat} (nonempty : 0 < needle.length) : Occurs haystack needle start ↔
    start + needle.length ≤ haystack.length ∧
      Ends needle haystack (start + needle.length) needle.length := by
  rw [Occurs, Ends, take_length, prefix_iff_eq_take, suffix_iff_eq_drop, length_take]
  by_cases inside : start + needle.length ≤ haystack.length
  · rw [min_eq_left inside, Nat.add_sub_cancel, drop_take, Nat.add_sub_cancel_left]
    simp [inside]
  · refine iff_of_false (fun same => inside ?_) fun both => inside both.1
    have := congrArg length same
    simp at this
    omega

/-- What the search answers: the first index of the needle, or -1. -/
def Answers (haystack needle : List Nat) (result : Int) : Prop :=
  (∃ index : Nat, result = index ∧ IsLeast {start | Occurs haystack needle start} index) ∨
    result = -1 ∧ ∀ start, ¬ Occurs haystack needle start

section
variable (nonempty : 0 < needle.length) {position : Nat}
  (clean : ∀ start, Occurs haystack needle start → position < start + needle.length)
include nonempty clean

/-- A byte is read and the needle is not complete. -/
theorem Longest.proceed
    (longest : Longest needle haystack (needle.length + 1) (position + 1) matched)
    (partly : matched < needle.length) :
      Reading needle haystack needle.length (position + 1) matched ∧
      ∀ start, Occurs haystack needle start → position + 1 < start + needle.length := by
  refine ⟨⟨partly, longest.1.2, fun other below ends _ => longest.2 ⟨by omega, ends⟩⟩,
    fun start occurs => ?_⟩
  refine Nat.lt_of_le_of_ne (clean start occurs) fun same => partly.not_ge
    (longest.2 ⟨Nat.lt_succ_self _, ?_⟩)
  exact same ▸ ((occurs_iff nonempty).mp occurs).2

theorem searchLoop_exact {failure : List Nat} (table : IsTable needle failure needle.length)
    (turns : Nat) (inside : position ≤ haystack.length)
      (enough : 2 * (haystack.length - position) + matched < turns)
    (reading : Reading needle haystack needle.length position matched) :
    ∃ result, searchLoop haystack needle failure turns position matched = some result ∧
      Answers haystack needle result := by
  induction turns generalizing position matched with
  | zero => exact absurd enough (Nat.not_lt_zero _)
  | succ turns ih =>
    rw [searchLoop]
    by_cases more : position < haystack.length
    · have below := reading.below
      rw [if_pos more, getElem?_eq_getElem more, getElem?_eq_getElem below, Option.bind_eq_bind,
        Option.bind_some, Option.bind_some]
      have next : haystack[position] = needle[matched] ↔ haystack[position]? = needle[matched]? := by
        simp [more, below]
      split_ifs with same complete falls
      · have ends := (reading.grow more le_rfl (next.mp same)).1.2
        have start : position + 1 - needle.length + needle.length = position + 1 := by
          have := ends.length_le
          simp at this
          omega
        refine ⟨_, rfl, .inl ⟨position + 1 - needle.length, by omega, ?_, fun other occurs => ?_⟩⟩
        · refine (occurs_iff nonempty).mpr ?_
          rw [start, ← complete]
          exact ⟨more, ends⟩
        · have := clean other occurs
          omega
      · obtain ⟨reading, clean⟩ := (reading.grow more le_rfl (next.mp same)).proceed nonempty clean
          (by omega)
        exact ih clean more (by omega) reading
      · have longest := table.at falls below.le
        have less := longest.1.1
        exact ih clean inside (by omega) (reading.fall (next.not.mp same) longest)
      · obtain ⟨reading, clean⟩ :=
          (reading.restart more le_rfl (next.not.mp same) (by omega)).proceed nonempty clean below
        exact ih clean more (by omega) reading
    · refine ⟨-1, if_neg more, .inr ⟨rfl, fun start occurs => ?_⟩⟩
      have := ((occurs_iff nonempty).mp occurs).1
      have := clean start occurs
      omega

end

/-- The search reads only inside the strings and answers with the first index of the needle. -/
theorem kmpFind_exact (haystack needle : List Nat) :
    ∃ result, kmpFind haystack needle = some result ∧ Answers haystack needle result := by
  rw [kmpFind]
  split_ifs with empty nothing
  · refine ⟨0, rfl, .inl ⟨0, rfl, ?_, fun _ _ => Nat.zero_le _⟩⟩
    rw [length_eq_zero_iff.mp empty]
    exact nil_prefix
  · refine ⟨-1, rfl, .inr ⟨rfl, fun start occurs => ?_⟩⟩
    have := ((occurs_iff (by omega)).mp occurs).1
    omega
  · have nonempty : 0 < needle.length := by omega
    have first : Longest needle needle 1 1 0 :=
      ⟨⟨Nat.one_pos, nil_suffix⟩, fun other below => Nat.le_of_lt_succ below.1⟩
    obtain ⟨failure, made, table⟩ := @tableLoop_exact needle 0 (2 * needle.length) 1 [0] nonempty
      (by omega)
      ⟨rfl, fun entry below => by obtain rfl := Nat.lt_one_iff.mp below; exact first⟩ first.reading
    rw [made, Option.bind_eq_bind, Option.bind_some]
    refine searchLoop_exact nonempty (fun start _ => by omega) table _ (Nat.zero_le _) (by omega)
      ⟨nonempty, nil_suffix, ?_⟩
    intro other below ends _
    simpa [Ends, ne_nil_of_length_pos nonempty] using ends

end SpectraLang.Stdlib.Kmp

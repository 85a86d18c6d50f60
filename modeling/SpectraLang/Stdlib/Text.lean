import SpectraLang.Lib.Utf8

/-! # Strings of the standard library

A string is stored as the UTF-8 bytes of a text without NUL. Lengths and indices of `std.string`
count bytes; compiled code reads any byte, while `substring` answers only between characters.
-/

namespace SpectraLang.Stdlib

open List Utf8

abbrev Text := List Char

/-- What a NUL-terminated string can hold. -/
def NulFree (text : Text) : Prop := '\x00' ∉ text

/-- `str.char_at`: the byte at an index, or -1. -/
def charAt (text : Text) (index : Nat) : Int :=
  match (bytes text)[index]? with
  | some byte => byte
  | none => -1

/-- `str.substring`: offsets are clamped, and nothing is returned if one splits a character. -/
def substring (text : Text) (start stop : Nat) : Text :=
  let start := min start (len text)
  let stop := min stop (len text)
  if start ≤ stop then
    match splitAtByte text start with
    | some (_, rest) => ((splitAtByte rest (stop - start)).map Prod.fst).getD []
    | none => []
  else []

/-- `str.from_scalar`: the text of one character; a string cannot hold NUL. -/
def fromScalar (code : Int) : Option Text :=
  if 0 ≤ code ∧ code.toNat.isValidChar then some
    (if code = 0 then [] else [Char.ofNat code.toNat]) else none

/-- `rune_step`: the bytes of the character that starts with the given one. -/
def runeStep (code : Int) : Nat :=
  if code < 128 then 1 else if code < 224 then 2 else if code < 240 then 3 else 4

theorem charAt_len (text : Text) (c : Char) (rest : Text) :
    charAt (text ++ c :: rest) (len text) = lead c := by
  rw [charAt, getElem?_bytes_lead]

theorem charAt_len_add (text rest : Text) (offset : Nat) :
    charAt (text ++ rest) (len text + offset) = charAt rest offset := by
  rw [charAt, charAt, getElem?_bytes_append]

theorem substring_len (text middle rest : Text) :
    substring (text ++ middle ++ rest) (len text) (len text + len middle) = middle := by
  unfold substring
  have before : min (len text) (len (text ++ middle ++ rest)) = len text := by
    simp only [len_append]
    omega
  have behind : min (len text + len middle) (len (text ++ middle ++ rest)) = len text +
    len middle := by
    simp only [len_append]
    omega
  simp only [before, behind, Nat.le_add_right, if_true, Nat.add_sub_cancel_left]
  rw [append_assoc, splitAtByte_len]
  simp only [splitAtByte_len, Option.map_some, Option.getD_some]

/-- What is read at the offset of a character. -/
structure AtChar (text before : Text) (c : Char) : Prop where
  within : len before < len text
  byte : charAt text (len before) = lead c
  copied : substring text (len before) (len before + size c) = [c]
  behind : len before + size c = len (before ++ [c])

variable {c : Char} {text : Text}

theorem atChar {before rest : Text} (split : text = before ++ c :: rest) :
    AtChar text before c := by
  have positive := size_pos c
  have part := substring_len before [c] rest
  rw [len_cons, len_nil, Nat.add_zero, append_assoc, singleton_append, ← split] at part
  refine ⟨?_, by rw [split, charAt_len], part, by rw [len_append, len_cons, len_nil, Nat.add_zero]⟩
  rw [split, len_append, len_cons]
  omega

/-- A loop that writes something for each character and moves behind it. -/
theorem appendLoop_eq {β : Type*} {loop : Nat → Nat → List β → List β} {written : Char → List β}
    (ends : ∀ turns output, loop turns (len text) output = output)
    (turn : ∀ before c rest turns output, text = before ++ c :: rest →
      loop (turns + 1) (len before) output = loop turns (len before + size c) (output ++ written c))
    (output : List β) : loop (len text) 0 output = output ++ text.flatMap written := by
  have behind : ∀ rest before turns output, text = before ++ rest → len rest ≤ turns →
      loop turns (len before) output = output ++ rest.flatMap written := by
    intro rest
    induction rest with
    | nil =>
      intro before turns output split _
      rw [append_nil] at split
      rw [← split, ends, flatMap_nil, append_nil]
    | cons c rest ih =>
      intro before turns output split enough
      have positive := size_pos c
      rw [len_cons] at enough
      obtain ⟨turns, rfl⟩ : ∃ fewer, turns = fewer + 1 := ⟨turns - 1, by omega⟩
      rw [turn before c rest turns output split, (atChar split).behind,
        ih (before ++ [c]) turns _ (by rw [split]; simp) (by omega), flatMap_cons, append_assoc]
  exact behind text [] (len text) output rfl (Nat.le_refl _)

/-- A byte below 128 is found exactly where its character stands. -/
theorem lead_eq_code {d : Char} (ascii : d.toNat < 128) : (lead c : Int) = d.toNat ↔ c = d := by
  rw [Int.natCast_inj, lead_eq_iff ascii, Char.toNat_inj]

theorem charAt_next {before rest : Text} {d : Char} (split : text = before ++ c :: rest)
    (single : size c = 1) (ascii : d.toNat < 128) :
    (len before + 1 < len text ∧ charAt text (len before + 1) = d.toNat) ↔ rest.head? = some d := by
  have next : charAt text (len before + 1) = charAt rest 0 := by
    have shifted := charAt_len_add (before ++ [c]) rest 0
    rw [len_append, len_cons, single, len_nil] at shifted
    simpa [split] using shifted
  rw [next, split, len_append, len_cons, single]
  cases rest with
  | nil => simp
  | cons first rest =>
    have positive := size_pos first
    have here := charAt_len [] first rest
    rw [nil_append, len_nil] at here
    rw [here, lead_eq_code ascii]
    simp only [len_cons, head?_cons, Option.some.injEq, and_iff_right_iff_imp]
    omega

variable {narrow : Text}

section
variable (ascii : ∀ c ∈ narrow, c.toNat < 128)
include ascii

theorem bytes_narrow : bytes narrow = narrow.map Char.toNat := by
  rw [bytes, flatMap_congr fun c member => encode_of_lt (ascii c member), map_eq_flatMap]

theorem len_narrow : len narrow = narrow.length := by
  rw [len, bytes_narrow ascii, length_map]

theorem charAt_narrow (before rest : Text) {offset : Nat}
    (here : narrow[offset]? = some c) : charAt (before ++ (narrow ++ rest)) (len before + offset) =
      c.toNat := by
  have inside : (narrow.map Char.toNat)[offset]? = some c.toNat := by
    rw [getElem?_map, here, Option.map_some]
  rw [charAt_len_add, charAt, bytes, flatMap_append, ← bytes, bytes_narrow ascii,
    getElem?_append_left, inside]
  exact (List.getElem?_eq_some_iff.mp inside).1

end

/-- A text of narrow bytes has only narrow characters. -/
theorem narrow_of_bytes (narrow : ∀ byte ∈ bytes text, byte < 128) : ∀ c ∈ text, c.toNat < 128 := by
  intro c member
  by_contra wide
  obtain ⟨rest, shape⟩ := encode_eq_cons c
  have inside : lead c ∈ bytes text :=
    mem_flatMap.mpr ⟨c, member, by rw [shape]; exact mem_cons_self⟩
  exact wide (lead_lt_iff.mp (narrow _ inside))

theorem runeStep_lead (c : Char) : runeStep (lead c) = size c := by
  rw [size_eq_step]
  unfold runeStep step
  split_ifs <;> omega

theorem fromScalar_toNat (nonzero : c ≠ '\x00') : fromScalar c.toNat = some [c] := by
  have positive : c.toNat ≠ 0 := by
    intro zero
    exact nonzero (by rw [← Char.ofNat_toNat c, zero])
  rw [fromScalar, if_pos ⟨Int.natCast_nonneg _, by rw [Int.toNat_natCast]; exact c.valid⟩,
    if_neg (by omega), Int.toNat_natCast, Char.ofNat_toNat]

end SpectraLang.Stdlib

import Mathlib.Data.List.Basic

/-! # Text as characters and as bytes

The bytes of a text are those of its characters, one after another. The first byte of a character
tells how many continuation bytes follow, so that byte offsets between characters split the text and
a character below 128 is found by looking for its byte.
-/

namespace Utf8

open List

/-- The bytes of a character. -/
def encode (c : Char) : List Nat := (String.utf8EncodeChar c).map UInt8.toNat
def size (c : Char) : Nat := (encode c).length

/-- The first byte of a character. -/
def lead (c : Char) : Nat := (encode c).headD 0
def bytes (text : List Char) : List Nat := text.flatMap encode

/-- The number of bytes. -/
def len (text : List Char) : Nat := (bytes text).length

/-- How many bytes a character has that starts with the given byte. -/
def step (byte : Nat) : Nat :=
  if byte < 128 then 1 else if byte < 224 then 2 else if byte < 240 then 3 else 4

/-- The text before and behind a byte offset between two characters. -/
def splitAtByte : List Char → Nat → Option (List Char × List Char)
  | text, 0 => some ([], text)
  | [], _ + 1 => none
  | c :: text, offset + 1 =>
    if size c ≤ offset + 1 then
      (splitAtByte text (offset + 1 - size c)).map fun parts => (c :: parts.1, parts.2)
    else none

theorem toNat_lt (c : Char) : c.toNat < 1114112 := by
  rcases c.valid with low | ⟨-, high⟩
  · exact Nat.lt_trans low (by decide)
  · exact high

theorem toNat_ofNat {code : Nat} (valid : code.isValidChar) : (Char.ofNat code).toNat = code := by
  rw [Char.ofNat, dif_pos valid]
  rfl

theorem encode_eq (c : Char) : encode c =
    if c.toNat < 128 then [c.toNat]
    else if c.toNat < 2048 then [c.toNat / 64 + 192, c.toNat % 64 + 128]
    else if c.toNat < 65536 then [c.toNat / 4096 + 224, c.toNat / 64 % 64 + 128, c.toNat % 64 + 128]
    else [c.toNat / 262144 + 240, c.toNat / 4096 % 64 + 128, c.toNat / 64 % 64 + 128,
      c.toNat % 64 + 128] := by
  have bound := toNat_lt c
  have value : c.val.toNat = c.toNat := rfl
  unfold encode String.utf8EncodeChar
  simp only [value]
  split_ifs <;> simp only [map_cons, map_nil, UInt8.toNat_ofNat'] <;> first
    | omega
    | (congr 1 <;> omega)
    | (simp only [List.cons.injEq, and_true]; omega)

/-- A character is one byte below 128, or a byte from 194 on with continuation bytes behind it. -/
theorem encode_cases (c : Char) :
    (c.toNat < 128 ∧ encode c = [c.toNat]) ∨
      (128 ≤ c.toNat ∧ ∃ first rest, encode c = first :: rest ∧ 194 ≤ first ∧ first < 245 ∧
        rest.length + 1 = step first ∧ ∀ byte ∈ rest, 128 ≤ byte ∧ byte < 192) := by
  have bound := toNat_lt c
  rw [encode_eq]
  split_ifs with one two three
  · exact .inl ⟨one, rfl⟩
  all_goals
    refine .inr ⟨by omega, _, _, rfl, by omega, by omega, ?_, ?_⟩
    · unfold step
      split_ifs <;> first | rfl | omega
    · simp only [mem_cons, not_mem_nil, or_false]
      rintro byte member
      omega

variable {c : Char} {byte : Nat}

theorem encode_of_lt (ascii : c.toNat < 128) : encode c = [c.toNat] := by
  rw [encode_eq, if_pos ascii]

theorem lead_of_lt (ascii : c.toNat < 128) : lead c = c.toNat := by
  rw [lead, encode_of_lt ascii, headD_cons]

theorem size_of_lt (ascii : c.toNat < 128) : size c = 1 := by
  rw [size, encode_of_lt ascii, length_singleton]

theorem lead_of_le {c : Char} (wide : 128 ≤ c.toNat) : 194 ≤ lead c ∧ lead c < 245 := by
  rcases encode_cases c with ⟨ascii, -⟩ | ⟨-, first, rest, shape, low, high, -⟩
  · omega
  · rw [lead, shape, headD_cons]
    exact ⟨low, high⟩

theorem lead_lt_iff {c : Char} : lead c < 128 ↔ c.toNat < 128 := by
  constructor
  · intro small
    by_contra wide
    have := lead_of_le (Nat.not_lt.mp wide)
    omega
  · intro ascii
    rwa [lead_of_lt ascii]

/-- A byte below 128 stands for the character with that number. -/
theorem lead_eq_iff {code : Nat} (ascii : code < 128) : lead c = code ↔ c.toNat = code := by
  constructor
  · rintro rfl
    exact (lead_of_lt (lead_lt_iff.mp ascii)).symm
  · rintro rfl
    exact lead_of_lt ascii

theorem size_eq_step (c : Char) : size c = step (lead c) := by
  rcases encode_cases c with ⟨ascii, -⟩ | ⟨-, first, rest, shape, -, -, count, -⟩
  · rw [size_of_lt ascii, lead_of_lt ascii, step, if_pos ascii]
  · rw [size, lead, shape, headD_cons, length_cons, count]

theorem size_pos (c : Char) : 0 < size c := by
  rw [size_eq_step, step]
  split_ifs <;> decide

theorem encode_eq_cons (c : Char) : ∃ rest, encode c = lead c :: rest := by
  have nonempty := size_pos c
  unfold lead
  unfold size at nonempty
  cases shape : encode c with
  | nil => simp [shape] at nonempty
  | cons first rest => exact ⟨rest, rfl⟩

theorem byte_lt_of_mem_encode (member : byte ∈ encode c) : byte < 256 := by
  obtain ⟨raw, -, rfl⟩ := mem_map.mp member
  exact raw.toNat_lt

theorem le_of_mem_encode (wide : 128 ≤ c.toNat) (member : byte ∈ encode c) : 128 ≤ byte := by
  rcases encode_cases c with ⟨ascii, -⟩ | ⟨-, first, rest, shape, low, -, -, tail⟩
  · omega
  · rw [shape, mem_cons] at member
    rcases member with rfl | later
    · omega
    · exact (tail byte later).1

@[simp] theorem bytes_nil : bytes [] = [] := rfl

@[simp] theorem bytes_cons (c : Char) (text : List Char) :
    bytes (c :: text) = encode c ++ bytes text := rfl

variable (text : List Char) (rest : List Char)

@[simp] theorem bytes_append : bytes (text ++ rest) = bytes text ++ bytes rest := flatMap_append

@[simp] theorem len_nil : len [] = 0 := rfl

@[simp] theorem len_cons (c : Char) (text : List Char) : len (c :: text) = size c + len text := by
  simp [len, bytes_cons, size]

@[simp] theorem len_append : len (text ++ rest) = len text + len rest := by
  simp [len, bytes_append]

theorem length_le_len : text.length ≤ len text := by
  induction text with
  | nil => exact Nat.le_refl 0
  | cons c text ih =>
    have := size_pos c
    rw [length_cons, len_cons]
    omega

theorem len_eq_zero {text : List Char} : len text = 0 ↔ text = [] := by
  constructor
  · intro empty
    have := length_le_len text
    exact length_eq_zero_iff.mp (by omega)
  · rintro rfl
    rfl

theorem byte_lt {text : List Char} (member : byte ∈ bytes text) : byte < 256 := by
  obtain ⟨c, -, inside⟩ := mem_flatMap.mp member
  exact byte_lt_of_mem_encode inside

theorem getElem?_bytes_append (offset : Nat) : (bytes (text ++ rest))[len text + offset]? =
    (bytes rest)[offset]? := by
  simp [bytes_append, len, getElem?_append_right (Nat.le_add_right ..)]

theorem getElem?_bytes_lead (c : Char) (rest : List Char) :
    (bytes (text ++ c :: rest))[len text]? = some (lead c) := by
  obtain ⟨tail, shape⟩ := encode_eq_cons c
  have here := getElem?_bytes_append text (c :: rest) 0
  rw [bytes_cons, shape] at here
  simpa using here

theorem splitAtByte_len : splitAtByte (text ++ rest) (len text) = some (text, rest) := by
  induction text with
  | nil => cases rest <;> rfl
  | cons c text ih =>
    obtain ⟨offset, same⟩ : ∃ offset, len (c :: text) = offset + 1 :=
      Nat.exists_eq_succ_of_ne_zero (by rw [len_cons]; have := size_pos c; omega)
    have behind : offset + 1 - size c = len text := by
      rw [← same, len_cons, Nat.add_sub_cancel_left]
    rw [cons_append, same, splitAtByte, if_pos (by rw [← same, len_cons]; omega), behind, ih]
    rfl

/-- A narrow predicate stops in the bytes where it stops in the characters. -/
theorem takeWhile_bytes {stop : Nat → Bool} (narrow : ∀ byte, stop byte = true → byte < 128)
    (text : List Char) :
    (bytes text).takeWhile (fun byte => !stop byte) = bytes
      (text.takeWhile fun c => !stop c.toNat) := by
  induction text with
  | nil => rfl
  | cons c text ih =>
    by_cases ascii : c.toNat < 128
    · rw [bytes_cons, encode_of_lt ascii, singleton_append, takeWhile_cons, takeWhile_cons, ih]
      split_ifs with goes
      · rw [bytes_cons, encode_of_lt ascii, singleton_append]
      · rfl
    · have passes : stop c.toNat = false := by
        by_contra stops
        exact ascii (narrow _ (by simpa using stops))
      have through : ∀ byte ∈ encode c, (!stop byte) = true := by
        intro byte member
        have wide := le_of_mem_encode (Nat.not_lt.mp ascii) member
        by_contra stops
        have := narrow byte (by simpa using stops)
        omega
      rw [bytes_cons, takeWhile_append_of_pos through, ih, takeWhile_cons, passes]
      rfl

end Utf8

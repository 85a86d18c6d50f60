import SpectraLang.Stdlib.Text

/-! # Byte lists of the standard library

`std.bytes` and the part of `std.unicode` behind it: strict validation of UTF-8, the code points of
valid bytes and the text of code points. Exactly the bytes of a text without NUL are read as a text.
-/

namespace SpectraLang.Stdlib.Bytes

open List Utf8

/-- `byte_at`: the entry at an index, or -1. -/
def byteAt (data : List Nat) (index : Nat) : Int :=
  match data[index]? with
  | some byte => byte
  | none => -1

/-- The bytes as entries of a list of the source, whose entries are any integers. -/
def entries (data : List Nat) : List Int := data.map Nat.cast

/-- `byte_at` of `std.unicode`: the entry at an index, or -1. -/
def entryAt (data : List Int) (index : Nat) : Int := data[index]?.getD (-1)
def validContinuation (data : List Int) (index : Nat) : Bool := 128 ≤ entryAt data index ∧
    entryAt data index ≤ 191

/-- `valid_three_byte_sequence` at the front of the entries still to come. -/
def validThreeByteSequence (data : List Int) : Bool :=
  if !validContinuation data 1 || !validContinuation data 2 then false
  else if entryAt data 0 = 224 ∧ entryAt data 1 < 160 then false
  else if entryAt data 0 = 237 ∧ 159 < entryAt data 1 then false
  else true

/-- `valid_four_byte_sequence` at the front of the entries still to come. -/
def validFourByteSequence (data : List Int) : Bool :=
  if !validContinuation data 1 then false
  else if !validContinuation data 2 then false
  else if !validContinuation data 3 then false
  else if entryAt data 0 = 240 ∧ entryAt data 1 < 144 then false
  else if entryAt data 0 = 244 ∧ 143 < entryAt data 1 then false
  else true

/-- The loop of `valid_utf8_bytes` over the entries still to come. -/
def validLoop : Nat → List Int → Bool
  | _, [] => true
  | 0, _ :: _ => false
  | turns + 1, first :: rest =>
    if first < 0 ∨ 255 < first then false
    else if first < 128 then validLoop turns rest
    else if 194 ≤ first ∧ first ≤ 223 then
      validContinuation (first :: rest) 1 && validLoop turns (rest.drop 1)
    else if 224 ≤ first ∧ first ≤ 239 then
      validThreeByteSequence (first :: rest) && validLoop turns (rest.drop 2)
    else if 240 ≤ first ∧ first ≤ 244 then
      validFourByteSequence (first :: rest) && validLoop turns (rest.drop 3)
    else false

def validUtf8Bytes (data : List Int) : Bool := validLoop data.length data

/-- The loop of `codepoints_from_bytes` over the entries still to come. -/
def codepointsLoop : Nat → List Int → List Int → List Int
  | _, [], codes => codes
  | 0, _ :: _, codes => codes
  | turns + 1, first :: rest, codes =>
    let next (index : Nat) : Int := (rest[index]?).getD 0 - 128
    if first < 128 then codepointsLoop turns rest (codes ++ [first])
    else if first < 224 then codepointsLoop turns (rest.drop 1)
      (codes ++ [(first - 192) * 64 + next 0])
    else if first < 240 then
      codepointsLoop turns (rest.drop 2) (codes ++ [(first - 224) * 4096 + next 0 * 64 + next 1])
    else
      codepointsLoop turns (rest.drop 3)
        (codes ++ [(first - 240) * 262144 + next 0 * 4096 + next 1 * 64 + next 2])

def codepointsFromBytes (data : List Int) : Option (List Int) :=
  if validUtf8Bytes data then some (codepointsLoop data.length data []) else none

/-- `is_scalar_value`, without NUL. -/
def isScalarValue (code : Int) : Bool :=
  if code ≤ 0 ∨ 1114111 < code then false else code < 55296 ∨ 57343 < code

/-- The loop of `from_codepoints`. -/
def fromCodepointsLoop : List Int → Text → Option Text
  | [], builder => some builder
  | code :: codes, builder =>
    if code ≤ 0 ∨ isScalarValue code = false then none
    else
      match fromScalar code with
      | none => none
      | some piece => fromCodepointsLoop codes (builder ++ piece)

def fromCodepoints (codes : List Int) : Option Text := fromCodepointsLoop codes []
def containsNul (data : List Int) : Bool := data.contains 0

/-- `from_bytes`: the text of valid bytes without NUL. -/
def fromBytes (data : List Int) : Option Text :=
  if containsNul data then none
  else
    match codepointsFromBytes data with
    | none => none
    | some codes => fromCodepoints codes

/-- `rune_code`: the number of the character at an offset. -/
def runeCode (text : Text) (offset : Nat) : Int :=
  let first := charAt text offset
  let next (index : Nat) : Int := charAt text (offset + index) - 128
  if first < 128 then first
  else if first < 224 then (first - 192) * 64 + next 1
  else if first < 240 then (first - 224) * 4096 + next 1 * 64 + next 2
  else (first - 240) * 262144 + next 1 * 4096 + next 2 * 64 + next 3

/-- The loop of `to_codepoints`; `rune_length` is `runeStep`. -/
def toCodepointsLoop (text : Text) : Nat → Nat → List Int → List Int
  | 0, _, codes => codes
  | turns + 1, offset, codes =>
    if offset < len text then
      toCodepointsLoop text turns (offset + runeStep (charAt text offset))
        (codes ++ [runeCode text offset])
    else codes

def toCodepoints (text : Text) : List Int := toCodepointsLoop text (len text) 0 []

@[simp] theorem byteAt_cons_zero (byte : Nat) (rest : List Nat) : byteAt (byte :: rest) 0 = byte :=
  rfl

@[simp] theorem byteAt_cons_succ (byte : Nat) (rest : List Nat) (index : Nat) :
    byteAt (byte :: rest) (index + 1) = byteAt rest index := by
  simp [byteAt]

@[simp] theorem entryAt_cons_zero (entry : Int) (rest : List Int) :
    entryAt (entry :: rest) 0 = entry := rfl

@[simp] theorem entryAt_cons_succ (entry : Int) (rest : List Int) (index : Nat) :
    entryAt (entry :: rest) (index + 1) = entryAt rest index := by
  simp [entryAt]

@[simp] theorem entryAt_nil (index : Nat) : entryAt [] index = -1 := rfl

theorem entries_append (data rest : List Nat) :
    entries (data ++ rest) = entries data ++ entries rest := map_append

theorem length_entries (data : List Nat) : (entries data).length = data.length := length_map _

theorem entries_injective {data other : List Nat} (same : entries data = entries other) :
    data = other :=
  map_injective_iff.mpr (fun _ _ equal => Int.natCast_inj.mp equal) same

/-- An entry that continues a character. -/
def Continues (entry : Int) : Prop := 128 ≤ entry ∧ entry ≤ 191

variable {first : Int} {rest : List Int} {turns : Nat} {text : Text}

theorem validContinuation_iff :
    validContinuation (first :: rest) 1 = true ↔ ∃ second tail, rest = second :: tail ∧
      Continues second := by
  rcases rest with - | ⟨second, tail⟩ <;> simp [validContinuation, Continues]

theorem validThreeByteSequence_iff :
    validThreeByteSequence (first :: rest) = true ↔ ∃ second third tail, rest = second :: third ::
      tail ∧
      Continues second ∧ Continues third ∧ (first = 224 → 160 ≤ second) ∧
        (first = 237 → second ≤ 159) := by
  rcases rest with - | ⟨second, - | ⟨third, tail⟩⟩ <;>
    simp [validThreeByteSequence, validContinuation, Continues]
  omega

theorem validFourByteSequence_iff :
    validFourByteSequence (first :: rest) = true ↔ ∃ second third fourth tail,
      rest = second :: third :: fourth :: tail ∧
      Continues second ∧ Continues third ∧ Continues fourth ∧
      (first = 240 → 144 ≤ second) ∧ (first = 244 → second ≤ 143) := by
  rcases rest with - | ⟨second, - | ⟨third, - | ⟨fourth, tail⟩⟩⟩ <;>
    simp [validFourByteSequence, validContinuation, Continues]
  omega

variable (c : Char)

theorem valid_toNat : c.toNat < 55296 ∨ 57343 < c.toNat := by
  rcases c.valid with low | ⟨high, -⟩
  · exact .inl low
  · exact .inr high

theorem validLoop_encode (rest : List Int) (turns : Nat) :
    validLoop (turns + 1) (entries (encode c) ++ rest) = validLoop turns rest := by
  have bound := toNat_lt c
  have valid := valid_toNat c
  rw [encode_eq]
  split_ifs with one two three <;>
    simp (disch := omega) only [entries, map_cons, map_nil, cons_append, nil_append, validLoop,
      if_pos, if_neg]
  · rw [validContinuation_iff.mpr ⟨_, _, rfl, by unfold Continues; omega⟩]
    rfl
  · rw [validThreeByteSequence_iff.mpr ⟨_, _, _, rfl, by unfold Continues; omega⟩]
    rfl
  · rw [validFourByteSequence_iff.mpr ⟨_, _, _, _, rfl, by unfold Continues; omega⟩]
    rfl

/-- A character with the given number. -/
theorem exists_char {code : Int} (nonnegative : 0 ≤ code) (small : code < 1114112)
    (valid : code < 55296 ∨ 57343 < code) : ∃ c : Char, (c.toNat : Int) = code := by
  have isValid : code.toNat.isValidChar := by
    rcases valid with low | high
    · exact .inl (by omega)
    · exact .inr ⟨by omega, by omega⟩
  exact ⟨Char.ofNat code.toNat, by rw [toNat_ofNat isValid, Int.toNat_of_nonneg nonnegative]⟩

/-- The entries the validator accepts start with a character. -/
theorem exists_encode_of_validLoop (valid : validLoop (turns + 1) (first :: rest) = true) :
    ∃ c tail, first :: rest = entries (encode c) ++ tail ∧ validLoop turns tail = true := by
  rw [validLoop] at valid
  split_ifs at valid with large one two three four
  · obtain ⟨c, number⟩ := @exists_char first (by omega) (by omega) (by omega)
    refine ⟨c, rest, ?_, valid⟩
    rw [encode_eq, if_pos (by omega)]
    simp [entries, number]
  · obtain ⟨sequence, later⟩ := Bool.and_eq_true_iff.mp valid
    obtain ⟨second, tail, rfl, low, high⟩ := validContinuation_iff.mp sequence
    obtain ⟨c, number⟩ := @exists_char ((first - 192) * 64 + (second - 128)) (by omega) (by omega)
      (by omega)
    refine ⟨c, tail, ?_, later⟩
    rw [encode_eq, if_neg (by omega), if_pos (by omega)]
    simp only [entries, map_cons, map_nil, cons_append, nil_append, List.cons.injEq, and_true]
    omega
  · obtain ⟨sequence, later⟩ := Bool.and_eq_true_iff.mp valid
    obtain ⟨second, third, tail, rfl, ⟨low, high⟩, ⟨low', high'⟩, overlong, surrogate⟩ :=
      validThreeByteSequence_iff.mp sequence
    obtain ⟨c, number⟩ := @exists_char ((first - 224) * 4096 + (second - 128) * 64 + (third - 128))
      (by omega) (by omega) (by omega)
    refine ⟨c, tail, ?_, later⟩
    rw [encode_eq, if_neg (by omega), if_neg (by omega), if_pos (by omega)]
    simp only [entries, map_cons, map_nil, cons_append, nil_append, List.cons.injEq, and_true]
    omega
  · obtain ⟨sequence, later⟩ := Bool.and_eq_true_iff.mp valid
    obtain ⟨second, third, fourth, tail, rfl, ⟨low, high⟩, ⟨low', high'⟩, ⟨low'', high''⟩, overlong,
      above⟩ :=
      validFourByteSequence_iff.mp sequence
    obtain ⟨c, number⟩ :=
      @exists_char ((first - 240) * 262144 + (second - 128) * 4096 + (third - 128) * 64 +
      (fourth - 128)) (by omega) (by omega) (by omega)
    refine ⟨c, tail, ?_, later⟩
    rw [encode_eq, if_neg (by omega), if_neg (by omega), if_neg (by omega)]
    simp only [entries, map_cons, map_nil, cons_append, nil_append, List.cons.injEq, and_true]
    omega

/-- The decoder reads the number of a character. -/
theorem codepointsLoop_encode (rest : List Int) (turns : Nat) (codes : List Int) :
    codepointsLoop (turns + 1) (entries (encode c) ++ rest) codes = codepointsLoop turns rest
      (codes ++ [(c.toNat : Int)]) := by
  have bound := toNat_lt c
  rw [encode_eq]
  split_ifs with one two three <;>
    simp (disch := omega) only [entries, map_cons, map_nil, cons_append, nil_append, codepointsLoop,
      drop_succ_cons,
      drop_zero, getElem?_cons_zero, getElem?_cons_succ, Option.getD_some, if_pos, if_neg]
  all_goals
    apply congrArg (fun code => codepointsLoop turns rest (codes ++ [code]))
    omega

theorem runeCode_len (before : Text) (c : Char) (rest : Text) :
    runeCode (before ++ c :: rest) (len before) = c.toNat := by
  have bound := toNat_lt c
  have here := charAt_len_add before (c :: rest)
  have first := here 0
  rw [Nat.add_zero] at first
  have shape := encode_eq c
  simp only [runeCode, here, first]
  split_ifs at shape with one two three <;>
    simp only [charAt, bytes_cons, shape, cons_append, nil_append, getElem?_cons_zero,
      getElem?_cons_succ] <;>
    split_ifs <;> omega

/-- The numbers of the characters. -/
def scalars (text : Text) : List Int := text.map fun c => (c.toNat : Int)

/-- Exactly the bytes of a text are valid. -/
theorem validLoop_iff {data : List Int} (enough : data.length ≤ turns) :
    validLoop turns data = true ↔ ∃ text, data = entries (bytes text) := by
  induction turns generalizing data with
  | zero =>
    obtain rfl := length_eq_zero_iff.mp (Nat.le_zero.mp enough)
    exact ⟨fun _ => ⟨[], rfl⟩, fun _ => rfl⟩
  | succ turns ih =>
    constructor
    · intro valid
      rcases data with - | ⟨first, rest⟩
      · exact ⟨[], rfl⟩
      obtain ⟨c, tail, split, later⟩ := exists_encode_of_validLoop valid
      have shorter : tail.length ≤ turns := by
        have counted := congrArg List.length split
        have positive := size_pos c
        rw [length_append, length_entries] at counted
        unfold size at positive
        omega
      obtain ⟨text, rfl⟩ := (ih shorter).mp later
      exact ⟨c :: text, split.trans (entries_append _ _).symm⟩
    · rintro ⟨text, rfl⟩
      rcases text with - | ⟨c, text⟩
      · rfl
      have shorter : (entries (bytes text)).length ≤ turns := by
        have positive := size_pos c
        rw [bytes_cons, length_entries, length_append] at enough
        rw [length_entries]
        unfold size at positive
        omega
      rw [bytes_cons, entries_append, validLoop_encode]
      exact (ih shorter).mpr ⟨text, rfl⟩

theorem codepointsLoop_bytes {codes : List Int} (enough : (bytes text).length ≤ turns) :
    codepointsLoop turns (entries (bytes text)) codes = codes ++ scalars text := by
  induction text generalizing turns codes with
  | nil => cases turns <;> simp [codepointsLoop, entries, scalars]
  | cons c text ih =>
    have positive := size_pos c
    rw [bytes_cons, length_append] at enough
    unfold size at positive
    obtain ⟨turns, rfl⟩ : ∃ fewer, turns = fewer + 1 := Nat.exists_eq_succ_of_ne_zero (by omega)
    rw [bytes_cons, entries_append, codepointsLoop_encode, ih (by omega), scalars, scalars,
      map_cons, append_assoc, singleton_append]

theorem codepointsFromBytes_bytes (text : Text) : codepointsFromBytes (entries (bytes text)) = some
    (scalars text) := by
  have valid : validUtf8Bytes (entries (bytes text)) = true :=
    (validLoop_iff (Nat.le_refl _)).mpr ⟨text, rfl⟩
  rw [codepointsFromBytes, if_pos valid, codepointsLoop_bytes
    (Nat.le_of_eq (length_entries _).symm), nil_append]

theorem scalars_injective {other : Text} (same : scalars text = scalars other) : text = other := by
  refine map_injective_iff.mpr (fun c d equal => ?_) same
  exact Char.toNat_inj.mp (Int.natCast_inj.mp equal)

theorem bytes_injective {other : Text} (same : bytes text = bytes other) : text = other := by
  have codes := codepointsFromBytes_bytes text
  rw [same, codepointsFromBytes_bytes, Option.some.injEq] at codes
  exact scalars_injective codes.symm

theorem fromCodepointsLoop_map {builder : Text} (nulFree : NulFree text) :
    fromCodepointsLoop (scalars text) builder = some (builder ++ text) := by
  induction text generalizing builder with
  | nil => simp [fromCodepointsLoop, scalars]
  | cons c text ih =>
    obtain ⟨nonzero, others⟩ := not_or.mp (mt mem_cons.mpr nulFree)
    have bound := toNat_lt c
    have valid := valid_toNat c
    have positive : c.toNat ≠ 0 := by
      intro zero
      exact nonzero (by rw [← Char.ofNat_toNat c, zero])
    have scalar : isScalarValue c.toNat = true := by
      rw [isScalarValue, if_neg (by omega)]
      exact decide_eq_true (by omega)
    rw [scalars, map_cons, fromCodepointsLoop, scalar, if_neg (by simp; omega),
      fromScalar_toNat (Ne.symm nonzero)]
    simp only
    rw [← scalars, ih others, append_assoc, singleton_append]

theorem zero_mem_bytes : 0 ∈ entries (bytes text) ↔ ¬ NulFree text := by
  rw [NulFree, not_not, entries, mem_map]
  constructor
  · rintro ⟨byte, inside, zero⟩
    obtain rfl := Int.natCast_eq_zero.mp zero
    obtain ⟨c, member, inside⟩ := mem_flatMap.mp inside
    by_cases ascii : c.toNat < 128
    · rw [encode_of_lt ascii, mem_singleton] at inside
      rwa [← Char.ofNat_toNat c, ← inside] at member
    · have := le_of_mem_encode (Nat.not_lt.mp ascii) inside
      omega
  · intro member
    exact ⟨0, mem_flatMap.mpr ⟨_, member, by decide⟩, rfl⟩

/-- The bytes of a text are read back. -/
theorem fromBytes_bytes (nulFree : NulFree text) :
    fromBytes (entries (bytes text)) = some text := by
  have noNul : containsNul (entries (bytes text)) ≠ true := fun found =>
    zero_mem_bytes.mp (contains_iff_mem.mp found) nulFree
  rw [fromBytes, if_neg noNul, codepointsFromBytes_bytes]
  exact fromCodepointsLoop_map nulFree

/-- Nothing else is read as a text. -/
theorem eq_bytes_of_fromBytes {data : List Int} (read : fromBytes data = some text) :
    data = entries (bytes text) ∧ NulFree text := by
  rw [fromBytes] at read
  split_ifs at read with found
  rw [codepointsFromBytes] at read
  split_ifs at read with valid
  · obtain ⟨original, rfl⟩ := (validLoop_iff (Nat.le_refl _)).mp valid
    have nulFree : NulFree original := by
      by_contra nul
      exact found (contains_iff_mem.mpr (zero_mem_bytes.mpr nul))
    rw [codepointsLoop_bytes (Nat.le_of_eq (length_entries _).symm)] at read
    obtain rfl := Option.some.inj ((fromCodepointsLoop_map nulFree).symm.trans read)
    exact ⟨rfl, nulFree⟩

theorem toCodepointsLoop_eq (text : Text) (codes : List Int) :
    toCodepointsLoop text (len text) 0 codes = codes ++ text.flatMap fun c =>
      [(c.toNat : Int)] := by
  refine appendLoop_eq (fun turns output => ?_) (fun before c rest turns output split => ?_) codes
  · cases turns <;> simp [toCodepointsLoop]
  · obtain ⟨within, byte, -, -⟩ := atChar split
    have code : runeCode text (len before) = c.toNat := by rw [split, runeCode_len]
    rw [toCodepointsLoop, if_pos within, byte, runeStep_lead, code]

theorem toCodepoints_eq (text : Text) : toCodepoints text = scalars text := by
  rw [scalars, map_eq_flatMap]
  exact toCodepointsLoop_eq text []

/-- Strict decoding: a list of integers is accepted exactly if it is the encoding of scalar values,
which the decoder then returns, and it is a text exactly if no entry is zero. -/
theorem strict_utf8 (data : List Int) :
    (validUtf8Bytes data = true ↔ (∀ entry ∈ data, 0 ≤ entry ∧ entry ≤ 255) ∧
      ∃ text, data = entries (bytes text)) ∧
      (∀ text, data = entries (bytes text) → codepointsFromBytes data = some (scalars text)) ∧
      (∀ text, fromBytes data = some text ↔ data = entries (bytes text) ∧ 0 ∉ data) ∧
      ∀ text, fromBytes data = some text → codepointsFromBytes data = some (toCodepoints text) := by
  refine ⟨?_, ?_, ?_, ?_⟩
  · rw [validUtf8Bytes, validLoop_iff (Nat.le_refl _)]
    refine ⟨fun valid => ⟨?_, valid⟩, And.right⟩
    obtain ⟨text, rfl⟩ := valid
    intro entry member
    obtain ⟨byte, inside, rfl⟩ := mem_map.mp member
    have := byte_lt inside
    omega
  · rintro text rfl
    exact codepointsFromBytes_bytes text
  · intro text
    constructor
    · intro read
      obtain ⟨rfl, nulFree⟩ := eq_bytes_of_fromBytes read
      exact ⟨rfl, fun member => zero_mem_bytes.mp member nulFree⟩
    · rintro ⟨rfl, noZero⟩
      exact fromBytes_bytes (not_not.mp (mt zero_mem_bytes.mpr noZero))
  · intro text read
    obtain ⟨rfl, -⟩ := eq_bytes_of_fromBytes read
    rw [codepointsFromBytes_bytes, toCodepoints_eq]

end SpectraLang.Stdlib.Bytes

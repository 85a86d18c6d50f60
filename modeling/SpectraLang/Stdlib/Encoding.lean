import Mathlib.Algebra.Group.Nat.Defs
import SpectraLang.Lib.Blocks
import SpectraLang.Stdlib.Bytes

/-! # Text encodings

The block codes of `std.encoding`: hexadecimal, base64, base32, base85 and percent encoding. Every
turn of a loop reads or writes one block of the bytes in front of it. A decoder turns the bytes it
has collected into text only if they are valid UTF-8.
-/

namespace SpectraLang.Stdlib.Encoding

open List Utf8 Bytes

/-- `push_char`: nothing for a number that is not a character. -/
def pushChar (builder : Text) (code : Nat) : Text := builder ++ (fromScalar code).getD []
def pushChars (codes : List Nat) : Text := codes.foldl pushChar []

/-- The loop of an encoder over the bytes of a text. -/
def encodeBlocks (width : Nat) (block : List Nat → List Nat) (value : Text) : Text :=
  pushChars (Blocks.write width block (len value) (bytes value) [])

/-- The loop of a decoder over the bytes of a text. -/
def decodeBlocks (block : List Nat → Option (List Nat × Nat)) (text : Text) : Option Text :=
  (Blocks.read block (len text) (bytes text) []).bind fun data => fromBytes (entries data)

def hexChar (value : Nat) : Nat :=
  if value < 10 then 48 + value else 87 + value

def hexUpperChar (value : Nat) : Nat :=
  if value < 10 then 48 + value else 55 + value

/-- `hex_value`, -1 for anything else. -/
def hexValue (code : Int) : Int :=
  if 48 ≤ code ∧ code ≤ 57 then code - 48
  else if 97 ≤ code ∧ code ≤ 102 then code - 87
  else if 65 ≤ code ∧ code ≤ 70 then code - 55
  else -1

def hexEncodeBlock (data : List Nat) : List Nat :=
  let byte := data.getD 0 0
  [hexChar (byte / 16), hexChar (byte % 16)]

def hexEncode (value : Text) : Text := encodeBlocks 1 hexEncodeBlock value

def hexDecodeBlock (codes : List Nat) : Option (List Nat × Nat) :=
  let high := hexValue (byteAt codes 0)
  let low := hexValue (byteAt codes 1)
  if high < 0 ∨ low < 0 then none else some ([(high * 16 + low).toNat], 2)

def hexDecode (text : Text) : Option Text :=
  if len text % 2 ≠ 0 then none else decodeBlocks hexDecodeBlock text

def base64Char (value : Nat) : Nat :=
  if value < 26 then 65 + value
  else if value < 52 then 97 + value - 26
  else if value < 62 then 48 + value - 52
  else if value = 62 then 43
  else 47

/-- `base64_value`, -1 for anything else. -/
def base64Value (code : Int) : Int :=
  if 65 ≤ code ∧ code ≤ 90 then code - 65
  else if 97 ≤ code ∧ code ≤ 122 then code - 71
  else if 48 ≤ code ∧ code ≤ 57 then code + 4
  else if code = 43 then 62
  else if code = 47 then 63
  else -1

/-- A missing byte counts as zero, and its character is the padding. -/
def base64EncodeBlock (data : List Nat) : List Nat :=
  let remaining := data.length
  let first := data.getD 0 0
  let second := if 1 < remaining then data.getD 1 0 else 0
  let third := if 2 < remaining then data.getD 2 0 else 0
  [base64Char (first >>> 2), base64Char (((first &&& 3) <<< 4) ||| (second >>> 4)),
    if 1 < remaining then base64Char (((second &&& 15) <<< 2) ||| (third >>> 6)) else 61,
    if 2 < remaining then base64Char (third &&& 63) else 61]

def base64Encode (value : Text) : Text := encodeBlocks 3 base64EncodeBlock value

def base64DecodeBlock (codes : List Nat) : Option (List Nat × Nat) :=
  let first := base64Value (byteAt codes 0)
  let second := base64Value (byteAt codes 1)
  let thirdCode := byteAt codes 2
  let fourthCode := byteAt codes 3
  let third := base64Value thirdCode
  let fourth := base64Value fourthCode
  if first < 0 ∨ second < 0 then none
  else if third < 0 ∧ thirdCode ≠ 61 then none
  else if fourth < 0 ∧ fourthCode ≠ 61 then none
  else if thirdCode = 61 ∧ fourthCode ≠ 61 then none
  else if (thirdCode = 61 ∨ fourthCode = 61) ∧ codes.length ≠ 4 then none
  else
    some ([(first.toNat <<< 2) ||| (second.toNat >>> 4)] ++
      (if thirdCode ≠ 61 then [((second.toNat &&& 15) <<< 4) ||| (third.toNat >>> 2)] else []) ++
      (if fourthCode ≠ 61 then [((third.toNat &&& 3) <<< 6) ||| fourth.toNat] else []), 4)

def base64Decode (text : Text) : Option Text :=
  if len text = 0 then some []
  else if len text % 4 ≠ 0 then none
  else decodeBlocks base64DecodeBlock text

def isUnreserved (byte : Nat) : Bool :=
  if 65 ≤ byte ∧ byte ≤ 90 then true
  else if 97 ≤ byte ∧ byte ≤ 122 then true
  else if 48 ≤ byte ∧ byte ≤ 57 then true
  else byte = 45 ∨ byte = 46 ∨ byte = 95 ∨ byte = 126

def percentEncodeBlock (data : List Nat) : List Nat :=
  let byte := data.getD 0 0
  if isUnreserved byte then [byte] else [37, hexUpperChar (byte / 16), hexUpperChar (byte % 16)]

def percentEncode (value : Text) : Text := encodeBlocks 1 percentEncodeBlock value

def percentDecodeBlock (codes : List Nat) : Option (List Nat × Nat) :=
  let code := byteAt codes 0
  if code = 37 then
    if codes.length ≤ 2 then none
    else
      let high := hexValue (byteAt codes 1)
      let low := hexValue (byteAt codes 2)
      if high < 0 ∨ low < 0 then none else some ([(high * 16 + low).toNat], 3)
  else some ([code.toNat], 1)

def percentDecode (text : Text) : Option Text := decodeBlocks percentDecodeBlock text

def base32Char (value : Nat) : Nat :=
  if value < 26 then 65 + value else 50 + value - 26

/-- `base32_value`, -1 for anything else. -/
def base32Value (code : Int) : Int :=
  if 65 ≤ code ∧ code ≤ 90 then code - 65
  else if 50 ≤ code ∧ code ≤ 55 then code - 24
  else -1

def base32EncodeBlock (data : List Nat) : List Nat :=
  let remaining := data.length
  let first := data.getD 0 0
  let second := if 1 < remaining then data.getD 1 0 else 0
  let third := if 2 < remaining then data.getD 2 0 else 0
  let fourth := if 3 < remaining then data.getD 3 0 else 0
  let fifth := if 4 < remaining then data.getD 4 0 else 0
  let chunk := if 5 ≤ remaining then 8 else if remaining = 4 then 7 else if remaining = 3 then 5
    else if remaining = 2 then 4 else 2
  [base32Char (first >>> 3), base32Char (((first &&& 7) <<< 2) ||| (second >>> 6))] ++
    (if 2 < chunk then [base32Char ((second >>> 1) &&& 31)] else []) ++
    (if 3 < chunk then [base32Char (((second &&& 1) <<< 4) ||| (third >>> 4))] else []) ++
    (if 4 < chunk then [base32Char (((third &&& 15) <<< 1) ||| (fourth >>> 7))] else []) ++
    (if 5 < chunk then [base32Char ((fourth >>> 2) &&& 31)] else []) ++
    (if 6 < chunk then [base32Char (((fourth &&& 3) <<< 3) ||| (fifth >>> 5))] else []) ++
    (if 7 < chunk then [base32Char (fifth &&& 31)] else []) ++
    List.replicate (8 - chunk) 61

def base32Encode (value : Text) : Text := encodeBlocks 5 base32EncodeBlock value

/-- The scan for the padding at the end of a block, from its last place down. -/
def padLoop (codes : List Nat) : Nat → Nat → Nat
  | 0, pad => pad
  | scan + 1, pad => if byteAt codes scan = 61 then padLoop codes scan (pad + 1) else pad

def base32DecodeBlock (codes : List Nat) : Option (List Nat × Nat) :=
  let pad := padLoop codes 8 0
  let chunk := 8 - pad
  let v (place : Nat) : Nat := (base32Value (byteAt codes place)).toNat
  if pad ≠ 0 ∧ pad ≠ 1 ∧ pad ≠ 3 ∧ pad ≠ 4 ∧ pad ≠ 6 then none
  else if 0 < pad ∧ codes.length ≠ 8 then none
  else if (List.range 8).all (fun probe =>
      if probe < chunk then 0 ≤ base32Value (byteAt codes probe) else byteAt codes probe = 61) =
        false then none
  else
    some ([(v 0 <<< 3) ||| (v 1 >>> 2)] ++
      (if 2 < chunk then [((v 1 &&& 3) <<< 6) ||| (v 2 <<< 1) ||| (v 3 >>> 4)] else []) ++
      (if 4 < chunk then [((v 3 &&& 15) <<< 4) ||| (v 4 >>> 1)] else []) ++
      (if 5 < chunk then [((v 4 &&& 1) <<< 7) ||| (v 5 <<< 2) ||| (v 6 >>> 3)] else []) ++
      (if 7 < chunk then [((v 6 &&& 7) <<< 5) ||| v 7] else []), 8)

def base32Decode (text : Text) : Option Text :=
  if len text = 0 then some []
  else if len text % 8 ≠ 0 then none
  else decodeBlocks base32DecodeBlock text

/-- The digits of a group, the lowest first. -/
def chipLoop : Nat → Nat → List Nat → List Nat
  | 0, _, chips => chips
  | step + 1, work, chips => chipLoop step (work / 85) (chips ++ [work % 85])

/-- A short group keeps the highest digits of the group filled up with zeros. -/
def base85EncodeBlock (data : List Nat) : List Nat :=
  let remaining := data.length
  let first := data.getD 0 0
  let second := if 1 < remaining then data.getD 1 0 else 0
  let third := if 2 < remaining then data.getD 2 0 else 0
  let fourth := if 3 < remaining then data.getD 3 0 else 0
  let group := (first <<< 24) ||| (second <<< 16) ||| (third <<< 8) ||| fourth
  let chips := chipLoop 5 group []
  let chunk := if 3 < remaining then 5 else remaining + 1
  (List.range chunk).map fun emitted => 33 + chips.getD (4 - emitted) 0

def base85Encode (value : Text) : Text := encodeBlocks 4 base85EncodeBlock value

/-- A missing digit counts as the highest one. -/
def base85DecodeBlock (codes : List Nat) : Option (List Nat × Nat) :=
  let chunk := if 5 ≤ codes.length then 5 else codes.length
  let value := (List.range 5).foldl
    (fun value step => value * 85 + if step < chunk then byteAt codes step - 33 else 84) (0 : Int)
  if 4294967295 < value then none
  else
    let produced := chunk - 1
    let shift := (5 - chunk) * 8
    some ((List.range produced).map fun place =>
      (value.toNat >>> (shift + (produced - 1 - place) * 8)) &&& 255, chunk)

def base85Decode (text : Text) : Option Text :=
  if len text = 0 then some []
  else if (bytes text).any (fun code => code < 33 ∨ 117 < code) then none
  else if len text % 5 = 1 then none
  else decodeBlocks base85DecodeBlock text

theorem bytes_pushChar {code : Nat} (positive : 0 < code) (ascii : code < 128) (builder : Text) :
    bytes (pushChar builder code) = bytes builder ++ [code] := by
  have number : (Char.ofNat code).toNat = code := toNat_ofNat (.inl (by omega))
  have nonzero : Char.ofNat code ≠ '\x00' := by
    intro zero
    rw [zero] at number
    exact absurd number (by simp; omega)
  have scalar := fromScalar_toNat nonzero
  rw [number] at scalar
  rw [pushChar, scalar, Option.getD_some, bytes_append, bytes_cons, encode_of_lt (by omega), number]
  rfl

variable {codes : List Nat}

theorem bytes_pushChars (narrow : ∀ code ∈ codes, 0 < code ∧ code < 128) :
    bytes (pushChars codes) = codes := by
  have pushed : ∀ builder, bytes (codes.foldl pushChar builder) = bytes builder ++ codes := by
    induction codes with
    | nil => simp
    | cons code codes ih =>
      intro builder
      obtain ⟨⟨positive, ascii⟩, others⟩ := forall_mem_cons.mp narrow
      simp [ih others, bytes_pushChar positive ascii]
  exact pushed []

/-- Blocks of narrow characters, each of which is read back whatever stands behind it. -/
structure BlockCode (width : Nat) (block : List Nat → List Nat)
    (readBlock : List Nat → Option (List Nat × Nat)) :
    Prop where
  positive : 0 < width
  narrow : ∀ data, data ≠ [] → (∀ byte ∈ data, byte < 256) → ∀ code ∈ block data, 0 < code ∧
    code < 128
  undo : ∀ data later, data ≠ [] → (∀ byte ∈ data, byte < 256) →
    (data.length ≤ width → later = []) →
    block data ≠ [] ∧ readBlock (block data ++ later) = some (data.take width, (block data).length)

section BlockCode
variable {width : Nat} {block : List Nat → List Nat}
  {readBlock : List Nat → Option (List Nat × Nat)} {value : Text}

section
variable (code : BlockCode width block readBlock)
include code

/-- The bytes of the encoded text are the codes written. -/
theorem BlockCode.written (value : Text) :
    Blocks.Written width block (bytes value) (bytes (encodeBlocks width block value)) := by
  obtain ⟨codes, same, written⟩ := @Blocks.written_write _ _ width block (bytes value) code.positive
    (len value) [] (Nat.le_refl _)
  rw [nil_append] at same
  rw [encodeBlocks, same, bytes_pushChars (written.forall_mem (fun _ => byte_lt) code.narrow)]
  exact written

theorem BlockCode.decode_encode (nulFree : NulFree value) :
    decodeBlocks readBlock (encodeBlocks width block value) = some value := by
  have read := @Blocks.Written.read_eq _ _ _ _ _ _ _ (code.written value) (fun _ => byte_lt) _
    code.undo (len (encodeBlocks width block value)) [] (Nat.le_refl _)
  simp [decodeBlocks, read, fromBytes_bytes nulFree]

/-- Blocks of a whole number of characters make up a whole number of characters. -/
theorem BlockCode.len_mod {size : Nat}
    (whole : ∀ data, data ≠ [] → (∀ byte ∈ data, byte < 256) → size ∣ (block data).length)
      (value : Text) :
    len (encodeBlocks width block value) % size = 0 :=
  Nat.mod_eq_zero_of_dvd ((code.written value).dvd_length (fun _ => byte_lt) whole)

/-- Nothing is written only for the empty text. -/
theorem BlockCode.eq_nil (nulFree : NulFree value)
    (empty : len (encodeBlocks width block value) = 0) : value = [] := by
  have back := code.decode_encode nulFree
  rw [len_eq_zero.mp empty] at back
  exact (Option.some.inj back).symm

end

end BlockCode

variable {value a b : Nat} {data : List Nat}

theorem shift_or {high low place : Nat} (below : low < 2 ^ place) :
    (high <<< place) ||| low = high * 2 ^ place + low := by
  rw [← Nat.shiftLeft_add_eq_or_of_lt below, Nat.shiftLeft_eq]

theorem shift_or_or {high middle low both upper place : Nat} (places : both = upper + place)
    (between : middle < 2 ^ upper) (below : low < 2 ^ place) :
    (high <<< both) ||| (middle <<< place) ||| low = (high * 2 ^ upper + middle) * 2 ^ place +
      low := by
  rw [places, Nat.shiftLeft_add, ← Nat.shiftLeft_or_distrib, shift_or between, shift_or below]

theorem and_masks (value : Nat) : value &&& 1 = value % 2 ^ 1 ∧ value &&& 3 = value % 2 ^ 2 ∧
    value &&& 7 = value % 2 ^ 3 ∧ value &&& 15 = value % 2 ^ 4 ∧ value &&& 31 = value % 2 ^ 5 ∧
    value &&& 63 = value % 2 ^ 6 ∧ value &&& 255 = value % 2 ^ 8 := by
  have mask := Nat.and_two_pow_sub_one_eq_mod value
  exact ⟨mask 1, mask 2, mask 3, mask 4, mask 5, mask 6, mask 8⟩

theorem base64Value_base64Char (small : value < 64) : base64Value (base64Char value) = value := by
  unfold base64Char base64Value
  split_ifs <;> omega

theorem base64Char_narrow (value : Nat) : 0 < base64Char value ∧ base64Char value < 128 ∧
    base64Char value ≠ 61 := by
  unfold base64Char
  split_ifs <;> omega

theorem base64BlockCode : BlockCode 3 base64EncodeBlock base64DecodeBlock where
  positive := by decide
  narrow := by
    intro data _ _
    have char (value : Nat) : 0 < base64Char value ∧ base64Char value < 128 :=
      ⟨(base64Char_narrow value).1, (base64Char_narrow value).2.1⟩
    simp only [base64EncodeBlock, forall_mem_cons, ↓forall_mem_singleton]
    refine ⟨char _, char _, ?_, ?_⟩ <;> split_ifs <;> first | exact char _ | decide
  undo := by
    have notPad (value : Nat) : ¬(base64Char value : Int) = 61 := by
      have := (base64Char_narrow value).2.2
      omega
    rintro (- | ⟨first, - | ⟨second, - | ⟨third, rest⟩⟩⟩) later nonempty small last
    · exact absurd rfl nonempty
    -- The missing bytes are padding, which is last and is not taken for a value.
    all_goals
      refine ⟨cons_ne_nil _ _, ?_⟩
      simp only [forall_mem_cons, ↓forall_mem_singleton, length_cons, length_nil] at small last
      simp (disch := omega) only [base64EncodeBlock, base64DecodeBlock, length_cons, length_nil,
        getD_cons_zero,
        getD_cons_succ, cons_append, nil_append, byteAt_cons_zero, byteAt_cons_succ,
          Nat.shiftRight_eq_div_pow, and_masks,
        shift_or, if_pos, if_neg]
      simp (disch := omega) only [base64Value_base64Char, Int.toNat_natCast, shift_or, if_neg, last]
      simp [notPad]
      omega

theorem base64Decode_base64Encode {value : Text} (nulFree : NulFree value) :
    base64Decode (base64Encode value) = some value := by
  have whole : len (base64Encode value) % 4 = 0 :=
    base64BlockCode.len_mod (fun _ _ _ => ⟨1, rfl⟩) value
  rw [base64Decode, if_neg (not_not.mpr whole)]
  split_ifs with empty
  · rw [base64BlockCode.eq_nil nulFree empty]
  · exact base64BlockCode.decode_encode nulFree

section
variable (small : value < 16)
include small

theorem hexValue_hexChar : hexValue (hexChar value) = value := by
  unfold hexChar hexValue
  split_ifs <;> omega

theorem hexChar_narrow : 0 < hexChar value ∧ hexChar value < 128 := by
  unfold hexChar
  split_ifs <;> omega

theorem hexValue_hexUpperChar : hexValue (hexUpperChar value) = value := by
  unfold hexUpperChar hexValue
  split_ifs <;> omega

theorem hexUpperChar_narrow : 0 < hexUpperChar value ∧ hexUpperChar value < 128 := by
  unfold hexUpperChar
  split_ifs <;> omega

end

theorem hexBlockCode : BlockCode 1 hexEncodeBlock hexDecodeBlock where
  positive := Nat.one_pos
  narrow := by
    rintro (- | ⟨byte, data⟩) nonempty small
    · exact absurd rfl nonempty
    have byteSmall := small byte mem_cons_self
    simp only [hexEncodeBlock, getD_cons_zero, forall_mem_cons, ↓forall_mem_singleton]
    exact ⟨hexChar_narrow (by omega), hexChar_narrow (by omega)⟩
  undo := by
    rintro (- | ⟨byte, data⟩) later nonempty small -
    · exact absurd rfl nonempty
    have byteSmall := small byte mem_cons_self
    have high := hexValue_hexChar (show byte / 16 < 16 by omega)
    have low := hexValue_hexChar (show byte % 16 < 16 by omega)
    refine ⟨cons_ne_nil _ _, ?_⟩
    simp [hexEncodeBlock, hexDecodeBlock, high, low]
    omega

theorem hexDecode_hexEncode {value : Text} (nulFree : NulFree value) :
    hexDecode (hexEncode value) = some value := by
  have even : len (hexEncode value) % 2 = 0 := hexBlockCode.len_mod (fun _ _ _ => ⟨1, rfl⟩) value
  rw [hexDecode, if_neg (not_not.mpr even)]
  exact hexBlockCode.decode_encode nulFree

theorem narrow_of_isUnreserved {byte : Nat} (unreserved : isUnreserved byte = true) :
    0 < byte ∧ byte < 128 ∧ byte ≠ 37 := by
  unfold isUnreserved at unreserved
  split_ifs at unreserved with upper lower digit
  · omega
  · omega
  · omega
  · have := of_decide_eq_true unreserved
    omega

theorem percentBlockCode : BlockCode 1 percentEncodeBlock percentDecodeBlock where
  positive := Nat.one_pos
  narrow := by
    rintro (- | ⟨byte, data⟩) nonempty small
    · exact absurd rfl nonempty
    have byteSmall := small byte mem_cons_self
    simp only [percentEncodeBlock, getD_cons_zero]
    split_ifs with unreserved
    · have narrow := narrow_of_isUnreserved unreserved
      exact fun code member => mem_singleton.mp member ▸ ⟨narrow.1, narrow.2.1⟩
    · simp only [forall_mem_cons, ↓forall_mem_singleton]
      exact ⟨by decide, hexUpperChar_narrow (by omega), hexUpperChar_narrow (by omega)⟩
  undo := by
    rintro (- | ⟨byte, data⟩) later nonempty small -
    · exact absurd rfl nonempty
    have byteSmall := small byte mem_cons_self
    have high := hexValue_hexUpperChar (show byte / 16 < 16 by omega)
    have low := hexValue_hexUpperChar (show byte % 16 < 16 by omega)
    simp only [percentEncodeBlock, getD_cons_zero]
    split_ifs with unreserved
    · have plain := (narrow_of_isUnreserved unreserved).2.2
      refine ⟨cons_ne_nil _ _, ?_⟩
      simp [percentDecodeBlock]
      omega
    · refine ⟨cons_ne_nil _ _, ?_⟩
      simp [percentDecodeBlock, high, low]
      omega

theorem percentDecode_percentEncode {value : Text} (nulFree : NulFree value) :
    percentDecode (percentEncode value) = some value :=
  percentBlockCode.decode_encode nulFree

theorem base32Value_base32Char (small : value < 32) : base32Value (base32Char value) = value := by
  unfold base32Char base32Value
  split_ifs <;> omega

theorem base32Char_narrow (small : value < 32) : 0 < base32Char value ∧ base32Char value < 128 := by
  unfold base32Char
  split_ifs <;> omega

theorem base32Char_ne_padding (small : value < 32) : ¬ (base32Char value : Int) = 61 := by
  unfold base32Char
  split_ifs <;> omega

/-- The five-bit values of a block. -/
def quintets (data : List Nat) : List Nat :=
  let first := data.getD 0 0
  let second := data.getD 1 0
  let third := data.getD 2 0
  let fourth := data.getD 3 0
  let fifth := data.getD 4 0
  [first / 8, first % 8 * 4 + second / 64, second / 2 % 32, second % 2 * 16 + third / 16,
    third % 16 * 2 + fourth / 128, fourth / 4 % 32, fourth % 4 * 8 + fifth / 32, fifth % 32]

/-- How many values a block of the given number of bytes has. -/
def quintetCount (remaining : Nat) : Nat :=
  if 5 ≤ remaining then 8 else if remaining = 4 then 7 else if remaining =
    3 then 5 else if remaining = 2 then 4 else 2

theorem quintetCount_cases (remaining : Nat) : quintetCount remaining = 8 ∨
    quintetCount remaining = 7 ∨
    quintetCount remaining = 5 ∨ quintetCount remaining = 4 ∨ quintetCount remaining = 2 := by
  unfold quintetCount
  split_ifs <;> simp

/-- A byte that is only read where there is one. -/
theorem guarded_getD (data : List Nat) (place : Nat) :
    (if place < data.length then data.getD place 0 else 0) = data.getD place 0 := by
  split_ifs with inside
  · rfl
  · rw [getD_eq_getElem?_getD, getElem?_eq_none (Nat.not_lt.mp inside), Option.getD_none]

/-- The number of a group, with zeros for the missing bytes. -/
def groupValue (data : List Nat) : Nat :=
  ((data.getD 0 0 * 256 + data.getD 1 0) * 256 + data.getD 2 0) * 256 + data.getD 3 0

/-- The digit of a number at a place. -/
def chip (group place : Nat) : Nat := group / 85 ^ place % 85

theorem chipLoop_getD (group : Nat) {place : Nat} (known : place ≤ 4) :
    (chipLoop 5 group []).getD place 0 = chip group place := by
  have digits : chipLoop 5 group [] = (List.range 5).map (chip group) := by
    simp [chipLoop, range_succ, chip, Nat.div_div_eq_div_mul]
  rw [digits, getD_eq_getElem?_getD, getElem?_map, getElem?_range (by omega)]
  rfl

/-- The digits written for a group. -/
def chips (data : List Nat) : List Nat :=
  (List.range (if 3 < data.length then 5 else data.length + 1)).map fun emitted =>
    chip (groupValue data) (4 - emitted)

theorem chips_lt {digit : Nat} (member : digit ∈ chips data) : digit < 85 := by
  obtain ⟨emitted, -, rfl⟩ := mem_map.mp member
  exact Nat.mod_lt _ (by decide)

section
variable (small : ∀ byte ∈ data, byte < 256)
include small

theorem getD_lt (place : Nat) : data.getD place 0 < 256 := by
  rw [getD_eq_getElem?_getD]
  cases found : data[place]? with
  | none => decide
  | some byte => exact small byte (mem_of_getElem? found)

theorem base32EncodeBlock_eq :
    base32EncodeBlock data = ((quintets data).take (quintetCount data.length)).map base32Char ++
      List.replicate (8 - quintetCount data.length) 61 := by
  have second := getD_lt small 1
  have third := getD_lt small 2
  have fourth := getD_lt small 3
  have fifth := getD_lt small 4
  unfold base32EncodeBlock
  simp only [guarded_getD, Nat.shiftRight_eq_div_pow, and_masks]
  rw [shift_or (by omega), shift_or (by omega), shift_or (by omega), shift_or (by omega)]
  have chunk :
    (if 5 ≤ data.length then 8 else if data.length = 4 then 7 else if data.length = 3 then 5
    else if data.length = 2 then 4 else 2) = quintetCount data.length := rfl
  simp only [chunk]
  rcases quintetCount_cases data.length with count | count | count | count | count
  all_goals
    rw [count]
    rfl

theorem quintets_lt : ∀ value ∈ quintets data, value < 32 := by
  have first := getD_lt small 0
  have second := getD_lt small 1
  have third := getD_lt small 2
  have fourth := getD_lt small 3
  have fifth := getD_lt small 4
  simp only [quintets, forall_mem_cons, ↓forall_mem_singleton]
  omega

theorem length_base32EncodeBlock : (base32EncodeBlock data).length = 8 := by
  have cases := quintetCount_cases data.length
  have eight : (quintets data).length = 8 := rfl
  rw [base32EncodeBlock_eq small, length_append, length_map, length_replicate, length_take]
  omega

theorem base85EncodeBlock_chips : base85EncodeBlock data = (chips data).map (33 + ·) := by
  have second := getD_lt small 1
  have third := getD_lt small 2
  have fourth := getD_lt small 3
  have group : (data.getD 0 0 <<< 24) ||| (data.getD 1 0 <<< 16) ||| (data.getD 2 0 <<< 8) |||
    data.getD 3 0 = groupValue data := by
    rw [Nat.or_assoc, @shift_or (data.getD 2 0) (data.getD 3 0) 8 (by omega),
      shift_or_or (show 24 = 8 + 16 from rfl) (by omega) (by omega), groupValue]
    omega
  unfold base85EncodeBlock
  simp only [guarded_getD, group, chipLoop_getD _ (Nat.sub_le 4 _), chips, map_map]
  rfl

end

theorem base32BlockCode : BlockCode 5 base32EncodeBlock base32DecodeBlock where
  positive := by decide
  narrow := by
    intro data nonempty small code member
    rw [base32EncodeBlock_eq small, mem_append, mem_map, mem_replicate] at member
    rcases member with ⟨value, taken, rfl⟩ | ⟨-, rfl⟩
    · exact base32Char_narrow (quintets_lt small value (mem_of_mem_take taken))
    · decide
  undo := by
    intro data later nonempty small last
    have bounds := quintets_lt small
    have padding : ((61 : Nat) : Int) = 61 := rfl
    have length := length_base32EncodeBlock small
    refine ⟨ne_nil_of_length_pos (by omega), ?_⟩
    rw [length, base32EncodeBlock_eq small]
    rcases data with - | ⟨first, - | ⟨second, - | ⟨third, - | ⟨fourth, - | ⟨fifth, rest⟩⟩⟩⟩⟩
    · exact absurd rfl nonempty
    all_goals
      simp [quintets] at bounds
      simp only [forall_mem_cons, ↓forall_mem_singleton, length_cons, length_nil] at small last
      simp [quintets, quintetCount]
      simp only [base32DecodeBlock]
      -- The scan stops at the last value, which is not taken for padding.
      generalize padded : padLoop _ 8 0 = pad
      simp only [padLoop, byteAt_cons_zero, byteAt_cons_succ, base32Char_ne_padding, bounds,
        padding, Nat.reduceAdd, ↓reduceIte] at padded
      subst padded
      simp [range_succ, base32Value_base32Char, bounds, last, Nat.shiftRight_eq_div_pow, and_masks]
      simp (disch := omega) only [↓shift_or_or (show 6 = 5 + 1 from rfl),
        ↓shift_or_or (show 7 = 5 + 2 from rfl), shift_or, Nat.reducePow]
      clear bounds
      omega

theorem base32Decode_base32Encode {value : Text} (nulFree : NulFree value) :
    base32Decode (base32Encode value) = some value := by
  have whole : len (base32Encode value) % 8 = 0 :=
    base32BlockCode.len_mod (fun _ _ small => ⟨1, length_base32EncodeBlock small⟩) value
  rw [base32Decode, if_neg (not_not.mpr whole)]
  split_ifs with empty
  · rw [base32BlockCode.eq_nil nulFree empty]
  · exact base32BlockCode.decode_encode nulFree

theorem chip_step (group place : Nat) : group / 85 ^ (place + 1) * 85 + chip group place =
    group / 85 ^ place := by
  rw [chip, Nat.pow_succ, ← Nat.div_div_eq_div_mul]
  exact Nat.div_add_mod' _ _

theorem length_chips (data : List Nat) :
    (chips data).length = if 3 < data.length then 5 else data.length + 1 := by
  rw [chips, length_map, length_range]

theorem base85BlockCode : BlockCode 4 base85EncodeBlock base85DecodeBlock where
  positive := by decide
  narrow := by
    intro data nonempty small code member
    rw [base85EncodeBlock_chips small, mem_map] at member
    obtain ⟨digit, inside, rfl⟩ := member
    have small := chips_lt inside
    omega
  undo := by
    intro data later nonempty small last
    rw [base85EncodeBlock_chips small, chips]
    generalize isGroup : groupValue data = group, isMissing : 256 ^ (4 - data.length) = missing
    have digit4 := chip_step group 4
    have digit3 := chip_step group 3
    have digit2 := chip_step group 2
    have digit1 := chip_step group 1
    have digit0 := chip_step group 0
    simp only [Nat.reduceAdd, Nat.reducePow, Nat.pow_zero, Nat.div_one]
      at digit4 digit3 digit2 digit1 digit0
    rcases data with - | ⟨a, - | ⟨b, - | ⟨c, - | ⟨d, rest⟩⟩⟩⟩
    · exact absurd rfl nonempty
    all_goals
      refine ⟨by simp, ?_⟩
      simp only [forall_mem_cons, ↓forall_mem_singleton, length_cons, length_nil] at small last
      simp [groupValue] at isGroup isMissing
      simp [range_succ, base85DecodeBlock, last, and_masks, Nat.shiftRight_eq_div_pow]
      refine ⟨by omega, ?_⟩
      -- Filling up with the highest digit adds less than the missing bytes can hold.
      generalize isValue : Int.toNat _ = value
      have low : group ≤ value := by omega
      have high : value < group + missing := by omega
      clear isValue digit4 digit3 digit2 digit1 digit0
      omega

/-- A short group comes last and has more than one digit. -/
theorem base85_length_mod (written : Blocks.Written 4 base85EncodeBlock data codes)
    (small : ∀ byte ∈ data, byte < 256) : codes.length % 5 ≠ 1 := by
  induction written with
  | nil => decide
  | @block data later nonempty rest ih =>
    have positive := length_pos_iff.mpr nonempty
    have others := ih fun byte member => small byte (mem_of_mem_drop member)
    rw [length_append, base85EncodeBlock_chips small, length_map, length_chips]
    split_ifs with full
    · omega
    · rw [drop_eq_nil_of_le (by omega)] at rest
      rw [rest.eq_nil, length_nil]
      omega

theorem base85Decode_base85Encode {value : Text} (nulFree : NulFree value) :
    base85Decode (base85Encode value) = some value := by
  have written := base85BlockCode.written value
  have known : ((bytes (base85Encode value)).any fun code => code < 33 ∨ 117 < code) = false := by
    rw [any_eq_false]
    refine written.forall_mem (fun _ => byte_lt) ?_
    intro data nonempty small code member
    rw [base85EncodeBlock_chips small, mem_map] at member
    obtain ⟨digit, inside, rfl⟩ := member
    have small := chips_lt inside
    simp
    omega
  have count : len (base85Encode value) % 5 ≠ 1 := base85_length_mod written fun _ => byte_lt
  rw [base85Decode, known, if_neg Bool.false_ne_true, if_neg count]
  split_ifs with empty
  · rw [base85BlockCode.eq_nil nulFree empty]
  · exact base85BlockCode.decode_encode nulFree

/-- Every text without NUL is read back from each of its encodings. -/
theorem encodings_round_trip {value : Text} (nulFree : NulFree value) :
    hexDecode (hexEncode value) = some value ∧ base64Decode (base64Encode value) = some value ∧
      base32Decode (base32Encode value) = some value ∧ base85Decode (base85Encode value) =
        some value ∧
      percentDecode (percentEncode value) = some value :=
  ⟨hexDecode_hexEncode nulFree, base64Decode_base64Encode nulFree,
    base32Decode_base32Encode nulFree,
    base85Decode_base85Encode nulFree, percentDecode_percentEncode nulFree⟩

theorem encodings_round_trip_accented :
    base85Decode (base85Encode "né".toList) = some "né".toList :=
  (encodings_round_trip (by unfold NulFree; decide)).2.2.2.1

end SpectraLang.Stdlib.Encoding

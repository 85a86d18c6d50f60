import SpectraLang.Lib.Radix
import SpectraLang.Stdlib.Encoding

/-! # Base58

The codec of `std.encoding` that writes the bytes of a text as one number. Leading zero bytes and
leading ones are counted apart from the number, and since a text has no zero byte, a text with
leading ones is never read back.
-/

namespace SpectraLang.Stdlib.Base58

open List Utf8 Bytes Encoding

def alphabet : Text := "123456789ABCDEFGHJKLMNPQRSTUVWXYZabcdefghijkmnopqrstuvwxyz".toList
def base58Char (value : Nat) : Nat := (charAt alphabet value).toNat

/-- The loop of `base58_value` over the alphabet, -1 at its end. -/
def alphabetLoop (code : Int) : Nat → Nat → Int
  | 0, _ => -1
  | turns + 1, index =>
    if charAt alphabet index = code then index else alphabetLoop code turns (index + 1)

def base58Value (code : Int) : Int := alphabetLoop code (len alphabet) 0

/-- How often a code is repeated at the front. -/
def leadingCount (symbol : Nat) : List Nat → Nat
  | [] => 0
  | code :: codes => if code = symbol then leadingCount symbol codes + 1 else 0

/-- `base58_encode`; a byte is less than two digits, which bounds the number of divisions. -/
def base58Encode (value : Text) : Text :=
  if len value = 0 then []
  else
    let leading := leadingCount 0 (bytes value)
    let work := (bytes value).drop leading
    let digits := Radix.convert 256 58 (2 * work.length) work []
    pushChars (List.replicate leading 49 ++ digits.reverse.map base58Char)

def base58Decode (text : Text) : Option Text :=
  if len text = 0 then some []
  else if (bytes text).any (fun (code : Nat) => base58Value code < 0) then none
  else
    let leading := leadingCount 49 (bytes text)
    let work := ((bytes text).drop leading).foldl
      (fun work (code : Nat) => Radix.multiply 256 58 work (base58Value code).toNat) []
    fromBytes (entries (List.replicate leading 0 ++ work.reverse))

theorem alphabetLoop_cases (code : Int) (turns index : Nat) :
    alphabetLoop code turns index = -1 ∨
      ∃ place : Nat, alphabetLoop code turns index = (place : Int) ∧ place < index + turns ∧
        charAt alphabet place = code := by
  induction turns generalizing index with
  | zero => exact .inl rfl
  | succ turns ih =>
    rw [alphabetLoop]
    split_ifs with here
    · exact .inr ⟨index, rfl, by omega, here⟩
    · rcases ih (index + 1) with absent | ⟨place, found, below, there⟩
      · exact .inl absent
      · exact .inr ⟨place, found, by omega, there⟩

/-- The symbols are different narrow characters, the first of them a one. -/
theorem base58Char_spec {value : Nat} (small : value < 58) :
    base58Value (base58Char value) = value ∧ 0 < base58Char value ∧ base58Char value < 128 ∧
      (base58Char value = 49 ↔ value = 0) := by
  revert value
  decide

theorem base58Value_spec {code : Nat} (known : ¬ base58Value code < 0) :
    (base58Value code).toNat < 58 ∧ base58Char (base58Value code).toNat = code := by
  rcases alphabetLoop_cases code (len alphabet) 0 with absent | ⟨place, found, below, there⟩
  · exact absurd (by rw [base58Value, absent]; decide) known
  · rw [base58Value, found, Int.toNat_natCast, base58Char, there, Int.toNat_natCast]
    exact ⟨below, rfl⟩

theorem leadingCount_eq_zero {symbol : Nat} {codes : List Nat}
    (different : codes.head? ≠ some symbol) :
    leadingCount symbol codes = 0 := by
  cases codes with
  | nil => rfl
  | cons code codes => exact if_neg fun same => different (by rw [same]; rfl)

theorem leadingCount_pos {symbol : Nat} {codes : List Nat} (same : codes.head? = some symbol) :
    0 < leadingCount symbol codes := by
  cases codes with
  | nil => cases same
  | cons code codes =>
    rw [leadingCount, if_pos (Option.some.inj same)]
    exact Nat.succ_pos _

theorem value_bytes_lt {data : List Nat} (small : ∀ byte ∈ data, byte < 256) :
    Radix.value 256 data < 58 ^ (2 * data.length) := by
  rw [Radix.value_eq_ofDigits]
  calc Nat.ofDigits 256 data.reverse < 256 ^ data.reverse.length :=
        Nat.ofDigits_lt_base_pow_length (by decide) fun byte member => small byte
          (mem_reverse.mp member)
    _ ≤ (58 ^ 2) ^ data.length := by
      rw [length_reverse]
      exact Nat.pow_le_pow_left (by decide) _
    _ = 58 ^ (2 * data.length) := (Nat.pow_mul ..).symm

variable {value : Text}

theorem head_bytes (nulFree : NulFree value) : (bytes value).head? ≠ some 0 := by
  intro zero
  exact zero_mem_bytes.mp (mem_map.mpr ⟨0, mem_of_mem_head? zero, rfl⟩) nulFree

/-- A text is written as the digits of its number. -/
theorem bytes_base58Encode (nulFree : NulFree value) :
    bytes (base58Encode value) = (Nat.digits 58 (Radix.value 256 (bytes value))).reverse.map
      base58Char := by
  rw [base58Encode]
  split_ifs with empty
  · rw [len_eq_zero.mp empty]
    simp [Radix.value]
  · have digits := @Radix.reverse_digits_value 256 (by decide) _ (fun _ => byte_lt)
      (head_bytes nulFree)
    have converted := @Radix.convert_eq 256 58 (by decide) (by decide) _ _
      (@value_bytes_lt (bytes value) fun _ => byte_lt) []
    simp only [leadingCount_eq_zero (head_bytes nulFree), drop_zero, replicate_zero, nil_append]
    rw [digits, nil_append] at converted
    rw [converted, bytes_pushChars]
    intro code member
    obtain ⟨digit, inside, rfl⟩ := mem_map.mp member
    have spec := base58Char_spec (Nat.digits_lt_base (by decide) (mem_reverse.mp inside))
    exact ⟨spec.2.1, spec.2.2.1⟩

theorem foldl_multiply (values : List Nat) (number : Nat) :
    values.foldl (fun work value => Radix.multiply 256 58 work value) (Nat.digits 256 number) =
      Nat.digits 256 (values.foldl (fun number value => number * 58 + value) number) := by
  induction values generalizing number with
  | nil => rfl
  | cons value values ih =>
    rw [foldl_cons, Radix.multiply_eq (by decide) (by decide), ih, foldl_cons]

/-- A text without leading ones is read as one number. -/
theorem base58Decode_eq {text : Text} (nonempty : len text ≠ 0)
    (known : ∀ code ∈ bytes text, ¬ base58Value code < 0)
    (leading : (bytes text).head? ≠ some 49) :
    base58Decode text = fromBytes (entries
      (Nat.digits 256
        (Radix.value 58
        ((bytes text).map fun (code : Nat) => (base58Value code).toNat))).reverse) := by
  have allKnown : ((bytes text).any fun (code : Nat) => base58Value code < 0) = false := by
    rw [any_eq_false]
    exact fun code member => by simpa using known code member
  have read := foldl_multiply ((bytes text).map fun (code : Nat) => (base58Value code).toNat) 0
  rw [Nat.digits_zero, foldl_map] at read
  rw [base58Decode, if_neg nonempty, allKnown, if_neg Bool.false_ne_true]
  simp only [leadingCount_eq_zero leading, drop_zero, replicate_zero, nil_append]
  rw [read]
  rfl

theorem head_digits_ne_zero (number : Nat) : (Nat.digits 58 number).reverse.head? ≠ some 0 := by
  intro zero
  rw [head?_reverse, getLast?_eq_some_iff] at zero
  obtain ⟨others, shape⟩ := zero
  have nonzero : number ≠ 0 := by
    rintro rfl
    simp at shape
  have last := Nat.getLast_digit_ne_zero 58 nonzero
  simp only [shape, getLast_append_singleton, ne_eq, not_true_eq_false] at last

/-- A text is read back from its digits. -/
theorem base58Decode_base58Encode (nulFree : NulFree value) :
    base58Decode (base58Encode value) = some value := by
  have written := bytes_base58Encode nulFree
  have same := @Radix.reverse_digits_value 256 (by decide) _ (fun _ => byte_lt) (head_bytes nulFree)
  generalize Radix.value 256 (bytes value) = number at written same
  have spec {digit : Nat} (member : digit ∈ (Nat.digits 58 number).reverse) :=
    base58Char_spec (Nat.digits_lt_base (by decide) (mem_reverse.mp member))
  by_cases empty : len (base58Encode value) = 0
  · have noDigits : (Nat.digits 58 number).reverse = [] := by
      rw [len_eq_zero.mp empty, bytes_nil] at written
      exact map_eq_nil_iff.mp written.symm
    rw [reverse_eq_nil_iff, Nat.digits_eq_nil_iff_eq_zero] at noDigits
    rw [noDigits, Nat.digits_zero, reverse_nil] at same
    have gone : value = [] := len_eq_zero.mp (by rw [len, ← same]; rfl)
    rw [base58Decode, if_pos empty, gone]
  · rw [base58Decode_eq empty]
    · have read : (bytes (base58Encode value)).map (fun (code : Nat) => (base58Value code).toNat) =
          (Nat.digits 58 number).reverse := by
        rw [written, map_map]
        refine map_congr_left (fun digit member => ?_) |>.trans (map_id _)
        simp only [Function.comp_apply, (spec member).1, Int.toNat_natCast, id_eq]
      rw [read, Radix.value_reverse_digits, same, fromBytes_bytes nulFree]
    · intro code member
      rw [written, mem_map] at member
      obtain ⟨digit, inside, rfl⟩ := member
      rw [(spec inside).1]
      omega
    · intro one
      rw [written, head?_map, Option.map_eq_some_iff] at one
      obtain ⟨digit, first, isOne⟩ := one
      have zero := (spec (mem_of_mem_head? first)).2.2.2.mp isOne
      exact head_digits_ne_zero number (zero ▸ first)

/-- Whatever is read is what is written for the text. -/
theorem base58Encode_of_base58Decode {text : Text} (decoded : base58Decode text = some value) :
    base58Encode value = text := by
  by_cases empty : len text = 0
  · rw [base58Decode, if_pos empty, Option.some.injEq] at decoded
    rw [← decoded, len_eq_zero.mp empty]
    rfl
  have known : ∀ code ∈ bytes text, ¬ base58Value code < 0 := by
    intro code member negative
    have found : ((bytes text).any fun (code : Nat) => base58Value code < 0) = true :=
      any_eq_true.mpr ⟨code, member, decide_eq_true negative⟩
    rw [base58Decode, if_neg empty, if_pos found] at decoded
    cases decoded
  have leading : (bytes text).head? ≠ some 49 := by
    intro one
    rw [base58Decode, if_neg empty] at decoded
    split_ifs at decoded
    obtain ⟨data, nulFree⟩ := eq_bytes_of_fromBytes decoded
    obtain ⟨fewer, counted⟩ := Nat.exists_eq_succ_of_ne_zero (leadingCount_pos one).ne'
    apply head_bytes nulFree
    rw [← entries_injective data, counted, replicate_succ]
    rfl
  rw [base58Decode_eq empty known leading] at decoded
  obtain ⟨data, nulFree⟩ := eq_bytes_of_fromBytes decoded
  -- The digits written are those read, since the first of them is not zero.
  have digits :=
    @Radix.reverse_digits_value 58 (by decide)
      ((bytes text).map fun (code : Nat) => (base58Value code).toNat)
    ?_ ?_
  · apply bytes_injective
    rw [bytes_base58Encode nulFree, ← entries_injective data, Radix.value_reverse_digits, digits,
      map_map]
    refine map_congr_left (fun code member => ?_) |>.trans (map_id _)
    exact (base58Value_spec (known code member)).2
  · intro digit member
    obtain ⟨code, inside, rfl⟩ := mem_map.mp member
    exact (base58Value_spec (known code inside)).1
  · intro zero
    rw [head?_map, Option.map_eq_some_iff] at zero
    obtain ⟨code, first, noValue⟩ := zero
    have spec := base58Value_spec (known code (mem_of_mem_head? first))
    have one := (base58Char_spec spec.1).2.2.2.mpr noValue
    exact leading (by rw [first, ← spec.2, one])

/-- Base58 is a bijection between texts without NUL and the texts it accepts. -/
theorem base58_bijection :
    (∀ value, NulFree value → base58Decode (base58Encode value) = some value) ∧
      ∀ text value, base58Decode text = some value → base58Encode value = text :=
  ⟨fun _ => base58Decode_base58Encode, fun _ _ => base58Encode_of_base58Decode⟩

theorem base58_bijection_word :
    base58Decode (base58Encode "hi".toList) = some "hi".toList ∧
      base58Encode "a".toList = "2g".toList :=
  ⟨base58_bijection.1 _ (by unfold NulFree; decide), base58_bijection.2 _ _ (by decide)⟩

end SpectraLang.Stdlib.Base58

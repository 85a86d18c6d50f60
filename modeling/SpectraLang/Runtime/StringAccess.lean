import SpectraLang.IR

/-! # Reading a byte of a string

Strings are NUL-terminated UTF-8 buffers. The host function `std_string_char_at` decodes the buffer
and answers only at character boundaries; the two fast paths scan for the terminator and read the
byte. A scan stops at the end of the tracked allocation, or at a fixed limit when the pointer is not
tracked.
-/

namespace SpectraLang

/-- The bytes at each address and the sizes of the tracked allocations. -/
structure StringMemory where
  byte : Nat → UInt8
  size : Nat → Option Nat

def spectraStringScanLimit : Nat := 16 * 1024 * 1024
def hostStatusInvalidArgument : Int := 1

namespace StringMemory

/-- `string_scan_limit_bytes`. -/
def stringScanLimitBytes (memory : StringMemory) (ptr : I64) : Nat :=
  (memory.size ptr.toNat).getD spectraStringScanLimit

/-- The number of bytes before the terminator, at most the limit. -/
def scan (memory : StringMemory) (address : Nat) : Nat → Nat
  | 0 => 0
  | limit + 1 => if memory.byte address = 0 then 0 else memory.scan (address + 1) limit + 1

/-- `read_spectra_string`: nothing without a terminator inside the limit. -/
def readSpectraString (memory : StringMemory) (ptr : I64) : Option String :=
  if ptr = 0 then none
  else
    let limit := memory.stringScanLimitBytes ptr
    let length := memory.scan ptr.toNat limit
    if limit ≤ length then none
    else String.fromUTF8?
      ⟨((List.range length).map fun offset => memory.byte (ptr.toNat + offset)).toArray⟩

end StringMemory

/-- `str::is_char_boundary`. -/
def isCharBoundary (text : String) (index : Nat) : Bool :=
  if index = 0 then true
  else if within : index < text.toUTF8.size then
    decide (text.toUTF8[index] < 0x80) || decide (0xC0 ≤ text.toUTF8[index])
  else index == text.toUTF8.size

/-- `std_string_char_at`: the status of a refused call, or the byte. -/
def stdStringCharAt (memory : StringMemory) : List I64 → Except Int I64
  | ptr :: index :: _ =>
    match memory.readSpectraString ptr with
    | none => .error hostStatusInvalidArgument
    | some text =>
      if within : 0 ≤ index.toInt ∧ index.toNat < text.toUTF8.size then
        if isCharBoundary text index.toNat then .ok (.ofNat 64 text.toUTF8[index.toNat].toNat)
        else .error hostStatusInvalidArgument
      else .error hostStatusInvalidArgument
  | _ => .error hostStatusInvalidArgument

/-- The byte at the index of the scanned string, or the sentinel. -/
def scannedByte (memory : StringMemory) (ptr index : I64) : I64 :=
  if ptr = 0 ∨ index.toInt < 0 then -1
  else if memory.scan ptr.toNat (memory.stringScanLimitBytes ptr) ≤ index.toNat then -1
  else .ofNat 64 (memory.byte (ptr.toNat + index.toNat)).toNat

def stringCharAtFast : StringMemory → I64 → I64 → I64 := scannedByte
def spectraRtStringCharAt : StringMemory → I64 → I64 → I64 := scannedByte

/-- The pointer holds the terminated text; the terminator of a tracked string lies inside its
allocation. -/
structure StringMemory.Holds (memory : StringMemory) (ptr : I64) (text : String) : Prop where
  notNull : ptr ≠ 0
  bytes : ∀ (index : Nat) (within : index < text.toUTF8.size), memory.byte (ptr.toNat + index) =
    text.toUTF8[index]
  terminated : memory.byte (ptr.toNat + text.toUTF8.size) = 0
  inside : ∀ size, memory.size ptr.toNat = some size → text.toUTF8.size < size

def NulFree (text : String) : Prop := ∀ (index : Nat) (within : index < text.toUTF8.size),
    text.toUTF8[index] ≠ 0

/-- A fast result agrees with the host function: the same value, and the sentinel exactly for a
refusal. -/
def AgreesWith (host : Except Int I64) (fast : I64) : Prop :=
  (∀ value, host = .ok value → fast = value) ∧ (fast = -1 ↔ ∃ status, host = .error status)

variable {memory : StringMemory} {ptr : I64} {text : String}

theorem fromUTF8?_toUTF8 (text : String) : String.fromUTF8? text.toUTF8 = some text := by
  have valid : text.toUTF8.IsValidUTF8 := text.isValidUTF8
  rw [String.fromUTF8?, dif_pos valid]
  rfl

/-- A byte is never the sentinel. -/
theorem ofNat_byte_ne (byte : UInt8) : BitVec.ofNat 64 byte.toNat ≠ -1 := by
  have bound := byte.toNat_lt
  intro equal
  have value := congrArg BitVec.toNat equal
  simp at value
  omega

section
variable (holds : memory.Holds ptr text) (nulFree : NulFree text)
include holds nulFree

theorem StringMemory.Holds.scan_eq (limit : Nat) :
    memory.scan ptr.toNat limit = min text.toUTF8.size limit := by
  have rest : ∀ limit offset, offset ≤ text.toUTF8.size →
      memory.scan (ptr.toNat + offset) limit = min (text.toUTF8.size - offset) limit := by
    intro limit
    induction limit with
    | zero => simp [scan]
    | succ limit ih =>
      intro offset before
      rcases before.eq_or_lt with rfl | within
      · rw [scan, if_pos holds.terminated, Nat.sub_self, Nat.zero_min]
      · have nonzero : memory.byte (ptr.toNat + offset) ≠ 0 := by
          rw [holds.bytes offset within]
          exact nulFree offset within
        rw [scan, if_neg nonzero, Nat.add_assoc, ih (offset + 1) within]
        omega
  simpa using rest limit 0 (Nat.zero_le _)

/-- The host function decodes the stored text when its terminator is inside the limit. -/
theorem StringMemory.Holds.readSpectraString_eq :
    memory.readSpectraString ptr = if text.toUTF8.size < memory.stringScanLimitBytes ptr then some
      text else none := by
  simp only [readSpectraString, if_neg holds.notNull, holds.scan_eq nulFree]
  by_cases short : text.toUTF8.size < memory.stringScanLimitBytes ptr
  · rw [if_pos short, min_eq_left short.le, if_neg short.not_ge]
    have stored :
      (⟨((List.range text.toUTF8.size).map fun offset => memory.byte (ptr.toNat + offset)).toArray⟩
      : ByteArray) = text.toUTF8 := by
      refine ByteArray.ext (Array.ext (by simp) fun index inList within => ?_)
      have stored := holds.bytes index within
      simp only [List.getElem_toArray, List.getElem_map, List.getElem_range]
      exact stored
    rw [stored, fromUTF8?_toUTF8]
  · rw [if_neg short, min_eq_right (not_lt.mp short), if_pos le_rfl]

/-- Outside the scanned string the fast paths give the sentinel and the host function refuses. -/
theorem agreesWith_outside {index : I64}
    (outside : index.toInt < 0 ∨ min text.toUTF8.size (memory.stringScanLimitBytes ptr) ≤
      index.toNat) :
    AgreesWith (stdStringCharAt memory [ptr, index]) (scannedByte memory ptr index) := by
  have sentinel : scannedByte memory ptr index = -1 := by
    unfold scannedByte
    rw [holds.scan_eq nulFree]
    rcases outside with negative | past
    · rw [if_pos (.inr negative)]
    · rw [if_pos past, ite_self]
  have refused : stdStringCharAt memory [ptr, index] = .error hostStatusInvalidArgument := by
    simp only [stdStringCharAt, holds.readSpectraString_eq nulFree]
    by_cases short : text.toUTF8.size < memory.stringScanLimitBytes ptr
    · rw [min_eq_left short.le] at outside
      simp only [if_pos short]
      rw [dif_neg fun within => ?_]
      rcases outside with negative | past
      · exact absurd within.1 negative.not_ge
      · exact absurd within.2 past.not_gt
    · simp only [if_neg short]
  rw [sentinel, refused]
  refine ⟨fun value ok => ?_, fun _ => ⟨_, rfl⟩, fun _ => rfl⟩
  cases ok

/-- Inside the scanned string the fast paths read the byte. -/
theorem scannedByte_inside {index : I64} (nonneg : 0 ≤ index.toInt)
    (inside : index.toNat < text.toUTF8.size)
    (limited : index.toNat < memory.stringScanLimitBytes ptr) :
    scannedByte memory ptr index = .ofNat 64 text.toUTF8[index.toNat].toNat := by
  unfold scannedByte
  rw [if_neg (not_or.mpr ⟨holds.notNull, nonneg.not_gt⟩), holds.scan_eq nulFree,
    if_neg (lt_min inside limited).not_ge, holds.bytes _ inside]

end

/-- The fast paths agree with the host function exactly outside the string and at the character
boundaries of a string whose terminator is inside the scan limit. -/
theorem charAt_agreesWith_iff (holds : memory.Holds ptr text) (nulFree : NulFree text)
    (index : I64) :
    (AgreesWith (stdStringCharAt memory [ptr, index]) (stringCharAtFast memory ptr index) ∧
      AgreesWith (stdStringCharAt memory [ptr, index]) (spectraRtStringCharAt memory ptr index)) ↔
    index.toInt < 0 ∨ min text.toUTF8.size (memory.stringScanLimitBytes ptr) ≤ index.toNat ∨
      text.toUTF8.size < memory.stringScanLimitBytes ptr ∧ isCharBoundary text index.toNat =
        true := by
  rw [stringCharAtFast, spectraRtStringCharAt, and_self]
  by_cases outside : index.toInt < 0 ∨ min text.toUTF8.size (memory.stringScanLimitBytes ptr) ≤
    index.toNat
  · exact iff_of_true (agreesWith_outside holds nulFree outside) (outside.imp_right .inl)
  obtain ⟨nonneg, before⟩ := not_or.mp outside
  obtain ⟨inside, limited⟩ := lt_min_iff.mp (not_le.mp before)
  simp only [nonneg, before, false_or]
  rw [scannedByte_inside holds nulFree (not_lt.mp nonneg) inside limited]
  simp only [stdStringCharAt, holds.readSpectraString_eq nulFree]
  by_cases short : text.toUTF8.size < memory.stringScanLimitBytes ptr
  · simp only [if_pos short, dif_pos (And.intro (not_lt.mp nonneg) inside)]
    split_ifs with boundary
    · refine iff_of_true ⟨fun value ok => Except.ok.inj ok, ?_⟩ ⟨short, boundary⟩
      apply iff_of_false (ofNat_byte_ne _)
      rintro ⟨status, refused⟩
      cases refused
    · refine iff_of_false (fun agrees => ?_) fun both => boundary both.2
      exact ofNat_byte_ne _ (agrees.2.mpr ⟨_, rfl⟩)
  · simp only [if_neg short]
    refine iff_of_false (fun agrees => ?_) fun both => short both.1
    exact ofNat_byte_ne _ (agrees.2.mpr ⟨_, rfl⟩)

/-- The two bytes of `é` in a tracked allocation of three bytes. -/
def acuteMemory : StringMemory where
  byte address := if address = 1 then 0xC3 else if address = 2 then 0xA9 else 0
  size address := if address = 1 then some 3 else none

theorem acute_holds : acuteMemory.Holds 1 "é" ∧ NulFree "é" := by
  have size : "é".toUTF8.size = 2 := by decide
  refine ⟨⟨by decide, ?_, by decide, by decide⟩, ?_⟩
  · intro index within
    obtain rfl | rfl : index = 0 ∨ index = 1 := by omega
    · decide +revert
    · decide +revert
  · intro index within
    obtain rfl | rfl : index = 0 ∨ index = 1 := by omega
    · decide +revert
    · decide +revert

theorem charAt_agreesWith_acute : (acuteMemory.Holds 1 "é" ∧ NulFree "é") ∧
    ((AgreesWith (stdStringCharAt acuteMemory [1, 0]) (stringCharAtFast acuteMemory 1 0) ∧
      AgreesWith (stdStringCharAt acuteMemory [1, 0]) (spectraRtStringCharAt acuteMemory 1 0)) ↔
    (0 : I64).toInt < 0 ∨ min "é".toUTF8.size (acuteMemory.stringScanLimitBytes 1) ≤
      (0 : I64).toNat ∨
      "é".toUTF8.size < acuteMemory.stringScanLimitBytes 1 ∧ isCharBoundary "é" (0 : I64).toNat =
        true) :=
  ⟨acute_holds, charAt_agreesWith_iff acute_holds.1 acute_holds.2 0⟩

/-- Inside `é` the host function refuses, while the fast paths return the second byte. -/
theorem not_agreesWith_acute : (acuteMemory.Holds 1 "é" ∧ NulFree "é") ∧
    ¬ AgreesWith (stdStringCharAt acuteMemory [1, 1]) (stringCharAtFast acuteMemory 1 1) ∧
    ¬ AgreesWith (stdStringCharAt acuteMemory [1, 1]) (spectraRtStringCharAt acuteMemory 1 1) := by
  have refused : stdStringCharAt acuteMemory [1, 1] = .error hostStatusInvalidArgument := by
    simp only [stdStringCharAt, acute_holds.1.readSpectraString_eq acute_holds.2]
    decide
  have byte : scannedByte acuteMemory 1 1 = 0xA9 := by decide
  have differ : ¬ AgreesWith (stdStringCharAt acuteMemory [1, 1])
    (scannedByte acuteMemory 1 1) := by
    intro agrees
    rw [refused, byte] at agrees
    exact absurd (agrees.2.mpr ⟨_, rfl⟩) (by decide)
  exact ⟨acute_holds, differ, differ⟩

end SpectraLang

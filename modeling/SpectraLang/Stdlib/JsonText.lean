import SpectraLang.Stdlib.Text

/-! # JSON string bodies

`escape_json` and `unescape_json` of `std.text`. The escaper copies whole characters except for
quotes, backslashes and control characters; the unescaper also knows the escapes that the escaper
does not write.
-/

namespace SpectraLang.Stdlib.JsonText

open List Utf8

/-- `push_code`: nothing for a number that is not a character. -/
def pushCode (builder : Text) (code : Int) : Text := builder ++ (fromScalar code).getD []

/-- `hex_digit`. -/
def hexDigit (value : Int) : Int :=
  if value < 10 then 48 + value else 87 + value

/-- `hex_value`, -1 for anything else. -/
def hexValue (code : Int) : Int :=
  if 48 ≤ code ∧ code ≤ 57 then code - 48
  else if 97 ≤ code ∧ code ≤ 102 then code - 87
  else if 65 ≤ code ∧ code ≤ 70 then code - 55
  else -1

/-- One character of `escape_json`: the new text and the bytes passed. -/
def escapeStep (value : Text) (index : Nat) (builder : Text) : Text × Nat :=
  let code := charAt value index
  if code = 34 then (builder ++ ['\\', '"'], 1)
  else if code = 92 then (builder ++ ['\\', '\\'], 1)
  else if code = 8 then (builder ++ ['\\', 'b'], 1)
  else if code = 12 then (builder ++ ['\\', 'f'], 1)
  else if code = 10 then (builder ++ ['\\', 'n'], 1)
  else if code = 13 then (builder ++ ['\\', 'r'], 1)
  else if code = 9 then (builder ++ ['\\', 't'], 1)
  else if code < 32 then
    (pushCode (pushCode (builder ++ ['\\', 'u', '0', '0']) (hexDigit (code / 16)))
      (hexDigit (code % 16)), 1)
  else if code < 128 then (pushCode builder code, 1)
  else (builder ++ substring value index (index + runeStep code), runeStep code)

/-- The loop of `escape_json`; every turn moves the index. -/
def escapeLoop (value : Text) (length : Nat) : Nat → Nat → Text → Text
  | 0, _, builder => builder
  | turns + 1, index, builder =>
    if index < length then
      let (builder, step) := escapeStep value index builder
      escapeLoop value length turns (index + step) builder
    else builder

def escapeJson (value : Text) : Text := escapeLoop value (len value) (len value) 0 []

/-- `simple_escape_code`, -1 for anything else. -/
def simpleEscapeCode (escape : Int) : Int :=
  if escape = 34 then 34
  else if escape = 92 then 92
  else if escape = 47 then 47
  else if escape = 98 then 8
  else if escape = 102 then 12
  else if escape = 110 then 10
  else if escape = 114 then 13
  else if escape = 116 then 9
  else -1

/-- The loop of `read_hex4` over the digits still to come. -/
def hexLoop (text : Text) (offset : Nat) : Nat → Nat → Int → Int
  | 0, _, value => value
  | digits + 1, index, value =>
    let digit := hexValue (charAt text (offset + index))
    if digit < 0 then -1 else hexLoop text offset digits (index + 1) (value * 16 + digit)

/-- `read_hex4`, -1 without four hexadecimal digits. -/
def readHex4 (text : Text) (offset : Nat) : Int :=
  if len text < offset + 4 then -1 else hexLoop text offset 4 0 0

/-- `push_scalar`: the index behind the escape and the new text, if the number is a character. -/
def pushScalar (builder : Text) (scalar : Int) (next : Nat) : Option (Nat × Text) :=
  (fromScalar scalar).map fun piece => (next, builder ++ piece)

/-- `apply_unicode_escape`: a surrogate pair is one character, a lone surrogate is invalid. -/
def applyUnicodeEscape (value : Text) (index : Nat) (builder : Text) : Option (Nat × Text) :=
  let high := readHex4 value (index + 2)
  if high < 0 then none
  else if 56320 ≤ high ∧ high ≤ 57343 then none
  else if high < 55296 ∨ 56319 < high then pushScalar builder high (index + 6)
  else if len value < index + 12 then none
  else if charAt value (index + 6) ≠ 92 ∨ charAt value (index + 7) ≠ 117 then none
  else
    let low := readHex4 value (index + 8)
    if low < 56320 ∨ 57343 < low then none
    else pushScalar builder (65536 + (high - 55296) * 1024 + (low - 56320)) (index + 12)

/-- `apply_escape`: the index behind the escape and the new text. -/
def applyEscape (value : Text) (index : Nat) (builder : Text) : Option (Nat × Text) :=
  if len value ≤ index + 1 then none
  else
    let escape := charAt value (index + 1)
    let simple := simpleEscapeCode escape
    if 0 ≤ simple then some (index + 2, pushCode builder simple)
    else if escape ≠ 117 then none
    else applyUnicodeEscape value index builder

/-- The loop of `unescape_json`. -/
def unescapeLoop (value : Text) (length : Nat) : Nat → Nat → Text → Option Text
  | 0, _, builder => some builder
  | turns + 1, index, builder =>
    if index < length then
      if charAt value index = 92 then
        match applyEscape value index builder with
        | none => none
        | some (next, builder) => unescapeLoop value length turns next builder
      else
        let step := runeStep (charAt value index)
        unescapeLoop value length turns (index + step)
          (builder ++ substring value index (index + step))
    else some builder

def unescapeJson (value : Text) : Option Text := unescapeLoop value (len value) (len value) 0 []

/-- The digit of a number below sixteen. -/
def hexChar (digit : Nat) : Char := Char.ofNat (if digit < 10 then 48 + digit else 87 + digit)

/-- The escape of a control character. -/
def controlEscape (c : Char) : Text :=
  ['\\', 'u', '0', '0', hexChar (c.toNat / 16), hexChar (c.toNat % 16)]

/-- The escape of one character. -/
def escapeChar (c : Char) : Text :=
  if c = '"' then ['\\', '"']
  else if c = '\\' then ['\\', '\\']
  else if c = '\x08' then ['\\', 'b']
  else if c = '\x0c' then ['\\', 'f']
  else if c = '\n' then ['\\', 'n']
  else if c = '\r' then ['\\', 'r']
  else if c = '\t' then ['\\', 't']
  else if c.toNat < 32 then controlEscape c
  else [c]

theorem pushCode_hexDigit {digit : Nat} (small : digit < 16) (builder : Text) :
    pushCode builder (hexDigit digit) = builder ++ [hexChar digit] := by
  have each : ∀ digit < 16, fromScalar (hexDigit (digit : Nat)) = some [hexChar digit] := by decide
  rw [pushCode, each digit small, Option.getD_some]

variable {c : Char} {value before rest : Text}

theorem escapeChar_of_le (wide : 128 ≤ c.toNat) : escapeChar c = [c] := by
  unfold escapeChar
  split_ifs <;> first | rfl | omega | (subst_vars; exact absurd wide (by decide))

theorem escapeStep_narrow {index : Nat} (byte : charAt value index = lead c) (ascii : c.toNat < 128)
    (nonzero : c ≠ '\x00') (builder : Text) :
      escapeStep value index builder = (builder ++ escapeChar c, 1) := by
  have same : (lead c : Int) = c.toNat := by rw [lead_of_lt ascii]
  have isChar (d : Char) : c = d ↔ (c.toNat : Int) = d.toNat := by
    rw [Int.natCast_inj, Char.toNat_inj]
  have control : (c.toNat : Int) < 32 ↔ c.toNat < 32 := by omega
  unfold escapeStep escapeChar
  simp only [byte, same, isChar, Char.reduceToNat, Int.cast_ofNat_Int, control,
    if_pos (by omega : (c.toNat : Int) < 128)]
  split_ifs with _ _ _ _ _ _ _ small
  any_goals rfl
  · have high : (c.toNat : Int) / 16 = ((c.toNat / 16 : Nat) : Int) := by omega
    have low : (c.toNat : Int) % 16 = ((c.toNat % 16 : Nat) : Int) := by omega
    rw [high, low, pushCode_hexDigit (by omega), pushCode_hexDigit (by omega), append_assoc,
      append_assoc]
    rfl
  · rw [pushCode, fromScalar_toNat nonzero, Option.getD_some]

theorem escapeStep_len (split : value = before ++ c :: rest) (nonzero : c ≠ '\x00')
    (builder : Text) :
    escapeStep value (len before) builder = (builder ++ escapeChar c, size c) := by
  obtain ⟨-, byte, copied, -⟩ := atChar split
  by_cases ascii : c.toNat < 128
  · rw [escapeStep_narrow byte ascii nonzero, size_of_lt ascii]
  · have wide := lead_of_le (Nat.not_lt.mp ascii)
    simp (disch := omega) only [escapeStep, byte, if_neg]
    rw [runeStep_lead, copied, escapeChar_of_le (Nat.not_lt.mp ascii)]

theorem escapeLoop_eq {value : Text} (nulFree : NulFree value) (builder : Text) :
    escapeLoop value (len value) (len value) 0 builder = builder ++ value.flatMap escapeChar := by
  refine appendLoop_eq (fun turns output => ?_) (fun before c rest turns output split => ?_) builder
  · cases turns <;> simp [escapeLoop]
  · have nonzero : c ≠ '\x00' := by
      rintro rfl
      exact nulFree (split ▸ mem_append_right before mem_cons_self)
    rw [escapeLoop, if_pos (atChar split).within, escapeStep_len split nonzero]

/-- Every character is escaped on its own. -/
theorem escapeJson_eq (nulFree : NulFree value) : escapeJson value = value.flatMap escapeChar :=
  escapeLoop_eq nulFree []

theorem hexChar_spec : ∀ digit < 16, (hexChar digit).toNat < 128 ∧ hexValue (hexChar digit).toNat =
    digit := by
  decide

theorem controlEscape_narrow (control : c.toNat < 32) : ∀ d ∈ controlEscape c, d.toNat < 128 := by
  simp only [controlEscape, forall_mem_cons, not_mem_nil, false_implies, implies_true, and_true]
  exact ⟨by
    decide, by decide, by
    decide, by decide, (hexChar_spec _ (by omega)).1, (hexChar_spec _ (by omega)).1⟩

/-- A control character is read back from its four digits. -/
theorem readHex4_control (control : c.toNat < 32)
    (split : value = before ++ (controlEscape c ++ rest)) :
    readHex4 value (len before + 2) = c.toNat := by
  have ascii := controlEscape_narrow control
  have digit (offset : Nat) {d : Char} (here : (controlEscape c)[offset]? = some d) :
      charAt value (len before + offset) = d.toNat := by
    rw [split]
    exact charAt_narrow ascii before rest here
  have long : ¬ len value < len before + 2 + 4 := by
    rw [split, len_append, len_append, len_narrow ascii]
    simp only [controlEscape, length_cons, length_nil]
    omega
  have zero : hexValue '0'.toNat = 0 := by decide
  rw [readHex4, if_neg long]
  simp only [hexLoop, Nat.add_assoc, Nat.reduceAdd, digit 2 rfl, digit 3 rfl, digit 4 rfl,
    digit 5 rfl, zero,
    (hexChar_spec (c.toNat / 16) (by omega)).2, (hexChar_spec (c.toNat % 16) (by omega)).2]
  rw [if_neg (by omega), if_neg (by omega), if_neg (by omega)]
  omega

theorem applyUnicodeEscape_control (control : c.toNat < 32) (nonzero : c ≠ '\x00')
    (split : value = before ++ (controlEscape c ++ rest)) (builder : Text) :
    applyUnicodeEscape value (len before) builder = some (len before + 6, builder ++ [c]) := by
  unfold applyUnicodeEscape
  simp only [readHex4_control control split]
  rw [if_neg (by omega), if_neg (by omega), if_pos (by omega), pushScalar, fromScalar_toNat nonzero,
    Option.map_some]

/-- A character is escaped by a letter, by its digits, or not at all. -/
theorem escapeChar_cases (c : Char) :
    (∃ letter : Char, escapeChar c = ['\\', letter] ∧
      letter ∈ ['"', '\\', '/', 'b', 'f', 'n', 'r', 't'] ∧
      simpleEscapeCode letter.toNat = c.toNat) ∨ (c.toNat < 32 ∧ escapeChar c = controlEscape c) ∨
    (32 ≤ c.toNat ∧ c ≠ '"' ∧ c ≠ '\\' ∧ escapeChar c = [c]) := by
  unfold escapeChar
  split_ifs with quote backslash _ _ _ _ _ control
  iterate 7 exact .inl ⟨_, rfl, by decide, by subst_vars; decide⟩
  · exact .inr (.inl ⟨control, rfl⟩)
  · exact .inr (.inr ⟨by omega, quote, backslash, rfl⟩)

theorem letter_narrow : ∀ letter ∈ ['"', '\\', '/', 'b', 'f', 'n', 'r', 't'],
    letter.toNat < 128 := by
  simp

/-- An escape is at least two narrow characters, the first of them a backslash. -/
theorem unescapeLoop_escape {narrow : Text} (ascii : ∀ d ∈ '\\' :: narrow, d.toNat < 128)
    (split : value = before ++ ('\\' :: narrow ++ rest)) {builder : Text}
    (escape : applyEscape value (len before) builder = some
      (len before + len ('\\' :: narrow), builder ++ [c]))
    (turns : Nat) :
    unescapeLoop value (len value) (turns + 1) (len before) builder =
      unescapeLoop value (len value) turns (len before + len ('\\' :: narrow))
        (builder ++ [c]) := by
  have first := @charAt_narrow '\\' _ ascii before rest 0 rfl
  rw [← split, Nat.add_zero] at first
  have isBackslash : (('\\'.toNat : Nat) : Int) = 92 := by decide
  have within : len before < len value := by
    rw [split, len_append, len_append, len_narrow ascii, length_cons]
    omega
  rw [unescapeLoop, if_pos within, first, if_pos isBackslash, escape]

/-- One turn of the unescaper reads back what was written for one character. -/
theorem unescapeLoop_escapeChar (nonzero : c ≠ '\x00')
    (split : value = before ++ (escapeChar c ++ rest)) (turns : Nat)
    (builder : Text) :
    unescapeLoop value (len value) (turns + 1) (len before) builder =
      unescapeLoop value (len value) turns (len before + len (escapeChar c)) (builder ++ [c]) := by
  rcases escapeChar_cases c with ⟨letter, shape, known, meaning⟩ | ⟨control, shape⟩ |
    ⟨visible, -, backslash, shape⟩
  · rw [shape] at split ⊢
    have ascii : ∀ d ∈ ['\\', letter], d.toNat < 128 := by
      simp only [forall_mem_cons, not_mem_nil, false_implies, implies_true, and_true]
      exact ⟨by decide, letter_narrow letter known⟩
    have second := @charAt_narrow letter _ ascii before rest 1 rfl
    rw [← split] at second
    refine unescapeLoop_escape ascii split ?_ turns
    rw [len_narrow ascii, applyEscape,
      if_neg (by rw [split, len_append, len_append, len_narrow ascii]; simp; omega)]
    simp only [second, meaning]
    rw [if_pos (Int.natCast_nonneg _), pushCode, fromScalar_toNat nonzero, Option.getD_some]
    rfl
  · rw [shape] at split ⊢
    have ascii := controlEscape_narrow control
    have second := @charAt_narrow 'u' _ ascii before rest 1 rfl
    rw [← split] at second
    have simple : simpleEscapeCode 'u'.toNat = -1 := by decide
    refine unescapeLoop_escape ascii split ?_ turns
    change _ = some (len before + len (controlEscape c), _)
    rw [len_narrow ascii, applyEscape,
      if_neg (by rw [split, len_append, len_append, len_narrow ascii]; simp [controlEscape]; omega)]
    simp only [second, simple]
    rw [if_neg (by decide), if_neg (by decide), applyUnicodeEscape_control control nonzero split]
    rfl
  · rw [shape] at split ⊢
    obtain ⟨within, byte, copied, -⟩ := atChar split
    have isBackslash : (lead c : Int) = 92 ↔ c = '\\' := @lead_eq_code c '\\' (by decide)
    rw [unescapeLoop, if_pos within, byte, if_neg (mt isBackslash.mp backslash)]
    simp only [runeStep_lead, copied, len_cons, len_nil, Nat.add_zero]

theorem unescapeLoop_eq {value : Text} {turns : Nat} {before text builder : Text}
    (split : value = before ++ text.flatMap escapeChar) (nulFree : NulFree text)
      (enough : text.length ≤ turns) :
    unescapeLoop value (len value) turns (len before) builder = some (builder ++ text) := by
  induction text generalizing turns before builder with
  | nil =>
    rw [flatMap_nil, append_nil] at split
    rw [append_nil, split]
    cases turns with
    | zero => rfl
    | succ turns => rw [unescapeLoop, if_neg (Nat.lt_irrefl _)]
  | cons c text ih =>
    obtain ⟨nonzero, others⟩ := not_or.mp (mt mem_cons.mpr nulFree)
    obtain ⟨turns, rfl⟩ : ∃ fewer, turns = fewer + 1 :=
      Nat.exists_eq_succ_of_ne_zero (by rw [length_cons] at enough; omega)
    rw [flatMap_cons] at split
    rw [unescapeLoop_escapeChar (Ne.symm nonzero) split, ← len_append,
      ih (by rw [split, append_assoc]) others (by rw [length_cons] at enough; omega), append_assoc,
      singleton_append]

theorem length_le_escaped (text : Text) : text.length ≤ (text.flatMap escapeChar).length := by
  induction text with
  | nil => exact Nat.le_refl 0
  | cons c text ih =>
    have nonempty : 0 < (escapeChar c).length := by
      rcases escapeChar_cases c with ⟨letter, shape, -⟩ | ⟨-, shape⟩ | ⟨-, -, -, shape⟩ <;>
        exact shape ▸ Nat.succ_pos _
    rw [flatMap_cons, length_append, length_cons]
    omega

def isHexDigit (c : Char) : Bool := 0 ≤ hexValue c.toNat

/-- The body of a JSON string: characters from U+0020 on other than quotes and backslashes, and
escapes. -/
inductive Body : Text → Prop where
  | nil : Body []
  | plain {c : Char} {rest : Text} (visible : 32 ≤ c.toNat) (quote : c ≠ '"') (backslash : c ≠ '\\')
      (more : Body rest) :
    Body (c :: rest)
  | letter {letter : Char} {rest : Text}
      (known : letter ∈ ['"', '\\', '/', 'b', 'f', 'n', 'r', 't']) (more : Body rest) :
    Body ('\\' :: letter :: rest)
  | unicode {first second third fourth : Char} {rest : Text}
    (digits : ∀ c ∈ [first, second, third, fourth], isHexDigit c = true) (more : Body rest) :
    Body ('\\' :: 'u' :: first :: second :: third :: fourth :: rest)

theorem Body.escapeChar_append (c : Char) (more : Body rest) : Body (escapeChar c ++ rest) := by
  rcases escapeChar_cases c with ⟨letter, shape, known, -⟩ | ⟨control, shape⟩ |
    ⟨visible, quote, backslash, shape⟩
  · rw [shape]
    exact .letter known more
  · have digit {value : Nat} (small : value < 16) : isHexDigit (hexChar value) = true := by
      rw [isHexDigit, (hexChar_spec value small).2]
      exact decide_eq_true (Int.natCast_nonneg value)
    rw [shape]
    refine .unicode ?_ more
    simp only [forall_mem_cons, not_mem_nil, false_implies, implies_true, and_true]
    exact ⟨by decide, by decide, digit (by omega), digit (by omega)⟩
  · rw [shape]
    exact .plain visible quote backslash more

theorem body_escaped (text : Text) : Body (text.flatMap escapeChar) := by
  induction text with
  | nil => exact .nil
  | cons c text ih =>
    rw [flatMap_cons]
    exact ih.escapeChar_append c

theorem Body.visible {text : Text} (body : Body text) : ∀ c ∈ text, 32 ≤ c.toNat := by
  have letters : ∀ letter ∈ ['"', '\\', '/', 'b', 'f', 'n', 'r', 't'], 32 ≤ letter.toNat := by simp
  have digits {c : Char} (digit : isHexDigit c = true) : 32 ≤ c.toNat := by
    unfold isHexDigit hexValue at digit
    split_ifs at digit <;> first | omega | simp at digit
  induction body with
  | nil => simp
  | plain visible _ _ _ ih => exact forall_mem_cons.mpr ⟨visible, ih⟩
  | letter known _ ih =>
    exact forall_mem_cons.mpr ⟨by decide, forall_mem_cons.mpr ⟨letters _ known, ih⟩⟩
  | unicode known _ ih =>
    simp only [forall_mem_cons, not_mem_nil, false_implies, implies_true, and_true] at known ⊢
    exact ⟨by
      decide, by
      decide, digits known.1, digits known.2.1, digits known.2.2.1, digits known.2.2.2, ih⟩

/-- Escaped text is read back, and it is the body of a JSON string without control characters. -/
theorem json_round_trip {text : Text} (nulFree : NulFree text) :
    unescapeJson (escapeJson text) = some text ∧ (∀ c ∈ escapeJson text, 32 ≤ c.toNat) ∧
      Body (escapeJson text) := by
  rw [escapeJson_eq nulFree]
  have body := body_escaped text
  refine ⟨?_, body.visible, body⟩
  have read := @unescapeLoop_eq (text.flatMap escapeChar) (len (text.flatMap escapeChar)) [] text
    [] rfl nulFree (Nat.le_trans (length_le_escaped text) (length_le_len _))
  rwa [len_nil, nil_append] at read

theorem json_round_trip_quoted : unescapeJson (escapeJson "a\"\\\n\x01é".toList) =
    some "a\"\\\n\x01é".toList :=
  (json_round_trip (by unfold NulFree; decide)).1

end SpectraLang.Stdlib.JsonText

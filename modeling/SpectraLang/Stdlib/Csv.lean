import SpectraLang.Stdlib.Text

/-! # Comma-separated values

`std.csv`: a scanner over byte offsets with a quoted and an unquoted state, and the canonical
writer. The scanner is first shown to read character by character, then to give back every table
that was written.
-/

namespace SpectraLang.Stdlib.Csv

open List Utf8

/-- The offset behind the character that starts with the given byte. -/
def stride (byte : Int) (index length : Nat) : Nat :=
  let step := if 240 ≤ byte then 4 else if 224 ≤ byte then 3 else if 192 ≤ byte then 2 else 1
  if length < index + step then length else index + step

/-- `append_chunk`. -/
def appendChunk (builder text : Text) (start stop : Nat) : Text :=
  if start < stop then builder ++ substring text start stop else builder

/-- `after_separator`: CR consumes a following LF. -/
def afterSeparator (text : Text) (byte : Int) (index length : Nat) : Nat :=
  if byte = 13 ∧ index + 1 < length ∧ charAt text (index + 1) = 10 then index + 2 else index + 1

/-- The end of input: an open quote is an error. -/
def endRecord (text : Text) (length fieldStart : Nat) (quoted : Bool) (builder : Text)
    (fields : List Text) : Option (List Text × Nat) :=
  if quoted then none else some (fields ++ [appendChunk builder text fieldStart length], length)

/-- The loop of `scan_record`; every turn moves the index, so the length bounds the turns. -/
def scanLoop (text : Text) (length : Nat) :
    Nat → Nat → Nat → Bool → Text → List Text → Option (List Text × Nat)
  | 0, _, fieldStart, quoted, builder, fields =>
    endRecord text length fieldStart quoted builder fields
  | turns + 1, index, fieldStart, quoted, builder, fields =>
    if index < length then
      let byte := charAt text index
      if byte = 34 then
        let builder := appendChunk builder text fieldStart index
        if quoted ∧ index + 1 < length ∧ charAt text (index + 1) = 34 then
          scanLoop text length turns (index + 2) (index + 2) quoted (builder ++ ['"']) fields
        else scanLoop text length turns (index + 1) (index + 1) (!quoted) builder fields
      else if quoted then scanLoop text length turns (stride byte index length) fieldStart quoted
        builder fields
      else if byte = 44 then
        scanLoop text length turns (index + 1) (index + 1) quoted []
          (fields ++ [appendChunk builder text fieldStart index])
      else if byte = 10 ∨ byte = 13 then
        some (fields ++ [appendChunk builder text fieldStart index],
          afterSeparator text byte index length)
      else scanLoop text length turns (stride byte index length) fieldStart quoted builder fields
    else endRecord text length fieldStart quoted builder fields

/-- `scan_record`. -/
def scanRecord (text : Text) (start length : Nat) : Option (List Text × Nat) :=
  scanLoop text length length start start false [] []

/-- The loop of `parse`. -/
def parseLoop (text : Text) (length : Nat) : Nat → Nat → List (List Text) →
    Option (List (List Text))
  | 0, _, records => some records
  | turns + 1, index, records =>
    if index < length then
      match scanRecord text index length with
      | none => none
      | some (fields, next) => parseLoop text length turns next (records ++ [fields])
    else some records

def parse (text : Text) : Option (List (List Text)) := parseLoop text (len text) (len text) 0 []

/-- `needs_quoting`. -/
def needsQuoting (text : Text) : Bool := ',' ∈ text || '"' ∈ text || '\r' ∈ text || '\n' ∈ text

/-- The loop of `quote_field` over the characters of a field. -/
def quoteLoop (text : Text) (length : Nat) : Nat → Nat → Text → Text
  | 0, _, builder => builder
  | turns + 1, index, builder =>
    if index < length then
      let byte := charAt text index
      if byte = 34 then quoteLoop text length turns (index + 1) (builder ++ ['"', '"'])
      else
        let next := stride byte index length
        quoteLoop text length turns next (builder ++ substring text index next)
    else builder

/-- `quote_field`. -/
def quoteField (text : Text) : Text :=
  if needsQuoting text then quoteLoop text (len text) (len text) 0 ['"'] ++ ['"'] else text

/-- `append_row`: the fields between commas, then LF. -/
def appendRow (fields : List Text) : Text :=
  (fields.zipIdx.flatMap fun entry => (if 0 < entry.2 then [','] else []) ++ quoteField entry.1) ++
    ['\n']

def write (rows : List (List Text)) : Text := rows.flatMap appendRow

/-- A record read character by character, with the rest of the text. -/
def readRecord : Text → Bool → Text → List Text → Option (List Text × Text)
  | [], quoted, field, fields => if quoted then none else some (fields ++ [field], [])
  | c :: rest, quoted, field, fields =>
    if c = '"' then
      if quoted ∧ rest.head? = some '"' then readRecord rest.tail quoted (field ++ ['"']) fields
      else readRecord rest (!quoted) field fields
    else if quoted then readRecord rest quoted (field ++ [c]) fields
    else if c = ',' then readRecord rest quoted [] (fields ++ [field])
    else if c = '\n' then some (fields ++ [field], rest)
    else if c = '\r' then some
      (fields ++ [field], if rest.head? = some '\n' then rest.tail else rest)
    else readRecord rest quoted (field ++ [c]) fields
termination_by text => text.length
decreasing_by all_goals simp only [length_cons, length_tail]; omega

theorem stride_lead (text : Text) (c : Char) (rest : Text) :
    stride (lead c) (len text) (len (text ++ c :: rest)) = len text + size c := by
  have wide := @lead_of_le c
  have narrow := @lead_lt_iff c
  have step :
    (if (240 : Int) ≤ lead c then 4 else if (224 : Int) ≤ lead c then 3 else if (192 : Int) ≤
    lead c then 2 else 1) = size c := by
    rw [size_eq_step]
    unfold Utf8.step
    split_ifs <;> omega
  unfold stride
  simp only [step]
  rw [if_neg]
  simp only [len_append, len_cons]
  omega

theorem appendChunk_len (builder text chunk rest : Text) :
    appendChunk builder (text ++ chunk ++ rest) (len text) (len text + len chunk) = builder ++
      chunk := by
  unfold appendChunk
  split_ifs with nonempty
  · rw [substring_len]
  · have empty : chunk = [] := len_eq_zero.mp (by omega)
    rw [empty, append_nil]

variable {text : Text} {rows : List (List Text)} {turns : Nat}

theorem afterSeparator_lead {before rest : Text} {c : Char} (split : text = before ++ c :: rest)
    (separator : c = '\n' ∨ c = '\r') : afterSeparator text (lead c) (len before) (len text) =
      len text - len (if c = '\r' ∧ rest.head? = some '\n' then rest.tail else rest) := by
  have narrow : size c = 1 := by rcases separator with rfl | rfl <;> decide
  have isReturn : (lead c : Int) = 13 ↔ c = '\r' := @lead_eq_code c '\r' (by decide)
  have next := @charAt_next c text before rest '\n' split narrow (by decide)
  have total : len text = len before + 1 + len rest := by
    rw [split, len_append, len_cons, narrow, Nat.add_assoc]
  unfold afterSeparator
  by_cases both : c = '\r' ∧ rest.head? = some '\n'
  · rw [if_pos ⟨isReturn.mpr both.1, next.mpr both.2⟩, if_pos both]
    cases rest with
    | nil => simp at both
    | cons d rest =>
      have one : size d = 1 := by
        rw [Option.some.inj both.2]
        decide
      rw [tail_cons, total, len_cons, one]
      omega
  · rw [if_neg fun found => both ⟨isReturn.mp found.1, next.mp found.2⟩, if_neg both, total]
    omega

theorem endRecord_eq {before chunk : Text} (split : text = before ++ chunk) (quoted : Bool)
    (builder : Text) (fields : List Text) :
    endRecord text (len text) (len before) quoted builder fields =
      (readRecord [] quoted (builder ++ chunk) fields).map fun record =>
        (record.1, len text - len record.2) := by
  have copied := appendChunk_len builder before chunk []
  rw [append_nil, ← len_append] at copied
  rw [endRecord, readRecord, split, copied]
  cases quoted with
  | true | false => rfl

/-- With so many turns the scanner reads character by character; `chunk` is what the current field
will copy next. -/
def ScansRecord (text : Text) (turns : Nat) : Prop :=
  ∀ before chunk rest quoted builder fields, text = before ++ chunk ++ rest → len rest ≤ turns →
    scanLoop text (len text) turns (len before + len chunk) (len before) quoted builder fields =
      (readRecord rest quoted (builder ++ chunk) fields).map fun record =>
        (record.1, len text - len record.2)

section
variable {turns : Nat} {before chunk rest : Text} {c : Char} (scans : ScansRecord text turns)
  (split : text = before ++ chunk ++ c :: rest) (fewer : len rest ≤ turns)
include scans split fewer

/-- An ordinary character joins the chunk. -/
theorem scanLoop_ordinary (quoted : Bool) (builder : Text) (fields : List Text) :
    scanLoop text (len text) turns (stride (lead c) (len before + len chunk) (len text))
        (len before) quoted builder fields =
      (readRecord rest quoted (builder ++ chunk ++ [c]) fields).map fun record =>
        (record.1, len text - len record.2) := by
  have moved : stride (lead c) (len before + len chunk) (len text) =
      len before + len (chunk ++ [c]) := by
    rw [split, ← len_append, stride_lead]
    simp only [len_append, len_cons, len_nil]
    omega
  rw [moved, scans before (chunk ++ [c]) rest quoted builder fields (by rw [split]; simp) fewer,
    append_assoc builder]

/-- Behind a delimiter the next chunk is empty. -/
theorem scanLoop_restart (quoted : Bool) (builder : Text) (fields : List Text)
    (narrow : size c = 1) :
    scanLoop text (len text) turns (len before + len chunk + 1) (len before + len chunk + 1) quoted
        builder fields =
      (readRecord rest quoted builder fields).map fun record =>
        (record.1, len text - len record.2) := by
  have fresh := scans (before ++ chunk ++ [c]) [] rest quoted builder fields (by rw [split]; simp)
    fewer
  simpa only [len_append, len_cons, len_nil, narrow, Nat.add_zero, append_nil] using fresh

/-- A doubled quote is one quote of the field. -/
theorem scanLoop_doubled {more : Text} (isQuote : c = '"') (doubled : rest = '"' :: more)
    (quoted : Bool) (builder : Text) (fields : List Text) :
    scanLoop text (len text) turns (len before + len chunk + 1 + 1) (len before + len chunk + 1 + 1)
        quoted builder fields =
      (readRecord more quoted builder fields).map fun record =>
        (record.1, len text - len record.2) := by
  subst isQuote doubled
  have one : size '"' = 1 := by decide
  have fresh := scans (before ++ chunk ++ ['"', '"']) [] more quoted builder fields
    (by rw [split]; simp) (by rw [len_cons] at fewer; omega)
  simpa only [len_append, len_cons, len_nil, one, Nat.add_zero, append_nil] using fresh

end

theorem scansRecord (text : Text) (turns : Nat) : ScansRecord text turns := by
  induction turns with
  | zero =>
    intro before chunk rest quoted builder fields split enough
    obtain rfl : rest = [] := len_eq_zero.mp (by omega)
    rw [append_nil] at split
    rw [scanLoop]
    exact endRecord_eq split quoted builder fields
  | succ turns ih =>
    intro before chunk rest quoted builder fields split enough
    cases rest with
    | nil =>
      rw [append_nil] at split
      rw [scanLoop, if_neg (by rw [split, len_append]; omega)]
      exact endRecord_eq split quoted builder fields
    | cons c rest =>
      have position : len before + len chunk = len (before ++ chunk) := (len_append ..).symm
      obtain ⟨within, byte, -, -⟩ := atChar split
      rw [← position] at within byte
      have copied : appendChunk builder text (len before) (len before + len chunk) =
          builder ++ chunk := by
        rw [split, appendChunk_len]
      have isQuote : (lead c : Int) = 34 ↔ c = '"' := @lead_eq_code c '"' (by decide)
      have isComma : (lead c : Int) = 44 ↔ c = ',' := @lead_eq_code c ',' (by decide)
      have isNewline : (lead c : Int) = 10 ↔ c = '\n' := @lead_eq_code c '\n' (by decide)
      have isReturn : (lead c : Int) = 13 ↔ c = '\r' := @lead_eq_code c '\r' (by decide)
      have fewer : len rest ≤ turns := by
        have := size_pos c
        rw [len_cons] at enough
        omega
      rw [scanLoop, if_pos within, readRecord]
      simp only [byte, copied, isQuote, isComma, isNewline, isReturn]
      by_cases quote : c = '"'
      · have narrow : size c = 1 := by rw [quote]; decide
        have next : len before + len chunk + 1 < len text ∧
            charAt text (len before + len chunk + 1) = 34 ↔ rest.head? = some '"' :=
          position ▸ @charAt_next c text (before ++ chunk) rest '"' split narrow (by decide)
        simp only [if_pos quote, next]
        split_ifs with doubled
        · obtain ⟨more, rfl⟩ : ∃ more, rest = '"' :: more := by
            cases rest with
            | nil => simp at doubled
            | cons d more => exact ⟨more, by simpa using doubled.2⟩
          exact scanLoop_doubled ih split fewer quote rfl quoted _ fields
        · exact scanLoop_restart ih split fewer _ _ _ narrow
      · simp only [if_neg quote]
        by_cases ends : c = '\n' ∨ c = '\r'
        · have comma : c ≠ ',' := by rcases ends with rfl | rfl <;> decide
          have ordinary := scanLoop_ordinary ih split fewer
          simp only [if_neg comma, if_pos ends, position, afterSeparator_lead split ends]
          split_ifs <;> simp_all
        · simp only [not_or.mp ends, or_self, if_false]
          split_ifs with inside comma
          · exact scanLoop_ordinary ih split fewer quoted builder fields
          · exact scanLoop_restart ih split fewer _ _ _ (by rw [comma]; decide)
          · exact scanLoop_ordinary ih split fewer quoted builder fields

/-- A record is read from its offset to the next. -/
theorem scanRecord_len (before rest : Text) :
    scanRecord (before ++ rest) (len before) (len (before ++ rest)) =
    (readRecord rest false [] []).map fun record =>
      (record.1, len (before ++ rest) - len record.2) := by
  have scanned := scansRecord (before ++ rest) (len (before ++ rest)) before [] rest false [] []
    (by rw [append_nil]) (by rw [len_append]; omega)
  rwa [len_nil, Nat.add_zero, append_nil] at scanned

/-- An inner quote is doubled. -/
def doubled (c : Char) : Text :=
  if c = '"' then ['"', '"'] else [c]

theorem quoteLoop_eq (text builder : Text) :
    quoteLoop text (len text) (len text) 0 builder = builder ++ text.flatMap doubled := by
  refine appendLoop_eq (fun turns output => ?_) (fun before c rest turns output split => ?_) builder
  · cases turns <;> simp [quoteLoop]
  · obtain ⟨within, byte, copied, -⟩ := atChar split
    have isQuote : (lead c : Int) = 34 ↔ c = '"' := @lead_eq_code c '"' (by decide)
    rw [quoteLoop, if_pos within]
    simp only [byte]
    by_cases quote : c = '"'
    · have narrow : size c = 1 := by rw [quote]; decide
      rw [if_pos (isQuote.mpr quote), doubled, if_pos quote, narrow]
    · have moved : stride (lead c) (len before) (len text) = len before + size c := by
        rw [split, stride_lead]
      rw [if_neg (mt isQuote.mp quote), moved, copied, doubled, if_neg quote]

theorem quoteField_eq (text : Text) :
    quoteField text = if needsQuoting text then '"' :: text.flatMap doubled ++ ['"'] else text := by
  rw [quoteField, quoteLoop_eq, singleton_append]

theorem appendRow_cons (field : Text) (fields : List Text) :
    appendRow (field :: fields) = quoteField field ++
      (fields.flatMap fun field => ',' :: quoteField field) ++ ['\n'] := by
  have behind : ∀ (fields : List Text) (start : Nat),
    ((fields.zipIdx (start + 1)).flatMap fun entry =>
      (if 0 < entry.2 then [','] else []) ++ quoteField entry.1) = fields.flatMap fun field =>
        ',' :: quoteField field := by
    intro fields
    induction fields with
    | nil => exact fun _ => rfl
    | cons field fields ih =>
      intro start
      simp [ih]
  simp [appendRow, behind fields 0]

/-- Inside quotes a doubled text is read back. -/
theorem readRecord_doubled (text rest field : Text) (fields : List Text) :
    readRecord (text.flatMap doubled ++ rest) true field fields = readRecord rest true
      (field ++ text) fields := by
  induction text generalizing field with
  | nil => simp
  | cons c text ih =>
    by_cases quote : c = '"' <;> simp [doubled, quote, readRecord, ih]

theorem readRecord_plain (plain : needsQuoting text = false) (rest field : Text)
    (fields : List Text) :
    readRecord (text ++ rest) false field fields = readRecord rest false
      (field ++ text) fields := by
  induction text generalizing field with
  | nil => simp
  | cons c text ih =>
    simp only [needsQuoting, Bool.or_eq_false_iff, decide_eq_false_iff_not, mem_cons, not_or]
      at plain
    obtain ⟨⟨⟨⟨comma, commas⟩, quote, quotes⟩, return_, returns⟩, newline, newlines⟩ := plain
    have others : needsQuoting text = false := by
      simp [needsQuoting, commas, quotes, returns, newlines]
    simp [readRecord, Ne.symm quote, Ne.symm comma, Ne.symm newline, Ne.symm return_, ih others]

/-- A written field is read back when no quote follows it. -/
theorem readRecord_quoteField (text : Text) {rest : Text} (delimited : rest.head? ≠ some '"')
    (fields : List Text) :
    readRecord (quoteField text ++ rest) false [] fields = readRecord rest false text fields := by
  rw [quoteField_eq]
  cases needed : needsQuoting text with
  | false => rw [if_neg Bool.false_ne_true, readRecord_plain needed, nil_append]
  | true =>
    simp [readRecord, readRecord_doubled, delimited]

variable (fields : List Text)

theorem head?_fields (rest : Text) :
    ((fields.flatMap fun field => ',' :: quoteField field) ++ '\n' :: rest).head? ≠ some '"' := by
  cases fields with
  | nil | cons field fields => simp

theorem readRecord_fields (rest field : Text) (earlier : List Text) :
    readRecord ((fields.flatMap fun field => ',' :: quoteField field) ++ '\n' :: rest) false field
      earlier = some (earlier ++ field :: fields, rest) := by
  induction fields generalizing field earlier with
  | nil => simp [readRecord]
  | cons next fields ih =>
    simp [readRecord, readRecord_quoteField next (head?_fields fields rest), ih]

theorem readRecord_appendRow {row : List Text} (nonempty : row ≠ []) (rest : Text) :
    readRecord (appendRow row ++ rest) false [] [] = some (row, rest) := by
  cases row with
  | nil => exact absurd rfl nonempty
  | cons field fields =>
    simp [appendRow_cons, readRecord_quoteField field (head?_fields fields rest), readRecord_fields]

theorem len_appendRow_pos (row : List Text) : 0 < len (appendRow row) := by
  rw [appendRow, len_append]
  exact Nat.lt_of_lt_of_le (by decide : 0 < len ['\n']) (Nat.le_add_left ..)

theorem parseLoop_write (nonempty : ∀ row ∈ rows, row ≠ []) (before : Text)
    (records : List (List Text)) (enough : len (write rows) ≤ turns) :
    parseLoop (before ++ write rows) (len (before ++ write rows)) turns (len before) records = some
      (records ++ rows) := by
  induction rows generalizing turns before records with
  | nil =>
    have done : ¬ len before < len (before ++ write []) := by simp [write]
    rw [append_nil]
    cases turns with
    | zero => rfl
    | succ turns => rw [parseLoop, if_neg done]
  | cons row rows ih =>
    have positive := len_appendRow_pos row
    have shape : write (row :: rows) = appendRow row ++ write rows := rfl
    rw [shape, len_append] at enough
    obtain ⟨turns, rfl⟩ : ∃ fewer, turns = fewer + 1 := Nat.exists_eq_succ_of_ne_zero (by omega)
    have within : len before < len (before ++ write (row :: rows)) := by
      rw [shape, len_append, len_append]
      omega
    have next : len (before ++ write (row :: rows)) - len (write rows) = len
      (before ++ appendRow row) := by
      rw [shape, ← append_assoc, len_append, Nat.add_sub_cancel]
    rw [parseLoop, if_pos within, scanRecord_len, shape, readRecord_appendRow
      (nonempty row mem_cons_self), ← shape]
    simp only [Option.map_some, next]
    rw [shape, ← append_assoc, ih (fun row member => nonempty row (mem_cons_of_mem _ member))
      (before ++ appendRow row) (records ++ [row]) (by omega), append_assoc, singleton_append]

theorem parse_write (nonempty : ∀ row ∈ rows, row ≠ []) : parse (write rows) = some rows :=
  parseLoop_write nonempty [] [] (Nat.le_refl _)

theorem scanLoop_ne_nil {length index fieldStart : Nat} {quoted : Bool} {builder : Text}
    {fields record : List Text}
    {next : Nat} (scanned : scanLoop text length turns index fieldStart quoted builder fields = some
      (record, next)) :
    record ≠ [] := by
  have ended : ∀ {fieldStart : Nat} {quoted : Bool} {builder : Text} {fields : List Text},
      endRecord text length fieldStart quoted builder fields = some (record, next) →
        record ≠ [] := by
    intro fieldStart quoted builder fields ended
    unfold endRecord at ended
    split at ended
    · cases ended
    · cases ended
      exact append_ne_nil_of_right_ne_nil _ (cons_ne_nil _ _)
  induction turns generalizing index fieldStart quoted builder fields with
  | zero => exact ended scanned
  | succ turns ih =>
    rw [scanLoop] at scanned
    dsimp only at scanned
    split_ifs at scanned
    · exact ih scanned
    · exact ih scanned
    · exact ih scanned
    · exact ih scanned
    · cases scanned
      exact append_ne_nil_of_right_ne_nil _ (cons_ne_nil _ _)
    · exact ih scanned
    · exact ended scanned

theorem parseLoop_ne_nil {length index : Nat} {records : List (List Text)}
    (earlier : ∀ row ∈ records, row ≠ [])
    (parsed : parseLoop text length turns index records = some rows) : ∀ row ∈ rows, row ≠ [] := by
  induction turns generalizing index records with
  | zero =>
    cases parsed
    exact earlier
  | succ turns ih =>
    rw [parseLoop] at parsed
    split at parsed
    · split at parsed
      · cases parsed
      · next fields next scanned =>
        refine ih ?_ parsed
        intro row member
        rcases mem_append.mp member with old | new
        · exact earlier row old
        · rw [mem_singleton.mp new]
          exact scanLoop_ne_nil scanned
    · cases parsed
      exact earlier

/-- Tables are read back as they were written, in particular the tables that were read. -/
theorem csv_round_trip : (∀ rows, (∀ row ∈ rows, row ≠ []) → parse (write rows) = some rows) ∧
    ∀ text rows, parse text = some rows → parse (write rows) = some rows :=
  ⟨fun _ => parse_write, fun _ _ parsed => parse_write (parseLoop_ne_nil (by simp) parsed)⟩

/-- Quotes, separators, a line break, a wide character and an empty field. -/
theorem csv_round_trip_quoted :
    parse (write [["a\"b".toList, "c,\r\n".toList], ["é".toList], [[]]]) =
      some [["a\"b".toList, "c,\r\n".toList], ["é".toList], [[]]] :=
  csv_round_trip.1 _ (by decide)

end SpectraLang.Stdlib.Csv

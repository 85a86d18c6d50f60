import SpectraLang.Lib.Runs
import SpectraLang.Stdlib.Text

/-! # Paths

`normalize` and `is_absolute` of `std.path`. Both slashes separate components, and a letter with a
colon in front is a drive. The source counts bytes; since separators, letters and the colon are
narrow, its loops find the same places in the characters.
-/

namespace SpectraLang.Stdlib.Path

open List Utf8 Runs

def isSeparator (code : Int) : Bool := code = 47 ∨ code = 92

def isAlpha (code : Int) : Bool :=
  if 65 ≤ code ∧ code ≤ 90 then true else 97 ≤ code ∧ code ≤ 122

def isAbsolute (path : Text) : Bool :=
  if len path = 0 then false
  else if isSeparator (charAt path 0) then true
  else if 3 ≤ len path ∧ isAlpha (charAt path 0) ∧ charAt path 1 = 58 then isSeparator
    (charAt path 2)
  else false

/-- `append_segment`. -/
def appendSegment (absolute : Bool) (segments : List Text) (segment : Text) : List Text :=
  if segment = ['.'] then segments
  else if segment ≠ ['.', '.'] then segments ++ [segment]
  else if segments.length = 0 then (if absolute then segments else segments ++ [['.', '.']])
  else if segments.getLastD [] = ['.', '.'] then
    (if absolute then segments else segments ++ [['.', '.']])
  else segments.dropLast

/-- The inner loop of `collect_segments`: the end of the segment. -/
def segmentEnd (path : Text) (length : Nat) : Nat → Nat → Nat
  | 0, index => index
  | turns + 1, index =>
    if index < length ∧ isSeparator (charAt path index) = false then segmentEnd path length turns
      (index + 1) else index

/-- The loop of `collect_segments`; every turn moves the index. -/
def collectLoop (path : Text) (length : Nat) (absolute : Bool) : Nat → Nat → List Text → List Text
  | 0, _, segments => segments
  | turns + 1, index, segments =>
    if index < length then
      if isSeparator (charAt path index) then collectLoop path length absolute turns
        (index + 1) segments
      else
        let stop := segmentEnd path length length index
        collectLoop path length absolute turns stop
          (appendSegment absolute segments (substring path index stop))
    else segments

def collectSegments (path : Text) (start : Nat) (absolute : Bool) : List Text :=
  collectLoop path (len path) absolute (len path) start []

/-- The segments with a slash in front of each but the first. -/
def pushSegments : List Text → Nat → Text → Text
  | [], _, builder => builder
  | segment :: segments, position, builder =>
    pushSegments segments (position + 1)
      ((if 0 < position then builder ++ ['/'] else builder) ++ segment)

def normalize (path : Text) : Text :=
  let length := len path
  let (drive, start, absolute) : Text × Nat × Bool :=
    if 2 ≤ length ∧ isAlpha (charAt path 0) ∧ charAt path 1 = 58 then
      if 2 < length ∧ isSeparator (charAt path 2) then (substring path 0 2, 3, true) else
        (substring path 0 2, 2, false)
    else if 0 < length ∧ isSeparator (charAt path 0) then ([], 1, true)
    else ([], 0, false)
  let segments := collectSegments path start absolute
  let builder : Text := if 0 < len drive then drive else []
  let builder := if absolute then builder ++ ['/'] else builder
  let result := pushSegments segments 0 builder
  if len result = 0 then (if absolute then ['/'] else ['.']) else result

def isSlash (c : Char) : Bool := c = '/' ∨ c = '\\'
def isLetter (c : Char) : Bool := isAlpha c.toNat

variable (c : Char)

theorem isSeparator_lead : isSeparator (lead c) = isSlash c := by
  have slash : (lead c : Int) = 47 ↔ c = '/' := @lead_eq_code c '/' (by decide)
  have backslash : (lead c : Int) = 92 ↔ c = '\\' := @lead_eq_code c '\\' (by decide)
  simp only [isSeparator, isSlash, slash, backslash]

theorem isSeparator_toNat : isSeparator c.toNat = isSlash c := by
  have slash : (c.toNat : Int) = 47 ↔ c = '/' := by rw [← Char.toNat_inj]; exact Int.natCast_inj
  have backslash : (c.toNat : Int) = 92 ↔ c = '\\' := by
    rw [← Char.toNat_inj]; exact Int.natCast_inj
  simp only [isSeparator, isSlash, slash, backslash]

variable {c letter : Char} {path : Text}

theorem size_of_isSlash (slash : isSlash c = true) : size c = 1 := by
  rcases of_decide_eq_true slash with rfl | rfl <;> decide

theorem isAlpha_lead : isAlpha (lead c) = isLetter c := by
  by_cases ascii : c.toNat < 128
  · rw [lead_of_lt ascii, isLetter]
  · have wide := lead_of_le (Nat.not_lt.mp ascii)
    rw [isLetter, isAlpha, isAlpha, if_neg (by omega), if_neg (by omega),
      decide_eq_false (by omega), decide_eq_false (by omega)]

theorem toNat_lt_of_isLetter (letter : isLetter c = true) : c.toNat < 128 := by
  unfold isLetter isAlpha at letter
  split at letter
  · omega
  · have := of_decide_eq_true letter
    omega

theorem not_isSlash_of_isLetter (letter : isLetter c = true) : isSlash c = false := by
  by_contra slash
  rcases of_decide_eq_true (Bool.not_eq_false _ ▸ slash) with rfl | rfl <;> revert letter <;> decide

/-- The loop to the end of a segment stops at the first separator among the bytes. -/
theorem segmentEnd_eq {turns index : Nat} (enough : len path ≤ index + turns) :
    segmentEnd path (len path) turns index =
      index + (((bytes path).drop index).takeWhile fun (byte : Nat) =>
        !isSeparator byte).length := by
  induction turns generalizing index with
  | zero =>
    rw [segmentEnd, drop_eq_nil_of_le (by unfold len at enough; omega)]
    rfl
  | succ turns ih =>
    rw [segmentEnd]
    by_cases inside : index < (bytes path).length
    · have byte : charAt path index = (bytes path)[index] := by
        rw [charAt, getElem?_eq_getElem inside]
      rw [drop_eq_getElem_cons inside, takeWhile_cons, byte]
      cases stops : isSeparator (bytes path)[index] with
      | true => simp
      | false =>
        rw [if_pos ⟨inside, rfl⟩, ih (by omega)]
        simp only [Bool.not_false, if_true, length_cons]
        omega
    · rw [if_neg (fun both => inside both.1), drop_eq_nil_of_le (Nat.not_lt.mp inside)]
      rfl

/-- A run in front of a separator is one segment. -/
theorem segmentEnd_run {before run rest : Text} (isRun : IsRun isSlash run)
    (stops : rest.head?.all isSlash = true) :
    segmentEnd (before ++ (run ++ rest)) (len (before ++ (run ++ rest)))
      (len (before ++ (run ++ rest))) (len before) =
      len before + len run := by
  have narrow : ∀ byte : Nat, isSeparator byte = true → byte < 128 := by
    intro byte separator
    have := of_decide_eq_true separator
    omega
  have scan := takeWhile_bytes narrow (run ++ rest)
  have until_ : (run ++ rest).takeWhile (fun c => !isSeparator c.toNat) = run := by
    simp only [isSeparator_toNat]
    rw [takeWhile_append_of_pos fun c member => by rw [isRun.2 c member]; rfl]
    cases rest with
    | nil => simp
    | cons c rest =>
      have slash : isSlash c = true := stops
      rw [takeWhile_cons, slash]
      simp
  rw [segmentEnd_eq (Nat.le_add_left _ _), bytes_append before, len, drop_left, scan, until_]
  rfl

/-- The loop applies the runs behind the index, one after the other. -/
theorem collectLoop_eq {before rest : Text} (split : path = before ++ rest) (absolute : Bool)
    {turns : Nat} (enough : len rest ≤ turns) (segments : List Text) :
    collectLoop path (len path) absolute turns (len before) segments =
      (runs isSlash rest).foldl (appendSegment absolute) segments := by
  induction rest using @front_induction _ isSlash generalizing before turns segments with
  | nil =>
    have behind : ¬ len before < len path := by rw [split, append_nil]; exact Nat.lt_irrefl _
    cases turns with
    | zero => rfl
    | succ turns => rw [collectLoop, if_neg behind]; rfl
  | separator c rest isSep ih =>
    have one := size_of_isSlash isSep
    rw [len_cons, one] at enough
    obtain ⟨turns, rfl⟩ : ∃ fewer, turns = fewer + 1 := ⟨turns - 1, by omega⟩
    have inside : len before < len path := by rw [split, len_append, len_cons]; omega
    have here : isSeparator (charAt path (len before)) = true := by
      rw [split, charAt_len, isSeparator_lead, isSep]
    have next := @ih (before ++ [c]) (by rw [split, append_assoc]; rfl) turns (by omega) segments
    rw [len_append, len_cons, one, len_nil] at next
    rw [collectLoop, if_pos inside, if_pos here, next, runs_sep isSep]
  | run front rest isRun stops ih =>
    obtain ⟨c, front, rfl⟩ := exists_cons_of_ne_nil isRun.1
    have positive := size_pos c
    rw [len_append, len_cons] at enough
    obtain ⟨turns, rfl⟩ : ∃ fewer, turns = fewer + 1 := ⟨turns - 1, by omega⟩
    have inside : len before < len path := by rw [split, len_append, len_append, len_cons]; omega
    have here : isSeparator (charAt path (len before)) = false := by
      rw [split, cons_append, charAt_len, isSeparator_lead, isRun.2 c mem_cons_self]
    have stop : segmentEnd path (len path) (len path) (len before) = len before + len
      (c :: front) := by
      rw [split, segmentEnd_run isRun stops]
    have segment : substring path (len before) (len before + len (c :: front)) = c :: front := by
      rw [split, ← append_assoc, substring_len]
    have next := @ih (before ++ (c :: front)) (by rw [split, append_assoc]) turns (by omega)
      (appendSegment absolute segments (c :: front))
    rw [len_append] at next
    rw [collectLoop, if_pos inside, if_neg (by rw [here]; exact Bool.false_ne_true)]
    simp only [stop, segment]
    rw [next, runs_append isRun stops, foldl_cons]

theorem collectSegments_eq {path before rest : Text} (split : path = before ++ rest)
    (absolute : Bool) :
    collectSegments path (len before) absolute = (runs isSlash rest).foldl (appendSegment absolute)
      [] :=
  collectLoop_eq split absolute (by rw [split, len_append]; omega) []

/-- A drive is a letter with a colon. -/
def hasDrive : Text → Bool
  | letter :: colon :: _ => isLetter letter && colon == ':'
  | _ => false

/-- A separator in front. -/
def isRooted (path : Text) : Bool := path.head?.any isSlash

theorem hasDrive_iff : hasDrive path = true ↔ ∃ letter rest, isLetter letter = true ∧
    path = letter :: ':' :: rest := by
  constructor
  · intro drive
    match path, drive with
    | letter :: colon :: rest, drive =>
      simp only [hasDrive, Bool.and_eq_true, beq_iff_eq] at drive
      exact ⟨letter, rest, drive.1, by rw [drive.2]⟩
  · rintro ⟨letter, rest, isLetter, rfl⟩
    simp only [hasDrive, isLetter, beq_self_eq_true, Bool.and_self]

theorem charAt_zero (rest : Text) : charAt (c :: rest) 0 = lead c := charAt_len [] c rest

theorem charAt_zero_lt (path : Text) (nonempty : 0 < len path) :
    isSeparator (charAt path 0) = isRooted path := by
  cases path with
  | nil => exact absurd nonempty (Nat.lt_irrefl _)
  | cons c path => rw [charAt_zero, isSeparator_lead]; rfl

/-- The test for a drive reads two bytes. -/
theorem hasDrive_eq (path : Text) :
    (2 ≤ len path ∧ isAlpha (charAt path 0) = true ∧ charAt path 1 = 58) ↔
      hasDrive path = true := by
  cases path with
  | nil => simp [hasDrive]
  | cons letter rest =>
    rw [charAt_zero, isAlpha_lead]
    cases isLetter : isLetter letter with
    | false => cases rest <;> simp [hasDrive, isLetter]
    | true =>
      have one := size_of_lt (toNat_lt_of_isLetter isLetter)
      have colon := @charAt_next letter (letter :: rest) [] rest ':' rfl one (by decide)
      rw [len_nil, Nat.zero_add] at colon
      have both : (2 ≤ len (letter :: rest) ∧ true = true ∧ charAt (letter :: rest) 1 = 58) ↔
        rest.head? = some ':' :=
        ⟨fun ⟨long, _, here⟩ => colon.mp ⟨long, here⟩,
          fun here => ⟨(colon.mpr here).1, rfl, (colon.mpr here).2⟩⟩
      rw [both]
      cases rest <;> simp [hasDrive, isLetter]

/-- The segments left of a list of runs. -/
def resolve (absolute : Bool) (names : List Text) : List Text :=
  names.foldl (appendSegment absolute) []

/-- A path written from its drive, its root and its segments. -/
def render (drive : Text) (absolute : Bool) (segments : List Text) : Text :=
  let result := drive ++ (if absolute then ['/'] else []) ++ ['/'].intercalate segments
  if result = [] then ['.'] else result

theorem intercalate_cons (segment : Text) (segments : List Text) :
    ['/'].intercalate (segment :: segments) = segment ++ segments.flatMap ('/' :: ·) := by
  induction segments generalizing segment with
  | nil => simp [List.intercalate]
  | cons next segments ih =>
    rw [flatMap_cons, cons_append, ← ih next]
    simp [List.intercalate, List.intersperse]

variable (segments : List Text)

theorem pushSegments_succ (position : Nat) (builder : Text) :
    pushSegments segments (position + 1) builder = builder ++ segments.flatMap ('/' :: ·) := by
  induction segments generalizing position builder with
  | nil => simp [pushSegments]
  | cons segment segments ih =>
    simp [pushSegments, ih]

theorem pushSegments_zero (builder : Text) :
    pushSegments segments 0 builder = builder ++ ['/'].intercalate segments := by
  cases segments with
  | nil => simp [pushSegments, List.intercalate]
  | cons segment segments =>
    simp [pushSegments, pushSegments_succ, intercalate_cons]

theorem render_eq (drive : Text) (absolute : Bool) (segments : List Text) :
    (let builder : Text := if 0 < len drive then drive else []
     let builder := if absolute then builder ++ ['/'] else builder
     let result := pushSegments segments 0 builder
     if len result = 0 then (if absolute then ['/'] else ['.']) else result) = render drive absolute
       segments := by
  have front : (if 0 < len drive then drive else []) = drive := by
    split_ifs with nonempty
    · rfl
    · exact (len_eq_zero.mp (by omega)).symm
  simp only [front, pushSegments_zero, len_eq_zero, render]
  cases absolute <;> simp

theorem isRooted_runs (rooted : isRooted path = true) :
    ∃ slash rest, path = slash :: rest ∧ size slash = 1 ∧
      runs isSlash rest = runs isSlash path := by
  cases path with
  | nil => exact absurd rooted Bool.false_ne_true
  | cons slash rest =>
    exact ⟨slash, rest, rfl, size_of_isSlash rooted, (@runs_sep _ isSlash _ rooted rest).symm⟩

theorem normalize_plain (plain : hasDrive path = false) :
    normalize path = render [] (isRooted path) (resolve (isRooted path) (runs isSlash path)) := by
  have noDrive : ¬ (2 ≤ len path ∧ isAlpha (charAt path 0) = true ∧ charAt path 1 = 58) := by
    rw [hasDrive_eq, plain]
    exact Bool.false_ne_true
  have root : (0 < len path ∧ isSeparator (charAt path 0) = true) ↔ isRooted path = true := by
    cases path with
    | nil => simp [isRooted]
    | cons c path =>
      have positive : 0 < len (c :: path) := by rw [len_cons]; have := size_pos c; omega
      rw [charAt_zero_lt _ positive]
      exact ⟨And.right, fun rooted => ⟨positive, rooted⟩⟩
  rw [normalize]
  simp only [if_neg noDrive, root]
  cases rooted : isRooted path with
  | false =>
    have segments := @collectSegments_eq path [] path rfl false
    rw [len_nil] at segments
    simp only [Bool.false_eq_true, if_false, segments]
    exact render_eq [] false _
  | true =>
    obtain ⟨slash, rest, rfl, one, same⟩ := isRooted_runs rooted
    have segments := @collectSegments_eq (slash :: rest) [slash] rest rfl true
    rw [len_cons, one, len_nil, same] at segments
    simp only [if_true, segments]
    exact render_eq [] true _

section
variable (isLetter : isLetter letter = true)
include isLetter

theorem len_drive : len [letter, ':'] = 2 := by
  rw [len_cons, size_of_lt (toNat_lt_of_isLetter isLetter)]
  rfl

/-- The third byte is the first one behind the drive. -/
theorem separator_behind_drive (rest : Text) :
    (2 < len (letter :: ':' :: rest) ∧ isSeparator (charAt (letter :: ':' :: rest) 2) = true) ↔
      isRooted rest = true := by
  have behind := charAt_len_add [letter, ':'] rest 0
  have long := len_append [letter, ':'] rest
  rw [len_drive isLetter] at behind long
  rw [show letter :: ':' :: rest = [letter, ':'] ++ rest from rfl, behind, long]
  cases rest with
  | nil => simp [isRooted]
  | cons c rest =>
    have positive := size_pos c
    rw [charAt_zero_lt _ (by rw [len_cons]; omega), len_cons]
    exact ⟨And.right, fun rooted => ⟨by omega, rooted⟩⟩

theorem normalize_drive (rest : Text) :
    normalize (letter :: ':' :: rest) =
      render [letter, ':'] (isRooted rest) (resolve (isRooted rest) (runs isSlash rest)) := by
  have drive := hasDrive_iff.mpr ⟨letter, rest, isLetter, rfl⟩
  have front : substring (letter :: ':' :: rest) 0 2 = [letter, ':'] := by
    have part := substring_len [] [letter, ':'] rest
    rwa [len_nil, len_drive isLetter] at part
  rw [normalize]
  simp only [if_pos ((hasDrive_eq _).mpr drive), separator_behind_drive isLetter, front]
  cases rooted : isRooted rest with
  | false =>
    have segments := @collectSegments_eq (letter :: ':' :: rest) [letter, ':'] rest rfl false
    rw [len_drive isLetter] at segments
    simp only [Bool.false_eq_true, if_false, segments]
    exact render_eq [letter, ':'] false _
  | true =>
    obtain ⟨slash, rest, rfl, one, same⟩ := isRooted_runs rooted
    have segments := @collectSegments_eq (letter :: ':' :: slash :: rest) [letter, ':', slash] rest
      rfl true
    rw [show [letter, ':', slash] = [letter, ':'] ++ [slash] from rfl, len_append,
      len_drive isLetter, len_cons, one, len_nil, same] at segments
    simp only [if_true, segments]
    exact render_eq [letter, ':'] true _

theorem isAbsolute_drive (rest : Text) : isAbsolute (letter :: ':' :: rest) = isRooted rest := by
  have long : len (letter :: ':' :: rest) = 2 + len rest := by
    rw [← len_drive isLetter, ← len_append]
    rfl
  have letterFirst : isSeparator (charAt (letter :: ':' :: rest) 0) = false := by
    rw [charAt_zero, isSeparator_lead, not_isSlash_of_isLetter isLetter]
  obtain ⟨_, letterTest, colonTest⟩ :=
    (hasDrive_eq _).mpr (hasDrive_iff.mpr ⟨letter, rest, isLetter, rfl⟩)
  have behind := separator_behind_drive isLetter rest
  rw [isAbsolute, if_neg (by omega), letterFirst, if_neg Bool.false_ne_true]
  by_cases more : 3 ≤ len (letter :: ':' :: rest)
  · rw [if_pos ⟨more, letterTest, colonTest⟩, Bool.eq_iff_iff, ← behind]
    exact ⟨fun here => ⟨more, here⟩, And.right⟩
  · rw [if_neg fun all => more all.1, len_eq_zero.mp (show len rest = 0 by omega)]
    rfl

end

theorem isAbsolute_plain (plain : hasDrive path = false) : isAbsolute path = isRooted path := by
  have noDrive : ¬ (3 ≤ len path ∧ isAlpha (charAt path 0) = true ∧ charAt path 1 = 58) := by
    rintro ⟨long, letter, colon⟩
    rw [(hasDrive_eq path).mp ⟨by omega, letter, colon⟩] at plain
    exact Bool.noConfusion plain
  rw [isAbsolute, if_neg noDrive]
  by_cases empty : len path = 0
  · rw [if_pos empty, len_eq_zero.mp empty]
    rfl
  · rw [if_neg empty, charAt_zero_lt path (by omega)]
    cases isRooted path <;> rfl

end SpectraLang.Stdlib.Path

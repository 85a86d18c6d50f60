import Mathlib.Data.List.GetD
import SpectraLang.Lib.Decimal
import SpectraLang.Lib.Patch
import SpectraLang.Stdlib.Text

/-! # Line differences

`diff_lines` of `std.diff`. Every operation is a line with a mark in front: a blank keeps the line,
a minus drops it on the left and a plus adds it on the right. The operations are an edit script from
the left lines to the right ones, and the hunks are windows of it.
-/

namespace SpectraLang.Stdlib.Diff

open List Patch

/-- `cell_score`. -/
def cellScore (left right : List Text) (lengths : List Nat) (width row column : Nat) : Nat :=
  if left.getD row [] = right.getD column [] then lengths.getD ((row + 1) * width + column + 1) 0 +
    1
  else
    let dropLeft := lengths.getD ((row + 1) * width + column) 0
    let dropRight := lengths.getD (row * width + column + 1) 0
    if dropRight > dropLeft then dropRight else dropLeft

/-- The inner loop of `build_lengths`, from the last column to the first. -/
def fillRow (left right : List Text) (width row : Nat) : Nat → List Nat → List Nat
  | 0, lengths => lengths
  | column + 1, lengths =>
    fillRow left right width row column
      (lengths.set (row * width + column) (cellScore left right lengths width row column))

/-- The outer loop, from the last row to the first. -/
def fillRows (left right : List Text) (width : Nat) : Nat → List Nat → List Nat
  | 0, lengths => lengths
  | row + 1, lengths =>
    fillRows left right width row (fillRow left right width row right.length lengths)

def buildLengths (left right : List Text) : List Nat × Nat :=
  let width := right.length + 1
  (fillRows left right width left.length (List.replicate ((left.length + 1) * width) 0), width)

def dropsLeft (lengths : List Nat) (width leftIndex rightIndex : Nat) : Bool :=
  lengths.getD ((leftIndex + 1) * width + rightIndex) 0 > lengths.getD
    (leftIndex * width + rightIndex + 1) 0

/-- The loop of `backtrack_ops`; every turn takes a line from at least one side. -/
def backtrackLoop (left right : List Text) (lengths : List Nat) (width : Nat) :
    Nat → Nat → Nat → List Text → Nat × Nat × List Text
  | 0, leftIndex, rightIndex, ops => (leftIndex, rightIndex, ops)
  | turns + 1, leftIndex, rightIndex, ops =>
    if leftIndex < left.length ∧ rightIndex < right.length then
      let leftLine := left.getD leftIndex []
      let rightLine := right.getD rightIndex []
      if leftLine = rightLine then
        backtrackLoop left right lengths width turns (leftIndex + 1) (rightIndex + 1)
          (ops ++ [' ' :: leftLine])
      else if dropsLeft lengths width leftIndex rightIndex then
        backtrackLoop left right lengths width turns (leftIndex + 1) rightIndex
          (ops ++ ['-' :: leftLine])
      else backtrackLoop left right lengths width turns leftIndex (rightIndex + 1)
        (ops ++ ['+' :: rightLine])
    else (leftIndex, rightIndex, ops)

/-- `append_tail`. -/
def appendTail (ops lines : List Text) (start : Nat) (mark : Char) : List Text :=
  ops ++ (lines.drop start).map (mark :: ·)

def backtrackOps (left right : List Text) (lengths : List Nat) (width : Nat) : List Text :=
  let (leftIndex, rightIndex, ops) :=
    backtrackLoop left right lengths width (left.length + right.length) 0 0 []
  appendTail (appendTail ops left leftIndex '-') right rightIndex '+'

def isContext (op : Text) : Bool := op.head? == some ' '
def isAddition (op : Text) : Bool := op.head? == some '+'
def isRemoval (op : Text) : Bool := op.head? == some '-'

/-- `collect_run`: the removals and additions of the run in front, and the operations behind it. -/
def collectRun : List Text → List Text → List Text → List Text × List Text × List Text
  | [], removals, additions => (removals, additions, [])
  | op :: ops, removals, additions =>
    if isContext op then (removals, additions, op :: ops)
    else if isAddition op then collectRun ops removals (additions ++ [op])
    else collectRun ops (removals ++ [op]) additions

/-- The loop of `grouped_ops`; every turn takes an operation. -/
def groupedLoop : Nat → List Text → List Text → List Text
  | 0, _, grouped => grouped
  | _ + 1, [], grouped => grouped
  | turns + 1, op :: ops, grouped =>
    if isContext op then groupedLoop turns ops (grouped ++ [op])
    else
      let (removals, additions, rest) := collectRun (op :: ops) [] []
      groupedLoop turns rest (grouped ++ removals ++ additions)

def groupedOps (ops : List Text) : List Text := groupedLoop ops.length ops []

def lineOps (left right : List Text) : List Text :=
  let (lengths, width) := buildLengths left right
  groupedOps (backtrackOps left right lengths width)

/-- `collect_changes`: the indices of the changes. -/
def collectChanges : List Text → Nat → List Nat
  | [], _ => []
  | op :: ops, index =>
    if isContext op then collectChanges ops (index + 1) else index :: collectChanges ops (index + 1)

/-- The loop of `prefix_counts`. -/
def prefixLoop : List Text → Nat → List Nat → List Nat → List Nat × List Nat
  | [], _, leftPrefix, rightPrefix => (leftPrefix, rightPrefix)
  | op :: ops, index, leftPrefix, rightPrefix =>
    let leftTotal := leftPrefix.getD index 0
    let rightTotal := rightPrefix.getD index 0
    prefixLoop ops (index + 1) (leftPrefix ++ [if isAddition op then leftTotal else leftTotal + 1])
      (rightPrefix ++ [if isRemoval op then rightTotal else rightTotal + 1])

def prefixCounts (ops : List Text) : List Nat × List Nat := prefixLoop ops 0 [0] [0]

def hunkStart (change : Nat) : Nat :=
  if change < 3 then 0 else change - 3

def hunkEnd (change count : Nat) : Nat :=
  if change + 3 > count - 1 then count - 1 else change + 3

/-- `convert.int_to_string` of a number that is not negative. -/
def number (value : Nat) : Text := Nat.toDigits 10 value

def header (leftStart leftCount rightStart rightCount : Nat) : Text :=
  ['@', '@', ' ', '-'] ++ number leftStart ++ [','] ++ number leftCount ++ [' ', '+'] ++
    number rightStart ++ [','] ++ number rightCount ++ [' ', '@', '@']

/-- `append_hunk`: the header and the operations from `start` to `stop`. -/
def appendHunk (result ops : List Text) (leftPrefix rightPrefix : List Nat) (start stop : Nat) :
    List Text :=
  let leftBefore := leftPrefix.getD start 0
  let rightBefore := rightPrefix.getD start 0
  let leftAfter := leftPrefix.getD (stop + 1) 0
  let rightAfter := rightPrefix.getD (stop + 1) 0
  result ++
    [header (leftBefore + 1) (leftAfter - leftBefore) (rightBefore + 1) (rightAfter - rightBefore)]
    ++ (ops.drop start).take (stop + 1 - start)

/-- The inner loop of `diff_lines`: the last change of the group and the changes behind it. -/
def groupEnd : Nat → List Nat → Nat × List Nat
  | last, [] => (last, [])
  | last, next :: later =>
    if next - last - 1 > 6 then (last, next :: later) else groupEnd next later

/-- The loop of `diff_lines`; every turn takes a change. -/
def hunksLoop (ops : List Text) (leftPrefix rightPrefix : List Nat) : Nat → List Nat → List Text →
    List Text
  | 0, _, result => result
  | _ + 1, [], result => result
  | turns + 1, first :: later, result =>
    let (last, rest) := groupEnd first later
    hunksLoop ops leftPrefix rightPrefix turns rest
      (appendHunk result ops leftPrefix rightPrefix (hunkStart first) (hunkEnd last ops.length))

def diffLines (left right : List Text) : List Text :=
  let ops := lineOps left right
  let changes := collectChanges ops 0
  if changes.length = 0 then []
  else
    let (leftPrefix, rightPrefix) := prefixCounts ops
    hunksLoop ops leftPrefix rightPrefix changes.length changes []

section Table
variable (left right : List Text)

theorem common_drop (row column : Nat) : common (left.drop row) (right.drop column) =
    if row < left.length ∧ column < right.length then
      if left.getD row [] = right.getD column [] then common (left.drop (row + 1))
        (right.drop (column + 1)) + 1
      else max (common (left.drop (row + 1)) (right.drop column))
        (common (left.drop row) (right.drop (column + 1)))
    else 0 := by
  by_cases inside : row < left.length ∧ column < right.length
  · rw [if_pos inside, drop_eq_getElem_cons inside.1, drop_eq_getElem_cons inside.2, common,
      getD_eq_getElem _ _ inside.1, getD_eq_getElem _ _ inside.2]
  · rw [if_neg inside]
    rcases Nat.lt_or_ge row left.length with above | beyond
    · rw [drop_eq_nil_of_le (show right.length ≤ column by omega), common_nil_right]
    · rw [drop_eq_nil_of_le beyond, common_nil_left]

/-- The entry of a finished table. -/
def entry (position : Nat) : Nat :=
  common (left.drop (position / (right.length + 1))) (right.drop (position % (right.length + 1)))

theorem entry_eq {row column : Nat} (inside : column ≤ right.length) :
    entry left right (row * (right.length + 1) + column) = common (left.drop row)
      (right.drop column) := by
  rw [entry, Nat.add_comm, Nat.add_mul_div_right _ _ (Nat.succ_pos _), Nat.add_mul_mod_self_right,
    Nat.div_eq_of_lt (by omega), Nat.mod_eq_of_lt (by omega), Nat.zero_add]

/-- The table is finished from a position on and empty before it. -/
def FilledFrom (start : Nat) (lengths : List Nat) : Prop :=
  lengths.length = (left.length + 1) * (right.length + 1) ∧
    ∀ position, lengths.getD position 0 = if start ≤ position then entry left right position else 0

variable {left right} {row column : Nat} {lengths : List Nat}

/-- The entries behind the current one, by row and column. -/
theorem FilledFrom.getD_eq {start : Nat} (filled : FilledFrom left right start lengths)
    (row column : Nat)
    (inside : column ≤ right.length) (known : start ≤ row * (right.length + 1) + column) :
    lengths.getD (row * (right.length + 1) + column) 0 = common (left.drop row)
      (right.drop column) := by
  rw [filled.2, if_pos known, entry_eq _ _ inside]

theorem FilledFrom.cell
    (filled : FilledFrom left right (row * (right.length + 1) + column + 1) lengths)
    (above : row < left.length) (inside : column + 1 ≤ right.length) :
    FilledFrom left right (row * (right.length + 1) + column)
      (lengths.set (row * (right.length + 1) + column)
      (cellScore left right lengths (right.length + 1) row column)) := by
  have below : row * (right.length + 1) + (right.length + 1) ≤ left.length *
    (right.length + 1) := by
    rw [← Nat.succ_mul]
    exact Nat.mul_le_mul_right _ above
  have score : cellScore left right lengths (right.length + 1) row column =
      entry left right (row * (right.length + 1) + column) := by
    have diagonal := filled.getD_eq (row + 1) (column + 1) inside (by rw [Nat.succ_mul]; omega)
    have dropLeft := filled.getD_eq (row + 1) column (Nat.le_of_succ_le inside)
      (by rw [Nat.succ_mul]; omega)
    have dropRight := filled.getD_eq row (column + 1) inside le_rfl
    rw [← Nat.add_assoc] at diagonal dropRight
    rw [entry_eq _ _ (Nat.le_of_succ_le inside), common_drop, if_pos ⟨above, inside⟩, cellScore,
      diagonal, dropLeft, dropRight]
    dsimp only
    split_ifs <;> omega
  refine ⟨by rw [length_set, filled.1], fun position => ?_⟩
  have old := filled.2 position
  rw [getD_eq_getElem?_getD] at old ⊢
  rw [getElem?_set, score, filled.1]
  by_cases here : row * (right.length + 1) + column = position
  · rw [if_pos here, if_pos (by rw [Nat.succ_mul]; omega), if_pos here.le, here]
    rfl
  · rw [if_neg here, old]
    congr 1
    exact propext ⟨fun _ => by omega, fun _ => by omega⟩

theorem FilledFrom.fillRow (filled : FilledFrom left right ((row + 1) * (right.length + 1)) lengths)
    (above : row < left.length) :
    FilledFrom left right (row * (right.length + 1))
      (Diff.fillRow left right (right.length + 1) row right.length lengths) := by
  have loop (column : Nat) (inside : column ≤ right.length) (lengths : List Nat)
      (filled : FilledFrom left right (row * (right.length + 1) + column) lengths) :
      FilledFrom left right (row * (right.length + 1))
        (Diff.fillRow left right (right.length + 1) row column lengths) := by
    induction column generalizing lengths with
    | zero => exact filled
    | succ column ih => exact ih (Nat.le_of_succ_le inside) _ (filled.cell above inside)
  refine loop right.length le_rfl lengths ⟨filled.1, fun position => ?_⟩
  -- The last column is empty.
  have last := @entry_eq left right row _ (le_refl right.length)
  rw [drop_length, common_nil_right] at last
  rw [filled.2, Nat.succ_mul]
  grind

theorem buildLengths_filled (left right : List Text) :
    FilledFrom left right 0 (buildLengths left right).1 := by
  have loop (row : Nat) (above : row ≤ left.length) (lengths : List Nat)
      (filled : FilledFrom left right (row * (right.length + 1)) lengths) :
      FilledFrom left right 0 (fillRows left right (right.length + 1) row lengths) := by
    induction row generalizing lengths with
    | zero => rwa [Nat.zero_mul] at filled
    | succ row ih => exact ih (Nat.le_of_succ_le above) _ (filled.fillRow above)
  refine loop left.length le_rfl _ ⟨length_replicate, fun position => ?_⟩
  have last (known : left.length * (right.length + 1) ≤ position) :
    entry left right position = 0 := by
    rw [entry, drop_eq_nil_of_le ((Nat.le_div_iff_mul_le (Nat.succ_pos _)).mpr known),
      common_nil_left]
  rw [getD_eq_getElem?_getD, getElem?_replicate]
  grind

end Table

/-- The operation of an edit. -/
def written : Edit Text → Text
  | .keep line => ' ' :: line
  | .drop line => '-' :: line
  | .add line => '+' :: line

theorem isContext_written (edit : Edit Text) : isContext (written edit) = edit.isKeep := by
  cases edit <;> rfl

/-- The operations spell an edit script from the first lines to the second ones. -/
def Spells (ops left right : List Text) : Prop :=
  ∃ script : List (Edit Text), ops = script.map written ∧ source script = left ∧
    target script = right

theorem Spells.append {ops more left leftMore right rightMore : List Text}
    (spells : Spells ops left right)
    (next : Spells more leftMore rightMore) :
      Spells (ops ++ more) (left ++ leftMore) (right ++ rightMore) := by
  obtain ⟨script, rfl, rfl, rfl⟩ := spells
  obtain ⟨rest, rfl, rfl, rfl⟩ := next
  exact ⟨script ++ rest, by simp, by simp, by simp⟩

theorem spells_nil : Spells [] [] [] := ⟨[], rfl, rfl, rfl⟩

theorem spells_drops (lines : List Text) : Spells (lines.map ('-' :: ·)) lines [] := by
  induction lines with
  | nil => exact spells_nil
  | cons line lines ih =>
    exact @Spells.append ['-' :: line] _ [line] _ [] _ ⟨[.drop line], rfl, rfl, rfl⟩ ih

theorem spells_adds (lines : List Text) : Spells (lines.map ('+' :: ·)) [] lines := by
  induction lines with
  | nil => exact spells_nil
  | cons line lines ih =>
    exact @Spells.append ['+' :: line] _ [] _ [line] _ ⟨[.add line], rfl, rfl, rfl⟩ ih

theorem take_succ_getD {lines : List Text} {index : Nat} (inside : index < lines.length) :
    lines.take (index + 1) = lines.take index ++ [lines.getD index []] := by
  rw [take_succ_eq_append_getElem inside, getD_eq_getElem?_getD, getElem?_eq_getElem inside]
  rfl

/-- The walk spells the lines it has passed and keeps as many lines as the table promises. -/
theorem backtrackLoop_spec (left right : List Text) (turns : Nat) {leftIndex rightIndex : Nat}
    {ops : List Text} (enough : left.length + right.length ≤ leftIndex + rightIndex + turns)
    (spells : Spells ops (left.take leftIndex) (right.take rightIndex)) :
    let walked := backtrackLoop left right (buildLengths left right).1 (right.length + 1) turns
      leftIndex rightIndex ops
    Spells walked.2.2 (left.take walked.1) (right.take walked.2.1) ∧
      walked.2.2.countP isContext = ops.countP isContext + common (left.drop leftIndex)
        (right.drop rightIndex) := by
  induction turns generalizing leftIndex rightIndex ops with
  | zero => exact ⟨spells, by rw [common_drop, if_neg (by omega)]; rfl⟩
  | succ turns ih =>
    rw [backtrackLoop, common_drop]
    by_cases inside : leftIndex < left.length ∧ rightIndex < right.length
    · have filled := buildLengths_filled left right
      have drops := filled.getD_eq (leftIndex + 1) rightIndex inside.2.le (Nat.zero_le _)
      have adds := filled.getD_eq leftIndex (rightIndex + 1) inside.2 (Nat.zero_le _)
      rw [if_pos inside, if_pos inside, dropsLeft, drops, Nat.add_assoc _ rightIndex, adds]
      simp only [gt_iff_lt, decide_eq_true_iff]
      split_ifs with same less
      all_goals
        refine (ih (by omega) ?_).imp_right fun kept => by
          rw [kept, countP_append, countP_singleton]
          simp [isContext]
          omega
      · rw [take_succ_getD inside.1, take_succ_getD inside.2]
        exact spells.append ⟨[.keep (left.getD leftIndex [])], rfl, rfl, by rw [← same]; rfl⟩
      · rw [take_succ_getD inside.1, ← append_nil (right.take rightIndex)]
        exact spells.append ⟨[.drop (left.getD leftIndex [])], rfl, rfl, rfl⟩
      · rw [take_succ_getD inside.2, ← append_nil (left.take leftIndex)]
        exact spells.append ⟨[.add (right.getD rightIndex [])], rfl, rfl, rfl⟩
    · rw [if_neg inside, if_neg inside]
      exact ⟨spells, rfl⟩

theorem backtrackOps_spec (left right : List Text) :
    let ops := backtrackOps left right (buildLengths left right).1 (buildLengths left right).2
    Spells ops left right ∧ ops.countP isContext = common left right := by
  have walk := @backtrackLoop_spec left right (left.length + right.length) 0 0 []
    (by omega) spells_nil
  rw [show (buildLengths left right).2 = right.length + 1 from rfl, backtrackOps]
  generalize backtrackLoop left right _ _ _ 0 0 [] = walked at walk ⊢
  obtain ⟨leftEnd, rightEnd, ops⟩ := walked
  obtain ⟨spelled, kept⟩ := walk
  constructor
  · have drops := spelled.append (spells_drops (left.drop leftEnd))
    have adds := drops.append (spells_adds (right.drop rightEnd))
    rwa [append_nil, append_nil, take_append_drop, take_append_drop] at adds
  · simp only [appendTail, countP_append, countP_map, Function.comp_def, isContext] at kept ⊢
    simpa using kept

/-- The operations spell both sides, and no common subsequence is longer than the lines they
keep. -/
theorem backtrackOps_longest (left right : List Text) :
    Spells (backtrackOps left right (buildLengths left right).1 (buildLengths left right).2) left
      right ∧
      IsGreatest {length | ∃ shared, shared <+ left ∧ shared <+ right ∧ shared.length = length}
        ((backtrackOps left right (buildLengths left right).1 (buildLengths left right).2).countP
          isContext) := by
  obtain ⟨spells, kept⟩ := backtrackOps_spec left right
  rw [kept]
  exact ⟨spells, common_isGreatest left right⟩

variable (script : List (Edit Text))

/-- A run is split into its drops and adds; the edits behind it are left. -/
theorem collectRun_written (removals additions : List Text) :
    ∃ drops adds rest, collectRun (script.map written) removals additions =
        (removals ++ drops.map ('-' :: ·), additions ++ adds.map ('+' :: ·), rest.map written) ∧
      source script = drops ++ source rest ∧ target script = adds ++ target rest ∧
        rest.length ≤ script.length ∧
      (script.head?.any (!·.isKeep) = true → rest.length < script.length) := by
  induction script generalizing removals additions with
  | nil => exact ⟨[], [], [], by simp [collectRun], rfl, rfl, Nat.le_refl _, by simp⟩
  | cons edit script ih =>
    cases edit with
    | keep line =>
      refine ⟨[], [], .keep line :: script, ?_, rfl, rfl, Nat.le_refl _, by simp [Edit.isKeep]⟩
      simp [collectRun, written, isContext]
    | drop line =>
      obtain ⟨drops, adds, rest, run, left, right, shorter, _⟩ :=
        ih (removals ++ ['-' :: line]) additions
      refine ⟨line :: drops, adds, rest, ?_, congrArg (line :: ·) left, right,
        Nat.le_succ_of_le shorter, fun _ => Nat.lt_succ_of_le shorter⟩
      simp [collectRun, written, isContext, isAddition, run]
    | add line =>
      obtain ⟨drops, adds, rest, run, left, right, shorter, _⟩ :=
        ih removals (additions ++ ['+' :: line])
      refine ⟨drops, line :: adds, rest, ?_, left, congrArg (line :: ·) right,
        Nat.le_succ_of_le shorter, fun _ => Nat.lt_succ_of_le shorter⟩
      simp [collectRun, written, isContext, isAddition, run]

/-- Grouping changes the order within runs only. -/
theorem spells_groupedLoop {turns : Nat} {script : List (Edit Text)}
    (enough : script.length ≤ turns)
    {grouped left right : List Text} (spells : Spells grouped left right) :
    Spells (groupedLoop turns (script.map written) grouped) (left ++ source script)
      (right ++ target script) := by
  induction turns generalizing script grouped left right with
  | zero =>
    obtain rfl := eq_nil_of_length_eq_zero (Nat.le_zero.mp enough)
    simpa [groupedLoop, source, target] using spells
  | succ turns ih =>
    cases script with
    | nil => simpa [groupedLoop, source, target] using spells
    | cons edit script =>
      rw [map_cons, groupedLoop, isContext_written]
      split_ifs with kept
      · cases edit with
        | keep line =>
          have next :=
            spells.append (⟨[.keep line], rfl, rfl, rfl⟩ : Spells [' ' :: line] [line] [line])
          have all := @ih script (Nat.le_of_succ_le_succ enough) _ _ _ next
          rwa [append_assoc, append_assoc] at all
        | drop line | add line => cases kept
      · obtain ⟨drops, adds, rest, run, readEq, writtenEq, _, shorter⟩ :=
          collectRun_written (edit :: script) [] []
        have fewer := shorter (by simpa using kept)
        rw [map_cons] at run
        simp only [run, nil_append]
        have next := (spells.append (spells_drops drops)).append (spells_adds adds)
        rw [append_nil, append_nil] at next
        have all := @ih rest (by simp only [length_cons] at fewer enough; omega) _ _ _ next
        rwa [readEq, writtenEq, ← append_assoc, ← append_assoc]

theorem spells_lineOps (left right : List Text) : Spells (lineOps left right) left right := by
  obtain ⟨⟨script, ops, rfl, rfl⟩, -⟩ := backtrackOps_spec left right
  have grouped := @spells_groupedLoop script.length script (Nat.le_refl _) [] [] [] spells_nil
  rw [lineOps]
  simp only [ops, groupedOps, length_map]
  exact grouped

/-- A number in front of a text. -/
def readNumber (text : Text) : Option (Nat × Text) :=
  let digits := text.takeWhile Char.isDigit
  if digits = [] then none else some (Nat.ofDigitChars 10 digits 0, text.drop digits.length)

/-- The text behind a mark. -/
def expect (mark text : Text) : Option Text :=
  if mark.isPrefixOf text then some (text.drop mark.length) else none

/-- `@@ -a,b +c,d @@`. -/
def readHeader (line : Text) : Option (Nat × Nat × Nat × Nat) := do
  let rest ← expect ['@', '@', ' ', '-'] line
  let (leftStart, rest) ← readNumber rest
  let rest ← expect [','] rest
  let (leftCount, rest) ← readNumber rest
  let rest ← expect [' ', '+'] rest
  let (rightStart, rest) ← readNumber rest
  let rest ← expect [','] rest
  let (rightCount, rest) ← readNumber rest
  if rest = [' ', '@', '@'] then some (leftStart, leftCount, rightStart, rightCount) else none

/-- As many lines of a hunk as its header says, and the lines behind it. -/
def readBody : List Text → Nat → Nat → Option (List (Edit Text) × List Text)
  | lines, 0, 0 => some ([], lines)
  | (' ' :: line) :: lines, left + 1, right + 1 =>
    (readBody lines left right).map fun (edits, rest) => (.keep line :: edits, rest)
  | ('-' :: line) :: lines, left + 1, right =>
    (readBody lines left right).map fun (edits, rest) => (.drop line :: edits, rest)
  | ('+' :: line) :: lines, left, right + 1 =>
    (readBody lines left right).map fun (edits, rest) => (.add line :: edits, rest)
  | _, _, _ => none

/-- The hunks of a patch; lines are counted from one. -/
def readHunks : Nat → List Text → Option (List (Hunk Text))
  | _, [] => some []
  | 0, _ :: _ => none
  | turns + 1, first :: lines => do
    let (leftStart, leftCount, rightStart, rightCount) ← readHeader first
    let (edits, rest) ← readBody lines leftCount rightCount
    let hunks ← readHunks turns rest
    if leftStart = 0 ∨ rightStart = 0 then none
    else some (⟨leftStart - 1, rightStart - 1, edits⟩ :: hunks)

def readPatch (patch : List Text) : Option (List (Hunk Text)) := readHunks patch.length patch

theorem expect_append (mark rest : Text) : expect mark (mark ++ rest) = some rest := by
  rw [expect, if_pos (by simp), drop_left]

theorem readNumber_number (value : Nat) {rest : Text} (stops : rest.head?.all (!·.isDigit) = true) :
    readNumber (number value ++ rest) = some (value, rest) := by
  have digits : (number value ++ rest).takeWhile Char.isDigit = number value := by
    have all : ∀ c ∈ number value, c.isDigit = true := fun c member =>
      Decimal.isDigit_iff.mpr (Decimal.digits_toDigits value c member)
    rw [takeWhile_append_of_pos all]
    cases rest with
    | nil => simp
    | cons c rest =>
      have stop : c.isDigit = false := by simpa using stops
      simp [stop]
  have some : number value ≠ [] := Nat.toDigits_ne_nil
  rw [readNumber]
  simp only [digits, if_neg some, drop_left]
  rw [number, Nat.ofDigitChars_ten_toDigits]

theorem readHeader_header (leftStart leftCount rightStart rightCount : Nat) :
    readHeader (header leftStart leftCount rightStart rightCount) =
      some (leftStart, leftCount, rightStart, rightCount) := by
  simp (disch := simp) only [header, append_assoc, readHeader, expect_append, readNumber_number,
    Option.bind_eq_bind, Option.bind_some, if_true]

theorem readBody_written (edits : List (Edit Text)) (rest : List Text) :
    readBody (edits.map written ++ rest) (source edits).length (target edits).length = some
      (edits, rest) := by
  induction edits with
  | nil => simp [source, target, readBody]
  | cons edit edits ih =>
    cases edit <;> simp [source_cons, target_cons, Edit.source, Edit.target, written, readBody, ih]

theorem collectChanges_append (ops more : List Text) (index : Nat) :
    collectChanges (ops ++ more) index = collectChanges ops index ++ collectChanges more
      (index + ops.length) := by
  induction ops generalizing index with
  | nil => rfl
  | cons op ops ih =>
    rw [cons_append, collectChanges, collectChanges, ih, length_cons, Nat.add_right_comm,
      Nat.add_assoc]
    split_ifs <;> rfl

theorem collectChanges_kept {script : List (Edit Text)} (kept : ∀ edit ∈ script, edit.isKeep = true)
    (index : Nat) : collectChanges (script.map written) index = [] := by
  induction script generalizing index with
  | nil => rfl
  | cons edit script ih =>
    obtain ⟨first, others⟩ := forall_mem_cons.mp kept
    rw [map_cons, collectChanges, isContext_written, if_pos first, ih others]

/-- Up to the first change every line is kept. -/
theorem collectChanges_cases (index : Nat) :
    (collectChanges (script.map written) index = [] ∧ ∀ edit ∈ script, edit.isKeep = true) ∨
      ∃ gap edit rest, script = gap ++ edit :: rest ∧ (∀ edit ∈ gap, edit.isKeep = true) ∧
        edit.isKeep = false ∧ collectChanges (script.map written) index =
          (index + gap.length) :: collectChanges (rest.map written) (index + gap.length + 1) := by
  induction script generalizing index with
  | nil => exact .inl ⟨rfl, by simp⟩
  | cons edit script ih =>
    rw [map_cons, collectChanges, isContext_written]
    cases kept : edit.isKeep with
    | false => exact .inr ⟨[], edit, script, rfl, by simp, kept, by simp⟩
    | true =>
      rcases ih (index + 1) with ⟨none, all⟩ | ⟨gap, next, rest, rfl, all, changed, changes⟩
      · exact .inl ⟨by simpa using none, forall_mem_cons.mpr ⟨kept, all⟩⟩
      · refine .inr ⟨edit :: gap, next, rest, rfl, forall_mem_cons.mpr ⟨kept, all⟩, changed, ?_⟩
        rw [if_pos rfl, changes, length_cons]
        simp only [Nat.add_assoc, Nat.add_comm 1]

/-- A group ends where more than six lines are kept. -/
theorem groupEnd_spec {script : List (Edit Text)} {last : Nat} {changes : List Nat}
    (all : changes = collectChanges (script.map written) (last + 1)) :
    ∃ inside behind, script = inside ++ behind ∧
      groupEnd last changes =
        (last + inside.length, collectChanges (behind.map written) (last + inside.length + 1)) ∧
      ∀ edit ∈ behind.take 7, edit.isKeep = true := by
  induction changes generalizing script last with
  | nil =>
    rcases collectChanges_cases script (last + 1) with ⟨_, kept⟩ | ⟨_, _, _, _, _, _, changes⟩
    · exact ⟨[], script,
        rfl, by rw [groupEnd, all]; rfl, fun edit member => kept edit (mem_of_mem_take member)⟩
    · exact absurd (all.trans changes) (by simp)
  | cons next later ih =>
    rcases collectChanges_cases script (last + 1) with ⟨none, _⟩ |
      ⟨gap, edit, rest, rfl, kept, _, changes⟩
    · exact absurd (all.trans none) (by simp)
    · obtain ⟨rfl, laterEq⟩ := List.cons.inj (all.trans changes)
      rw [groupEnd]
      split_ifs with far
      · refine ⟨[], gap ++ edit :: rest, rfl, by rw [all]; rfl, fun edit member => kept edit ?_⟩
        rw [take_append_of_le_length (by omega)] at member
        exact mem_of_mem_take member
      · obtain ⟨inside, behind, rfl, ends, quiet⟩ := ih laterEq
        refine ⟨gap ++ edit :: inside, behind, by simp, ?_, quiet⟩
        have index : last + 1 + gap.length + inside.length = last +
          (gap ++ edit :: inside).length := by
          simp only [length_append, length_cons]
          omega
        rw [ends, index]

section Counts
variable {index : Nat} {leftPrefix rightPrefix : List Nat} (left : leftPrefix.length = index + 1)
  (right : rightPrefix.length = index + 1)
include left right

/-- The counts already there stay. -/
theorem prefixLoop_getD (ops : List Text) {place : Nat} (inside : place ≤ index) :
    (prefixLoop ops index leftPrefix rightPrefix).1.getD place 0 = leftPrefix.getD place 0 ∧
      (prefixLoop ops index leftPrefix rightPrefix).2.getD place 0 = rightPrefix.getD place 0 := by
  induction ops generalizing index leftPrefix rightPrefix with
  | nil => exact ⟨rfl, rfl⟩
  | cons op ops ih =>
    obtain ⟨read, made⟩ := @ih (index + 1) (leftPrefix ++ [_]) (rightPrefix ++ [_]) (by simp [left])
      (by simp [right]) (by omega)
    rw [prefixLoop]
    exact ⟨read.trans (getD_append _ _ _ _ (by omega)), made.trans (getD_append _ _ _ _ (by omega))⟩

/-- The counts go on by the lines read and written. -/
theorem prefixLoop_written (front back : List (Edit Text)) :
    (prefixLoop ((front ++ back).map written) index leftPrefix rightPrefix).1.getD
      (index + front.length) 0 = leftPrefix.getD index 0 + (source front).length ∧
      (prefixLoop ((front ++ back).map written) index leftPrefix rightPrefix).2.getD
        (index + front.length) 0 = rightPrefix.getD index 0 + (target front).length := by
  induction front generalizing index leftPrefix rightPrefix with
  | nil => exact prefixLoop_getD left right _ (Nat.le_refl _)
  | cons edit front ih =>
    obtain ⟨read, made⟩ := @ih (index + 1) (leftPrefix ++ [_]) (rightPrefix ++ [_]) (by simp [left])
      (by simp [right])
    rw [length_cons, Nat.add_comm front.length, ← Nat.add_assoc]
    refine ⟨read.trans ?_, made.trans ?_⟩
    all_goals
      rw [getD_append_right _ _ _ _ (by omega)]
      cases edit <;>
        simp [left, right, written, isAddition, isRemoval, source, target, filterMap_cons,
        Edit.source, Edit.target] <;> omega

end Counts

theorem prefixCounts_written (front back : List (Edit Text)) :
    (prefixCounts ((front ++ back).map written)).1.getD front.length 0 = (source front).length ∧
      (prefixCounts ((front ++ back).map written)).2.getD front.length 0 =
        (target front).length := by
  simpa [prefixCounts] using @prefixLoop_written 0 [0] [0] rfl rfl front back

/-- The text of a hunk. -/
def hunkText (before window : List (Edit Text)) : List Text :=
  header ((source before).length + 1) (source window).length ((target before).length + 1)
    (target window).length :: window.map written

theorem appendHunk_written (result : List Text) (before window rest : List (Edit Text))
    {start stop : Nat}
    (startEq : start = before.length) (stopEq : stop + 1 = before.length + window.length) :
    appendHunk result ((before ++ window ++ rest).map written)
      (prefixCounts ((before ++ window ++ rest).map written)).1
        (prefixCounts ((before ++ window ++ rest).map written)).2 start stop = result ++
          hunkText before window := by
  obtain ⟨readBefore, madeBefore⟩ := prefixCounts_written before (window ++ rest)
  obtain ⟨readAfter, madeAfter⟩ := prefixCounts_written (before ++ window) rest
  rw [← append_assoc] at readBefore madeBefore
  rw [length_append] at readAfter madeAfter
  have body : (((before ++ window ++ rest).map written).drop before.length).take window.length =
    window.map written := by
    simp
  rw [appendHunk, startEq, stopEq, readBefore, madeBefore, readAfter, madeAfter,
    Nat.add_sub_cancel_left, body, hunkText]
  simp

/-- A hunk in front of others is read back. -/
theorem readHunks_hunkText {turns : Nat} (before window : List (Edit Text)) {rest : List Text}
    {hunks : List (Hunk Text)}
    (read : readHunks turns rest = some hunks) :
    readHunks (turns + 1) (hunkText before window ++ rest) =
      some (⟨(source before).length, (target before).length, window⟩ :: hunks) := by
  rw [hunkText, cons_append, readHunks, readHeader_header]
  simp [readBody_written, read]

/-- The changes from `edit` to the end of `inside` are shown with up to three kept lines on both
sides. -/
theorem exists_window (before gap : List (Edit Text)) (edit : Edit Text)
    (inside behind : List (Edit Text))
    (room : before.length ≤ hunkStart (before.length + gap.length)) :
    ∃ front window, gap ++ edit :: (inside ++ behind) = front ++ window ++ behind.drop 3 ∧
      (∀ edit ∈ front, edit ∈ gap) ∧
      hunkStart (before.length + gap.length) = (before ++ front).length ∧
      hunkEnd (before.length + gap.length + inside.length)
        (before ++ (gap ++ edit :: (inside ++ behind))).length + 1 =
        (before ++ front).length + window.length ∧
      before.length + gap.length + inside.length + 1 + (behind.take 3).length =
        (before ++ front ++ window).length := by
  obtain ⟨skipped, skips⟩ : ∃ skipped, skipped = hunkStart (before.length + gap.length) -
    before.length := ⟨_, rfl⟩
  have short : skipped ≤ gap.length := by
    rw [skips, hunkStart]
    split <;> omega
  refine ⟨gap.take skipped, gap.drop skipped ++ edit :: (inside ++ behind.take 3), ?_, ?_, ?_, ?_,
    ?_⟩
  · rw [← append_assoc (gap.take skipped), take_append_drop]
    simp
  · exact fun edit member => mem_of_mem_take member
  all_goals simp only [hunkEnd, length_append, length_take, length_drop, length_cons]
  · omega
  · split <;> omega
  · omega

/-- Behind a group come the changes behind its hunk, and they leave room for the next one. -/
theorem collectChanges_behind {behind : List (Edit Text)}
    (quiet : ∀ edit ∈ behind.take 7, edit.isKeep = true)
    (position : Nat) :
    collectChanges (behind.map written) position =
        collectChanges ((behind.drop 3).map written) (position + (behind.take 3).length) ∧
      ∀ change ∈ (collectChanges (behind.map written) position).head?,
        position + (behind.take 3).length ≤ hunkStart change := by
  constructor
  · have kept : ∀ edit ∈ behind.take 3, edit.isKeep = true := fun edit member =>
      quiet edit (take_subset_take_left behind (by decide) member)
    conv_lhs => rw [← take_append_drop 3 behind, map_append, collectChanges_append,
      collectChanges_kept kept, length_map]
    rfl
  · intro change member
    rcases collectChanges_cases behind position with ⟨none, _⟩ |
      ⟨gap, next, rest, rfl, _, changed, some⟩
    · rw [none] at member
      cases member
    · rw [some] at member
      cases member
      -- The next change is behind the seven kept lines.
      have far : 7 ≤ gap.length := by
        by_contra near
        have inside : next ∈ (gap ++ next :: rest).take 7 := by
          rw [take_append, mem_append, show 7 - gap.length = (6 - gap.length) +
            1 by omega, take_succ_cons]
          exact .inr mem_cons_self
        exact Bool.noConfusion (changed.symm.trans (quiet next inside))
      rw [length_take, hunkStart]
      split <;> omega

/-- The hunks of the changes behind a place are windows of the script from there on. -/
theorem hunksLoop_windows {script : List (Edit Text)} {turns : Nat} {before rest : List (Edit Text)}
    (split : script = before ++ rest) {changes : List Nat}
    (all : changes = collectChanges (rest.map written) before.length)
      (enough : changes.length ≤ turns)
    (room : ∀ change ∈ changes.head?, before.length ≤ hunkStart change) (result : List Text) :
    ∃ text hunks, hunksLoop (script.map written) (prefixCounts (script.map written)).1
        (prefixCounts (script.map written)).2 turns changes result = result ++ text ∧
      (∀ fuel, text.length ≤ fuel → readHunks fuel text = some hunks) ∧
      Windows (source before).length (target before).length rest hunks := by
  induction turns generalizing before rest changes result with
  | zero =>
    obtain rfl := eq_nil_of_length_eq_zero (Nat.le_zero.mp enough)
    rcases collectChanges_cases rest before.length with ⟨_, kept⟩ | ⟨_, _, _, _, _, _, some⟩
    · exact ⟨[], [], by simp [hunksLoop], fun fuel _ => by cases fuel <;> rfl, .unchanged kept⟩
    · exact absurd (all.trans some) (by simp)
  | succ turns ih =>
    rcases collectChanges_cases rest before.length with ⟨none, kept⟩ |
      ⟨gap, edit, tail, rfl, kept, _, some⟩
    · rw [all, none]
      exact ⟨[], [], by simp [hunksLoop], fun fuel _ => by cases fuel <;> rfl, .unchanged kept⟩
    · rw [all, some] at enough room ⊢
      obtain ⟨inside, behind, rfl, ends, quiet⟩ :=
        @groupEnd_spec tail (before.length + gap.length) _ rfl
      obtain ⟨front, window, parts, fromGap, start, stop, length⟩ :=
        exists_window before gap edit inside behind (room _ rfl)
      obtain ⟨laterEq, laterRoom⟩ :=
        collectChanges_behind quiet (before.length + gap.length + inside.length + 1)
      rw [length] at laterEq laterRoom
      rw [laterEq] at laterRoom
      generalize behind.drop 3 = far at parts laterEq laterRoom
      have whole : script = before ++ front ++ window ++ far := by
        rw [split, parts]
        simp only [append_assoc]
      have hunk := appendHunk_written result (before ++ front) window far start stop
      rw [← whole, ← split] at hunk
      have fewer : (collectChanges (far.map written) (before ++ front ++ window).length).length ≤
        turns := by
        rw [map_append, collectChanges_append, length_map,
          Nat.add_right_comm (before.length + gap.length) 1, laterEq] at enough
        simp only [length_cons, length_append] at enough ⊢
        omega
      obtain ⟨text, hunks, loop, read, windows⟩ :=
        ih whole rfl fewer laterRoom (result ++ hunkText (before ++ front) window)
      refine ⟨hunkText (before ++ front) window ++ text,
        ⟨(source (before ++ front)).length, (target (before ++ front)).length, window⟩ :: hunks, ?_,
          ?_, ?_⟩
      · rw [hunksLoop, ends]
        dsimp only
        rw [laterEq, length_map, hunk, loop, append_assoc]
      · intro fuel long
        obtain ⟨fuel, rfl⟩ : ∃ fewer, fuel = fewer + 1 :=
          ⟨fuel - 1, by simp [hunkText] at long; omega⟩
        apply readHunks_hunkText
        apply read
        simp [hunkText] at long
        omega
      · have frontKept : ∀ edit ∈ front, edit.isKeep = true :=
          fun edit member => kept edit (fromGap edit member)
        obtain ⟨equal, length⟩ := source_eq_target frontKept
        simp only [source_append, target_append, length_append, ← equal, length] at windows ⊢
        rw [parts]
        exact .window frontKept windows

/-- The patch is read back as ordered hunks that turn the left lines into the right ones. -/
theorem diffLines_correct (left right : List Text) :
    ∃ hunks, readPatch (diffLines left right) = some hunks ∧ hunks.Pairwise Hunk.Before ∧
      apply hunks 0 0 left = some right := by
  obtain ⟨script, ops, rfl, rfl⟩ := spells_lineOps left right
  obtain ⟨text, hunks, loop, read, windows⟩ :=
    @hunksLoop_windows script _ [] script rfl _ rfl (Nat.le_refl _) (fun _ _ => Nat.zero_le _) []
  refine ⟨hunks, ?_, windows.ordered, windows.apply_source⟩
  have patch : diffLines (source script) (target script) = text := by
    rw [diffLines]
    simp only [ops]
    split_ifs with none
    · rw [length_nil, eq_nil_of_length_eq_zero none] at loop
      exact loop
    · exact loop
  rw [readPatch, patch, read _ (Nat.le_refl _)]

example : diffLines ["a".toList, "b".toList] ["a".toList, "c".toList] =
    ["@@ -1,2 +1,2 @@".toList, " a".toList, "-b".toList, "+c".toList] := by
  decide

end SpectraLang.Stdlib.Diff

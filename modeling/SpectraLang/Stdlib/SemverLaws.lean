import Mathlib.Data.Char
import Mathlib.Data.Set.List
import SpectraLang.Lib.Decimal
import SpectraLang.Lib.ThreeWay
import SpectraLang.Stdlib.Semver

/-! # Precedence of semantic versions

A version of the specification has numbers of any size, identifiers that are numbers or words, and
build identifiers that do not count. Its place in the order is a key: numbers first, a release above
its prereleases, numbers below words. The code reads exactly the versions whose core numbers fit an
`int`, and compares by the keys.
-/

namespace SpectraLang.Stdlib.Semver

open List Decimal ThreeWay

/-- A character of an identifier. -/
def isIdentifierChar (c : Char) : Bool := isAlphanumeric c ∨ c = '-'

/-- An identifier that is not a number. -/
structure Word where
  text : Text
  allowed : ∀ c ∈ text, isIdentifierChar c = true
  notNumeric : isNumericSpan text = false

inductive Identifier where
  | number (value : Nat)
  | word (word : Word)

structure BuildIdentifier where
  text : Text
  allowed : ∀ c ∈ text, isIdentifierChar c = true
  nonempty : text ≠ []

/-- A semantic version; without identifiers it is a release. -/
structure Version where
  major : Nat
  minor : Nat
  patch : Nat
  prerelease : List Identifier
  build : List BuildIdentifier

def Identifier.text : Identifier → Text
  | .number value => Nat.toDigits 10 value
  | .word other => other.text

/-- Numbers are below words. -/
def Identifier.key : Identifier → ℕ ⊕ₗ List Char
  | .number value => toLex (.inl value)
  | .word other => toLex (.inr other.text)

namespace Version

def core (version : Version) : Text :=
  Nat.toDigits 10 version.major ++ '.' ::
    (Nat.toDigits 10 version.minor ++ '.' :: Nat.toDigits 10 version.patch)

def text (version : Version) : Text :=
  version.core ++
    (if version.prerelease = [] then [] else '-' :: ['.'].intercalate
    (version.prerelease.map Identifier.text)) ++
    (if version.build = [] then [] else '+' :: ['.'].intercalate
      (version.build.map BuildIdentifier.text))

/-- The place of a version in the order of precedence. -/
def key (version : Version) : ℕ ×ₗ ℕ ×ₗ ℕ ×ₗ WithTop (List (ℕ ⊕ₗ List Char)) :=
  toLex (version.major, toLex (version.minor, toLex (version.patch,
    if version.prerelease = [] then ⊤ else
      (version.prerelease.map Identifier.key : List (ℕ ⊕ₗ List Char)))))

/-- The core numbers fit an `int`. -/
def Fits (version : Version) : Prop := version.major ≤ maxInt ∧ version.minor ≤ maxInt ∧
    version.patch ≤ maxInt

end Version

variable {c : Char}

theorem isDigitCode_iff : isDigitCode c = true ↔ 48 ≤ c.toNat ∧ c.toNat ≤ 57 := decide_eq_true_iff

variable {span core piece : Text} {value : Nat} {checkNumeric : Bool} {α : Type} {text : α → Text}

theorem isNumericSpan_iff : isNumericSpan span = true ↔ Digits span := by
  simp only [isNumericSpan, all_eq_true, isDigitCode_iff, Digits]

theorem isNumericSpan_toDigits (value : Nat) : isNumericSpan (Nat.toDigits 10 value) = true :=
  isNumericSpan_iff.mpr (digits_toDigits value)

/-- Reading digits gives their number, unless it passes the largest `int`. -/
theorem parseDigits_eq {start : Nat} (fits : start ≤ maxInt) :
    parseDigits span start = some value ↔ Digits span ∧ Nat.ofDigitChars 10 span start = value ∧
      value ≤ maxInt := by
  induction span generalizing start with
  | nil =>
    simp only [parseDigits, Option.some.injEq, Digits, Nat.ofDigitChars_nil]
    constructor
    · rintro rfl
      exact ⟨by simp, rfl, fits⟩
    · exact fun all => all.2.1
  | cons c span ih =>
    have grows := le_ofDigitChars span (10 * start + (c.toNat - '0'.toNat))
    rw [parseDigits, Nat.ofDigitChars_cons, Digits, forall_mem_cons, ← isDigitCode_iff]
    split_ifs with digit
    · have range := isDigitCode_iff.mp digit
      have zero : '0'.toNat = 48 := rfl
      have next : start * 10 + (c.toNat - 48) = 10 * start + (c.toNat - '0'.toNat) := by omega
      simp only [digit, true_and, next]
      split_ifs with big
      · apply iff_of_false (by simp)
        rintro ⟨_, rfl, small⟩
        have := Nat.le_mul_of_pos_right (10 * start + (c.toNat - '0'.toNat))
          (Nat.pow_pos (n := span.length) (show 0 < 10 by decide))
        unfold maxInt at *
        omega
      · exact ih (by unfold maxInt at *; omega)
    · exact iff_of_false (by simp) (fun all => digit all.1.1)

/-- A number is read from its shortest text. -/
theorem parseNumber_eq : parseNumber span = some value ↔ span = Nat.toDigits 10 value ∧
    value ≤ maxInt := by
  rw [parseNumber]
  split_ifs with empty zero
  · exact iff_of_false (by simp) (fun both => Nat.toDigits_ne_nil (both.1.symm.trans empty))
  · apply iff_of_false (by simp)
    rintro ⟨rfl, _⟩
    rw [eq_zero_of_head zero.2] at zero
    exact absurd zero.1 (by decide)
  · rw [parseDigits_eq (Nat.zero_le _)]
    constructor
    · rintro ⟨digits, rfl, fits⟩
      refine ⟨(toDigits_ofDigitChars digits empty fun leading => ?_).symm, fits⟩
      by_contra long
      exact zero ⟨by have := length_pos_iff.mpr empty; omega, leading⟩
    · rintro ⟨rfl, fits⟩
      exact ⟨digits_toDigits value, Nat.ofDigitChars_ten_toDigits, fits⟩

theorem dot_not_mem_toDigits (value : Nat) : '.' ∉ Nat.toDigits 10 value := fun member =>
  absurd (digits_toDigits value '.' member) (by decide)

theorem splitLoop_eq {text span : Text} (plain : '.' ∉ span) {parts all : List Nat} :
    splitLoop text span parts = some all ↔
      ∃ numbers, all = parts ++ numbers ∧ (span ++ text).splitOn '.' = numbers.map
        (Nat.toDigits 10) ∧ ∀ number ∈ numbers, number ≤ maxInt := by
  induction text generalizing span parts with
  | nil =>
    simp only [splitLoop, Option.map_eq_some_iff, parseNumber_eq, append_nil,
      splitOn_eq_singleton plain]
    constructor
    · rintro ⟨number, ⟨rfl, fits⟩, rfl⟩
      exact ⟨[number], rfl, rfl, by simpa using fits⟩
    · rintro ⟨numbers, rfl, same, fits⟩
      obtain ⟨number, rfl, rfl⟩ := map_eq_singleton_iff.mp same.symm
      exact ⟨number, ⟨rfl, by simpa using fits⟩, rfl⟩
  | cons c text ih =>
    rw [splitLoop]
    split_ifs with dot
    · rw [dot, splitOn_append_cons_self_of_not_mem plain]
      constructor
      · intro rest
        cases first : parseNumber span with
        | none => rw [first] at rest; cases rest
        | some number =>
          rw [first] at rest
          obtain ⟨numbers, rfl, same, fits⟩ := (ih (by simp)).mp rest
          obtain ⟨rfl, small⟩ := parseNumber_eq.mp first
          exact ⟨number ::
            numbers, by simp, by
            rw [← nil_append text, same]; rfl, forall_mem_cons.mpr ⟨small, fits⟩⟩
      · rintro ⟨numbers, rfl, same, fits⟩
        obtain ⟨number, numbers, rfl, rfl, same'⟩ := map_eq_cons_iff.mp same.symm
        obtain ⟨small, others⟩ := forall_mem_cons.mp fits
        rw [parseNumber_eq.mpr ⟨rfl, small⟩]
        exact (ih (by simp)).mpr ⟨numbers, by simp, same'.symm, others⟩
    · rw [ih (by simp [plain, Ne.symm dot]), append_assoc, singleton_append]

theorem splitCore_eq {values : List Nat} :
    splitCore core = some values ↔ ∃ version : Version, version.Fits ∧ core = version.core ∧
      values = [version.major, version.minor, version.patch] := by
  have loop := fun all => @splitLoop_eq core [] (by simp) [] all
  simp only [nil_append] at loop
  have split : splitCore core = some values ↔ splitLoop core [] [] = some values ∧
    values.length = 3 := by
    rw [splitCore]
    cases splitLoop core [] [] with
    | none => simp
    | some parts =>
      simp only [ne_eq, ite_not, Option.some.injEq]
      split_ifs with three
      · exact ⟨fun same => ⟨Option.some.inj same, Option.some.inj same ▸ three⟩,
          fun both => congrArg some both.1⟩
      · exact iff_of_false (by simp) (fun both => three (both.1 ▸ both.2))
  rw [split, loop]
  constructor
  · rintro ⟨⟨_, rfl, pieces, fits⟩, three⟩
    obtain ⟨major, minor, patch, rfl⟩ := length_eq_three.mp three
    refine ⟨⟨major, minor, patch, [], []⟩, by simpa [Version.Fits] using fits, ?_, rfl⟩
    apply (intercalate_splitOn '.').symm.trans
    rw [pieces]
    simp [Version.core]
  · rintro ⟨version, fits, rfl, rfl⟩
    refine ⟨⟨_, rfl, ?_, by simpa [Version.Fits] using fits⟩, rfl⟩
    simp [Version.core, splitOn_append_cons_self_of_not_mem (dot_not_mem_toDigits _),
      splitOn_eq_singleton (dot_not_mem_toDigits _)]

/-- What the code checks of an identifier. -/
def ValidPiece (checkNumeric : Bool) (piece : Text) : Prop :=
  piece ≠ [] ∧ (∀ c ∈ piece, isIdentifierChar c = true) ∧
    ¬ (checkNumeric = true ∧ isNumericSpan piece = true ∧ piece.length > 1 ∧ piece.head? = some '0')

theorem exists_piece {text : Text} (member : c ∈ text) (other : c ≠ '.') :
    ∃ piece ∈ text.splitOn '.', c ∈ piece := by
  rw [← @intercalate_splitOn _ text _ _ '.'] at member
  generalize text.splitOn '.' = pieces at member ⊢
  induction pieces with
  | nil => cases member
  | cons piece pieces ih =>
    cases pieces with
    | nil => exact ⟨piece, by simp, by simpa using member⟩
    | cons next pieces =>
      rw [intercalate_cons_cons, append_assoc, mem_append, singleton_append, mem_cons] at member
      rcases member with first | rfl | later
      · exact ⟨piece, mem_cons_self, first⟩
      · exact absurd rfl other
      · obtain ⟨found, member, inside⟩ := ih later
        exact ⟨found, mem_cons_of_mem _ member, inside⟩

theorem identifiersLoop_eq {text : Text} (plain : '.' ∉ span)
    (allowed : ∀ c ∈ span, isIdentifierChar c = true) :
    identifiersLoop checkNumeric text span = true ↔ ∀ piece ∈ (span ++ text).splitOn '.',
      ValidPiece checkNumeric piece := by
  induction text generalizing span with
  | nil =>
    rw [append_nil, splitOn_eq_singleton plain, forall_mem_singleton, identifiersLoop, ValidPiece]
    split_ifs with empty zero
    · simp [empty]
    · exact iff_of_false id (fun valid => valid.2.2 zero)
    · exact iff_of_true rfl ⟨empty, allowed, zero⟩
  | cons c text ih =>
    rw [identifiersLoop]
    by_cases dot : c = '.'
    · rw [if_pos dot, dot, splitOn_append_cons_self_of_not_mem plain, forall_mem_cons, ValidPiece]
      split_ifs with empty zero
      · simp [empty]
      · exact iff_of_false id (fun valid => valid.1.2.2 zero)
      · rw [ih (by simp) (by simp), nil_append, and_iff_right ⟨empty, allowed, zero⟩]
    · rw [if_neg dot]
      have foreign : (¬ isAlphanumeric c ∧ c ≠ '-') ↔ isIdentifierChar c = false := by
        simp [isIdentifierChar]
      simp only [foreign]
      split_ifs with other
      · refine iff_of_false id (fun valid => ?_)
        obtain ⟨piece, member, inside⟩ := exists_piece (show c ∈ span ++ c :: text by simp) dot
        exact Bool.noConfusion (other.symm.trans ((valid piece member).2.1 c inside))
      · rw [ih (by simp [plain, Ne.symm dot]) ?_, append_assoc, singleton_append]
        exact forall_mem_append.mpr ⟨allowed, by simpa using other⟩

theorem dot_not_mem_of_allowed (allowed : ∀ c ∈ piece, isIdentifierChar c = true) : '.' ∉ piece :=
  fun member =>
  absurd (allowed '.' member) (by decide)

theorem isIdentifierChar_of_digits (digits : Digits span) :
    ∀ c ∈ span, isIdentifierChar c = true := by
  intro c member
  have range := digits c member
  simp only [isIdentifierChar, isAlphanumeric, decide_eq_true_iff]
  exact .inl (.inl range)

variable (identifier : Identifier)

theorem Identifier.allowed : ∀ c ∈ identifier.text, isIdentifierChar c = true := by
  cases identifier with
  | number value => exact isIdentifierChar_of_digits (digits_toDigits value)
  | word other => exact other.allowed

theorem Identifier.nonempty : identifier.text ≠ [] := by
  cases identifier with
  | number value => exact Nat.toDigits_ne_nil
  | word other =>
    intro empty
    have numeric := other.notNumeric
    rw [show other.text = [] from empty] at numeric
    cases numeric

theorem validPiece_prerelease : ValidPiece true piece ↔ ∃ identifier :
    Identifier, identifier.text = piece := by
  constructor
  · rintro ⟨nonempty, allowed, shortest⟩
    cases numeric : isNumericSpan piece with
    | false => exact ⟨.word ⟨piece, allowed, numeric⟩, rfl⟩
    | true =>
      refine ⟨.number (Nat.ofDigitChars 10 piece 0), toDigits_ofDigitChars
        (isNumericSpan_iff.mp numeric) nonempty ?_⟩
      intro leading
      by_contra long
      exact shortest ⟨rfl, numeric, by have := length_pos_iff.mpr nonempty; omega, leading⟩
  · rintro ⟨identifier, rfl⟩
    refine ⟨identifier.nonempty, identifier.allowed, ?_⟩
    rintro ⟨_, numeric, long, leading⟩
    cases identifier with
    | number value =>
      rw [Identifier.text] at long leading
      rw [eq_zero_of_head leading] at long
      exact absurd long (by decide)
    | word other => exact Bool.noConfusion (other.notNumeric.symm.trans numeric)

theorem validPiece_build : ValidPiece false piece ↔ ∃ identifier :
    BuildIdentifier, identifier.text = piece := by
  constructor
  · rintro ⟨nonempty, allowed, _⟩
    exact ⟨⟨piece, allowed, nonempty⟩, rfl⟩
  · rintro ⟨identifier, rfl⟩
    exact ⟨identifier.nonempty, identifier.allowed, by simp⟩

/-- The text of a section with the given identifiers. -/
def sectionText (texts : List Text) : Option Text :=
  if texts = [] then none else some (['.'].intercalate texts)

section
variable (pieces : ∀ piece, ValidPiece checkNumeric piece ↔ ∃ item, text item = piece)
include pieces

/-- The texts accepted are the identifiers with dots between them. -/
theorem identifiersLoop_iff (all : Text) :
    identifiersLoop checkNumeric all [] = true ↔ ∃ items : List α, items ≠ [] ∧
      all = ['.'].intercalate (items.map text) := by
  rw [identifiersLoop_eq (by simp) (by simp), nil_append]
  constructor
  · intro valid
    obtain ⟨items, same⟩ : all.splitOn '.' ∈ Set.range (List.map text) := by
      rw [Set.range_list_map]
      exact fun piece member => (pieces piece).mp (valid piece member)
    refine ⟨items, ?_, by rw [same, intercalate_splitOn]⟩
    rintro rfl
    exact splitOn_ne_nil '.' all same.symm
  · rintro ⟨items, nonempty, rfl⟩ piece member
    have plain : ∀ piece ∈ items.map text, '.' ∉ piece := by
      intro piece member
      obtain ⟨item, _, rfl⟩ := mem_map.mp member
      exact dot_not_mem_of_allowed ((pieces _).mpr ⟨item, rfl⟩).2.1
    rw [splitOn_intercalate '.' plain (by simpa using nonempty)] at member
    obtain ⟨item, _, rfl⟩ := mem_map.mp member
    exact (pieces _).mpr ⟨item, rfl⟩

theorem section_iff (section_ : Option Text) :
    (∀ all ∈ section_, all ≠ [] ∧ identifiersLoop checkNumeric all [] = true) ↔
      ∃ items : List α, section_ = sectionText (items.map text) := by
  cases section_ with
  | none => exact iff_of_true (by simp) ⟨[], rfl⟩
  | some all =>
    constructor
    · intro valid
      obtain ⟨items, nonempty, rfl⟩ := (identifiersLoop_iff pieces all).mp (valid all rfl).2
      exact ⟨items, by rw [sectionText, if_neg (by simpa using nonempty)]⟩
    · rintro ⟨items, same⟩ other found
      cases found
      rw [sectionText] at same
      split_ifs at same with empty
      have loop :=
        (identifiersLoop_iff pieces all).mpr ⟨items, by simpa using empty, Option.some.inj same⟩
      refine ⟨?_, loop⟩
      rintro rfl
      exact Bool.noConfusion loop

end

/-- A text from its core, its prerelease section and its build section. -/
def joined (core : Text) (prerelease build : Option Text) : Text :=
  core ++ (prerelease.elim [] ('-' :: ·) ++ build.elim [] ('+' :: ·))

theorem exists_joined (text : Text) : ∃ core prerelease build, text = joined core prerelease build ∧
    '-' ∉ core ∧ '+' ∉ core ∧ ∀ section_ ∈ prerelease, '+' ∉ section_ := by
  induction text with
  | nil => exact ⟨[], none, none, rfl, by simp, by simp, by simp⟩
  | cons c text ih =>
    obtain ⟨core, prerelease, build, rfl, noDash, noPlus, plain⟩ := ih
    by_cases plus : c = '+'
    · exact ⟨[], none,
        some (joined core prerelease build), by rw [plus]; rfl, by simp, by simp, by simp⟩
    by_cases dash : c = '-'
    · refine ⟨[], some (core ++ prerelease.elim [] ('-' :: ·)),
        build, by rw [dash]; simp [joined], by simp, by simp, ?_⟩
      intro section_ member
      cases member
      intro plus
      rcases mem_append.mp plus with front | back
      · exact noPlus front
      · cases prerelease with
        | none => cases back
        | some old => exact plain old rfl (by simpa using back)
    · exact ⟨c :: core, prerelease, build,
        rfl, by simp [noDash, Ne.symm dash], by simp [noPlus, Ne.symm plus], plain⟩

theorem prereleaseDash_append (noDash : '-' ∉ core) (noPlus : '+' ∉ core) (rest : Text) :
    prereleaseDash (core ++ rest) = (prereleaseDash rest).map (core.length + ·) := by
  induction core with
  | nil => simp
  | cons c core ih =>
    simp only [mem_cons, not_or] at noDash noPlus
    rw [cons_append, prereleaseDash, if_neg (Ne.symm noPlus.1), if_neg (Ne.symm noDash.1),
      ih noDash.2 noPlus.2, Option.map_map]
    congr 1
    funext index
    simp only [Function.comp, length_cons]
    omega

theorem indexOf_append {front : Text} (noPlus : '+' ∉ front) (build : Option Text) :
    indexOf (front ++ build.elim [] ('+' :: ·)) '+' = build.map fun _ => front.length := by
  have none : front.findIdx? (· == '+') = Option.none := by
    rw [findIdx?_eq_none_iff]
    intro c member
    exact beq_false_of_ne fun same => noPlus (same ▸ member)
  rw [indexOf, findIdx?_append, none]
  cases build <;> simp [findIdx?_cons]

section Sections
variable {core : Text} {prerelease build : Option Text} (noDash : '-' ∉ core) (noPlus : '+' ∉ core)
  (plain : ∀ section_ ∈ prerelease, '+' ∉ section_)

include noDash noPlus in
theorem prereleaseDash_joined : prereleaseDash (joined core prerelease build) =
    prerelease.map fun _ => core.length := by
  rw [joined, prereleaseDash_append noDash noPlus]
  cases prerelease <;> cases build <;> rfl

include noPlus plain in
theorem indexOf_joined : indexOf (joined core prerelease build) '+' =
    build.map fun _ => (core ++ prerelease.elim [] ('-' :: ·)).length := by
  rw [joined, ← append_assoc, indexOf_append]
  intro member
  rcases mem_append.mp member with front | back
  · exact noPlus front
  · cases prerelease with
    | none => cases back
    | some text => exact plain text rfl (by simpa using back)

include noDash noPlus plain
theorem sections_joined : corePart (joined core prerelease build) = core ∧
    prereleasePart (joined core prerelease build) = prerelease.getD [] ∧
    buildPart (joined core prerelease build) = build.getD [] := by
  have dash := @prereleaseDash_joined core prerelease build noDash noPlus
  have plus := @indexOf_joined core prerelease build noPlus plain
  have split : joined core prerelease build = core ++ prerelease.elim [] ('-' :: ·) ++ build.elim []
    ('+' :: ·) := by
    rw [joined, append_assoc]
  rw [corePart, prereleasePart, buildPart, dash, plus, split]
  refine ⟨?_, ?_, ?_⟩
  · cases prerelease <;> cases build <;> simp [cutAt]
  · cases prerelease <;> cases build <;> simp [cutAt, take_append, drop_append]
  · cases build with
    | none => rfl
    | some text => exact drop_length_add_append ..

theorem isValid_joined : isValid (joined core prerelease build) = true ↔
    validCore core = true ∧ (∀ text ∈ prerelease, text ≠ [] ∧ identifiersLoop true text [] = true) ∧
      ∀ text ∈ build, text ≠ [] ∧ identifiersLoop false text [] = true := by
  obtain ⟨coreEq, prereleaseEq, buildEq⟩ :=
    @sections_joined core prerelease build noDash noPlus plain
  rw [isValid, coreEq, prereleaseEq, buildEq, prereleaseDash_joined noDash noPlus,
    indexOf_joined noPlus plain]
  cases validCore core <;> cases prerelease <;> cases build <;>
    simp [validPrerelease, validBuild] <;> grind

end Sections

namespace Version

variable (version : Version)

def prereleaseText : Option Text := sectionText (version.prerelease.map Identifier.text)
def buildText : Option Text := sectionText (version.build.map BuildIdentifier.text)

theorem text_eq : version.text = joined version.core version.prereleaseText version.buildText := by
  rw [text, joined, prereleaseText, buildText, append_assoc, sectionText, sectionText]
  simp only [map_eq_nil_iff]
  split_ifs <;> rfl

theorem not_mem_core (sign : c = '-' ∨ c = '+') : c ∉ version.core := by
  have foreign : ∀ value, c ∉ Nat.toDigits 10 value := by
    intro value member
    have range := digits_toDigits value c member
    rcases sign with rfl | rfl <;> exact absurd range (by decide)
  simp only [core, mem_append, mem_cons, foreign, false_or]
  rcases sign with rfl | rfl <;> decide

theorem plus_not_mem_prereleaseText : ∀ section_ ∈ version.prereleaseText, '+' ∉ section_ := by
  intro section_ member plus
  have valid := (section_iff (fun _ => validPiece_prerelease) version.prereleaseText).mpr
    ⟨version.prerelease, rfl⟩
  obtain ⟨piece, found, inside⟩ := exists_piece plus (by decide)
  have allowed :=
    ((identifiersLoop_eq (by simp) (by simp)).mp (valid section_ member).2 piece found).2.1
  exact absurd (allowed '+' inside) (by decide)

end Version

theorem validCore_iff : validCore core = true ↔ ∃ version : Version, version.Fits ∧
    core = version.core := by
  rw [validCore]
  constructor
  · intro valid
    cases split : splitCore core with
    | none => simp [split] at valid
    | some values =>
      obtain ⟨version, fits, same, _⟩ := splitCore_eq.mp split
      exact ⟨version, fits, same⟩
  · rintro ⟨version, fits, same⟩
    rw [splitCore_eq.mpr ⟨version, fits, same, rfl⟩]
    simp [partAt]

/-- The valid texts are those of versions whose core numbers fit an `int`. -/
theorem isValid_iff (text : Text) : isValid text = true ↔ ∃ version : Version, version.Fits ∧
    text = version.text := by
  constructor
  · obtain ⟨core, prerelease, build, rfl, noDash, noPlus, plain⟩ := exists_joined text
    rw [isValid_joined noDash noPlus plain]
    rintro ⟨validCore, validPrerelease, validBuild⟩
    obtain ⟨numbers, fits, rfl⟩ := validCore_iff.mp validCore
    obtain ⟨identifiers, rfl⟩ := (section_iff (fun _ => validPiece_prerelease) prerelease).mp
      validPrerelease
    obtain ⟨builds, rfl⟩ := (section_iff (fun _ => validPiece_build) build).mp validBuild
    refine ⟨⟨numbers.major, numbers.minor, numbers.patch, identifiers, builds⟩, fits, ?_⟩
    rw [Version.text_eq]
    rfl
  · rintro ⟨version, fits, rfl⟩
    rw [version.text_eq, isValid_joined (version.not_mem_core (.inl rfl))
      (version.not_mem_core (.inr rfl)) version.plus_not_mem_prereleaseText]
    refine ⟨validCore_iff.mpr ⟨version, fits, rfl⟩, ?_, ?_⟩
    · exact (section_iff (fun _ => validPiece_prerelease) _).mpr ⟨version.prerelease, rfl⟩
    · exact (section_iff (fun _ => validPiece_build) _).mpr ⟨version.build, rfl⟩

theorem compares_char (c d : Char) : Compares (signThen c.toNat d.toNat 0) c d := by
  have less : ∀ c d : Char, c < d ↔ c.toNat < d.toNat := fun c d => Iff.rfl
  have same : c = d ↔ c.toNat = d.toNat := Char.toNat_inj.symm
  unfold Compares
  rw [less, less, same]
  exact compares_signThen c.toNat d.toNat

theorem compareSpan_cons (c d : Char) (left right : Text) :
    compareSpan (c :: left) (d :: right) = andThen (signThen c.toNat d.toNat 0)
      (compareSpan left right) := by
  rw [andThen_signThen, andThen_zero]
  rfl

theorem compareSpan_words (left right : Text) : Compares (compareSpan left right) left right := by
  induction left generalizing right with
  | nil =>
    cases right with
    | nil => exact compares_refl _
    | cons d right => exact compares_nil_cons d right
  | cons c left ih =>
    cases right with
    | nil => exact (compares_nil_cons c left).swap
    | cons d right =>
      rw [compareSpan_cons]
      exact (compares_char c d).cons (ih right)

/-- Digits of the same width compare as their numbers. -/
theorem compareSpan_digits {left right : Text} (leftDigits : Digits left)
    (rightDigits : Digits right) (width : left.length = right.length) (start : Nat) :
    Compares (compareSpan left right) (Nat.ofDigitChars 10 left start)
      (Nat.ofDigitChars 10 right start) := by
  induction left generalizing right start with
  | nil =>
    obtain rfl := eq_nil_of_length_eq_zero width.symm
    exact compares_refl _
  | cons c left ih =>
    obtain ⟨d, right, rfl⟩ := exists_cons_of_length_eq_add_one width.symm
    obtain ⟨leftDigit, leftMore⟩ := forall_mem_cons.mp leftDigits
    obtain ⟨rightDigit, rightMore⟩ := forall_mem_cons.mp rightDigits
    have widths : left.length = right.length := Nat.succ.inj width
    have zero : '0'.toNat = 48 := rfl
    rw [compareSpan_cons, andThen_signThen, andThen_zero, signThen, Nat.ofDigitChars_cons,
      Nat.ofDigitChars_cons]
    -- The number behind the smaller digit stays below the one behind the larger digit.
    have below : ∀ {small large : Nat} {first second : Text}, Digits first →
      first.length = second.length → small < large →
        Nat.ofDigitChars 10 first small < Nat.ofDigitChars 10 second large := by
      intro small large first second digits same less
      have upper := ofDigitChars_lt digits (Nat.lt_succ_self small)
      have lower := le_ofDigitChars second large
      rw [← same] at lower
      exact Nat.lt_of_lt_of_le upper (Nat.le_trans (Nat.mul_le_mul_right _ less) lower)
    split_ifs with less greater
    · exact .inl ⟨below leftMore widths (by omega), rfl⟩
    · exact .inr (.inr ⟨below rightMore widths.symm (by omega), rfl⟩)
    · rw [show c.toNat = d.toNat by omega]
      exact ih leftMore rightMore widths _

/-- The number with fewer digits is smaller. -/
theorem lt_of_length_lt {other : Nat}
    (shorter : (Nat.toDigits 10 value).length < (Nat.toDigits 10 other).length) :
    value < other := by
  have positive : 0 < (Nat.toDigits 10 value).length := Nat.length_toDigits_pos
  have small := (Nat.length_toDigits_le_iff (by decide) positive).mp
    (Nat.le_refl (Nat.toDigits 10 value).length)
  have large := mt (Nat.length_toDigits_le_iff (b := 10) (n := other) (by decide) positive).mpr
    (Nat.not_le.mpr shorter)
  omega

theorem compareIdentifier_numbers (value other : Nat) :
    Compares (compareIdentifier (Nat.toDigits 10 value) (Nat.toDigits 10 other)) value other := by
  rw [compareIdentifier, if_pos ⟨isNumericSpan_toDigits value, isNumericSpan_toDigits other⟩]
  split_ifs with different shorter
  · exact .inl ⟨lt_of_length_lt shorter, rfl⟩
  · exact .inr (.inr ⟨lt_of_length_lt (by omega), rfl⟩)
  · have same := compareSpan_digits (digits_toDigits value) (digits_toDigits other)
      (not_not.mp different) 0
    rwa [Nat.ofDigitChars_ten_toDigits, Nat.ofDigitChars_ten_toDigits] at same

theorem compareIdentifier_compares (left right : Identifier) :
    Compares (compareIdentifier left.text right.text) left.key right.key := by
  cases left with
  | word left =>
    cases right with
    | word right =>
      have words := (compareSpan_words left.text right.text).map
        (f := fun text => (toLex (.inr text) : ℕ ⊕ₗ List Char))
        Sum.Lex.inr_strictMono
      simpa [compareIdentifier, Identifier.text, Identifier.key, left.notNumeric, right.notNumeric]
        using words
    | number value =>
      simp only [compareIdentifier, Identifier.text, left.notNumeric, isNumericSpan_toDigits]
      exact .inr (.inr ⟨Sum.Lex.inl_lt_inr _ _, rfl⟩)
  | number value =>
    cases right with
    | word right =>
      simp only [compareIdentifier, Identifier.text, right.notNumeric, isNumericSpan_toDigits]
      exact .inl ⟨Sum.Lex.inl_lt_inr _ _, rfl⟩
    | number other =>
      exact (compareIdentifier_numbers value other).map
        (f := fun value => (toLex (.inl value) : ℕ ⊕ₗ List Char))
        Sum.Lex.inl_strictMono

variable (identifiers : List Identifier)

/-- The first identifier and what is behind its dot. -/
theorem firstIdentifier_cons :
    firstIdentifier (['.'].intercalate ((identifier :: identifiers).map Identifier.text)) =
      identifier.text ∧
      (['.'].intercalate ((identifier :: identifiers).map Identifier.text)).drop
        (identifier.text.length + 1) = ['.'].intercalate (identifiers.map Identifier.text) ∧
      ['.'].intercalate ((identifier :: identifiers).map Identifier.text) ≠ [] := by
  have all : ∀ c ∈ identifier.text, decide (c ≠ '.') = true := fun c member =>
    decide_eq_true fun same => dot_not_mem_of_allowed identifier.allowed (same ▸ member)
  cases identifiers with
  | nil =>
    refine ⟨?_, ?_, ?_⟩
    · have alone := @takeWhile_append_of_pos _ _ _ [] all
      simpa [firstIdentifier] using alone
    · simp
    · simpa using identifier.nonempty
  | cons next identifiers =>
    rw [map_cons, map_cons, intercalate_cons_cons, append_assoc, singleton_append]
    refine ⟨?_, ?_, ?_⟩
    · rw [firstIdentifier, takeWhile_append_of_pos all]
      simp
    · rw [← drop_drop, drop_left]
      rfl
    · simp

theorem comparePrereleaseLoop_compares {turns : Nat} {left right : List Identifier}
    (enough : left.length < turns) :
    Compares (comparePrereleaseLoop turns (['.'].intercalate (left.map Identifier.text))
      (['.'].intercalate (right.map Identifier.text))) (left.map Identifier.key)
        (right.map Identifier.key) := by
  induction turns generalizing left right with
  | zero => exact absurd enough (Nat.not_lt_zero _)
  | succ turns ih =>
    rw [comparePrereleaseLoop]
    cases left with
    | nil =>
      cases right with
      | nil => exact compares_refl _
      | cons d right =>
        obtain ⟨_, _, some⟩ := firstIdentifier_cons d right
        rw [if_neg (fun both => both.1 rfl), if_neg (fun both => some both.2)]
        exact compares_nil_cons d.key (right.map Identifier.key)
    | cons c left =>
      obtain ⟨leftFirst, leftRest, leftSome⟩ := firstIdentifier_cons c left
      cases right with
      | nil =>
        rw [if_neg (fun both => both.2 rfl), if_neg (fun both => leftSome both.1), if_neg leftSome]
        exact (compares_nil_cons c.key (left.map Identifier.key)).swap
      | cons d right =>
        obtain ⟨rightFirst, rightRest, rightSome⟩ := firstIdentifier_cons d right
        rw [if_pos ⟨leftSome, rightSome⟩, leftFirst, rightFirst, leftRest, rightRest]
        exact (compareIdentifier_compares c d).cons (@ih left right (Nat.lt_of_succ_lt_succ enough))

theorem length_le_intercalate :
    identifiers.length ≤ (['.'].intercalate (identifiers.map Identifier.text)).length := by
  induction identifiers with
  | nil => exact Nat.zero_le _
  | cons identifier identifiers ih =>
    obtain ⟨_, rest, some⟩ := firstIdentifier_cons identifier identifiers
    have shorter := congrArg List.length rest
    rw [length_drop] at shorter
    have positive := length_pos_iff.mpr some
    rw [length_cons]
    omega

theorem comparePrerelease_compares (left right : List Identifier) :
    Compares
      (comparePrerelease (['.'].intercalate (left.map Identifier.text))
      (['.'].intercalate (right.map Identifier.text)))
      (if left = [] then ⊤ else (left.map Identifier.key : List (ℕ ⊕ₗ List Char)) :
        WithTop (List (ℕ ⊕ₗ List Char)))
      (if right = [] then ⊤ else (right.map Identifier.key : List (ℕ ⊕ₗ List Char))) := by
  rw [comparePrerelease]
  cases left with
  | nil =>
    cases right with
    | nil => exact compares_refl _
    | cons d right =>
      obtain ⟨_, _, some⟩ := firstIdentifier_cons d right
      rw [if_neg (fun both => some both.2)]
      exact .inr (.inr ⟨WithTop.coe_lt_top _, rfl⟩)
  | cons c left =>
    obtain ⟨_, _, leftSome⟩ := firstIdentifier_cons c left
    rw [if_neg (fun both => leftSome both.1), if_neg leftSome]
    cases right with
    | nil => exact .inl ⟨WithTop.coe_lt_top _, rfl⟩
    | cons d right =>
      obtain ⟨_, _, rightSome⟩ := firstIdentifier_cons d right
      rw [if_neg rightSome, if_neg (cons_ne_nil _ _), if_neg (cons_ne_nil _ _)]
      have loop := @comparePrereleaseLoop_compares _ (c :: left) (d :: right)
        (Nat.lt_succ_of_le (length_le_intercalate (c :: left)))
      exact loop.map (@WithTop.coe_strictMono (List (ℕ ⊕ₗ List Char)) _)

theorem sectionText_getD (texts : List Text) :
    (sectionText texts).getD [] = ['.'].intercalate texts := by
  rw [sectionText]
  split_ifs with empty
  · rw [empty]
    rfl
  · rfl

/-- The comparison of valid texts is the order of the versions' keys. -/
theorem compare_compares {left right : Version} (leftFits : left.Fits) (rightFits : right.Fits) :
    ∃ sign, compare left.text right.text = some sign ∧ Compares sign left.key right.key := by
  have sections : ∀ version : Version, version.Fits →
      splitCore (corePart version.text) = some [version.major, version.minor, version.patch] ∧
        prereleasePart version.text = ['.'].intercalate
          (version.prerelease.map Identifier.text) := by
    intro version fits
    obtain ⟨core, prerelease, _⟩ :=
      @sections_joined _ _ version.buildText (version.not_mem_core (.inl rfl))
      (version.not_mem_core (.inr rfl)) version.plus_not_mem_prereleaseText
    rw [version.text_eq, core, prerelease, Version.prereleaseText, sectionText_getD]
    exact ⟨splitCore_eq.mpr ⟨version, fits, rfl, rfl⟩, rfl⟩
  have valid : ∀ version : Version, version.Fits → isValid version.text = true :=
    fun version fits =>
    (isValid_iff version.text).mpr ⟨version, fits, rfl⟩
  obtain ⟨leftCore, leftPrerelease⟩ := sections left leftFits
  obtain ⟨rightCore, rightPrerelease⟩ := sections right rightFits
  have core : compareCore [left.major, left.minor, left.patch]
    [right.major, right.minor, right.patch] 3 0 =
      signThen left.major right.major
        (signThen left.minor right.minor (signThen left.patch right.patch 0)) := by
    simp [compareCore, partAt, signThen]
  refine ⟨andThen
    (compareCore [left.major, left.minor, left.patch] [right.major, right.minor, right.patch] 3 0)
    (comparePrerelease (prereleasePart left.text) (prereleasePart right.text)), ?_, ?_⟩
  · rw [compare, if_neg (by simp [valid left leftFits, valid right rightFits]), leftCore, rightCore]
    exact (apply_ite some _ _ _).symm
  · have order := (compares_signThen left.major right.major).prod
      ((compares_signThen left.minor right.minor).prod
      ((compares_signThen left.patch right.patch).prod
        (comparePrerelease_compares left.prerelease right.prerelease)))
    simp only [andThen_signThen, andThen_zero] at order
    rw [core, leftPrerelease, rightPrerelease]
    simp only [andThen_signThen, andThen_zero]
    exact order

/-- A version of the specification whose core numbers fit an `int`. -/
def Readable (text : Text) : Prop := ∃ version : Version, version.Fits ∧ text = version.text

/-- Two texts are compared exactly if both are versions whose core numbers fit an `int`; the sign is
then the precedence of the versions, hence antisymmetric and transitive. -/
theorem compare_precedence :
    (∀ left right, (compare left right).isSome = true ↔ Readable left ∧ Readable right) ∧
      (∀ left right : Version, left.Fits → right.Fits →
        ∃ sign, compare left.text right.text = some sign ∧ Compares sign left.key right.key) ∧
      (∀ left right sign, compare left right = some sign → compare right left = some (-sign)) ∧
      ∀ first second third sign sign', compare first second = some sign →
        compare second third = some sign' →
        sign ≤ 0 → sign' ≤ 0 → ∃ sign'' ≤ 0, compare first third = some sign'' := by
  have some_iff : ∀ left right, (compare left right).isSome = true ↔ Readable left ∧
    Readable right := by
    intro left right
    constructor
    · intro found
      rw [compare] at found
      split_ifs at found with invalid
      · cases found
      · simp only [not_or, Bool.not_eq_false] at invalid
        exact ⟨(isValid_iff left).mp invalid.1, (isValid_iff right).mp invalid.2⟩
    · rintro ⟨⟨left, leftFits, rfl⟩, right, rightFits, rfl⟩
      obtain ⟨sign, found, _⟩ := compare_compares leftFits rightFits
      rw [found]
      rfl
  have readable : ∀ {left right sign}, compare left right = some sign → Readable left ∧
    Readable right :=
    fun found => (some_iff _ _).mp (by rw [found]; rfl)
  refine ⟨some_iff, fun left right leftFits rightFits => compare_compares leftFits rightFits, ?_,
    ?_⟩
  · intro left right sign found
    obtain ⟨⟨left, leftFits, rfl⟩, right, rightFits, rfl⟩ := readable found
    obtain ⟨sign₁, found₁, order₁⟩ := compare_compares leftFits rightFits
    obtain ⟨sign₂, found₂, order₂⟩ := compare_compares rightFits leftFits
    obtain rfl := Option.some.inj (found.symm.trans found₁)
    rw [found₂, order₂.unique order₁.swap]
  · intro first second third sign sign' found found' below below'
    obtain ⟨⟨first, firstFits, rfl⟩, second, secondFits, rfl⟩ := readable found
    obtain ⟨_, third, thirdFits, rfl⟩ := readable found'
    obtain ⟨sign₁, found₁, order₁⟩ := compare_compares firstFits secondFits
    obtain ⟨sign₂, found₂, order₂⟩ := compare_compares secondFits thirdFits
    obtain ⟨sign₃, found₃, order₃⟩ := compare_compares firstFits thirdFits
    obtain rfl := Option.some.inj (found.symm.trans found₁)
    obtain rfl := Option.some.inj (found'.symm.trans found₂)
    exact ⟨sign₃, order₃.nonpos_iff.mpr
      ((order₁.nonpos_iff.mp below).trans (order₂.nonpos_iff.mp below')), found₃⟩

theorem compare_release_above : ∃ sign, compare (Version.mk 1 0 0 [.number 9] []).text
    (Version.mk 1 0 0 [] []).text = some sign ∧
    Compares sign (Version.mk 1 0 0 [.number 9] []).key (Version.mk 1 0 0 [] []).key :=
  compare_precedence.2.1 _ _ ⟨by decide, by decide, by decide⟩ ⟨by decide, by decide, by decide⟩

/-- A valid version whose major number does not fit an `int` is not even compared with itself. -/
theorem compare_too_large : ∃ version : Version, version.text = "9223372036854775808.0.0".toList ∧
    compare version.text version.text = none :=
  ⟨⟨9223372036854775808, 0, 0, [], []⟩, by decide, by decide⟩

end SpectraLang.Stdlib.Semver

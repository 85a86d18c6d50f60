import SpectraLang.Lib.Decimal
import SpectraLang.Lowering.Monomorphization

/-! # Names of types in symbols

`type_to_string` writes a type as words joined by underscores. The first word tells how the type is
made and what follows it, so a type can be read back from its words where names are told apart from
each other and from the words of the built-in types, and where the rendering drops nothing: no
function, tensor or tuple types, no auto traits.
-/

namespace SpectraLang.Monomorphization

open List Separated

/-- The second name is the first one followed by an underscore and more. -/
def ContinuesName (shorter longer : String) : Prop := Continues '_' shorter.toList longer.toList

/-- Different names of which neither continues the other. -/
def NamesApart (first second : String) : Prop :=
  first ≠ second → ¬ContinuesName first second ∧ ¬ContinuesName second first

theorem apart_of_namesApart {first second : String} (apart : NamesApart first second) :
    Apart '_' first.toList second.toList :=
  fun different => apart fun same => different (congrArg String.toList same)

theorem appendTypes_toList (rendered : String) (types : List IRType) :
    (appendTypes rendered types).toList = rendered.toList ++ behind '_'
      (types.map fun ty => (typeToString ty).toList) := by
  induction types generalizing rendered with
  | nil => simp [appendTypes, behind]
  | cons ty rest ih =>
    rw [appendTypes, ih]
    simp [behind, String.toList_append]

/-- The built-in types whose rendering is their own. -/
def scalars : List IRType :=
  [.int, .float, .bool, .string, .char, .range, .void, .exactInt true .i8, .exactInt true .i16,
    .exactInt true .i32,
    .exactInt true .i64, .exactInt true .isize, .exactInt false .i8, .exactInt false .i16,
      .exactInt false .i32,
    .exactInt false .i64, .exactInt false .usize, .exactFloat .f32, .exactFloat .f64]

/-- The first words of types that are not named in the program. -/
def keywords : List String := ["ptr", "array", "task", "dyn"] ++ scalars.map typeToString

/-- The name that stands for the whole type. -/
def nominal? : IRType → Option String
  | .struct name _ | .enum name _ => some name
  | .generic _ _ (.struct instantiated _) => some instantiated
  | _ => none

/-- The type names of a program: those that stand for one type, and those followed by their type
arguments, with their number and what the type is represented by. -/
structure Vocabulary where
  nominal : String → Option IRType
  generic : String → Option (Nat × (List IRType → IRType))
  isTrait : String → Prop

namespace Vocabulary

variable (words : Vocabulary)

def Names (name : String) : Prop := (words.nominal name).isSome ∨ (words.generic name).isSome

/-- Names do not continue each other, and none is or continues the first word of a built-in type. -/
structure Clear : Prop where
  names : ∀ first second, words.Names first → words.Names second → NamesApart first second
  builtIn : ∀ name, words.Names name → name ∉ keywords ∧ ∀ keyword ∈ keywords,
    ¬ContinuesName keyword name
  kinds : ∀ name, (words.nominal name).isSome → words.generic name = none
  traits : ∀ first second, words.isTrait first → words.isTrait second → NamesApart first second

/-- The types over the vocabulary whose rendering drops nothing. -/
inductive Readable : IRType → Prop where
  | scalar {ty : IRType} (builtIn : ty ∈ scalars) : Readable ty
  | pointer {inner : IRType} (readable : Readable inner) : Readable (.pointer inner)
  | array {element : IRType} (size : Nat) (readable : Readable element) :
      Readable (.array element size)
  | task {output : IRType} (readable : Readable output) : Readable (.task output)
  | dynTrait {name : String} (known : words.isTrait name) : Readable (.dynTrait name [])
  | nominal {ty : IRType} {name : String} (named : nominal? ty = some name)
      (known : words.nominal name = some ty) :
    Readable ty
  | generic {name : String} {args : List IRType} {represent : List IRType → IRType}
    (plain : ∀ instantiated fields, represent args ≠ .struct instantiated fields)
    (known : words.generic name = some (args.length, represent))
      (readable : ∀ arg ∈ args, Readable arg) :
    Readable (.generic name args (represent args))

end Vocabulary

/-- The first word of a rendered type. -/
def firstWord : IRType → String
  | .pointer _ => "ptr"
  | .array .. => "array"
  | .task _ => "task"
  | .dynTrait .. => "dyn"
  | .generic name _ representation =>
    match representation with
    | .struct instantiated _ => instantiated
    | _ => name
  | ty => typeToString ty

/-- What follows the first word. -/
def furtherParts : IRType → List (List Char)
  | .pointer inner | .task inner => [(typeToString inner).toList]
  | .array element size => [(typeToString element).toList, Nat.toDigits 10 size]
  | .dynTrait name _ => [name.toList]
  | .generic _ args representation =>
    match representation with
    | .struct _ _ => []
    | _ => args.map fun arg => (typeToString arg).toList
  | _ => []

variable {words : Vocabulary} {ty other : IRType} {name : String} {parts others : List (List Char)}

theorem firstWord_of_nominal (named : nominal? ty = some name) :
    typeToString ty = name ∧ firstWord ty = name ∧ furtherParts ty = [] := by
  cases ty with
  | struct | enum =>
    cases named
    exact ⟨rfl, rfl, rfl⟩
  | generic _ _ representation =>
    cases representation <;> cases named
    exact ⟨rfl, rfl, rfl⟩
  | _ => cases named

theorem furtherParts_of_scalar (builtIn : ty ∈ scalars) : firstWord ty = typeToString ty ∧
    furtherParts ty = [] := by
  simp only [scalars, mem_cons, not_mem_nil, or_false] at builtIn
  rcases builtIn with rfl | rfl | rfl | rfl | rfl | rfl | rfl | rfl | rfl | rfl | rfl | rfl | rfl |
    rfl | rfl | rfl | rfl | rfl | rfl <;> exact ⟨rfl, rfl⟩

theorem firstWord_generic {args : List IRType} {representation : IRType}
    (plain : ∀ instantiated fields, representation ≠ .struct instantiated fields) :
    firstWord (.generic name args representation) = name ∧
      furtherParts (.generic name args representation) = args.map fun arg =>
        (typeToString arg).toList := by
  cases representation with
  | struct instantiated fields => exact absurd rfl (plain instantiated fields)
  | _ => exact ⟨rfl, rfl⟩

theorem Vocabulary.Readable.rendered (readable : words.Readable ty) :
    (typeToString ty).toList = (firstWord ty).toList ++ behind '_' (furtherParts ty) := by
  cases readable with
  | scalar builtIn =>
    obtain ⟨word, none⟩ := furtherParts_of_scalar builtIn
    rw [word, none]
    simp [behind]
  | pointer | task => simp [typeToString, firstWord, furtherParts, behind, String.toList_append]
  | array => simp [typeToString, firstWord, furtherParts, behind, String.toList_append, Nat.repr]
  | dynTrait => simp [typeToString, firstWord, furtherParts, behind, String.toList_append]
  | nominal named =>
    obtain ⟨rendered, word, none⟩ := firstWord_of_nominal named
    rw [rendered, word, none]
    simp [behind]
  | @generic name args represent plain =>
    have rendered : typeToString (.generic name args (represent args)) = appendTypes name args := by
      cases shape : represent args with
      | struct instantiated fields => exact absurd shape (plain instantiated fields)
      | _ => rfl
    rw [rendered, appendTypes_toList, (firstWord_generic plain).1, (firstWord_generic plain).2]

/-- The first word of a readable type is a keyword or a name. -/
theorem Vocabulary.Readable.firstWord_cases (readable : words.Readable ty) :
    firstWord ty ∈ keywords ∨ words.Names (firstWord ty) := by
  cases readable with
  | scalar builtIn =>
    rw [(furtherParts_of_scalar builtIn).1]
    exact .inl (mem_append_right _ (mem_map_of_mem builtIn))
  | pointer | array | task | dynTrait => exact .inl (by simp [firstWord, keywords])
  | nominal named known =>
    rw [(firstWord_of_nominal named).2.1]
    exact .inr (.inl (by rw [known]; rfl))
  | generic plain known =>
    rw [(firstWord_generic plain).1]
    exact .inr (.inr (by rw [known]; rfl))

theorem not_continues_keyword {keyword : String} (member : keyword ∈ keywords) (shorter : String) :
    ¬ContinuesName shorter keyword := by
  rintro ⟨rest, split⟩
  have plain : ∀ keyword ∈ keywords, '_' ∉ keyword.toList := by decide
  exact plain keyword member (by rw [split]; simp)

section
variable (clear : words.Clear)
include clear

theorem Vocabulary.Clear.firstWords_apart (readable : words.Readable ty)
    (readable' : words.Readable other) : NamesApart (firstWord ty) (firstWord other) := by
  rcases readable.firstWord_cases with keyword |
    named <;> rcases readable'.firstWord_cases with keyword' | named'
  · exact fun _ => ⟨not_continues_keyword keyword' _, not_continues_keyword keyword _⟩
  · exact fun _ => ⟨(clear.builtIn _ named').2 _ keyword, not_continues_keyword keyword _⟩
  · exact fun _ => ⟨not_continues_keyword keyword' _, (clear.builtIn _ named).2 _ keyword'⟩
  · exact clear.names _ _ named named'

theorem Vocabulary.Clear.ne_keyword {keyword : String} (named : words.Names name)
    (member : keyword ∈ keywords) : name ≠ keyword :=
  fun same => (clear.builtIn name named).1 (same ▸ member)

/-- A type with the first word of a scalar is that scalar. -/
theorem Vocabulary.Clear.of_scalar (builtIn : ty ∈ scalars) (readable : words.Readable other)
    (same : typeToString ty = firstWord other) : ty = other := by
  have injective : ∀ ty ∈ scalars, ∀ other ∈ scalars, typeToString ty = typeToString other →
    ty = other := by
    decide +kernel
  have fresh : ∀ ty ∈ scalars, typeToString ty ∉ ["ptr", "array", "task", "dyn"] := by decide
  have word : typeToString ty ∈ keywords := mem_append_right _ (mem_map_of_mem builtIn)
  cases readable with
  | scalar builtIn' =>
    exact injective ty builtIn other builtIn' (same.trans (furtherParts_of_scalar builtIn').1)
  | pointer | array | task | dynTrait => exact absurd (by simp [same, firstWord]) (fresh ty builtIn)
  | nominal named known =>
    rw [(firstWord_of_nominal named).2.1] at same
    exact absurd same.symm (clear.ne_keyword (.inl (by rw [known]; rfl)) word)
  | generic plain known =>
    rw [(firstWord_generic plain).1] at same
    exact absurd same.symm (clear.ne_keyword (.inr (by rw [known]; rfl)) word)

/-- A type with one of the other keywords in front is made with it. -/
theorem Vocabulary.Clear.of_keyword (readable : words.Readable other)
    (member : firstWord other ∈ ["ptr", "array", "task", "dyn"]) :
    (∃ inner, other = .pointer inner ∧ words.Readable inner) ∨
      (∃ element size, other = .array element size ∧ words.Readable element) ∨
      (∃ output, other = .task output ∧ words.Readable output) ∨ ∃ name, other = .dynTrait name [] ∧
        words.isTrait name := by
  have fresh : ∀ ty ∈ scalars, typeToString ty ∉ ["ptr", "array", "task", "dyn"] := by decide
  have word : firstWord other ∈ keywords := mem_append_left _ member
  cases readable with
  | scalar builtIn =>
    exact absurd ((furtherParts_of_scalar builtIn).1 ▸ member) (fresh other builtIn)
  | pointer readable => exact .inl ⟨_, rfl, readable⟩
  | array size readable => exact .inr (.inl ⟨_, size, rfl, readable⟩)
  | task readable => exact .inr (.inr (.inl ⟨_, rfl, readable⟩))
  | dynTrait known => exact .inr (.inr (.inr ⟨_, rfl, known⟩))
  | nominal named known =>
    rw [(firstWord_of_nominal named).2.1] at word
    exact absurd rfl (clear.ne_keyword (.inl (by rw [known]; rfl)) word)
  | generic plain known =>
    rw [(firstWord_generic plain).1] at word
    exact absurd rfl (clear.ne_keyword (.inr (by rw [known]; rfl)) word)

/-- A type with a name in front is the one of that name, or is made with it. -/
theorem Vocabulary.Clear.of_name (readable : words.Readable other)
    (named : words.Names (firstWord other)) :
    words.nominal (firstWord other) = some other ∨ ∃ args represent,
      other = .generic (firstWord other) args (represent args) ∧
        words.generic (firstWord other) = some (args.length, represent) ∧
        (∀ instantiated fields, represent args ≠ .struct instantiated fields) ∧ ∀ arg ∈ args,
          words.Readable arg := by
  have fresh : ∀ keyword ∈ keywords, firstWord other ≠ keyword := fun _ => clear.ne_keyword named
  cases readable with
  | scalar builtIn =>
    exact absurd (furtherParts_of_scalar builtIn).1
      (fresh _ (mem_append_right _ (mem_map_of_mem builtIn)))
  | pointer | array | task | dynTrait => exact absurd rfl (fresh _ (by simp [firstWord, keywords]))
  | nominal is known =>
    rw [(firstWord_of_nominal is).2.1]
    exact .inl known
  | @generic name args represent plain known readable =>
    rw [(firstWord_generic plain).1]
    exact .inr ⟨args, represent, rfl, known, plain, readable⟩

end

/-- The rendering of the type can be read back from the front of a sequence of parts. -/
def ReadsBack (words : Vocabulary) (ty : IRType) : Prop :=
  ∀ other, words.Readable other → ∀ parts others, (typeToString ty).toList ++ behind '_' parts =
    (typeToString other).toList ++ behind '_' others → ty = other ∧
      behind '_' parts = behind '_' others

theorem behind_append {parts others : List (List Char)} :
    behind '_' (parts ++ others) = behind '_' parts ++ behind '_' others := flatMap_append

theorem behind_cons {part : List Char} :
    behind '_' (part :: parts) = '_' :: (part ++ behind '_' parts) := rfl

theorem readsBack_args {args args' : List IRType} (each : ∀ arg ∈ args, ReadsBack words arg)
    (readable : ∀ arg ∈ args', words.Readable arg) (sameLength : args.length = args'.length)
    (joined : behind '_' ((args.map fun arg => (typeToString arg).toList) ++ parts) =
      behind '_' ((args'.map fun arg => (typeToString arg).toList) ++ others)) :
    args = args' ∧ behind '_' parts = behind '_' others := by
  induction args generalizing args' with
  | nil =>
    obtain rfl := length_eq_zero_iff.mp sameLength.symm
    exact ⟨rfl, joined⟩
  | cons arg args ih =>
    cases args' with
    | nil => cases sameLength
    | cons arg' args' =>
      simp only [map_cons, cons_append, behind_cons] at joined
      obtain ⟨rfl, rest⟩ := each arg mem_cons_self arg' (readable arg' mem_cons_self) _ _
        (List.cons.inj joined).2
      obtain ⟨rfl, behindAll⟩ := ih (fun arg member => each arg (mem_cons_of_mem _ member))
        (fun arg member => readable arg (mem_cons_of_mem _ member)) (Nat.succ.inj sameLength) rest
      exact ⟨rfl, behindAll⟩

theorem readsBack_size {size size' : Nat}
    (joined : behind '_' (Nat.toDigits 10 size :: parts) = behind '_'
      (Nat.toDigits 10 size' :: others)) :
    size = size' ∧ behind '_' parts = behind '_' others := by
  have plain : ∀ shorter size, ¬Continues '_' shorter (Nat.toDigits 10 size) := by
    rintro shorter size ⟨rest, split⟩
    have digit := Decimal.digits_toDigits size '_' (by rw [split]; simp)
    exact absurd (Decimal.isDigit_iff.mpr digit) (by decide)
  obtain ⟨same, rest⟩ := head_unique (List.cons.inj joined).2 fun _ => ⟨plain _ _, plain _ _⟩
  have value := congrArg (Nat.ofDigitChars 10 · 0) same
  rw [Nat.ofDigitChars_ten_toDigits, Nat.ofDigitChars_ten_toDigits] at value
  exact ⟨value, rest⟩

/-- Renderings over a clear vocabulary can be read back. -/
theorem Vocabulary.Readable.readsBack (clear : words.Clear) (readable : words.Readable ty) :
    ReadsBack words ty := by
  have split : ∀ {ty : IRType}, words.Readable ty → ∀ other, words.Readable other → ∀ parts others,
      (typeToString ty).toList ++ behind '_' parts = (typeToString other).toList ++
        behind '_' others →
      firstWord ty = firstWord other ∧
        behind '_' (furtherParts ty ++ parts) = behind '_' (furtherParts other ++ others) := by
    intro ty readable other readable' parts others joined
    rw [readable.rendered, readable'.rendered, append_assoc, append_assoc, ← behind_append,
      ← behind_append] at joined
    obtain ⟨same, rest⟩ :=
      head_unique joined (apart_of_namesApart (clear.firstWords_apart readable readable'))
    exact ⟨String.toList_inj.mp same, rest⟩
  induction readable with
  | @scalar ty builtIn =>
    intro other readable' parts others joined
    obtain ⟨same, rest⟩ := split (.scalar builtIn) other readable' parts others joined
    rw [(furtherParts_of_scalar builtIn).1] at same
    obtain rfl := clear.of_scalar builtIn readable' same
    exact ⟨rfl, by simpa [(furtherParts_of_scalar builtIn).2] using rest⟩
  | pointer readable ih =>
    intro other readable' parts others joined
    obtain ⟨same, rest⟩ := split (.pointer readable) other readable' parts others joined
    rcases clear.of_keyword readable' (by rw [← same]; simp [firstWord]) with ⟨inner, rfl, inner'⟩ |
      ⟨_, _, rfl, -⟩ | ⟨_, rfl, -⟩ | ⟨_, rfl, -⟩
    · obtain ⟨rfl, after⟩ := ih inner inner' parts others (List.cons.inj rest).2
      exact ⟨rfl, after⟩
    all_goals exact absurd same (by simp [firstWord])
  | array size readable ih =>
    intro other readable' parts others joined
    obtain ⟨same, rest⟩ := split (.array size readable) other readable' parts others joined
    rcases clear.of_keyword readable' (by rw [← same]; simp [firstWord]) with ⟨_, rfl, -⟩ |
      ⟨element, size', rfl, element'⟩ | ⟨_, rfl, -⟩ | ⟨_, rfl, -⟩
    case inr.inl =>
      obtain ⟨rfl, sizes⟩ := ih element element' (_ :: parts) (_ :: others) (List.cons.inj rest).2
      obtain ⟨rfl, after⟩ := readsBack_size sizes
      exact ⟨rfl, after⟩
    all_goals exact absurd same (by simp [firstWord])
  | task readable ih =>
    intro other readable' parts others joined
    obtain ⟨same, rest⟩ := split (.task readable) other readable' parts others joined
    rcases clear.of_keyword readable' (by rw [← same]; simp [firstWord]) with ⟨_, rfl, -⟩ |
      ⟨_, _, rfl, -⟩ | ⟨output, rfl, output'⟩ | ⟨_, rfl, -⟩
    case inr.inr.inl =>
      obtain ⟨rfl, after⟩ := ih output output' parts others (List.cons.inj rest).2
      exact ⟨rfl, after⟩
    all_goals exact absurd same (by simp [firstWord])
  | @dynTrait name known =>
    intro other readable' parts others joined
    obtain ⟨same, rest⟩ := split (.dynTrait known) other readable' parts others joined
    rcases clear.of_keyword readable' (by rw [← same]; simp [firstWord]) with ⟨_, rfl, -⟩ |
      ⟨_, _, rfl, -⟩ | ⟨_, rfl, -⟩ | ⟨name', rfl, known'⟩
    case inr.inr.inr =>
      obtain ⟨names, rest⟩ :=
        head_unique (List.cons.inj rest).2
          (apart_of_namesApart (clear.traits name name' known known'))
      rw [String.toList_inj.mp names]
      exact ⟨rfl, rest⟩
    all_goals exact absurd same (by simp [firstWord])
  | @nominal ty name is known =>
    intro other readable' parts others joined
    obtain ⟨same, rest⟩ := split (.nominal is known) other readable' parts others joined
    obtain ⟨-, word, none⟩ := firstWord_of_nominal is
    rw [word] at same
    have named : words.Names (firstWord other) := .inl (by rw [← same, known]; rfl)
    rcases clear.of_name readable' named with found | ⟨args, represent, -, known', -, -⟩
    · rw [← same, known] at found
      obtain rfl := Option.some.inj found
      exact ⟨rfl, by simpa [none] using rest⟩
    · rw [← same, clear.kinds name (by rw [known]; rfl)] at known'
      cases known'
  | @generic name args represent plain known readable ih =>
    intro other readable' parts others joined
    obtain ⟨same, rest⟩ := split (.generic plain known readable) other readable' parts others joined
    rw [(firstWord_generic plain).1] at same
    have named : words.Names (firstWord other) := .inr (by rw [← same, known]; rfl)
    rcases clear.of_name readable' named with found |
      ⟨args', represent', is, known', plain', readable''⟩
    · rw [same, clear.kinds (firstWord other) (by rw [found]; rfl)] at known
      cases known
    · rw [← same] at is known'
      obtain ⟨sameLength, rfl⟩ := Prod.mk.inj (Option.some.inj (known.symm.trans known'))
      subst is
      rw [(firstWord_generic plain).2, (firstWord_generic plain').2] at rest
      obtain ⟨rfl, after⟩ := readsBack_args (fun arg member => ih arg member) readable'' sameLength
        rest
      exact ⟨rfl, after⟩

end SpectraLang.Monomorphization

import SpectraLang.Stdlib.Text

/-! # Semantic versions

`is_valid` and `compare` of `std.semver`. Every character that the scans look for is narrow and a
wide one is refused where it is, so the scans are written over the characters: a span of the source
is the list of its characters, and -1 for a missing index or number is `none`.
-/

namespace SpectraLang.Stdlib.Semver

/-- The largest `int`. -/
def maxInt : Nat := 9223372036854775807
def isDigitCode (c : Char) : Bool := 48 ≤ c.toNat ∧ c.toNat ≤ 57

def isAlphanumeric (c : Char) : Bool :=
  (48 ≤ c.toNat ∧ c.toNat ≤ 57) ∨ (65 ≤ c.toNat ∧ c.toNat ≤ 90) ∨ (97 ≤ c.toNat ∧ c.toNat ≤ 122)

/-- `prerelease_dash`: the first dash, if no plus is in front of it. -/
def prereleaseDash : Text → Option Nat
  | [] => none
  | c :: text =>
    if c = '+' then none else if c = '-' then some 0 else (prereleaseDash text).map (· + 1)

/-- `str.index_of` of one character. -/
def indexOf (text : Text) (c : Char) : Option Nat := text.findIdx? (· == c)

/-- The end of a section, moved to an index in front of it. -/
def cutAt (index : Option Nat) (stop : Nat) : Nat :=
  match index with
  | some index => if index < stop then index else stop
  | none => stop

def corePart (text : Text) : Text :=
  text.take (cutAt (indexOf text '+') (cutAt (prereleaseDash text) text.length))

def prereleasePart (text : Text) : Text :=
  match prereleaseDash text with
  | none => []
  | some dash =>
    let stop := cutAt (indexOf text '+') text.length
    if dash + 1 > stop then [] else (text.take stop).drop (dash + 1)

def buildPart (text : Text) : Text :=
  match indexOf text '+' with
  | none => []
  | some plus => text.drop (plus + 1)

/-- The loop of `parse_number`. -/
def parseDigits : Text → Nat → Option Nat
  | [], value => some value
  | c :: span, value =>
    if ¬ isDigitCode c then none
    else
      let digit := c.toNat - 48
      if value > (maxInt - digit) / 10 then none else parseDigits span (value * 10 + digit)

def parseNumber (span : Text) : Option Nat :=
  if span = [] then none else if span.length > 1 ∧ span.head? = some '0' then none else parseDigits
    span 0

/-- The loop of `split_core`; `span` is what was read since the last dot. -/
def splitLoop : Text → Text → List Nat → Option (List Nat)
  | [], span, parts => (parseNumber span).map fun number => parts ++ [number]
  | c :: text, span, parts =>
    if c = '.' then
      match parseNumber span with
      | none => none
      | some number => splitLoop text [] (parts ++ [number])
    else splitLoop text (span ++ [c]) parts

def splitCore (core : Text) : Option (List Nat) :=
  match splitLoop core [] [] with
  | none => none
  | some parts => if parts.length ≠ 3 then none else some parts

/-- `part_at`; the parts are not negative. -/
def partAt (parts : List Nat) (index : Nat) : Int :=
  match parts[index]? with
  | some value => value
  | none => -1

def validCore (core : Text) : Bool :=
  match splitCore core with
  | none => false
  | some values => 0 ≤ partAt values 0 ∧ 0 ≤ partAt values 1 ∧ 0 ≤ partAt values 2

def isNumericSpan (span : Text) : Bool := span.all isDigitCode

/-- The loop of `valid_identifiers`. -/
def identifiersLoop (checkNumeric : Bool) : Text → Text → Bool
  | [], span =>
    if span = [] then false
    else if checkNumeric ∧ isNumericSpan span ∧ span.length > 1 ∧ span.head? = some '0' then false
    else true
  | c :: text, span =>
    if c = '.' then
      if span = [] then false
      else if checkNumeric ∧ isNumericSpan span ∧ span.length > 1 ∧ span.head? = some '0' then false
      else identifiersLoop checkNumeric text []
    else if ¬ isAlphanumeric c ∧ c ≠ '-' then false
    else identifiersLoop checkNumeric text (span ++ [c])

def validPrerelease (text : Text) : Bool :=
  if text = [] then true else identifiersLoop true text []

def validBuild (text : Text) : Bool :=
  if text = [] then true else identifiersLoop false text []

def isValid (text : Text) : Bool :=
  if validCore (corePart text) = false then false
  else if (prereleaseDash text).isSome ∧ prereleasePart text = [] then false
  else if (indexOf text '+').isSome ∧ buildPart text = [] then false
  else validPrerelease (prereleasePart text) ∧ validBuild (buildPart text)

/-- `compare_span`: the first difference decides, then the length. -/
def compareSpan : Text → Text → Int
  | [], [] => 0
  | [], _ :: _ => -1
  | _ :: _, [] => 1
  | c :: left, d :: right =>
    if c.toNat < d.toNat then -1 else if c.toNat > d.toNat then 1 else compareSpan left right

def compareIdentifier (left right : Text) : Int :=
  if isNumericSpan left ∧ isNumericSpan right then
    if left.length ≠ right.length then (if left.length < right.length then -1 else 1) else
      compareSpan left right
  else if isNumericSpan left then -1
  else if isNumericSpan right then 1
  else compareSpan left right

/-- The identifier in front: up to `identifier_end`. -/
def firstIdentifier (text : Text) : Text := text.takeWhile (· ≠ '.')

/-- The loop of `compare_prerelease`; every turn takes an identifier from both sides. -/
def comparePrereleaseLoop : Nat → Text → Text → Int
  | 0, _, _ => 0
  | turns + 1, left, right =>
    if left ≠ [] ∧ right ≠ [] then
      let ordering := compareIdentifier (firstIdentifier left) (firstIdentifier right)
      if ordering ≠ 0 then ordering
      else comparePrereleaseLoop turns (left.drop ((firstIdentifier left).length + 1))
        (right.drop ((firstIdentifier right).length + 1))
    else if left = [] ∧ right = [] then 0
    else if left = [] then -1
    else 1

def comparePrerelease (left right : Text) : Int :=
  if left = [] ∧ right = [] then 0
  else if left = [] then 1
  else if right = [] then -1
  else comparePrereleaseLoop (left.length + 1) left right

/-- The loop of `compare` over the core numbers, from `index` on. -/
def compareCore (left right : List Nat) : Nat → Nat → Int
  | 0, _ => 0
  | turns + 1, index =>
    if partAt left index < partAt right index then -1
    else if partAt left index > partAt right index then 1
    else compareCore left right turns (index + 1)

def compare (left right : Text) : Option Int :=
  if isValid left = false ∨ isValid right = false then none
  else
    match splitCore (corePart left), splitCore (corePart right) with
    | some leftParts, some rightParts =>
      let core := compareCore leftParts rightParts 3 0
      if core ≠ 0 then some core else some
        (comparePrerelease (prereleasePart left) (prereleasePart right))
    | _, _ => none

end SpectraLang.Stdlib.Semver

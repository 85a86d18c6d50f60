import Mathlib.Data.List.Infix
import Mathlib.Data.List.TakeWhile

/-! # The lexer

`Lexer::tokenize` reads one lexeme at a time: blanks and comments are dropped, words are identifiers
or keywords, numbers and quoted literals are scanned to their end, and the rest are symbols or
two-character operators. Of a span only the lines are kept, which the newline rule of the parser
reads.
-/

namespace SpectraLang

open List

/-- The reserved words. -/
inductive Keyword where
  | module | «import» | «from»
  | func | returns | async | await | record | enum | impl | «class» | trait | «let»
  | «public» | internal | «mut»
  | selfType
  | «match» | switch | case | «if» | «else» | when | «then» | otherwise | «unless»
  | while | «do» | «for» | «in» | loop
  | «return» | «break» | «continue»
  | andWord | orWord | notWord
  | true | false
  | type | const | static
  | «as» | dyn
  deriving DecidableEq, Repr

/-- The operators of more than one character. Shifts stay two symbols. -/
inductive Operator where
  | equalEqual | notEqual | lessEqual | greaterEqual
  | and | or
  | range | rangeInclusive
  deriving DecidableEq, Repr

inductive TokenKind where
  | identifier (name : String)
  | number (text : String)
  | keyword (word : Keyword)
  | symbol (char : Char)
  | operator (op : Operator)
  | stringLiteral (text : String)
  | charLiteral (value : Char)
  | fStringLiteral (raw : String)
  | endOfFile
  deriving DecidableEq, Repr

/-- A token with the lines of its first and its last character. -/
structure Token where
  kind : TokenKind
  startLine : Nat
  endLine : Nat
  deriving DecidableEq, Repr

structure LexError where
  code : String
  message : String
  deriving DecidableEq, Repr

def Keyword.table : List (String × Keyword) :=
  [("module", .module), ("import", .import), ("from", .from), ("func", .func),
    ("returns", .returns),
    ("async", .async), ("await", .await), ("record", .record), ("enum", .enum), ("impl", .impl),
    ("class", .class), ("trait", .trait), ("let", .let), ("public", .public),
      ("internal", .internal),
    ("mut", .mut), ("Self", .selfType), ("match", .match), ("switch", .switch), ("case", .case),
    ("if", .if), ("else", .else), ("when", .when), ("then", .then), ("otherwise", .otherwise),
    ("unless", .unless), ("while", .while), ("do", .do), ("for", .for), ("in", .in),
      ("loop", .loop),
    ("return", .return), ("break", .break), ("continue", .continue), ("and", .andWord),
    ("or", .orWord), ("not", .notWord), ("true", .true), ("false", .false), ("type", .type),
    ("const", .const), ("static", .static), ("as", .as), ("dyn", .dyn)]

def Keyword.fromIdentifier (identifier : String) : Option Keyword := Keyword.table.lookup identifier
def isIdentifierStart (ch : Char) : Bool := ch == '_' || ch.isAlpha
def isIdentifierContinue (ch : Char) : Bool := isIdentifierStart ch || ch.isDigit

def isSymbolChar (ch : Char) : Bool :=
  ['(', ')', '\x7b', '\x7d', '[', ']', ',', ';', ':', '.', '=', '+', '-', '*', '/', '%', '#', '@',
    '<', '>', '!', '&', '|', '^', '~', '?'].contains ch

/-- Whether the text goes on with a character of the given class. -/
def nextIs (class? : Char → Bool) : List Char → Bool
  | [] => false
  | ch :: _ => class? ch

/-- The content of a quoted literal up to its closing quote. -/
structure Quoted where
  value : List Char
  errors : List LexError
  terminated : Bool
  rest : List Char

/-- What an escape sequence of a string stands for. -/
def stringEscape (escaped : Char) : Option Char :=
  if escaped = '"' then some '"'
  else if escaped = '\'' then some '\''
  else if escaped = '\\' then some '\\'
  else if escaped = 'n' then some '\n'
  else if escaped = 't' then some '\t'
  else if escaped = 'r' then some '\r'
  else if escaped = '0' then some (Char.ofNat 0)
  else none

def unknownEscape (escaped : Char) : LexError :=
  ⟨"L008", "unknown escape sequence `\\" ++ escaped.toString ++ "`"⟩

/-- Scans a string, or an f-string, after its opening quote. An unknown escape keeps its
characters. -/
def scanQuoted : List Char → Quoted
  | [] => ⟨[], [], false, []⟩
  | '\\' :: escaped :: rest =>
      let tail := scanQuoted rest
      match stringEscape escaped with
      | some value => { tail with value := value :: tail.value }
      | none =>
        { tail with value := '\\' :: escaped :: tail.value, errors := unknownEscape escaped ::
          tail.errors }
  | '"' :: rest => ⟨[], [], true, rest⟩
  | ch :: rest => let tail := scanQuoted rest; { tail with value := ch :: tail.value }

/-- In a character literal an unknown escape stands for the escaped character. -/
def charEscape (escaped : Char) : Char :=
  if escaped = 'n' then '\n'
  else if escaped = 't' then '\t'
  else if escaped = 'r' then '\r'
  else if escaped = '0' then Char.ofNat 0
  else escaped

/-- The character of a literal, if there is one, and the text after it. -/
def scanCharValue : List Char → Option Char × List Char
  | '\\' :: escaped :: rest => (some (charEscape escaped), rest)
  | ch :: rest => if ch = '\'' then (none, ch :: rest) else (some ch, rest)
  | [] => (none, [])

/-- The characters a number takes after its first digit, with the errors found on the way. -/
structure NumberTail where
  text : List Char
  errors : List LexError
  rest : List Char

def NumberTail.keep (ch : Char) (errors : List LexError) (tail : NumberTail) : NumberTail :=
  ⟨ch :: tail.text, errors ++ tail.errors, tail.rest⟩

def misplacedSeparator (radixName : String) : LexError :=
  ⟨"L007", "invalid `_` placement in " ++ radixName ++ " literal"⟩

/-- The error of a separator that is not between two digits. -/
def separatorErrors (radixName : String) (separatorOk : Bool) : List LexError :=
  if separatorOk then [] else [misplacedSeparator radixName]

def scanRadixDigits (isRadixDigit : Char → Bool) (radixName : String) : Bool → List Char →
    NumberTail
  | _, [] => ⟨[], [], []⟩
  | prevWasDigit, ch :: rest =>
      if isRadixDigit ch then (scanRadixDigits isRadixDigit radixName true rest).keep ch []
      else if ch = '_' then
        (scanRadixDigits isRadixDigit radixName false rest).keep ch
          (separatorErrors radixName (prevWasDigit && nextIs isRadixDigit rest))
      else ⟨[], [], ch :: rest⟩

/-- The digits after a radix marker; at least one is needed. -/
def scanRadix (isRadixDigit : Char → Bool) (radixName : String) (marker : Char) (text : List Char) :
    NumberTail :=
  let digits := scanRadixDigits isRadixDigit radixName false text
  { text := marker :: digits.text
    errors := digits.errors ++
      (if digits.text.any isRadixDigit then [] else
        [⟨"L009", "missing digits in " ++ radixName ++ " literal"⟩])
    rest := digits.rest }

def isSign (ch : Char) : Bool := ch == '+' || ch == '-'

/-- Whether an exponent marker is followed by digits, with or without a sign. -/
def exponentFollows : List Char → Bool
  | [] => false
  | ch :: rest => ch.isDigit || (isSign ch && nextIs Char.isDigit rest)

/-- The state of a decimal scan: whether the dot and the exponent marker have been seen, the last
character was a digit, and a sign may follow, as right after the marker. -/
structure DecimalState where
  seenDot : Bool
  seenExponent : Bool
  prevWasDigit : Bool
  signAllowed : Bool

def scanDecimal : DecimalState → List Char → NumberTail
  | _, [] => ⟨[], [], []⟩
  | state, ch :: rest =>
      if state.signAllowed && isSign ch then
        (scanDecimal { state with signAllowed := false } rest).keep ch []
      else if ch.isDigit then
        (scanDecimal { state with prevWasDigit := true, signAllowed := false } rest).keep ch []
      else if ch = '_' then
        (scanDecimal { state with prevWasDigit := false, signAllowed := false } rest).keep ch
          (separatorErrors "decimal" (state.prevWasDigit && nextIs Char.isDigit rest))
      else if ch = '.' && !state.seenDot && !state.seenExponent && nextIs Char.isDigit rest then
        (scanDecimal { state with seenDot := true, prevWasDigit := true, signAllowed := false }
          rest).keep ch []
      else if (ch = 'e' || ch = 'E') && !state.seenExponent && state.prevWasDigit then
        if exponentFollows rest then
          (scanDecimal { state with seenExponent := true, prevWasDigit := false, signAllowed :=
            true } rest).keep ch []
        else ⟨[ch], [⟨"L009", "missing digits in numeric exponent"⟩], rest⟩
      else ⟨[], [], ch :: rest⟩

def isOctalDigit (ch : Char) : Bool := '0' ≤ ch && ch ≤ '7'
def isHexDigit (ch : Char) : Bool := ch.isDigit || ('a' ≤ ch && ch ≤ 'f') || ('A' ≤ ch && ch ≤ 'F')
def isBinaryDigit (ch : Char) : Bool := ch == '0' || ch == '1'

/-- What follows the first digit of a number. -/
def scanNumber (first : Char) (text : List Char) : NumberTail :=
  match text with
  | marker :: rest =>
      if first = '0' && marker = 'x' then scanRadix isHexDigit "hexadecimal" marker rest
      else if first = '0' && marker = 'o' then scanRadix isOctalDigit "octal" marker rest
      else if first = '0' && marker = 'b' then scanRadix isBinaryDigit "binary" marker rest
      else scanDecimal ⟨false, false, true, false⟩ text
  | [] => ⟨[], [], []⟩

/-- One turn of the lexer: the token found, if any, the errors reported and the text left. -/
structure Lexeme where
  token : Option TokenKind
  errors : List LexError
  rest : List Char
  deriving DecidableEq

/-- The text after a block comment, and whether the comment was closed. -/
def skipBlockComment : List Char → Bool × List Char
  | [] => (false, [])
  | '*' :: '/' :: rest => (true, rest)
  | _ :: rest => skipBlockComment rest

def lexBlockComment (text : List Char) : Lexeme :=
  match skipBlockComment text with
  | (true, rest) => ⟨none, [], rest⟩
  | (false, rest) => ⟨none, [⟨"L006", "unterminated block comment"⟩], rest⟩

/-- A quoted literal after its opening quote, with the error of one that is never closed. -/
def lexQuoted (literal : String → TokenKind) (unterminated : LexError) (text : List Char) :
    Lexeme :=
  let content := scanQuoted text
  if content.terminated then ⟨some (literal (String.ofList content.value)), content.errors,
    content.rest⟩
  else ⟨none, content.errors ++ [unterminated], content.rest⟩

def lexFString (text : List Char) : Lexeme :=
  lexQuoted .fStringLiteral ⟨"L005", "unterminated f-string literal"⟩ text

def lexString (text : List Char) : Lexeme :=
  lexQuoted .stringLiteral ⟨"L002", "unterminated string literal"⟩ text

def lexWord (first : Char) (text : List Char) : Lexeme :=
  let word := String.ofList (first :: text.takeWhile isIdentifierContinue)
  { token := some ((Keyword.fromIdentifier word).elim (.identifier word) .keyword)
    errors := []
    rest := text.dropWhile isIdentifierContinue }

/-- A malformed number consumes its characters and gives no token. -/
def lexNumber (first : Char) (text : List Char) : Lexeme :=
  let tail := scanNumber first text
  { token :=
    if tail.errors.isEmpty then some (.number (String.ofList (first :: tail.text))) else none
    errors := tail.errors
    rest := tail.rest }

def lexChar (text : List Char) : Lexeme :=
  let content := scanCharValue text
  match content.2 with
  | '\'' :: rest =>
      match content.1 with
      | some value => ⟨some (.charLiteral value), [], rest⟩
      | none => ⟨none, [⟨"L004", "empty character literal"⟩], rest⟩
  | rest => ⟨none, [⟨"L003", "unterminated character literal"⟩], rest⟩

/-- The two-character operators. -/
def doubleOperator (ch next : Char) : Option Operator :=
  if ch = '=' ∧ next = '=' then some .equalEqual
  else if ch = '!' ∧ next = '=' then some .notEqual
  else if ch = '<' ∧ next = '=' then some .lessEqual
  else if ch = '>' ∧ next = '=' then some .greaterEqual
  else if ch = '&' ∧ next = '&' then some .and
  else if ch = '|' ∧ next = '|' then some .or
  else none

def lexSymbol (ch : Char) : List Char → Lexeme
  | [] => ⟨some (.symbol ch), [], []⟩
  | next :: rest =>
      match doubleOperator ch next with
      | some op => ⟨some (.operator op), [], rest⟩
      | none =>
          if ch = '.' ∧ next = '.' then
            match rest with
            | '=' :: rest => ⟨some (.operator .rangeInclusive), [], rest⟩
            | rest => ⟨some (.operator .range), [], rest⟩
          -- arrows are reported and read as the symbol they start with
          else if (ch = '-' ∨ ch = '=') ∧ next = '>' then
            ⟨some (.symbol ch),
              [⟨"L010", "arrow operator `" ++ ch.toString ++ "` is not valid Spectra syntax"⟩],
              next :: rest⟩
          else ⟨some (.symbol ch), [], next :: rest⟩

/-- The lexeme that starts with `ch`, followed by `text`. -/
def lexeme (ch : Char) (text : List Char) : Lexeme :=
  if ch = ' ' ∨ ch = '\t' ∨ ch = '\r' ∨ ch = '\n' then ⟨none, [], text⟩
  else if ch = '/' ∧ text.head? = some '/' then ⟨none, [], text.dropWhile (· != '\n')⟩
  else if ch = '/' ∧ text.head? = some '*' then lexBlockComment text.tail
  else if isIdentifierStart ch then
    if ch = 'f' ∧ text.head? = some '"' then lexFString text.tail else lexWord ch text
  else if ch.isDigit then lexNumber ch text
  else if ch = '"' then lexString text
  else if ch = '\'' then lexChar text
  else if isSymbolChar ch then lexSymbol ch text
  else ⟨none, [⟨"L001", "unexpected character `" ++ ch.toString ++ "`"⟩], text⟩

section
variable (text : List Char)

theorem scanQuoted_rest_suffix : (scanQuoted text).rest <:+ text := by
  fun_induction scanQuoted text with
  | case1 => exact suffix_refl _
  | case2 escaped rest tail value known ih | case3 escaped rest tail unknown ih =>
    exact ih.trans ⟨['\\', escaped], rfl⟩
  | case4 rest => exact suffix_cons _ _
  | case5 ch rest _ _ tail ih => exact ih.trans (suffix_cons _ _)

theorem scanRadixDigits_rest_suffix (isRadixDigit : Char → Bool) (radixName : String)
    (prevWasDigit : Bool) :
    (scanRadixDigits isRadixDigit radixName prevWasDigit text).rest <:+ text := by
  fun_induction scanRadixDigits isRadixDigit radixName prevWasDigit text with
  | case1 | case4 => exact suffix_refl _
  | case2 _ ch rest _ ih | case3 _ rest _ ih => exact ih.trans (suffix_cons _ _)

theorem scanDecimal_rest_suffix (state : DecimalState) :
    (scanDecimal state text).rest <:+ text := by
  fun_induction scanDecimal state text with
  | case1 | case8 => exact suffix_refl _
  | case2 _ _ _ _ ih | case3 _ _ _ _ _ ih | case4 _ _ _ _ ih | case5 _ _ _ _ _ _ _ ih
  | case6 _ _ _ _ _ _ _ _ _ ih =>
    exact ih.trans (suffix_cons _ _)
  | case7 => exact suffix_cons _ _

theorem scanNumber_rest_suffix (first : Char) : (scanNumber first text).rest <:+ text := by
  unfold scanNumber
  have radix := fun (isRadixDigit : Char → Bool) radixName marker (rest : List Char) =>
    (scanRadixDigits_rest_suffix rest isRadixDigit radixName false).trans (suffix_cons marker rest)
  split
  · split_ifs
    · exact radix _ _ _ _
    · exact radix _ _ _ _
    · exact radix _ _ _ _
    · exact scanDecimal_rest_suffix _ _
  · exact suffix_refl _

theorem skipBlockComment_suffix : (skipBlockComment text).2 <:+ text := by
  fun_induction skipBlockComment text with
  | case1 => exact suffix_refl _
  | case2 rest => exact ⟨['*', '/'], rfl⟩
  | case3 _ rest _ ih => exact ih.trans (suffix_cons _ _)

theorem scanCharValue_suffix : (scanCharValue text).2 <:+ text := by
  fun_cases scanCharValue text with
  | case1 escaped rest => exact ⟨['\\', escaped], rfl⟩
  | case2 | case4 => exact suffix_refl _
  | case3 => exact suffix_cons _ _

theorem lexChar_rest_suffix : (lexChar text).rest <:+ text := by
  have value := scanCharValue_suffix text
  unfold lexChar
  dsimp only
  split
  · next rest closed =>
      rw [closed] at value
      have after : rest <:+ text := (suffix_cons _ _).trans value
      split <;> exact after
  · exact value

theorem lexSymbol_rest_suffix (ch : Char) : (lexSymbol ch text).rest <:+ text := by
  fun_cases lexSymbol ch text with
  | case1 | case5 | case6 => exact suffix_refl _
  | case2 next rest | case4 next rest => exact suffix_cons _ _
  | case3 next _ _ rest => exact ⟨[next, '='], rfl⟩

theorem lexQuoted_rest_suffix (literal : String → TokenKind) (unterminated : LexError) :
    (lexQuoted literal unterminated text).rest <:+ text := by
  unfold lexQuoted
  dsimp only
  split <;> exact scanQuoted_rest_suffix text

/-- Every turn consumes its first character. -/
theorem lexeme_rest_suffix (ch : Char) : (lexeme ch text).rest <:+ text := by
  unfold lexeme
  split_ifs
  · exact suffix_refl _
  · exact dropWhile_suffix _
  · unfold lexBlockComment
    have skipped := (skipBlockComment_suffix text.tail).trans (tail_suffix _)
    split
    · next closed => rwa [closed] at skipped
    · next unclosed => rwa [unclosed] at skipped
  · exact (lexQuoted_rest_suffix _ _ _).trans (tail_suffix _)
  · exact dropWhile_suffix _
  · exact scanNumber_rest_suffix _ _
  · exact lexQuoted_rest_suffix _ _ _
  · exact lexChar_rest_suffix text
  · exact lexSymbol_rest_suffix text ch
  · exact suffix_refl _

end

/-- The tokens and the errors of the text from the given line on. -/
def tokenizeFrom (line : Nat) : List Char → List Token × List LexError
  | [] => ([⟨.endOfFile, line, line⟩], [])
  | ch :: text =>
      let next := lexeme ch text
      let endLine := line + ((ch :: text).count '\n' - next.rest.count '\n')
      let tail := tokenizeFrom endLine next.rest
      (next.token.toList.map (⟨·, line, endLine⟩) ++ tail.1, next.errors ++ tail.2)
  termination_by text => text.length
  decreasing_by exact Nat.lt_succ_of_le (lexeme_rest_suffix text ch).length_le

/-- `Lexer::tokenize`: the tokens, unless an error was reported. -/
def tokenize (source : List Char) : Except (List LexError) (List Token) :=
  let (tokens, errors) := tokenizeFrom 1 source
  if errors.isEmpty then .ok tokens else .error errors

-- A lexeme that is a whole text on its own is read the same way when a blank, a closing parenthesis
-- or nothing follows: the scanners look ahead by at most two characters, and neither of these two
-- is one that any of them would take.

/-- The text is empty or starts with a blank or a closing parenthesis. -/
inductive Delimited : List Char → Prop where
  | nil : Delimited []
  | blank (text : List Char) : Delimited (' ' :: text)
  | close (text : List Char) : Delimited (')' :: text)

variable {after text : List Char} {class? : Char → Bool} {kind : TokenKind} {ch : Char}

theorem scanQuoted_append (text after : List Char)
    (terminated : (scanQuoted text).terminated = true) :
    scanQuoted (text ++ after) =
      { scanQuoted text with rest := (scanQuoted text).rest ++ after } := by
  fun_induction scanQuoted text with
  | case1 => cases terminated
  | case2 escaped rest tail value known ih =>
    simp only [cons_append, scanQuoted, known, ih terminated]
    rfl
  | case3 escaped rest tail unknown ih =>
    simp only [cons_append, scanQuoted, unknown, ih terminated]
    rfl
  | case4 rest => rfl
  | case5 ch rest notEscape notClose tail ih =>
    -- a backslash that ends the text would leave the literal open
    have more : ∀ escaped more, ch = '\\' → rest ++ after = escaped :: more → False := by
      rintro escaped more rfl split
      cases rest with
      | nil => cases terminated
      | cons next rest => exact notEscape next rest rfl rfl
    rw [cons_append, scanQuoted.eq_4 _ _ (fun escaped remaining => more escaped remaining) notClose,
      ih terminated]

variable {isRadixDigit : Char → Bool}

theorem lexQuoted_append {literal : String → TokenKind} {unterminated : LexError}
    (whole : lexQuoted literal unterminated text = ⟨some kind, [], []⟩) (after : List Char) :
    lexQuoted literal unterminated (text ++ after) = ⟨some kind, [], after⟩ := by
  unfold lexQuoted at whole ⊢
  dsimp only at whole ⊢
  split_ifs at whole with terminated
  · simp only [Lexeme.mk.injEq] at whole
    rw [scanQuoted_append text after terminated, if_pos terminated, whole.1, whole.2.1, whole.2.2,
      nil_append]
  · cases whole

theorem lexChar_append (whole : lexChar text = ⟨some kind, [], []⟩) (after : List Char) :
    lexChar (text ++ after) = ⟨some kind, [], after⟩ := by
  unfold lexChar at whole ⊢
  dsimp only at whole ⊢
  fun_cases scanCharValue text with
  | case1 escaped rest =>
    simp only [scanCharValue, cons_append] at whole ⊢
    split at whole
    · next closed =>
        simp only [Lexeme.mk.injEq, Option.some.injEq, true_and] at whole
        obtain ⟨rfl, rfl⟩ := whole
        rfl
    · cases whole
  | case2 rest | case4 => cases whole
  | case3 ch rest notEscape other =>
    rw [scanCharValue.eq_2 ch rest notEscape, if_neg other] at whole
    dsimp only at whole
    split at whole
    · next closed =>
        simp only [Lexeme.mk.injEq, Option.some.injEq, true_and] at whole
        obtain ⟨rfl, rfl⟩ := whole
        have plain : ∀ escaped more, ch = '\\' → '\'' :: after = escaped :: more → False :=
          fun _ _ backslash _ => notEscape '\'' [] backslash rfl
        simp [scanCharValue.eq_2 ch _ plain, other]
    · cases whole

section
variable (delimited : Delimited after)
include delimited

theorem Delimited.nextIs (blank : class? ' ' = false) (close : class? ')' = false) :
    nextIs class? after = false := by
  cases delimited
  · rfl
  · exact blank
  · exact close

omit delimited in
theorem nextIs_append (stops : nextIs class? after = false) (text : List Char) :
    nextIs class? (text ++ after) = nextIs class? text := by
  cases text with
  | nil => exact stops
  | cons ch rest => rfl

theorem scanRadixDigits_append (blank : isRadixDigit ' ' = false) (close : isRadixDigit ')' = false)
    (radixName : String) (prevWasDigit : Bool) (text : List Char)
    (whole : (scanRadixDigits isRadixDigit radixName prevWasDigit text).rest = []) :
    scanRadixDigits isRadixDigit radixName prevWasDigit (text ++ after) =
      { scanRadixDigits isRadixDigit radixName prevWasDigit text with rest := after } := by
  have stops := delimited.nextIs blank close
  fun_induction scanRadixDigits isRadixDigit radixName prevWasDigit text with
  | case1 prevWasDigit =>
    cases delimited <;> simp [scanRadixDigits, blank, close]
  | case2 prevWasDigit ch rest digit ih =>
    simp only [cons_append, scanRadixDigits, digit, if_true, ih whole]
    rfl
  | case3 prevWasDigit rest notDigit ih =>
    simp only [cons_append, scanRadixDigits, notDigit, if_false, if_true, ih whole,
      nextIs_append stops, Bool.false_eq_true]
    rfl
  | case4 => cases whole

theorem exponentFollows_append (text : List Char) :
    exponentFollows (text ++ after) = exponentFollows text := by
  cases text with
  | nil =>
    cases delimited <;> rfl
  | cons ch rest =>
    simp only [cons_append, exponentFollows]
    rw [nextIs_append (delimited.nextIs (by decide) (by decide))]

theorem scanDecimal_append (state : DecimalState) (text : List Char)
    (whole : (scanDecimal state text).rest = []) (correct : (scanDecimal state text).errors = []) :
    scanDecimal state (text ++ after) = { scanDecimal state text with rest := after } := by
  have stops : nextIs Char.isDigit after = false := delimited.nextIs (by decide) (by decide)
  fun_induction scanDecimal state text with
  | case1 state =>
    cases delimited <;> simp [scanDecimal, isSign, Char.isDigit]
  | case4 state rest notSign notDigit ih =>
    simp only [NumberTail.keep, append_eq_nil_iff] at correct
    simp only [cons_append, scanDecimal, notSign, notDigit, if_true, if_false, Bool.false_eq_true,
      ih whole correct.2, nextIs_append stops]
    rfl
  | case2 _ _ _ _ ih | case3 _ _ _ _ _ ih | case5 _ _ _ _ _ _ _ ih | case6 _ _ _ _ _ _ _ _ _ ih =>
    replace ih := ih whole correct
    clear whole correct
    simp only [cons_append, scanDecimal, *, if_true, if_false, Bool.false_eq_true,
      nextIs_append stops, exponentFollows_append delimited]
    rfl
  | case7 => cases correct
  | case8 => cases whole

theorem scanRadix_append
    (blank : isRadixDigit ' ' = false) (close : isRadixDigit ')' = false) (radixName : String)
      (marker : Char)
    (text : List Char) (whole : (scanRadix isRadixDigit radixName marker text).rest = []) :
    scanRadix isRadixDigit radixName marker (text ++ after) =
      { scanRadix isRadixDigit radixName marker text with rest := after } := by
  simp only [scanRadix] at whole ⊢
  rw [scanRadixDigits_append delimited blank close radixName false text whole]

theorem scanNumber_append (first : Char) (text : List Char)
    (whole : (scanNumber first text).rest = []) (correct : (scanNumber first text).errors = []) :
    scanNumber first (text ++ after) = { scanNumber first text with rest := after } := by
  cases text with
  | nil =>
    cases delimited <;> simp [scanNumber, scanDecimal, isSign, Char.isDigit]
  | cons marker rest =>
    simp only [scanNumber, cons_append] at whole correct ⊢
    split_ifs at whole correct ⊢
    · exact scanRadix_append delimited (by decide) (by decide) _ _ _ whole
    · exact scanRadix_append delimited (by decide) (by decide) _ _ _ whole
    · exact scanRadix_append delimited (by decide) (by decide) _ _ _ whole
    · exact scanDecimal_append delimited _ (marker :: rest) whole correct

theorem lexWord_append {first : Char}
    (whole : lexWord first text = ⟨some kind, [], []⟩) :
      lexWord first (text ++ after) = ⟨some kind, [], after⟩ := by
  simp only [lexWord, Lexeme.mk.injEq, true_and] at whole ⊢
  have word : ∀ ch ∈ text, isIdentifierContinue ch = true := dropWhile_eq_nil_iff.mp whole.2
  have taken : after.takeWhile isIdentifierContinue = [] := by
    cases delimited <;> rfl
  have dropped : after.dropWhile isIdentifierContinue = after := by
    cases delimited <;> rfl
  rw [takeWhile_append_of_pos word, dropWhile_append_of_pos word, taken, dropped, append_nil,
    ← whole.1, takeWhile_eq_self_iff.mpr word]
  exact ⟨rfl, rfl⟩

theorem lexNumber_append {first : Char} (whole : lexNumber first text = ⟨some kind, [], []⟩) :
    lexNumber first (text ++ after) = ⟨some kind, [], after⟩ := by
  simp only [lexNumber, Lexeme.mk.injEq] at whole ⊢
  rw [scanNumber_append delimited first text whole.2.2 whole.2.1]
  exact ⟨whole.1, whole.2.1, rfl⟩

theorem lexSymbol_append (whole : lexSymbol ch text = ⟨some kind, [], []⟩) :
    lexSymbol ch (text ++ after) = ⟨some kind, [], after⟩ := by
  cases text with
  | nil =>
    simp only [lexSymbol, Lexeme.mk.injEq, Option.some.injEq, and_true] at whole
    subst whole
    cases delimited <;> simp [lexSymbol, doubleOperator]
  | cons next rest =>
    simp only [lexSymbol, cons_append] at whole ⊢
    split at whole
    · next double => simp_all
    · next single =>
        split_ifs at whole ⊢ with dots arrow
        · -- `..` looks one character further, for `..=`
          split at whole
          · simp_all
          · next notInclusive =>
              simp only [Lexeme.mk.injEq, Option.some.injEq, true_and] at whole
              obtain ⟨rfl, rfl⟩ := whole
              cases delimited <;> rfl
        · simp_all
        · simp_all

/-- A lexeme is read the same way alone and before a delimiter. -/
theorem lexeme_append (whole : lexeme ch text = ⟨some kind, [], []⟩) :
    lexeme ch (text ++ after) = ⟨some kind, [], after⟩ := by
  have head : ∀ target, target ≠ ' ' → target ≠ ')' →
      ((text ++ after).head? = some target ↔ text.head? = some target) := by
    intro target notBlank notClose
    cases text with
    | cons next rest => rfl
    | nil =>
      refine ⟨fun found => ?_, nofun⟩
      cases delimited with
      | nil => cases found
      | blank => exact absurd (Option.some.inj found).symm notBlank
      | close => exact absurd (Option.some.inj found).symm notClose
  simp only [lexeme, head '/' (by decide) (by decide), head '*' (by decide) (by decide),
    head '"' (by decide) (by decide)] at whole ⊢
  split_ifs at whole ⊢ with blank lineComment blockComment wordStart fString digit quote apostrophe
    symbol
  · cases whole
  · cases whole
  · unfold lexBlockComment at whole
    split at whole <;> cases whole
  · obtain ⟨next, rest, rfl⟩ : ∃ next rest, text = next :: rest := by
      cases text with
      | nil => cases fString.2
      | cons next rest => exact ⟨next, rest, rfl⟩
    exact lexQuoted_append whole after
  · exact lexWord_append delimited whole
  · exact lexNumber_append delimited whole
  · exact lexQuoted_append whole after
  · exact lexChar_append whole after
  · exact lexSymbol_append delimited whole
  · cases whole

end

/-- On a text without line breaks a turn that finds a token puts it on the current line. -/
theorem tokenizeFrom_token {line : Nat} (read : lexeme ch text = ⟨some kind, [], after⟩)
    (oneLine : '\n' ∉ ch :: text) : tokenizeFrom line (ch :: text) =
      (⟨kind, line, line⟩ :: (tokenizeFrom line after).1, (tokenizeFrom line after).2) := by
  rw [tokenizeFrom]
  simp only [count_eq_zero_of_not_mem oneLine, Nat.zero_sub, Nat.add_zero, read]
  rfl

theorem tokenizeFrom_blank (line : Nat) (text : List Char) :
    tokenizeFrom line (' ' :: text) = tokenizeFrom line text := by
  have blank : lexeme ' ' text = ⟨none, [], text⟩ := rfl
  have sameLine : (' ' :: text).count '\n' = text.count '\n' := count_cons_of_ne (by decide)
  rw [tokenizeFrom]
  simp only [blank, sameLine, Nat.sub_self, Nat.add_zero]
  rfl

end SpectraLang

import SpectraLang.Syntax.Parser

/-! # Printing operator expressions

Expressions of names, literals and prefix and infix operators, printed on one line with parentheses
exactly around operands that bind looser than their position requires. The lexer reads the text back
as the tokens that were meant.
-/

namespace SpectraLang

open List

/-- The expression a token is by itself, for a name or a literal. -/
def TokenKind.atomValue : TokenKind → Option Expression
  | .identifier name => some (.identifier name)
  | .number text => some (.numberLiteral text)
  | .stringLiteral text => some (.stringLiteral text)
  | .charLiteral value => some (.charLiteral value)
  | .keyword .true => some (.boolLiteral true)
  | .keyword .false => some (.boolLiteral false)
  | _ => none

/-- A name or a literal as it is written: a text without line breaks that is one lexeme. -/
structure Atom where
  first : Char
  text : List Char
  kind : TokenKind
  value : Expression
  read : lexeme first text = ⟨some kind, [], []⟩
  oneLine : '\n' ∉ first :: text
  denotes : kind.atomValue = some value

/-- A character inside a string literal. -/
def escapeInString (ch : Char) : List Char :=
  if ch = '"' then ['\\', '"']
  else if ch = '\\' then ['\\', '\\']
  else if ch = '\n' then ['\\', 'n']
  else [ch]

theorem scanQuoted_escaped (value : List Char) :
    scanQuoted (value.flatMap escapeInString ++ ['"']) = ⟨value, [], true, []⟩ := by
  induction value with
  | nil => rfl
  | cons ch rest ih =>
    rw [flatMap_cons, append_assoc]
    by_cases quote : ch = '"'
    · simp [escapeInString, quote, scanQuoted, stringEscape, ih]
    · by_cases backslash : ch = '\\'
      · simp [escapeInString, backslash, scanQuoted, stringEscape, ih]
      · by_cases lineBreak : ch = '\n'
        · simp [escapeInString, lineBreak, scanQuoted, stringEscape, ih]
        · have plain : ∀ escaped more, ch = '\\' → rest.flatMap escapeInString ++ ['"'] = escaped ::
            more → False :=
            fun _ _ isBackslash _ => backslash isBackslash
          simp only [escapeInString, if_neg quote, if_neg backslash, if_neg lineBreak,
            singleton_append]
          rw [scanQuoted.eq_4 _ _ plain quote, ih]

/-- Every string has a literal on one line. -/
def Atom.string (value : String) : Atom where
  first := '"'
  text := value.toList.flatMap escapeInString ++ ['"']
  kind := .stringLiteral value
  value := .stringLiteral value
  read := by
    change lexString _ = _
    simp [lexString, lexQuoted, scanQuoted_escaped]
  oneLine := by
    have escaped : ∀ ch, '\n' ∉ escapeInString ch := by
      intro ch
      unfold escapeInString
      split_ifs with quote backslash lineBreak
      · decide
      · decide
      · decide
      · simpa using Ne.symm lineBreak
    simp [escaped]
  denotes := rfl

/-- Every character has a literal on one line. -/
def Atom.char (value : Char) : Atom where
  first := '\''
  text := (if value = '\'' ∨ value = '\\' then ['\\', value] else if value = '\n' then
    ['\\', 'n'] else [value]) ++ ['\'']
  kind := .charLiteral value
  value := .charLiteral value
  read := by
    change lexChar _ = _
    split_ifs with special lineBreak
    · rcases special with rfl | rfl <;> rfl
    · rw [lineBreak]
      rfl
    · simp only [not_or] at special
      have plain : ∀ escaped more, value = '\\' → ['\''] = escaped :: more → False :=
        fun _ _ isBackslash _ => special.2 isBackslash
      have scanned : scanCharValue [value, '\''] = (some value, ['\'']) := by
        rw [scanCharValue.eq_2 value _ plain, if_neg special.1]
      simp [lexChar, scanned]
  oneLine := by
    split_ifs with special lineBreak
    · rcases special with rfl | rfl <;> decide
    · decide
    · simpa using Ne.symm lineBreak
  denotes := rfl

/-- Every string, and every character, is read back from a literal of its own. -/
theorem quoted_read_back (value : String) (ch : Char) :
    lexeme '"' (value.toList.flatMap escapeInString ++ ['"']) =
      ⟨some (.stringLiteral value), [], []⟩ ∧
      ∃ text, lexeme '\'' text = ⟨some (.charLiteral ch), [], []⟩ :=
  ⟨(Atom.string value).read, _, (Atom.char ch).read⟩

/-- Every word that is not reserved is a name. -/
def Atom.name (first : Char) (rest : List Char) (start : isIdentifierStart first)
    (word : ∀ ch ∈ rest, isIdentifierContinue ch)
    (unreserved : Keyword.fromIdentifier (String.ofList (first :: rest)) = none) : Atom where
  first := first
  text := rest
  kind := .identifier (String.ofList (first :: rest))
  value := .identifier (String.ofList (first :: rest))
  read := by
    have other : ∀ ch, isIdentifierStart ch = false → first ≠ ch := by
      rintro _ notStart rfl
      simp [notStart] at start
    have notFString : ¬(first = 'f' ∧ rest.head? = some '"') := by
      rintro ⟨-, quote⟩
      exact absurd (word '"' (mem_of_mem_head? quote)) (by decide)
    simp only [lexeme, other ' ' (by decide), other '\t' (by decide), other '\r' (by decide),
      other '\n' (by decide),
      other '/' (by decide), or_self, false_and, if_false, if_pos start, if_neg notFString]
    rw [lexWord, takeWhile_eq_self_iff.mpr word, dropWhile_eq_nil_iff.mpr word, unreserved]
    rfl
  oneLine := by
    rw [mem_cons, not_or]
    refine ⟨?_, fun lineBreak => absurd (word _ lineBreak) (by decide)⟩
    rintro rfl
    exact absurd start (by decide)
  denotes := rfl

/-- The prefix operators; word `not` and `!` are one operator of the tree at two levels. -/
inductive PrefixOperator where
  | notWord | negate | bang | bitNot
  deriving DecidableEq

inductive OperatorTree where
  | leaf (atom : Atom)
  | unary (op : PrefixOperator) (operand : OperatorTree)
  /-- `word` chooses between the two spellings of `and` and of `or`. -/
  | binary (left : OperatorTree) (op : BinaryOperator) (word : Bool) (right : OperatorTree)

def PrefixOperator.operator : PrefixOperator → UnaryOperator
  | .notWord | .bang => .not
  | .negate => .negate
  | .bitNot => .bitNot

/-- The expression a tree stands for. -/
def OperatorTree.expression : OperatorTree → Expression
  | .leaf atom => atom.value
  | .unary op operand => .unary op.operator operand.expression
  | .binary left op _ right => .binary left.expression op right.expression

/-- How tightly a binary operator binds, from the loosest level on. -/
def BinaryOperator.level : BinaryOperator → Nat
  | .or => 0
  | .and => 1
  | .bitOr => 3
  | .bitXor => 4
  | .bitAnd => 5
  | .equal | .notEqual => 6
  | .less | .greater | .lessEqual | .greaterEqual => 7
  | .shl | .shr => 8
  | .add | .subtract => 9
  | .multiply | .divide | .modulo => 10

def PrefixOperator.level : PrefixOperator → Nat
  | .notWord => 2
  | .negate | .bang | .bitNot => 11

/-- The level of names, literals and parenthesized expressions. -/
def primaryLevel : Nat := 12

def OperatorTree.level : OperatorTree → Nat
  | .leaf _ => primaryLevel
  | .unary op _ => op.level
  | .binary _ op _ _ => op.level

/-- The level a left operand needs: operators associate to the left, and comparisons not at all. -/
def BinaryOperator.leftLevel (op : BinaryOperator) : Nat :=
  if op.level = 7 then op.level + 1 else op.level

def BinaryOperator.rightLevel (op : BinaryOperator) : Nat := op.level + 1

/-- Wraps what binds looser than its position requires. -/
def wrapLooser {α : Type} (wrap : α → α) (required level : Nat) (body : α) : α :=
  if level < required then wrap body else body

def PrefixOperator.text : PrefixOperator → List Char
  | .notWord => ['n', 'o', 't', ' ']
  | .negate => ['-']
  | .bang => ['!']
  | .bitNot => ['~']

def BinaryOperator.text (word : Bool) : BinaryOperator → List Char
  | .or => if word then ['o', 'r'] else ['|', '|']
  | .and => if word then ['a', 'n', 'd'] else ['&', '&']
  | .bitOr => ['|']
  | .bitXor => ['^']
  | .bitAnd => ['&']
  | .equal => ['=', '=']
  | .notEqual => ['!', '=']
  | .less => ['<']
  | .greater => ['>']
  | .lessEqual => ['<', '=']
  | .greaterEqual => ['>', '=']
  | .shl => ['<', '<']
  | .shr => ['>', '>']
  | .add => ['+']
  | .subtract => ['-']
  | .multiply => ['*']
  | .divide => ['/']
  | .modulo => ['%']

def parenthesizeText (text : List Char) : List Char := '(' :: (text ++ [')'])

/-- The printed expression. -/
def OperatorTree.text : OperatorTree → List Char
  | .leaf atom => atom.first :: atom.text
  | .unary op operand => op.text ++ wrapLooser parenthesizeText op.level operand.level operand.text
  | .binary left op word right =>
      wrapLooser parenthesizeText op.leftLevel left.level left.text ++ ' ' :: (op.text word ++
        ' ' :: wrapLooser parenthesizeText op.rightLevel right.level right.text)

def PrefixOperator.kind : PrefixOperator → TokenKind
  | .notWord => .keyword .notWord
  | .negate => .symbol '-'
  | .bang => .symbol '!'
  | .bitNot => .symbol '~'

def BinaryOperator.kinds (word : Bool) : BinaryOperator → List TokenKind
  | .or => [if word then .keyword .orWord else .operator .or]
  | .and => [if word then .keyword .andWord else .operator .and]
  | .bitOr => [.symbol '|']
  | .bitXor => [.symbol '^']
  | .bitAnd => [.symbol '&']
  | .equal => [.operator .equalEqual]
  | .notEqual => [.operator .notEqual]
  | .less => [.symbol '<']
  | .greater => [.symbol '>']
  | .lessEqual => [.operator .lessEqual]
  | .greaterEqual => [.operator .greaterEqual]
  | .shl => [.symbol '<', .symbol '<']
  | .shr => [.symbol '>', .symbol '>']
  | .add => [.symbol '+']
  | .subtract => [.symbol '-']
  | .multiply => [.symbol '*']
  | .divide => [.symbol '/']
  | .modulo => [.symbol '%']

def parenthesizeKinds (kinds : List TokenKind) : List TokenKind :=
  .symbol '(' :: (kinds ++ [.symbol ')'])

/-- The tokens of the printed expression. -/
def OperatorTree.kinds : OperatorTree → List TokenKind
  | .leaf atom => [atom.kind]
  | .unary op operand =>
    op.kind :: wrapLooser parenthesizeKinds op.level operand.level operand.kinds
  | .binary left op word right =>
      wrapLooser parenthesizeKinds op.leftLevel left.level left.kinds ++ (op.kinds word ++
        wrapLooser parenthesizeKinds op.rightLevel right.level right.kinds)

/-- The expression without the grouping nodes among its operators. -/
def Expression.ungrouped : Expression → Expression
  | .grouping inner => inner.ungrouped
  | .unary operator operand => .unary operator operand.ungrouped
  | .binary left operator right => .binary left.ungrouped operator right.ungrouped
  | expr => expr

/-- The printed expression as it is parsed, a grouping for every pair of parentheses. -/
def OperatorTree.grouped : OperatorTree → Expression
  | .leaf atom => atom.value
  | .unary op operand =>
    .unary op.operator (wrapLooser .grouping op.level operand.level operand.grouped)
  | .binary left op _ right =>
      .binary (wrapLooser .grouping op.leftLevel left.level left.grouped) op
        (wrapLooser .grouping op.rightLevel right.level right.grouped)

theorem TokenKind.ungrouped_of_atomValue {kind : TokenKind} {value : Expression}
    (denotes : kind.atomValue = some value) :
    value.ungrouped = value := by
  cases kind with
  | keyword word => cases word <;> cases denotes <;> rfl
  | _ => cases denotes <;> rfl

variable (tree : OperatorTree)

theorem OperatorTree.ungrouped_grouped : tree.grouped.ungrouped = tree.expression := by
  have operand : ∀ required level (body : Expression),
      (wrapLooser .grouping required level body).ungrouped = body.ungrouped := by
    intro required level body
    unfold wrapLooser
    split
    · rw [Expression.ungrouped]
    · rfl
  induction tree with
  | leaf atom => exact TokenKind.ungrouped_of_atomValue atom.denotes
  | unary op inner ih => rw [grouped, Expression.ungrouped, operand, ih, expression]
  | binary left op word right leftIh rightIh =>
    rw [grouped, Expression.ungrouped, operand, operand, leftIh, rightIh, expression]

/-- Tokens of the given kinds, all on one line. -/
def onLine (line : Nat) (kinds : List TokenKind) : List Token := kinds.map (⟨·, line, line⟩)

/-- Before a delimiter the text is read as tokens of the given kinds, all on the current line. -/
def Lexes (text : List Char) (kinds : List TokenKind) : Prop :=
  ∀ line after, Delimited after → '\n' ∉ after →
    tokenizeFrom line (text ++ after) =
      (onLine line kinds ++ (tokenizeFrom line after).1, (tokenizeFrom line after).2)

theorem Lexes.one {first : Char} {text : List Char} {kind : TokenKind}
    (read : lexeme first text = ⟨some kind, [], []⟩) (oneLine : '\n' ∉ first :: text) :
    Lexes (first :: text) [kind] := by
  intro line after delimited afterLine
  have still : '\n' ∉ first :: (text ++ after) := by
    rw [← cons_append, mem_append]
    exact not_or.mpr ⟨oneLine, afterLine⟩
  exact tokenizeFrom_token (lexeme_append delimited read) still

theorem Lexes.blank {left right : List Char} {leftKinds rightKinds : List TokenKind}
    (first : Lexes left leftKinds) (second : Lexes right rightKinds) (oneLine : '\n' ∉ right) :
    Lexes (left ++ ' ' :: right) (leftKinds ++ rightKinds) := by
  intro line after delimited afterLine
  have still : '\n' ∉ ' ' :: (right ++ after) := by simp [oneLine, afterLine]
  rw [append_assoc, cons_append, first line _ (.blank _) still, tokenizeFrom_blank,
    second line after delimited afterLine]
  simp [onLine]

variable {text : List Char} {kinds : List TokenKind}

/-- A symbol that stands directly before a text it does not merge with. -/
theorem Lexes.tight {symbol : Char}
    (alone : ∀ after, lexeme symbol (text ++ after) = ⟨some (.symbol symbol), [], text ++ after⟩)
    (operand : Lexes text kinds) (notBreak : symbol ≠ '\n') (oneLine : '\n' ∉ text) :
    Lexes (symbol :: text) (.symbol symbol :: kinds) := by
  intro line after delimited afterLine
  have still : '\n' ∉ symbol :: (text ++ after) := by simp [notBreak.symm, oneLine, afterLine]
  rw [cons_append, tokenizeFrom_token (alone after) still, operand line after delimited afterLine]
  rfl

theorem Lexes.parenthesize (inner : Lexes text kinds) (oneLine : '\n' ∉ text) :
    Lexes (parenthesizeText text) (parenthesizeKinds kinds) := by
  have closed : Lexes (text ++ [')']) (kinds ++ [.symbol ')']) := by
    intro line after delimited afterLine
    have still : '\n' ∉ ')' :: after := by simp [afterLine]
    have close : lexeme ')' after = ⟨some (.symbol ')'), [], after⟩ := by cases after <;> rfl
    rw [append_assoc, singleton_append, inner line _ (.close _) still,
      tokenizeFrom_token close still]
    simp [onLine]
  have opens : ∀ after, lexeme '(' (text ++ [')'] ++ after) =
    ⟨some (.symbol '('), [], text ++ [')'] ++ after⟩ := by
    intro after
    cases text <;> rfl
  exact .tight opens closed (by decide) (by simp [oneLine])

variable (op : BinaryOperator)

theorem BinaryOperator.lexes (word : Bool) : Lexes (op.text word) (op.kinds word) := by
  have shift : ∀ symbol, symbol = '<' ∨ symbol = '>' →
    Lexes [symbol, symbol] [.symbol symbol, .symbol symbol] := by
    rintro symbol (rfl | rfl)
    · exact .tight (fun _ => rfl) (.one (by decide) (by decide)) (by decide) (by decide)
    · exact .tight (fun _ => rfl) (.one (by decide) (by decide)) (by decide) (by decide)
  cases op with
  | shl => exact shift '<' (.inl rfl)
  | shr => exact shift '>' (.inr rfl)
  | or | and => cases word <;> exact .one (by decide) (by decide)
  | _ => exact .one (by decide) (by decide)

theorem BinaryOperator.text_oneLine (word : Bool) : '\n' ∉ op.text word := by
  cases op <;> cases word <;> decide

theorem wrapLooser_of {α : Type} {property : α → Prop} {wrap : α → α} {body : α}
    (plain : property body)
    (wrapped : property (wrap body)) (required level : Nat) :
      property (wrapLooser wrap required level body) := by
  unfold wrapLooser
  split
  · exact wrapped
  · exact plain

theorem wrapLooser_oneLine (plain : '\n' ∉ text) (required level : Nat) :
    '\n' ∉ wrapLooser parenthesizeText required level text := by
  have wrapped : '\n' ∉ parenthesizeText text := by simp [parenthesizeText, plain]
  exact @wrapLooser_of _ ('\n' ∉ ·) _ _ plain wrapped required level

theorem OperatorTree.text_oneLine : '\n' ∉ tree.text := by
  induction tree with
  | leaf atom => exact atom.oneLine
  | unary op inner ih =>
    have opLine : '\n' ∉ op.text := by cases op <;> decide
    simp [OperatorTree.text, opLine, wrapLooser_oneLine ih]
  | binary left op word right leftLine rightLine =>
    simp [OperatorTree.text, op.text_oneLine, wrapLooser_oneLine leftLine,
      wrapLooser_oneLine rightLine]

/-- No operand starts with a character that could merge with a prefix operator before it. -/
def OpensOperand (text : List Char) : Prop := ∃ ch rest, text = ch :: rest ∧ ch ≠ '=' ∧ ch ≠ '>'

theorem lexSymbol_token (symbol : Char) (text : List Char) :
    (lexSymbol symbol text).token = some (.symbol symbol) ∨ ∃ op, (lexSymbol symbol text).token =
      some (.operator op) := by
  fun_cases lexSymbol symbol text with
  | case1 | case5 | case6 => exact .inl rfl
  | case2 next rest op => exact .inr ⟨op, rfl⟩
  | case3 => exact .inr ⟨.rangeInclusive, rfl⟩
  | case4 => exact .inr ⟨.range, rfl⟩

theorem Atom.opens (atom : Atom) : OpensOperand (atom.first :: atom.text) := by
  have notSymbol : ∀ symbol text, lexSymbol symbol text ≠ ⟨some atom.kind, [], []⟩ := by
    intro symbol text whole
    have denotes := atom.denotes
    have token := lexSymbol_token symbol text
    rw [whole] at token
    rcases token with single | ⟨op, double⟩
    · rw [Option.some.inj single] at denotes
      cases denotes
    · rw [Option.some.inj double] at denotes
      cases denotes
  have read := atom.read
  refine ⟨_, _, rfl, ?_, ?_⟩
  · intro first
    rw [first] at read
    exact notSymbol '=' _ read
  · intro first
    rw [first] at read
    exact notSymbol '>' _ read

theorem OpensOperand.append {text : List Char} (opens : OpensOperand text) (after : List Char) :
    OpensOperand (text ++ after) := by
  obtain ⟨ch, rest, rfl, allowed⟩ := opens
  exact ⟨ch, rest ++ after, rfl, allowed⟩

theorem wrapLooser_opens (opens : OpensOperand text) (required level : Nat) :
    OpensOperand (wrapLooser parenthesizeText required level text) :=
  wrapLooser_of opens ⟨'(', text ++ [')'], rfl, by decide, by decide⟩ required level

theorem OperatorTree.text_opens : OpensOperand tree.text := by
  induction tree with
  | leaf atom => exact atom.opens
  | unary op operand ih =>
    have opOpens : OpensOperand op.text := by
      cases op
      · exact ⟨'n', _, rfl, by decide, by decide⟩
      · exact ⟨'-', _, rfl, by decide, by decide⟩
      · exact ⟨'!', _, rfl, by decide, by decide⟩
      · exact ⟨'~', _, rfl, by decide, by decide⟩
    exact opOpens.append _
  | binary left op word right leftOpens rightOpens =>
    exact (wrapLooser_opens leftOpens _ _).append _

theorem PrefixOperator.lexes (op : PrefixOperator) (operand : Lexes text kinds)
    (opens : OpensOperand text)
    (oneLine : '\n' ∉ text) : Lexes (op.text ++ text) (op.kind :: kinds) := by
  obtain ⟨ch, rest, rfl, notEquals, notArrow⟩ := opens
  cases op with
  | notWord =>
    exact Lexes.blank (@Lexes.one 'n' ['o', 't'] _ (by decide) (by decide)) operand oneLine
  | negate =>
    refine .tight (fun after => ?_) operand (by decide) oneLine
    change lexSymbol '-' (ch :: (rest ++ after)) = _
    simp [lexSymbol, doubleOperator, notArrow]
  | bang =>
    refine .tight (fun after => ?_) operand (by decide) oneLine
    change lexSymbol '!' (ch :: (rest ++ after)) = _
    simp [lexSymbol, doubleOperator, notEquals]
  | bitNot => exact .tight (fun after => rfl) operand (by decide) oneLine

theorem OperatorTree.lexes : Lexes tree.text tree.kinds := by
  have wrapped : ∀ tree : OperatorTree, Lexes tree.text tree.kinds → ∀ required,
      Lexes (wrapLooser parenthesizeText required tree.level tree.text)
        (wrapLooser parenthesizeKinds required tree.level tree.kinds) := by
    intro tree inner required
    unfold wrapLooser
    split
    · exact inner.parenthesize tree.text_oneLine
    · exact inner
  induction tree with
  | leaf atom => exact .one atom.read atom.oneLine
  | unary op operand ih =>
    exact op.lexes (wrapped operand ih _) (wrapLooser_opens operand.text_opens _ _)
      (wrapLooser_oneLine operand.text_oneLine _ _)
  | binary left op word right leftLexes rightLexes =>
    have rightLine := wrapLooser_oneLine right.text_oneLine op.rightLevel right.level
    have infixLine : '\n' ∉ op.text word ++ ' ' :: wrapLooser parenthesizeText op.rightLevel
      right.level right.text := by
      simp [op.text_oneLine, rightLine]
    exact (wrapped left leftLexes _).blank
      ((op.lexes word).blank (wrapped right rightLexes _) rightLine) infixLine

/-- `tokenize` on the printed expression: its tokens on the first line and the end of the file. -/
theorem OperatorTree.tokenize_text :
    tokenize tree.text = .ok (onLine 1 (tree.kinds ++ [.endOfFile])) := by
  have read := tree.lexes 1 [] .nil (by decide)
  have finished : tokenizeFrom 1 [] = ([⟨.endOfFile, 1, 1⟩], []) := by rw [tokenizeFrom]
  rw [append_nil, finished] at read
  simp [tokenize, read, onLine]

end SpectraLang

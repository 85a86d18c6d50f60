import SpectraLang.Syntax.Ast
import SpectraLang.Syntax.Lexer

/-! # The expression parser

The precedence ladder of `expression_precedence.rs`, from `parse_expression` down to the primary
expressions. Three of its functions are depth guarded and call each other again: each function takes
the next level of those three, and `Entries.level` ties the knot over the levels of the guard. The
parsers of blocks, statements, types and lambdas are the fields of `Surroundings`, and so is the
measurement of the thread's stack. Hints and spans of errors are not represented.
-/

namespace SpectraLang

structure ParseError where
  code : String
  message : String
  deriving DecidableEq, Repr

/-- The parser between two tokens. -/
structure ParserState where
  /-- The consumed tokens, the last one first. -/
  before : List Token
  tokens : List Token
  depth : Nat
  depthLimitReported : Bool
  asyncContextDepth : Nat
  errors : List ParseError

def ParserState.new (tokens : List Token) : ParserState := ⟨[], tokens, 0, false, 0, []⟩

/-- A parser gives `none` where the source returns `Err(())`; the state survives a failure. -/
def Parse (α : Type) : Type := ParserState → Option α × ParserState

instance : Monad Parse where
  pure value := fun state => (some value, state)
  bind first next := fun state =>
    match first state with
    | (some value, state) => next value state
    | (none, state) => (none, state)

theorem Parse.pure_apply {α : Type} (value : α) (state : ParserState) :
    (pure value : Parse α) state = (some value, state) := rfl

theorem Parse.bind_of_eq {α β : Type} {first : Parse α} {next : α → Parse β}
    {state after : ParserState} {value : α}
    (read : first state = (some value, after)) : (first >>= next) state = next value after := by
  change (match first state with
    | (some value, state) => next value state
    | (none, state) => (none, state)) = _
  rw [read]

namespace ParserState

/-- The kind of the current token; past the end it is the end of file. -/
def current (state : ParserState) : TokenKind := state.tokens.head?.elim .endOfFile Token.kind

/-- The line on which the current token starts. -/
def currentLine (state : ParserState) : Nat := state.tokens.head?.elim 1 Token.startLine

/-- The kind of a token further on, if there is one. -/
def peek (state : ParserState) (ahead : Nat) : Option TokenKind :=
  (state.tokens[ahead]?).map Token.kind
def isAtEnd (state : ParserState) : Bool := state.current = .endOfFile

def advance (state : ParserState) : ParserState :=
  match state.tokens with
  | [] => state
  | token :: rest =>
      if token.kind = .endOfFile then state else
        { state with before := token :: state.before, tokens := rest }

def checkKeyword (state : ParserState) (keyword : Keyword) : Bool :=
  state.current = .keyword keyword
def checkSymbol (state : ParserState) (symbol : Char) : Bool := state.current = .symbol symbol

/-- The shift operators stay two symbols in the token stream. -/
def checkDoubleSymbol (state : ParserState) (symbol : Char) : Bool :=
  state.checkSymbol symbol && state.peek 1 = some (.symbol symbol)

def lineBreakBeforeCurrent (state : ParserState) : Bool :=
  match state.before with
  | [] => false
  | previous :: _ => previous.endLine < state.currentLine

/-- An infix operator may start a line after a token that cannot end an expression. -/
def infixOperatorContinuesLine (state : ParserState) : Bool :=
  match state.before with
  | [] => false
  | previous :: _ =>
      match previous.kind with
      | .symbol symbol => symbol = ',' || symbol = '(' || symbol = '[' || symbol = '='
      | .operator _ => true
      | .keyword .andWord | .keyword .orWord | .keyword .notWord => true
      | _ => false

def pushErrorCoded (state : ParserState) (code message : String) : ParserState :=
  { state with errors := state.errors ++ [⟨code, message⟩] }

def isStatementBoundaryToken (state : ParserState) : Bool :=
  match state.current with
  | .endOfFile => true
  | .keyword keyword =>
      [Keyword.let, .return, .if, .unless, .notWord, .match, .while, .do, .for, .loop, .switch,
        .break, .continue,
        .func, .record, .enum, .trait, .class, .module, .import, .async, .public, .case, .else,
        .from].contains keyword
  | .identifier _ | .number _ | .stringLiteral _ => true
  | .symbol symbol => symbol = '(' || symbol = '\x7b'
  | _ => false

def isBlockTerminatorToken (state : ParserState) : Bool :=
  match state.current with
  | .endOfFile => true
  | .keyword keyword =>
      [Keyword.else, .from, .case, .func, .record, .enum, .impl, .class, .module, .import, .async,
        .return].contains keyword
  | _ => false

def isPostParenBoundaryToken (state : ParserState) : Bool :=
  state.isAtEnd || state.checkSymbol '\x7b' || state.checkSymbol ')'

/-- Whether a missing closing symbol is reported and then taken as read. -/
def recoverMissingSymbol (state : ParserState) (symbol : Char) : Bool :=
  if symbol = ';' then state.isAtEnd || state.isStatementBoundaryToken
  else if symbol = '\x7d' then state.isAtEnd || state.isBlockTerminatorToken
  else if symbol = ')' then state.isAtEnd || state.isPostParenBoundaryToken ||
    state.isStatementBoundaryToken
  else false

end ParserState

namespace Parse

variable {α : Type}

def state : Parse ParserState := fun state => (some state, state)

theorem state_bind (next : ParserState → Parse α) (state : ParserState) :
    (Parse.state >>= next) state = next state state := rfl

def fail : Parse α := fun state => (none, state)
def advance : Parse Unit := fun state => (some (), state.advance)

def pushErrorCoded (code message : String) : Parse Unit :=
  fun state => (some (), state.pushErrorCoded code message)

/-- Reports an error and returns `Err(())`. -/
def reject (code message : String) : Parse α := do
  pushErrorCoded code message
  fail

def checkSymbol (symbol : Char) : Parse Bool :=
  fun state => (some (state.checkSymbol symbol), state)

theorem checkSymbol_bind (symbol : Char) (next : Bool → Parse α) (state : ParserState) :
    (checkSymbol symbol >>= next) state = next (state.checkSymbol symbol) state := rfl

def current : Parse TokenKind := fun state => (some state.current, state)

theorem current_bind (next : TokenKind → Parse α) (state : ParserState) :
    (current >>= next) state = next state.current state := rfl

def consumeSymbol (symbol : Char) (message : String) : Parse Unit := do
  let state ← Parse.state
  if state.checkSymbol symbol then advance
  else if state.recoverMissingSymbol symbol then pushErrorCoded "P002" message
  else reject "P002" message

def consumeIdentifier (message : String) : Parse String := do
  match ← current with
  | .identifier name => do
      advance
      pure name
  | _ => reject "P003" message

def consumeDoubleSymbol : Parse Unit := do
  advance
  advance

/-- The newline gate of every infix operator. -/
def rejectLineBrokenInfix : Parse Unit := do
  let state ← Parse.state
  if !state.lineBreakBeforeCurrent || state.infixOperatorContinuesLine then pure ()
  else reject "P015" "a line break before an infix operator ends the expression"

/-- Moves on to a symbol at which a list of arguments can be taken up again. -/
def recoverInDelimitedList (terminators separators : List Char) : Nat → Parse Unit
  | 0 => pure ()
  | fuel + 1 => do
      match ← current with
      | .symbol symbol =>
          if terminators.contains symbol || separators.contains symbol || symbol =
            '\x7d' || symbol = ';' then pure ()
          else do
            advance
            recoverInDelimitedList terminators separators fuel
      | .keyword _ | .endOfFile => pure ()
      | _ => do
          advance
          recoverInDelimitedList terminators separators fuel

end Parse

/-- `MAX_PARSE_DEPTH`. -/
def maxParseDepth : Nat := 1000

/-- The parts of the parser that expressions only call. -/
structure Surroundings where
  /-- Whether the recursion has used up its share of the thread's stack. -/
  overStack : ParserState → Bool
  parseBlock : Parse Block
  parseIfExpression : Parse Expression
  parseUnlessExpression : Parse Expression
  parseMatchExpression : Parse Expression
  parseAsyncExpression : Parse Expression
  parseTypeAnnotation : Parse TypeAnnotation
  parseTypeArguments : Parse (List TypeAnnotation)
  parseFStringParts : String → Parse (List FStringPart)
  parseLambdaParamsAfterOpenPipe : Parse (List LambdaParam)
  finishLambdaExpression : Bool → List LambdaParam → Parse Expression

/-- Enters one level of recursion. The diagnostic is emitted only once, and a refused level stays
counted. -/
def enterParseDepth (overStack : ParserState → Bool) : Parse Unit := fun state =>
  let entered := { state with depth := state.depth + 1 }
  if maxParseDepth < entered.depth ∨ overStack entered then
    if entered.depthLimitReported then (none, entered)
    else (none,
      { entered.pushErrorCoded "P013" "nesting too deep" with depthLimitReported := true })
  else (some (), entered)

def exitParseDepth (state : ParserState) : ParserState := { state with depth := state.depth - 1 }

/-- A depth-guarded function: the level is left again whether or not its body succeeds. -/
def guarded (overStack : ParserState → Bool) (body : Parse Expression) : Parse Expression := do
  enterParseDepth overStack
  fun state => ((body state).1, exitParseDepth (body state).2)

/-- The depth-guarded functions `parse_expression`, `parse_logical_not` and `parse_unary`. -/
structure Entries where
  expression : Parse Expression
  logicalNot : Parse Expression
  unary : Parse Expression

section Ladder
variable (around : Surroundings) (entries : Entries)

/-- Comma-separated arguments up to `)`. A malformed argument is dropped and the list goes on after
it. -/
def parseArgumentsFrom : Nat → List Expression → Parse (List Expression)
  | 0, arguments => pure arguments
  | fuel + 1, arguments => fun state =>
      let (argument, afterArgument) := entries.expression state
      let resume : Parse Unit :=
        if argument.isSome then pure () else Parse.recoverInDelimitedList [')']
          [','] afterArgument.tokens.length
      (do
        resume
        if ← Parse.checkSymbol ',' then
          Parse.advance
          if ← Parse.checkSymbol ')' then pure (arguments ++ argument.toList)
          else parseArgumentsFrom fuel (arguments ++ argument.toList)
        else pure (arguments ++ argument.toList)) afterArgument

def parseArguments : Parse (List Expression) := do
  if ← Parse.checkSymbol ')' then pure []
  else do
    let state ← Parse.state
    parseArgumentsFrom entries state.tokens.length []

/-- Comma-separated expressions; where `trailing` is given, a comma may also stand before that
symbol. -/
def parseElementsFrom (trailing : Option Char) : Nat → List Expression → Parse (List Expression)
  | 0, elements => pure elements
  | fuel + 1, elements => do
      let element ← entries.expression
      let elements := elements ++ [element]
      if ← Parse.checkSymbol ',' then
        Parse.advance
        let state ← Parse.state
        if trailing.any state.checkSymbol then pure elements
        else parseElementsFrom trailing fuel elements
      else pure elements

def parseElements (trailing : Option Char) : Parse (List Expression) := do
  let state ← Parse.state
  parseElementsFrom entries trailing state.tokens.length []

/-- The fields of a record or of an enum variant, up to `}`. -/
def parseFieldsFrom (field : Parse FieldValue) : Nat → List FieldValue → Parse (List FieldValue)
  | 0, fields => pure fields
  | fuel + 1, fields => do
      let state ← Parse.state
      if state.checkSymbol '\x7d' || state.isAtEnd then pure fields
      else do
        let value ← field
        let separated ← Parse.checkSymbol ','
        if separated then Parse.advance
        parseFieldsFrom field fuel (fields ++ [value])

def parseVariantField : Parse FieldValue := do
  let name ← Parse.consumeIdentifier "Expected field name in enum variant"
  Parse.consumeSymbol ':' "Expected ':' after field name"
  let value ← entries.expression
  pure ⟨name, value⟩

/-- A record field may leave out its value, which is then the variable of that name. -/
def parseRecordField : Parse FieldValue := do
  let name ← Parse.consumeIdentifier "Expected field name"
  if ← Parse.checkSymbol ':' then
    Parse.advance
    let value ← entries.expression
    pure ⟨name, value⟩
  else pure ⟨name, .identifier name⟩

/-- The names of a path after its first `::`. -/
def parseSegmentsFrom : Nat → List String → Parse (List String)
  | 0, segments => pure segments
  | fuel + 1, segments => do
      let segment ← Parse.consumeIdentifier "Expected name after '::"
      let segments := segments ++ [segment]
      let state ← Parse.state
      if state.checkDoubleSymbol ':' then
        Parse.advance
        Parse.advance
        parseSegmentsFrom fuel segments
      else pure segments

/-- A path `Name::Variant` or `module::Enum::Variant` with the data given to it. -/
def parseEnumVariant (name : String) (typeArgs : List TypeAnnotation) : Parse Expression := do
  Parse.advance
  Parse.advance
  let state ← Parse.state
  let segments ← parseSegmentsFrom state.tokens.length [name]
  let path := segments.dropLast.dropLast
  let modulePath := if path.isEmpty then none else some ("::".intercalate path)
  let enumName := segments.dropLast.getLast?.getD name
  let variantName := segments.getLast?.getD name
  let data ←
    if ← Parse.checkSymbol '(' then
      Parse.advance
      let arguments ←
        if ← Parse.checkSymbol ')' then pure []
        else parseElements entries none
      Parse.consumeSymbol ')' "Expected ')' after variant data"
      pure (some arguments)
    else pure none
  let structData ←
    if ← Parse.checkSymbol '\x7b' then
      Parse.advance
      let state ← Parse.state
      let fields ← parseFieldsFrom (parseVariantField entries) state.tokens.length []
      Parse.consumeSymbol '\x7d' "Expected '\x7d' after enum variant fields"
      pure (some fields)
    else pure none
  pure (.enumVariant modulePath enumName typeArgs variantName data structData)

/-- Whether the `{` after a name opens the fields of a record. -/
def ParserState.isStructLiteral (state : ParserState) : Bool :=
  match state.peek 1 with
  | some (.symbol symbol) => symbol = '\x7d'
  | some (.identifier _) =>
      match state.peek 2 with
      | some (.symbol symbol) =>
          if symbol = ':' then state.peek 3 ≠ some (.symbol ':')
          else symbol = ',' || symbol = '\x7d'
      | _ => false
  | _ => false

def parseStructLiteral (name : String) (typeArgs : List TypeAnnotation) : Parse Expression := do
  Parse.advance
  let state ← Parse.state
  let fields ← parseFieldsFrom (parseRecordField entries) state.tokens.length []
  Parse.consumeSymbol '\x7d' "Expected '\x7d' to end struct literal"
  pure (.structLiteral name typeArgs fields)

/-- The kinds after the matching `>`, where the depth counts the open `<`; nothing if there is
none. -/
def afterTypeArgs : Nat → List TokenKind → Option (List TokenKind)
  | 0, kinds => some kinds
  | _ + 1, [] => none
  | depth + 1, kind :: kinds =>
      match kind with
      | .symbol symbol =>
          if symbol = '<' then afterTypeArgs (depth + 2) kinds
          else if symbol = '>' then afterTypeArgs depth kinds
          else if symbol = ';' || symbol = '\x7b' || symbol = '=' then none
          else afterTypeArgs (depth + 1) kinds
      | .keyword _ => none
      | _ => afterTypeArgs (depth + 1) kinds

/-- Type arguments are taken after a name only where `::` or the fields of a record follow them. -/
def ParserState.isLikelyTypeArgsLookahead (state : ParserState) : Bool :=
  state.checkSymbol '<' &&
    match afterTypeArgs 1 (state.tokens.tail.map Token.kind) with
    | some (.symbol symbol :: _) => symbol = ':' || symbol = '\x7b'
    | _ => false

/-- What a name starts. -/
def parseName (name : String) : Parse Expression := do
  Parse.advance
  let state ← Parse.state
  if name = "diff" ∧ state.checkSymbol '\x7b' then
    let block ← around.parseBlock
    pure (.differentiableBlock block)
  else do
    let typeArgs ← if state.isLikelyTypeArgsLookahead then around.parseTypeArguments else pure []
    let state ← Parse.state
    if state.checkDoubleSymbol ':' then parseEnumVariant entries name typeArgs
    else if state.checkSymbol '\x7b' ∧ state.isStructLiteral then
      parseStructLiteral entries name typeArgs
    else pure (.identifier name)

/-- What an opening parenthesis starts: the unit value, a tuple or a grouping. -/
def parseParenthesized : Parse Expression := do
  Parse.advance
  if ← Parse.checkSymbol ')' then
    Parse.advance
    pure (.tupleLiteral [])
  else do
    let first ← entries.expression
    if ← Parse.checkSymbol ',' then
      Parse.advance
      let rest ←
        if ← Parse.checkSymbol ')' then pure []
        else parseElements entries (some ')')
      Parse.consumeSymbol ')' "Expected ')' after tuple elements"
      pure (.tupleLiteral (first :: rest))
    else do
      Parse.consumeSymbol ')' "Expected ')' after expression"
      pure (.grouping first)

def parseArrayLiteral : Parse Expression := do
  Parse.advance
  let elements ←
    if ← Parse.checkSymbol ']' then pure []
    else parseElements entries (some ']')
  Parse.consumeSymbol ']' "Expected ']' after array elements"
  pure (.arrayLiteral elements)

/-- A token that is an expression by itself. -/
def parseLiteral (value : Expression) : Parse Expression := do
  Parse.advance
  pure value

def parsePrimaryExpression : Parse Expression := do
  match ← Parse.current with
  | .keyword .true => parseLiteral (.boolLiteral true)
  | .keyword .false => parseLiteral (.boolLiteral false)
  | .keyword .if => around.parseIfExpression
  | .keyword .unless => around.parseUnlessExpression
  | .keyword .match => around.parseMatchExpression
  | .keyword .async => around.parseAsyncExpression
  | .keyword .await => entries.unary
  | .identifier name => parseName around entries name
  | .number text => parseLiteral (.numberLiteral text)
  | .stringLiteral text => parseLiteral (.stringLiteral text)
  | .charLiteral value => parseLiteral (.charLiteral value)
  | .fStringLiteral raw => do
      Parse.advance
      let parts ← around.parseFStringParts raw
      pure (.fString parts)
  | .operator .or => do
      -- `||` in operand position opens a lambda without parameters
      Parse.advance
      around.finishLambdaExpression false []
  | .symbol symbol =>
      if symbol = '\x7b' then do
        let block ← around.parseBlock
        pure (.block block)
      else if symbol = '|' then do
        Parse.advance
        let params ← around.parseLambdaParamsAfterOpenPipe
        around.finishLambdaExpression false params
      else if symbol = '(' then parseParenthesized entries
      else if symbol = '[' then parseArrayLiteral entries
      else Parse.reject "P019" "Expected expression"
  | _ => Parse.reject "P019" "Expected expression"

/-- `str::parse::<usize>` on the text of a number token. -/
def parseUsize (text : String) : Option Nat :=
  let value := text.toList.foldl (fun value digit => value * 10 + (digit.toNat - '0'.toNat)) 0
  if text.toList.all Char.isDigit ∧ value < 2 ^ 64 then some value else none

/-- What follows a dot: a tuple index, a field or a method call. -/
def parseAccess (object : Expression) : Parse Expression := do
  Parse.advance
  match ← Parse.current with
  | .number text =>
      match parseUsize text with
      | some index => parseLiteral (.tupleAccess object index)
      | none => Parse.reject "P999" "Invalid tuple index"
  | .identifier _ => do
      let name ← Parse.consumeIdentifier "Expected field/method name after '.'"
      if ← Parse.checkSymbol '(' then
        Parse.advance
        let arguments ← parseArguments entries
        Parse.consumeSymbol ')' "Expected ')' after method arguments"
        pure (.methodCall object name arguments none)
      else pure (.fieldAccess object name)
  | _ => Parse.reject "P999" "Expected number or field name after '.'"

def parsePostfixFrom : Nat → Expression → Parse Expression
  | 0, expr => pure expr
  | fuel + 1, expr => do
      let state ← Parse.state
      if state.checkSymbol '(' then
        Parse.advance
        let arguments ← parseArguments entries
        Parse.consumeSymbol ')' "Expected ')' after arguments"
        parsePostfixFrom fuel (.call expr arguments)
      else if state.checkSymbol '[' then
        Parse.advance
        let index ← entries.expression
        Parse.consumeSymbol ']' "Expected ']' after index"
        parsePostfixFrom fuel (.indexAccess expr index)
      else if state.checkSymbol '.' then
        let accessed ← parseAccess entries expr
        parsePostfixFrom fuel accessed
      else if state.checkSymbol '?' then
        Parse.advance
        parsePostfixFrom fuel (.tryExpr expr)
      else pure expr

def parseCastsFrom : Nat → Expression → Parse Expression
  | 0, expr => pure expr
  | fuel + 1, expr => do
      let state ← Parse.state
      if state.checkKeyword .as then
        Parse.advance
        let state ← Parse.state
        let wrapping := state.current = .identifier "wrapping"
        if wrapping then Parse.advance
        let targetType ← around.parseTypeAnnotation
        parseCastsFrom fuel (.cast expr targetType (if wrapping then .wrapping else .checked))
      else pure expr

def parseCallExpression : Parse Expression := do
  let primary ← parsePrimaryExpression around entries
  let state ← Parse.state
  let expr ← parsePostfixFrom entries state.tokens.length primary
  let state ← Parse.state
  parseCastsFrom around state.tokens.length expr

def unaryOperator : TokenKind → Option UnaryOperator
  | .symbol symbol =>
      if symbol = '-' then some .negate
      else if symbol = '!' then some .not
      else if symbol = '~' then some .bitNot
      else none
  | _ => none

def parseUnaryInner : Parse Expression := do
  let state ← Parse.state
  if state.checkKeyword .await then
    Parse.advance
    if state.asyncContextDepth = 0 then
      Parse.reject "P006" "`await` is only valid inside an async context"
    else do
      let operand ← entries.unary
      pure (.await operand)
  else
    match unaryOperator state.current with
    | some operator => do
        Parse.advance
        let operand ← entries.unary
        pure (.unary operator operand)
    | none => parseCallExpression around entries

/-- The rest of a left-associative level after its first operand. -/
def infixLoop (operator : ParserState → Option BinaryOperator) (consume : Parse Unit)
    (operand : Parse Expression) : Nat → Expression → Parse Expression
  | 0, left => pure left
  | fuel + 1, left => do
      let state ← Parse.state
      match operator state with
      | none => pure left
      | some op => do
          Parse.rejectLineBrokenInfix
          consume
          let right ← operand
          infixLoop operator consume operand fuel (.binary left op right)

/-- A left-associative level of infix operators over the next tighter one. -/
def infixLevel (operator : ParserState → Option BinaryOperator) (consume : Parse Unit)
    (operand : Parse Expression) : Parse Expression := do
  let left ← operand
  let state ← Parse.state
  infixLoop operator consume operand state.tokens.length left

def multiplicationOperator (state : ParserState) : Option BinaryOperator :=
  if state.checkSymbol '*' then some .multiply
  else if state.checkSymbol '/' then some .divide
  else if state.checkSymbol '%' then some .modulo
  else none

def parseMultiplication : Parse Expression :=
  infixLevel multiplicationOperator Parse.advance entries.unary

def additionOperator (state : ParserState) : Option BinaryOperator :=
  if state.checkSymbol '+' then some .add
  else if state.checkSymbol '-' then some .subtract
  else none

def parseAddition : Parse Expression :=
  infixLevel additionOperator Parse.advance (parseMultiplication entries)

def shiftOperator (state : ParserState) : Option BinaryOperator :=
  if state.checkDoubleSymbol '<' then some .shl
  else if state.checkDoubleSymbol '>' then some .shr
  else none

def parseShift : Parse Expression := infixLevel shiftOperator Parse.consumeDoubleSymbol
    (parseAddition entries)

def relationalOperator : TokenKind → Option BinaryOperator
  | .symbol symbol =>
    if symbol = '<' then some .less else if symbol = '>' then some .greater else none
  | .operator .lessEqual => some .lessEqual
  | .operator .greaterEqual => some .greaterEqual
  | _ => none

def chainedComparison : ParseError := ⟨"P014", "chained comparison; combine conditions with `and`"⟩

/-- Unlike the other levels, a second relational operator in one chain is refused. -/
def comparisonLoop : Nat → Bool → Expression → Parse Expression
  | 0, _, left => pure left
  | fuel + 1, chainActive, left => do
      let state ← Parse.state
      match relationalOperator state.current with
      | none => pure left
      | some op =>
          if chainActive then Parse.reject chainedComparison.code chainedComparison.message
          else do
            Parse.rejectLineBrokenInfix
            Parse.advance
            let right ← parseShift entries
            comparisonLoop fuel true (.binary left op right)

def parseComparison : Parse Expression := do
  let left ← parseShift entries
  let state ← Parse.state
  comparisonLoop entries state.tokens.length false left

def equalityOperator (state : ParserState) : Option BinaryOperator :=
  if state.current = .operator .equalEqual then some .equal
  else if state.current = .operator .notEqual then some .notEqual
  else none

def parseEquality : Parse Expression :=
  infixLevel equalityOperator Parse.advance (parseComparison entries)

/-- The operator of a level that one symbol alone stands for. -/
def symbolOperator (symbol : Char) (op : BinaryOperator) (state : ParserState) :
    Option BinaryOperator :=
  if state.checkSymbol symbol then some op else none

def parseBitAnd : Parse Expression := infixLevel (symbolOperator '&' .bitAnd) Parse.advance
    (parseEquality entries)
def parseBitXor : Parse Expression := infixLevel (symbolOperator '^' .bitXor) Parse.advance
    (parseBitAnd entries)
def parseBitOr : Parse Expression := infixLevel (symbolOperator '|' .bitOr) Parse.advance
    (parseBitXor entries)

def parseLogicalNotInner : Parse Expression := do
  let state ← Parse.state
  if state.checkKeyword .notWord then
    Parse.advance
    let operand ← entries.logicalNot
    pure (.unary .not operand)
  else parseBitOr entries

def andOperator (state : ParserState) : Option BinaryOperator :=
  if state.current = .operator .and ∨ state.current = .keyword .andWord then some .and else none

def parseLogicalAnd : Parse Expression := infixLevel andOperator Parse.advance entries.logicalNot

def orOperator (state : ParserState) : Option BinaryOperator :=
  if state.current = .operator .or ∨ state.current = .keyword .orWord then some .or else none

def parseLogicalOr : Parse Expression :=
  infixLevel orOperator Parse.advance (parseLogicalAnd entries)

/-- The operators that may follow a range, each with the parser of its right operand. -/
def logicalRestOperator (state : ParserState) : Option (BinaryOperator × Parse Expression) :=
  if (orOperator state).isSome then some (.or, parseLogicalAnd entries)
  else if (andOperator state).isSome then some (.and, parseBitOr entries)
  else if state.checkSymbol '|' then some (.bitOr, parseBitXor entries)
  else if state.checkSymbol '^' then some (.bitXor, parseBitAnd entries)
  else if state.checkSymbol '&' then some (.bitAnd, parseEquality entries)
  else ((equalityOperator state).or (relationalOperator state.current)).map (·, parseShift entries)

/-- `parse_logical_level_rest`; only equality, of the operators in between, ends a run of
comparisons. -/
def parseLogicalLevelRest : Nat → Bool → Expression → Parse Expression
  | 0, _, left => pure left
  | fuel + 1, previousRelational, left => do
      let state ← Parse.state
      match logicalRestOperator entries state with
      | none => pure left
      | some (op, operand) =>
          let relational := (relationalOperator state.current).isSome
          if relational && previousRelational then
            Parse.reject chainedComparison.code chainedComparison.message
          else do
            Parse.rejectLineBrokenInfix
            Parse.advance
            let right ← operand
            let previousRelational :=
              relational || (previousRelational && (equalityOperator state).isNone)
            parseLogicalLevelRest fuel previousRelational (.binary left op right)

def rangeOperator : TokenKind → Option Bool
  | .operator .range => some false
  | .operator .rangeInclusive => some true
  | _ => none

/-- The ranges built on an expression, and whether there was one. -/
def rangeLoop : Nat → Bool → Expression → Parse (Expression × Bool)
  | 0, builtRange, expr => pure (expr, builtRange)
  | fuel + 1, builtRange, expr => do
      let state ← Parse.state
      match rangeOperator state.current with
      | none => pure (expr, builtRange)
      | some inclusive => do
          Parse.rejectLineBrokenInfix
          Parse.advance
          let stop ← parseComparison entries
          rangeLoop fuel true (.range expr stop inclusive)

def parseExpressionInner : Parse Expression := do
  let expr ← parseLogicalOr entries
  let state ← Parse.state
  let (expr, builtRange) ← rangeLoop entries state.tokens.length false expr
  if builtRange then
    let state ← Parse.state
    parseLogicalLevelRest entries state.tokens.length false expr
  else pure expr

end Ladder

/-- The guarded functions with the given number of levels left; the guard refuses an entry below the
last. -/
def Entries.level (around : Surroundings) : Nat → Entries
  | 0 =>
      let refused : Parse Expression := guarded around.overStack Parse.fail
      ⟨refused, refused, refused⟩
  | level + 1 =>
      let inner := Entries.level around level
      { expression := guarded around.overStack (parseExpressionInner inner)
        logicalNot := guarded around.overStack (parseLogicalNotInner inner)
        unary := guarded around.overStack (parseUnaryInner around inner) }

/-- `parse_expression`: after `MAX_PARSE_DEPTH` levels the guard refuses every entry. -/
def parseExpression (around : Surroundings) : Parse Expression :=
  (Entries.level around maxParseDepth).expression

end SpectraLang

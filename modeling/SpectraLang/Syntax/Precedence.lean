import Mathlib.Tactic.FinCases
import SpectraLang.Syntax.Printing

/-! # Operator precedence

The parser reads every printed operator expression back, up to grouping nodes. A tree at one level
of the ladder is read by the parser of that level, whatever token may follow an operand there; the
levels below pass it on, the depth guard counting its entries, and a parenthesized tree starts the
ladder again. The left operand of an infix level is followed by the level's own operator: there the
level is still in its loop, as `Extends` says.
-/

namespace SpectraLang

open Parse ParserState List

/-- The parser between two tokens of one line. -/
def ParserState.between (base : ParserState) (line : Nat) (consumed remaining : List TokenKind) :
    ParserState :=
  { base with before := onLine line consumed, tokens := onLine line remaining }

section Between
variable {base : ParserState} {line : Nat} {consumed rest : List TokenKind} {kind : TokenKind}

theorem ParserState.current_between : (base.between line consumed (kind :: rest)).current = kind :=
  rfl

variable (symbol : Char)

theorem ParserState.checkSymbol_between :
    (base.between line consumed (kind :: rest)).checkSymbol symbol = decide
      (kind = .symbol symbol) := rfl

theorem ParserState.checkKeyword_between (keyword : Keyword) :
    (base.between line consumed (kind :: rest)).checkKeyword keyword = decide
      (kind = .keyword keyword) := rfl

theorem ParserState.length_between {remaining : List TokenKind} :
    (base.between line consumed remaining).tokens.length = remaining.length :=
  length_map _

theorem ParserState.checkDoubleSymbol_between :
    (base.between line consumed (kind :: rest)).checkDoubleSymbol symbol =
      (decide (kind = .symbol symbol) && decide (rest.head? = some (.symbol symbol))) := by
  cases rest <;> rfl

theorem Parse.advance_between (notEnd : kind ≠ .endOfFile) :
    Parse.advance (base.between line consumed (kind :: rest)) =
      (some (), base.between line (kind :: consumed) rest) := by
  have step : (base.between line consumed (kind :: rest)).advance = base.between line
    (kind :: consumed) rest :=
    if_neg notEnd
  rw [Parse.advance, step]

theorem Parse.consumeSymbol_between (message : String) :
    Parse.consumeSymbol symbol message (base.between line consumed (.symbol symbol :: rest)) =
      (some (), base.between line (.symbol symbol :: consumed) rest) := by
  have notEnd : TokenKind.symbol symbol ≠ .endOfFile := nofun
  simp [Parse.consumeSymbol, state_bind, checkSymbol_between, advance_between notEnd]

/-- On one line no infix operator is refused for a line break. -/
theorem Parse.rejectLineBrokenInfix_between :
    Parse.rejectLineBrokenInfix (base.between line consumed (kind :: rest)) =
      (some (), base.between line consumed (kind :: rest)) := by
  have sameLine : (base.between line consumed (kind :: rest)).lineBreakBeforeCurrent = false := by
    cases consumed with
    | nil => rfl
    | cons previous consumed => exact decide_eq_false (Nat.lt_irrefl line)
  rw [Parse.rejectLineBrokenInfix, state_bind, if_pos (by simp [sameLine])]
  rfl

end Between

/-- No shift operator arises between an operator and what follows it. -/
def NoAngle (kinds : List TokenKind) : Prop := ∀ kind ∈ kinds.head?, kind ≠ .symbol '<' ∧
    kind ≠ .symbol '>'

/-- What may follow an operand of the given level: an operator that binds looser, or the end of the
expression. -/
inductive Follows (level : Nat) : List TokenKind → Prop where
  | endOfFile : Follows level [.endOfFile]
  | close (rest : List TokenKind) : Follows level (.symbol ')' :: rest)
  | operator (op : BinaryOperator) (word : Bool) (rest : List TokenKind) (looser : op.level < level)
      (noAngle : NoAngle rest) : Follows level (op.kinds word ++ rest)

variable {level : Nat} {rest : List TokenKind}

theorem Follows.mono {tighter : Nat} (below : level ≤ tighter) (follows : Follows level rest) :
    Follows tighter rest := by
  cases follows with
  | endOfFile => exact .endOfFile
  | close rest => exact .close rest
  | operator op word rest looser noAngle =>
    exact .operator op word rest (looser.trans_le below) noAngle

/-- Tokens among which no type arguments are looked for. -/
def NoTypeArgs (kinds : List TokenKind) : Prop := ∀ kind ∈ kinds, kind ≠ .symbol ':' ∧
    kind ≠ .symbol '\x7b'

instance (kinds : List TokenKind) : Decidable (NoTypeArgs kinds) :=
  inferInstanceAs (Decidable (∀ kind ∈ kinds, kind ≠ .symbol ':' ∧ kind ≠ .symbol '\x7b'))

theorem NoTypeArgs.append {left right : List TokenKind} (leftPlain : NoTypeArgs left)
    (rightPlain : NoTypeArgs right) : NoTypeArgs (left ++ right) :=
  fun kind member => (mem_append.mp member).elim (leftPlain kind) (rightPlain kind)

/-- What an operand of the given level may start with. -/
inductive Heads (level : Nat) : TokenKind → Prop where
  | atom (kind : TokenKind) (value : Expression) (denotes : kind.atomValue = some value) :
      Heads level kind
  | parenthesis : Heads level (.symbol '(')
  | unary (op : PrefixOperator) (below : level ≤ op.level) : Heads level op.kind

namespace Heads

variable {level : Nat} {kind : TokenKind}

theorem mono {looser : Nat} (below : looser ≤ level) (heads : Heads level kind) :
    Heads looser kind := by
  cases heads with
  | atom kind value denotes => exact .atom kind value denotes
  | parenthesis => exact .parenthesis
  | unary op tighter => exact .unary op (below.trans tighter)

section
variable (heads : Heads level kind)
include heads

/-- A token that neither is an atom nor opens an operand. -/
theorem ne {other : TokenKind} (notAtom : other.atomValue = none)
    (notParenthesis : other ≠ .symbol '(') (notPrefix : ∀ op : PrefixOperator, level ≤ op.level →
      op.kind ≠ other) :
    kind ≠ other := by
  rintro rfl
  cases heads with
  | atom kind value denotes => simp [notAtom] at denotes
  | parenthesis => exact notParenthesis rfl
  | unary op below => exact notPrefix op below rfl

/-- No operand starts with one of these tokens. -/
theorem foreign {other : TokenKind}
    (listed : other ∈ [.symbol '<', .symbol '>', .symbol ')', .symbol ':', .symbol '\x7b',
      .keyword .await]) : kind ≠ other := by
  fin_cases listed <;> exact heads.ne rfl (by decide) (fun op _ => by cases op <;> decide)

theorem noAngle (rest : List TokenKind) : NoAngle (kind :: rest) := by
  intro first member
  obtain rfl : kind = first := Option.some.inj member
  exact ⟨heads.foreign (by decide), heads.foreign (by decide)⟩

theorem ne_notWord (tight : 2 < level) : kind ≠ .keyword .notWord := by
  refine heads.ne rfl (by decide) (fun op below => ?_)
  cases op with
  | notWord => exact absurd (tight.trans_le below) (by decide)
  | _ => decide

theorem unaryOperator_eq_none (tight : 11 < level) : unaryOperator kind = none := by
  cases heads with
  | atom kind value denotes =>
    cases kind with
    | symbol symbol => cases denotes
    | _ => rfl
  | parenthesis => rfl
  | unary op below => exact absurd (tight.trans_le below) (by cases op <;> decide)

end

end Heads

/-- A token after which an operand is complete: nothing that continues it, and no range. -/
def TokenKind.endsOperand (kind : TokenKind) : Prop :=
  (∀ symbol ∈ ['(', '[', '.', '?', ':', '\x7b', ','], kind ≠ .symbol symbol) ∧ kind ≠ .keyword .as ∧
    rangeOperator kind = none

theorem Follows.head (follows : Follows level rest) : ∃ kind more, rest = kind :: more ∧
    kind.endsOperand := by
  cases follows with
  | endOfFile | close rest => exact ⟨_, _, rfl, by simp, by decide, rfl⟩
  | operator op word rest looser noAngle =>
    cases op <;> cases word <;> exact ⟨_, _, rfl, by simp, by decide, rfl⟩

/-- The parser of each level. -/
def ladder (around : Surroundings) (entries : Entries) : Nat → Parse Expression
  | 0 => parseLogicalOr entries
  | 1 => parseLogicalAnd entries
  | 2 => entries.logicalNot
  | 3 => parseBitOr entries
  | 4 => parseBitXor entries
  | 5 => parseBitAnd entries
  | 6 => parseEquality entries
  | 7 => parseComparison entries
  | 8 => parseShift entries
  | 9 => parseAddition entries
  | 10 => parseMultiplication entries
  | 11 => entries.unary
  | _ => parseCallExpression around entries

/-- The left-associative levels. -/
def infixLevels : List Nat := [0, 1, 3, 4, 5, 6, 8, 9, 10]

def levelOperator : Nat → ParserState → Option BinaryOperator
  | 0 => orOperator
  | 1 => andOperator
  | 3 => symbolOperator '|' .bitOr
  | 4 => symbolOperator '^' .bitXor
  | 5 => symbolOperator '&' .bitAnd
  | 6 => equalityOperator
  | 8 => shiftOperator
  | 9 => additionOperator
  | 10 => multiplicationOperator
  | _ => fun _ => none

def levelConsume : Nat → Parse Unit
  | 8 => Parse.consumeDoubleSymbol
  | _ => Parse.advance

theorem ladder_eq_infixLevel (around : Surroundings) (entries : Entries)
    (isInfix : level ∈ infixLevels) : ladder around entries level =
      infixLevel (levelOperator level) (levelConsume level)
        (ladder around entries (level + 1)) := by
  unfold infixLevels at isInfix
  fin_cases isInfix <;> rfl

section Operators
variable {base : ParserState} {line : Nat} {consumed rest : List TokenKind} {level : Nat}

/-- At each level the operators of that level are taken, and no others. -/
theorem levelOperator_kinds (isInfix : level ∈ infixLevels) (op : BinaryOperator) (word : Bool)
    (noAngle : NoAngle rest) :
    levelOperator level (base.between line consumed (op.kinds word ++ rest)) =
      if op.level = level then some op else none := by
  have notLess : rest.head? ≠ some (.symbol '<') := fun head => (noAngle _ head).1 rfl
  have notGreater : rest.head? ≠ some (.symbol '>') := fun head => (noAngle _ head).2 rfl
  unfold infixLevels at isInfix
  fin_cases isInfix <;> cases op <;> cases word <;>
    simp [levelOperator, BinaryOperator.kinds, BinaryOperator.level, orOperator, andOperator,
      symbolOperator,
      equalityOperator, shiftOperator, additionOperator, multiplicationOperator, current_between,
      checkSymbol_between, checkDoubleSymbol_between, notLess, notGreater]

theorem levelOperator_of_follows (isInfix : level ∈ infixLevels) (follows : Follows level rest) :
    levelOperator level (base.between line consumed rest) = none := by
  cases follows with
  | operator op word rest looser noAngle =>
    rw [levelOperator_kinds isInfix op word noAngle, if_neg looser.ne]
  | endOfFile | close rest =>
    unfold infixLevels at isInfix
    fin_cases isInfix <;> rfl

theorem levelConsume_kinds (op : BinaryOperator) (word : Bool) :
    levelConsume op.level (base.between line consumed (op.kinds word ++ rest)) =
      (some (), base.between line ((op.kinds word).reverse ++ consumed) rest) := by
  have shift : ∀ kind, kind ≠ .endOfFile →
      Parse.consumeDoubleSymbol (base.between line consumed (kind :: kind :: rest)) =
        (some (), base.between line (kind :: kind :: consumed) rest) := by
    intro kind notEnd
    rw [Parse.consumeDoubleSymbol, bind_of_eq (advance_between notEnd), advance_between notEnd]
  cases op with
  | shl | shr => exact shift _ nofun
  | or | and => cases word <;> exact advance_between nofun
  | _ => exact advance_between nofun

theorem relationalOperator_of_follows (follows : Follows 7 rest) :
    relationalOperator (base.between line consumed rest).current = none := by
  cases follows with
  | endOfFile | close rest => rfl
  | operator op word rest looser noAngle =>
    cases op with
    | or | and => cases word <;> rfl
    | _ => first | rfl | exact absurd looser (by decide)

end Operators

section Reading
variable (around : Surroundings) (bound : Nat)

/-- The parser reads the tokens as the given expression before whatever may follow an operand of the
level, at most `need` levels deep in the depth guard. -/
def ReadsBy (parser : Entries → Parse Expression) (level : Nat) (kinds : List TokenKind)
    (value : Expression) (need : Nat) : Prop :=
  ∀ levels, need ≤ levels → ∀ base line consumed rest, Follows level rest → NoTypeArgs rest →
    base.depth + need ≤ bound →
      parser (Entries.level around levels)
        (ParserState.between base line consumed (kinds ++ rest)) =
        (some value, base.between line (kinds.reverse ++ consumed) rest)

def ReadsFrom (level : Nat) : List TokenKind → Expression → Nat → Prop :=
  ReadsBy around bound (ladder around · level) level

/-- Before an operator of its own, an infix level that has read the tokens is in its loop. -/
def Extends (level : Nat) (kinds : List TokenKind) (value : Expression) (need : Nat) : Prop :=
  ∀ levels, need ≤ levels → ∀ base line consumed rest, Follows (level + 1) rest → NoTypeArgs rest →
    base.depth + need ≤ bound → ∃ fuel, rest.length ≤ fuel ∧
      ladder around (Entries.level around levels) level
        (ParserState.between base line consumed (kinds ++ rest)) =
        infixLoop (levelOperator level) (levelConsume level)
          (ladder around (Entries.level around levels) (level + 1))
          fuel value (base.between line (kinds.reverse ++ consumed) rest)

variable {around bound} {level : Nat} {kinds : List TokenKind} {value : Expression} {need : Nat}

theorem ReadsFrom.mono (reads : ReadsFrom around bound level kinds value need) {larger : Nat}
    (within : need ≤ larger) : ReadsFrom around bound level kinds value larger := by
  intro levels enough base line consumed rest follows plain deep
  exact reads levels (within.trans enough) base line consumed rest follows plain (by omega)

theorem Extends.mono (loops : Extends around bound level kinds value need) {larger : Nat}
    (within : need ≤ larger) : Extends around bound level kinds value larger := by
  intro levels enough base line consumed rest follows plain deep
  exact loops levels (within.trans enough) base line consumed rest follows plain (by omega)

variable {base : ParserState} {line : Nat} {consumed rest tail : List TokenKind}
  {op : BinaryOperator} {word : Bool} {head kind : TokenKind} {tree : OperatorTree}

theorem infixLoop_stops (isInfix : level ∈ infixLevels) (follows : Follows level rest)
    (operand : Parse Expression) (fuel : Nat) :
    infixLoop (levelOperator level) (levelConsume level) operand fuel value
      (base.between line consumed rest) = (some value, base.between line consumed rest) := by
  cases fuel with
  | zero => rfl
  | succ fuel =>
    rw [infixLoop, state_bind, levelOperator_of_follows isInfix follows]
    rfl

theorem infixLoop_step {operand : Parse Expression} {right : Expression} {after : ParserState}
    (isInfix : op.level ∈ infixLevels) (noAngle : NoAngle rest)
    (reads : operand (base.between line ((op.kinds word).reverse ++ consumed) rest) =
      (some right, after)) (fuel : Nat) :
    infixLoop (levelOperator op.level) (levelConsume op.level) operand (fuel + 1) value
        (base.between line consumed (op.kinds word ++ rest)) =
      infixLoop (levelOperator op.level) (levelConsume op.level) operand fuel
        (.binary value op right) after := by
  obtain ⟨first, more, split⟩ : ∃ first more, op.kinds word ++ rest = first :: more := by
    cases op <;> exact ⟨_, _, rfl⟩
  have consumes := @levelConsume_kinds base line consumed rest op word
  have found := @levelOperator_kinds base line consumed rest op.level isInfix op word noAngle
  rw [if_pos rfl] at found
  rw [infixLoop, state_bind, found]
  rw [split] at consumes ⊢
  dsimp only
  rw [bind_of_eq rejectLineBrokenInfix_between, bind_of_eq consumes, bind_of_eq reads]

/-- A tree that binds tighter than an infix level starts its loop. -/
theorem ReadsFrom.extends (isInfix : level ∈ infixLevels)
    (reads : ReadsFrom around bound (level + 1) kinds value need) :
    Extends around bound level kinds value need := by
  intro levels enough base line consumed rest follows plain deep
  refine ⟨rest.length, le_rfl, ?_⟩
  rw [ladder_eq_infixLevel _ _ isInfix, infixLevel,
    bind_of_eq (reads levels enough base line consumed rest follows plain deep), state_bind,
    length_between]

theorem Extends.reads (isInfix : level ∈ infixLevels)
    (loops : Extends around bound level kinds value need) :
    ReadsFrom around bound level kinds value need := by
  intro levels enough base line consumed rest follows plain deep
  obtain ⟨fuel, _, loop⟩ :=
    loops levels enough base line consumed rest (follows.mono (Nat.le_succ _)) plain deep
  exact loop.trans (infixLoop_stops isInfix follows _ _)

/-- One more operand to the right of what an infix level has read. -/
theorem Extends.binary {left right : List TokenKind} {leftValue rightValue : Expression}
    (isInfix : op.level ∈ infixLevels)
      (leftReads : Extends around bound op.level left leftValue need)
    (rightReads : ReadsFrom around bound (op.level + 1) right rightValue need)
    (rightPlain : NoTypeArgs (op.kinds word ++ right)) (noAngle : ∀ rest, NoAngle (right ++ rest)) :
    Extends around bound op.level (left ++ (op.kinds word ++ right))
      (.binary leftValue op rightValue) need := by
  intro levels enough base line consumed rest follows plain deep
  have leftFollows : Follows (op.level + 1) (op.kinds word ++ (right ++ rest)) :=
    .operator op word _ (Nat.lt_succ_self _) (noAngle rest)
  have leftPlain : NoTypeArgs (op.kinds word ++ (right ++ rest)) :=
    append_assoc .. ▸ rightPlain.append plain
  obtain ⟨fuel, long, loop⟩ := leftReads levels enough base line consumed _ leftFollows leftPlain
    deep
  -- the operator is a token at least, so the loop has a turn for it
  have opLength : 1 ≤ (op.kinds word).length := by cases op <;> simp [BinaryOperator.kinds]
  simp only [length_append] at long
  obtain ⟨fuel, rfl⟩ : ∃ less, fuel = less + 1 := ⟨fuel - 1, by omega⟩
  refine ⟨fuel, by omega, ?_⟩
  have rightRead :=
    rightReads levels enough base line ((op.kinds word).reverse ++ (left.reverse ++ consumed)) rest
      follows
    plain deep
  simp [loop, infixLoop_step isInfix (noAngle rest) rightRead]

theorem comparisonLoop_stops (follows : Follows 7 rest) (entries : Entries) (fuel : Nat)
    (chainActive : Bool) :
    comparisonLoop entries fuel chainActive value (base.between line consumed rest) =
      (some value, base.between line consumed rest) := by
  cases fuel with
  | zero => rfl
  | succ fuel =>
    rw [comparisonLoop, state_bind, relationalOperator_of_follows follows]
    rfl

theorem ReadsFrom.comparison (reads : ReadsFrom around bound 8 kinds value need) :
    ReadsFrom around bound 7 kinds value need := by
  intro levels enough base line consumed rest follows plain deep
  have operand : parseShift (Entries.level around levels) _ = _ :=
    reads levels enough base line consumed rest (follows.mono (by decide)) plain deep
  change parseComparison (Entries.level around levels) _ = _
  rw [parseComparison, bind_of_eq operand, state_bind, comparisonLoop_stops follows]

/-- A comparison reads its operands at the next level on both sides and is not continued. -/
theorem ReadsFrom.compare {left right : List TokenKind} {leftValue rightValue : Expression}
    (isRelational : op.level = 7)
      (leftReads : ReadsFrom around bound op.leftLevel left leftValue need)
    (rightReads : ReadsFrom around bound op.rightLevel right rightValue need)
    (rightPlain : NoTypeArgs (op.kinds word ++ right)) (noAngle : ∀ rest, NoAngle (right ++ rest)) :
    ReadsFrom around bound op.level (left ++ (op.kinds word ++ right))
      (.binary leftValue op rightValue) need := by
  rw [BinaryOperator.leftLevel, if_pos isRelational, isRelational] at leftReads
  rw [BinaryOperator.rightLevel, isRelational] at rightReads
  rw [isRelational]
  intro levels enough base line consumed rest follows plain deep
  obtain ⟨kind, opKinds, found, notEnd⟩ : ∃ kind, op.kinds word = [kind] ∧
    relationalOperator kind = some op ∧ kind ≠ .endOfFile := by
    cases op <;> first | exact ⟨_, rfl, rfl, nofun⟩ | cases isRelational
  rw [opKinds] at rightPlain ⊢
  have leftFollows : Follows 8 ([kind] ++ (right ++ rest)) := by
    have looser : op.level < 8 := isRelational ▸ Nat.lt_succ_self 7
    exact opKinds ▸ .operator op word (right ++ rest) looser (noAngle rest)
  have leftPlain : NoTypeArgs ([kind] ++ (right ++ rest)) :=
    append_assoc .. ▸ rightPlain.append plain
  have leftRead : parseShift (Entries.level around levels) _ = _ :=
    leftReads levels enough base line consumed _ leftFollows leftPlain deep
  have rightRead : parseShift (Entries.level around levels) _ = _ :=
    rightReads levels enough base line (kind :: (left.reverse ++ consumed)) rest
      (follows.mono (by decide)) plain deep
  change parseComparison (Entries.level around levels) _ = _
  rw [append_assoc, append_assoc, parseComparison, bind_of_eq leftRead, state_bind,
    length_between, singleton_append, length_cons, comparisonLoop, state_bind,
    current_between, found]
  dsimp only
  rw [if_neg Bool.false_ne_true, bind_of_eq rejectLineBrokenInfix_between,
    bind_of_eq (advance_between notEnd), bind_of_eq rightRead, comparisonLoop_stops follows]
  simp

theorem mem_of_afterTypeArgs {depth : Nat} {kinds after : List TokenKind}
    (found : afterTypeArgs depth kinds = some after) (member : kind ∈ after) : kind ∈ kinds := by
  fun_induction afterTypeArgs depth kinds with
  | case1 kinds =>
    cases found
    exact member
  | case2 | case5 | case7 => cases found
  | case3 depth rest ih | case4 depth rest _ ih | case8 depth kind rest _ _ ih =>
    exact mem_cons_of_mem _ (ih found)
  | case6 depth rest symbol _ _ _ ih => exact mem_cons_of_mem _ (ih found)

/-- Where no `:` and no `{` follows, a name has no type arguments. -/
theorem isLikelyTypeArgsLookahead_between (plain : NoTypeArgs rest) :
    (base.between line consumed rest).isLikelyTypeArgsLookahead = false := by
  have tail : (base.between line consumed rest).tokens.tail.map Token.kind = rest.tail := by
    cases rest with
    | nil => rfl
    | cons kind rest => simp [ParserState.between, onLine, Function.comp_def]
  rw [ParserState.isLikelyTypeArgsLookahead, tail, Bool.and_eq_false_iff]
  right
  split
  · next symbol after found =>
      obtain ⟨notColon, notBrace⟩ :=
        plain _ (mem_of_mem_tail (mem_of_afterTypeArgs found mem_cons_self))
      simp only [ne_eq, TokenKind.symbol.injEq] at notColon notBrace
      simp [notColon, notBrace]
  · rfl

theorem parseName_between {name : String} (entries : Entries) (follows : Follows level rest)
    (plain : NoTypeArgs rest) :
    parseName around entries name (base.between line consumed (.identifier name :: rest)) =
      (some (.identifier name), base.between line (.identifier name :: consumed) rest) := by
  obtain ⟨kind, more, rfl, complete, -, -⟩ := follows.head
  have notEnd : TokenKind.identifier name ≠ .endOfFile := nofun
  have notBrace := complete '\x7b' (by decide)
  have notColon := complete ':' (by decide)
  rw [parseName, bind_of_eq (advance_between notEnd), state_bind, checkSymbol_between,
    if_neg (by simp [notBrace]), isLikelyTypeArgsLookahead_between plain, if_neg Bool.false_ne_true,
    bind_of_eq (pure_apply _ _)]
  dsimp only
  rw [state_bind, checkDoubleSymbol_between, if_neg (by simp [notColon]),
    checkSymbol_between, if_neg (by simp [notBrace]), pure_apply]

/-- What follows an operand is no call, access or cast of it. -/
theorem parseCallExpression_of_primary {state : ParserState} {entries : Entries}
    (follows : Follows level rest)
    (primary : parsePrimaryExpression around entries state =
      (some value, base.between line consumed rest)) :
    parseCallExpression around entries state = (some value, base.between line consumed rest) := by
  obtain ⟨kind, more, rfl, complete, notAs, -⟩ := follows.head
  have postfixStops : parsePostfixFrom entries (more.length + 1) value
    (base.between line consumed (kind :: more)) =
      (some value, base.between line consumed (kind :: more)) := by
    have other := fun symbol member => decide_eq_false (complete symbol member)
    rw [parsePostfixFrom, state_bind]
    simp only [checkSymbol_between, other '(' (by decide), other '[' (by decide),
      other '.' (by decide), other '?' (by decide), Bool.false_eq_true, if_false]
    rfl
  have castsStop : parseCastsFrom around (more.length + 1) value
    (base.between line consumed (kind :: more)) =
      (some value, base.between line consumed (kind :: more)) := by
    rw [parseCastsFrom, state_bind, checkKeyword_between, if_neg (by simpa using notAs)]
    rfl
  rw [parseCallExpression, bind_of_eq primary, state_bind, length_between, length_cons,
    bind_of_eq postfixStops, state_bind, length_between, length_cons, castsStop]

theorem parseLiteral_between (notEnd : kind ≠ .endOfFile) :
    parseLiteral value (base.between line consumed (kind :: rest)) =
      (some value, base.between line (kind :: consumed) rest) := by
  rw [parseLiteral, bind_of_eq (advance_between notEnd), pure_apply]

theorem readsFrom_atom (denotes : kind.atomValue = some value) :
    ReadsFrom around bound 12 [kind] value need := by
  intro levels enough base line consumed rest follows plain deep
  apply parseCallExpression_of_primary follows
  rw [parsePrimaryExpression, current_bind, singleton_append, current_between]
  cases kind with
  | identifier name =>
    cases denotes
    exact parseName_between _ follows plain
  | keyword word =>
    cases word <;> cases denotes
    · exact parseLiteral_between nofun
    · exact parseLiteral_between nofun
  | _ => cases denotes <;> exact parseLiteral_between nofun

theorem rangeLoop_stops {entries : Entries} {fuel : Nat} (noRange : rangeOperator kind = none) :
    rangeLoop entries (fuel + 1) false value (base.between line consumed (kind :: rest)) =
      (some (value, false), base.between line consumed (kind :: rest)) := by
  rw [rangeLoop, state_bind, current_between, noRange]
  rfl

/-- How many depth-guarded levels lie between two levels of the ladder. -/
def guardsBetween (level tighter : Nat) : Nat :=
  (if level ≤ 2 ∧ 2 < tighter then 1 else 0) + if level ≤ 11 ∧ 11 < tighter then 1 else 0

theorem guardsBetween_succ_le (level tighter : Nat) :
    guardsBetween (level + 1) tighter ≤ guardsBetween level tighter := by
  unfold guardsBetween
  split_ifs <;> omega

/-- How deep the guard is entered for an operand in its position. -/
def depthAt (required level depth : Nat) : Nat :=
  if level < required then guardsBetween required primaryLevel + (guardsBetween 0 level + depth + 1)
  else guardsBetween required level + depth

/-- How deep the guard is entered for a tree, from its own level on. -/
def OperatorTree.depth : OperatorTree → Nat
  | .leaf _ => 0
  | .unary op operand => depthAt op.level operand.level operand.depth + 1
  | .binary left op _ right =>
      max (depthAt op.leftLevel left.level left.depth)
        (depthAt op.rightLevel right.level right.depth)

/-- How deep the guard is entered for a printed expression. -/
def OperatorTree.parseDepth (tree : OperatorTree) : Nat :=
  guardsBetween 0 tree.level + tree.depth + 1

theorem BinaryOperator.level_le (op : BinaryOperator) : op.level ≤ 10 := by
  cases op <;> decide

theorem OperatorTree.level_le (tree : OperatorTree) : tree.level ≤ 12 := by
  cases tree with
  | leaf atom => exact le_rfl
  | unary op operand =>
    change op.level ≤ 12
    cases op <;> decide
  | binary left op word right => exact op.level_le.trans (by decide)

/-- The tokens of an operand in its position. -/
def OperatorTree.operandKinds (tree : OperatorTree) (required : Nat) : List TokenKind :=
  wrapLooser parenthesizeKinds required tree.level tree.kinds

def OperatorTree.operandGrouped (tree : OperatorTree) (required : Nat) : Expression :=
  wrapLooser .grouping required tree.level tree.grouped

theorem OperatorTree.operandKinds_head (split : tree.kinds = head :: tail)
    (heads : Heads tree.level head)
    (required : Nat) : ∃ head tail, tree.operandKinds required = head :: tail ∧
      Heads required head := by
  unfold OperatorTree.operandKinds wrapLooser
  split
  · exact ⟨_, _, rfl, .parenthesis⟩
  · next tight => exact ⟨head, tail, split, heads.mono (not_lt.mp tight)⟩

theorem OperatorTree.kinds_head (tree : OperatorTree) : ∃ head tail, tree.kinds = head :: tail ∧
    Heads tree.level head := by
  induction tree with
  | leaf atom => exact ⟨atom.kind, [], rfl, .atom _ _ atom.denotes⟩
  | unary op operand ih => exact ⟨op.kind, _, rfl, .unary op le_rfl⟩
  | binary left op word right leftIh rightIh =>
    obtain ⟨head, tail, split, heads⟩ := leftIh
    obtain ⟨head, tail, split, heads⟩ := operandKinds_head split heads op.leftLevel
    have looser : op.level ≤ op.leftLevel := by
      unfold BinaryOperator.leftLevel
      split <;> omega
    refine ⟨head, tail ++ (op.kinds word ++ right.operandKinds op.rightLevel), ?_,
      heads.mono looser⟩
    rw [← cons_append, ← split]
    rfl

theorem OperatorTree.operand_noAngle (tree : OperatorTree) (required : Nat)
    (rest : List TokenKind) : NoAngle (tree.operandKinds required ++ rest) := by
  obtain ⟨head, tail, split, heads⟩ := tree.kinds_head
  obtain ⟨head, tail, split, heads⟩ := operandKinds_head split heads required
  rw [split]
  exact heads.noAngle (tail ++ rest)

theorem BinaryOperator.kinds_noTypeArgs (op : BinaryOperator) (word : Bool) :
    NoTypeArgs (op.kinds word) := by
  cases op <;> cases word <;> decide

theorem OperatorTree.operand_noTypeArgs (plain : NoTypeArgs tree.kinds) (required : Nat) :
    NoTypeArgs (tree.operandKinds required) := by
  have wrapped : NoTypeArgs (parenthesizeKinds tree.kinds) := by
    have opens : NoTypeArgs [.symbol '('] := by decide
    have closes : NoTypeArgs [.symbol ')'] := by decide
    exact opens.append (plain.append closes)
  exact wrapLooser_of plain wrapped _ _

theorem OperatorTree.kinds_noTypeArgs (tree : OperatorTree) : NoTypeArgs tree.kinds := by
  induction tree with
  | leaf atom =>
    intro kind member
    obtain rfl := mem_singleton.mp member
    have heads : Heads 12 atom.kind := .atom _ _ atom.denotes
    exact ⟨heads.foreign (by decide), heads.foreign (by decide)⟩
  | unary op operand ih =>
    have opPlain : NoTypeArgs [op.kind] := by cases op <;> decide
    exact opPlain.append (operand_noTypeArgs ih op.level)
  | binary left op word right leftIh rightIh =>
    exact (operand_noTypeArgs leftIh _).append
      ((op.kinds_noTypeArgs word).append (operand_noTypeArgs rightIh _))

variable (bounded : bound ≤ maxParseDepth) (unspent : ∀ state, state.depth ≤ bound →
  around.overStack state = false)
include bounded unspent

/-- Within the bound the guard lets its body run one level deeper. -/
theorem ReadsBy.guarded {entry inner : Entries → Parse Expression} (isEntry : ∀ levels,
      entry (Entries.level around (levels + 1)) = guarded around.overStack
        (inner (Entries.level around levels)))
    (reads : ReadsBy around bound inner level kinds value need) :
      ReadsBy around bound entry level kinds value (need + 1) := by
  intro levels enough base line consumed rest follows plain deep
  obtain ⟨levels, rfl⟩ : ∃ less, levels = less + 1 := ⟨levels - 1, by omega⟩
  have inside := reads levels (by omega) { base with depth := base.depth + 1 } line consumed rest
    follows plain (by change base.depth + 1 + need ≤ bound; omega)
  have entered : enterParseDepth around.overStack (base.between line consumed (kinds ++ rest)) =
      (some (), ParserState.between { base with depth := base.depth + 1 } line consumed
        (kinds ++ rest)) := by
    apply if_neg
    rw [unspent _ (show base.depth + 1 ≤ bound by omega)]
    rintro (tooDeep | spent)
    · change maxParseDepth < base.depth + 1 at tooDeep
      omega
    · cases spent
  rw [isEntry]
  apply (bind_of_eq entered).trans
  rw [inside]
  rfl

theorem ReadsFrom.logicalNot (heads : Heads 3 head)
    (reads : ReadsFrom around bound 3 (head :: tail) value need) :
    ReadsFrom around bound 2 (head :: tail) value (need + 1) := by
  have inner : ReadsBy around bound parseLogicalNotInner 2 (head :: tail) value need := by
    intro levels enough base line consumed rest follows plain deep
    rw [parseLogicalNotInner, state_bind, cons_append, checkKeyword_between,
      if_neg (by simpa using heads.ne_notWord (by decide))]
    exact reads levels enough base line consumed rest (follows.mono (by decide)) plain deep
  exact inner.guarded bounded unspent fun _ => rfl

theorem ReadsFrom.notWord (reads : ReadsFrom around bound 2 kinds value need) :
    ReadsFrom around bound 2 (.keyword .notWord :: kinds) (.unary .not value) (need + 1) := by
  have inner : ReadsBy around bound parseLogicalNotInner 2 (.keyword .notWord :: kinds)
    (.unary .not value) need := by
    intro levels enough base line consumed rest follows plain deep
    have operand : (Entries.level around levels).logicalNot _ = _ :=
      reads levels enough base line (.keyword .notWord :: consumed) rest follows plain deep
    have notEnd : TokenKind.keyword .notWord ≠ .endOfFile := nofun
    simp [parseLogicalNotInner, state_bind, checkKeyword_between,
      bind_of_eq (advance_between notEnd), bind_of_eq operand, pure_apply]
  exact inner.guarded bounded unspent fun _ => rfl

theorem ReadsFrom.unaryOperand (heads : Heads 12 head)
    (reads : ReadsFrom around bound 12 (head :: tail) value need) :
    ReadsFrom around bound 11 (head :: tail) value (need + 1) := by
  have inner : ReadsBy around bound (parseUnaryInner around) 11 (head :: tail) value need := by
    intro levels enough base line consumed rest follows plain deep
    rw [parseUnaryInner, state_bind, cons_append, checkKeyword_between,
      if_neg (by simpa using heads.foreign (by decide)), current_between,
        heads.unaryOperator_eq_none (by decide)]
    exact reads levels enough base line consumed rest (follows.mono (by decide)) plain deep
  exact inner.guarded bounded unspent fun _ => rfl

theorem ReadsFrom.unary {op : PrefixOperator} (symbolic : op.level = 11)
    (reads : ReadsFrom around bound 11 kinds value need) :
    ReadsFrom around bound 11 (op.kind :: kinds) (.unary op.operator value) (need + 1) := by
  have inner : ReadsBy around bound (parseUnaryInner around) 11 (op.kind :: kinds)
    (.unary op.operator value) need := by
    intro levels enough base line consumed rest follows plain deep
    have operand : (Entries.level around levels).unary _ = _ :=
      reads levels enough base line (op.kind :: consumed) rest follows plain deep
    have found : unaryOperator op.kind = some op.operator := by
      cases op with
      | notWord => cases symbolic
      | _ => rfl
    have notEnd : op.kind ≠ .endOfFile := by cases op <;> nofun
    have notAwait : op.kind ≠ .keyword .await := by cases op <;> decide
    rw [parseUnaryInner, state_bind, cons_append, checkKeyword_between,
      if_neg (by simpa using notAwait), current_between, found]
    dsimp only
    rw [bind_of_eq (advance_between notEnd), bind_of_eq operand, pure_apply]
    simp
  exact inner.guarded bounded unspent fun _ => rfl

/-- A whole expression, as far as the end of the file or a closing parenthesis. -/
theorem ReadsFrom.expression (reads : ReadsFrom around bound 0 kinds value need) :
    ReadsBy around bound Entries.expression 0 kinds value (need + 1) := by
  have inner : ReadsBy around bound parseExpressionInner 0 kinds value need := by
    intro levels enough base line consumed rest follows plain deep
    have operand : parseLogicalOr (Entries.level around levels) _ = _ :=
      reads levels enough base line consumed rest follows plain deep
    obtain ⟨kind, more, rfl, -, -, noRange⟩ := follows.head
    rw [parseExpressionInner, bind_of_eq operand, state_bind, length_between, length_cons,
      bind_of_eq (rangeLoop_stops noRange)]
    rfl
  exact inner.guarded bounded unspent fun _ => rfl

/-- A parenthesized expression is a grouping. -/
theorem ReadsFrom.parenthesize (heads : Heads 0 head)
    (reads : ReadsFrom around bound 0 (head :: tail) value need) :
    ReadsFrom around bound 12 (parenthesizeKinds (head :: tail)) (.grouping value) (need + 1) := by
  intro levels enough base line consumed rest follows plain deep
  apply parseCallExpression_of_primary follows
  have closing : NoTypeArgs [.symbol ')'] := by decide
  have inner := reads.expression bounded unspent levels enough base line (.symbol '(' :: consumed)
    (.symbol ')' :: rest) (.close rest) (closing.append plain) deep
  have opens : TokenKind.symbol '(' ≠ .endOfFile := nofun
  have shape : parenthesizeKinds (head :: tail) ++ rest = .symbol '(' ::
    (head :: tail ++ .symbol ')' :: rest) := by
    simp [parenthesizeKinds]
  rw [shape, parsePrimaryExpression, current_bind, current_between]
  change parseParenthesized (Entries.level around levels) _ = _
  rw [parseParenthesized, bind_of_eq (advance_between opens), checkSymbol_bind, cons_append,
    checkSymbol_between, if_neg (by simpa using heads.foreign (by decide))]
  rw [cons_append] at inner
  rw [bind_of_eq inner, checkSymbol_bind, checkSymbol_between, if_neg (by decide),
    bind_of_eq (consumeSymbol_between ')' _), pure_apply]
  simp [parenthesizeKinds]

/-- A level passes on what binds tighter. -/
theorem ReadsFrom.step {head : TokenKind} {tail : List TokenKind} (below : level < 12)
    (heads : Heads (level + 1) head)
    (reads : ReadsFrom around bound (level + 1) (head :: tail) value need) :
    ReadsFrom around bound level (head :: tail) value (guardsBetween level (level + 1) + need) := by
  have ladderLevels : ∀ level < 12, level ∈ infixLevels ∨ level = 2 ∨ level = 7 ∨ level = 11 := by
    decide
  rcases ladderLevels level below with isInfix | rfl | rfl | rfl
  · exact ((reads.extends isInfix).reads isInfix).mono (Nat.le_add_left _ _)
  · exact (reads.logicalNot bounded unspent heads).mono (Nat.add_comm need 1).le
  · exact reads.comparison.mono (Nat.le_add_left _ _)
  · exact (reads.unaryOperand bounded unspent heads).mono (Nat.add_comm need 1).le

theorem ReadsFrom.descend {tighter : Nat} (heads : Heads tighter head)
    (reads : ReadsFrom around bound tighter (head :: tail) value need) (below : level ≤ tighter)
    (primary : tighter ≤ 12) :
    ReadsFrom around bound level (head :: tail) value (guardsBetween level tighter + need) := by
  -- one level at a time, upwards from the required one
  induction below using Nat.decreasingInduction with
  | self => exact reads.mono (Nat.le_add_left _ _)
  | of_succ level below ih =>
    apply (ih.step bounded unspent (below.trans_le primary) (heads.mono below)).mono
    unfold guardsBetween
    split_ifs <;> omega

section
variable (reads : ReadsFrom around bound tree.level tree.kinds tree.grouped tree.depth)
include reads

theorem readsFrom_parenthesized (below : level ≤ 12) :
    ReadsFrom around bound level (parenthesizeKinds tree.kinds) (.grouping tree.grouped)
      (guardsBetween level primaryLevel + (guardsBetween 0 tree.level + tree.depth + 1)) := by
  obtain ⟨head, tail, split, heads⟩ := tree.kinds_head
  rw [split] at reads ⊢
  have whole := reads.descend bounded unspent heads (Nat.zero_le _) tree.level_le
  exact (whole.parenthesize bounded unspent (heads.mono (Nat.zero_le _))).descend bounded unspent
    .parenthesis below le_rfl

theorem readsFrom_operand {required : Nat} (below : required ≤ 12) :
    ReadsFrom around bound required (tree.operandKinds required) (tree.operandGrouped required)
      (depthAt required tree.level tree.depth) := by
  unfold OperatorTree.operandKinds OperatorTree.operandGrouped wrapLooser depthAt
  split
  · exact readsFrom_parenthesized bounded unspent reads below
  · next tight =>
      obtain ⟨head, tail, split, heads⟩ := tree.kinds_head
      rw [split] at reads ⊢
      exact reads.descend bounded unspent heads (not_lt.mp tight) tree.level_le

/-- The left operand of an infix level leaves it in its loop. -/
theorem extends_operand (isInfix : level ∈ infixLevels)
    (same : tree.level = level → Extends around bound level tree.kinds tree.grouped tree.depth) :
    Extends around bound level (tree.operandKinds level) (tree.operandGrouped level)
      (depthAt level tree.level tree.depth) := by
  have below : level + 1 ≤ 12 := (by decide : ∀ level ∈ infixLevels, level + 1 ≤ 12) level isInfix
  have fewer := fun tighter => guardsBetween_succ_le level tighter
  unfold OperatorTree.operandKinds OperatorTree.operandGrouped wrapLooser depthAt
  split
  · have wrapped := readsFrom_parenthesized bounded unspent reads below
    exact (wrapped.mono (Nat.add_le_add_right (fewer _) _)).extends isInfix
  · next tight =>
      rcases (not_lt.mp tight).eq_or_lt with here | tighter
      · exact (same here.symm).mono (Nat.le_add_left _ _)
      · obtain ⟨head, tail, split, heads⟩ := tree.kinds_head
        rw [split] at reads ⊢
        have passed := reads.descend bounded unspent heads tighter tree.level_le
        exact (passed.mono (Nat.add_le_add_right (fewer _) _)).extends isInfix

end

/-- Every printed tree is read at its own level, and an infix level that reads one is left in its
loop. -/
theorem OperatorTree.reads (tree : OperatorTree) :
    ReadsFrom around bound tree.level tree.kinds tree.grouped tree.depth ∧
      (tree.level ∈ infixLevels → Extends around bound tree.level tree.kinds tree.grouped
        tree.depth) := by
  induction tree with
  | leaf atom =>
    have tight : primaryLevel ∉ infixLevels := by decide
    exact ⟨readsFrom_atom atom.denotes, fun isInfix => absurd isInfix tight⟩
  | unary op operand ih =>
    have operandReads := @readsFrom_operand around bound operand bounded unspent ih.1 op.level
    have tight : op.level ∉ infixLevels := by cases op <;> decide
    refine ⟨?_, fun isInfix => absurd isInfix tight⟩
    cases op with
    | notWord => exact (operandReads (by decide)).notWord bounded unspent
    | negate | bang | bitNot => exact (operandReads (by decide)).unary bounded unspent rfl
  | binary left op word right leftIh rightIh =>
    have opLevel := op.level_le
    have rightBelow : op.rightLevel ≤ 12 := Nat.succ_le_succ (opLevel.trans (by decide))
    have rightReads := (readsFrom_operand bounded unspent rightIh.1 rightBelow).mono
      (le_max_right (depthAt op.leftLevel left.level left.depth) _)
    have rightPlain :=
      (op.kinds_noTypeArgs word).append (operand_noTypeArgs right.kinds_noTypeArgs op.rightLevel)
    have noAngle := right.operand_noAngle op.rightLevel
    have infixOrRelational : op.level ∈ infixLevels ∨ op.level = 7 := by cases op <;> decide
    rcases infixOrRelational with isInfix | isRelational
    · have leftLevel : op.leftLevel = op.level :=
        if_neg fun relational => absurd (relational ▸ isInfix) (by decide)
      have leftLoops : Extends around bound op.level (left.operandKinds op.leftLevel)
        (left.operandGrouped op.leftLevel) (depthAt op.leftLevel left.level left.depth) := by
        rw [leftLevel]
        exact extends_operand bounded unspent leftIh.1 isInfix
          (fun same => same ▸ leftIh.2 (same ▸ isInfix))
      have loops := (leftLoops.mono (le_max_left _ _)).binary isInfix rightReads rightPlain noAngle
      exact ⟨loops.reads isInfix, fun _ => loops⟩
    · have leftBelow : op.leftLevel ≤ 12 := by
        rw [BinaryOperator.leftLevel, if_pos isRelational, isRelational]; decide
      have leftReads := (readsFrom_operand bounded unspent leftIh.1 leftBelow).mono
        (le_max_left _ (depthAt op.rightLevel right.level right.depth))
      have notInfix : op.level ∉ infixLevels := by
        rw [isRelational]
        decide
      exact ⟨leftReads.compare isRelational rightReads rightPlain noAngle, fun isInfix =>
        absurd isInfix notInfix⟩

end Reading

/-- Within the depth limit a printed operator expression is lexed without errors and parsed, to its
end and without errors, as the expression that was printed, up to grouping nodes. -/
theorem parseExpression_text (around : Surroundings) (tree : OperatorTree)
    (within : tree.parseDepth ≤ maxParseDepth)
    (unspent : ∀ state, state.depth ≤ tree.parseDepth → around.overStack state = false) :
    ∃ tokens parsed after, tokenize tree.text = .ok tokens ∧
      parseExpression around (.new tokens) = (some parsed, after) ∧
        after.tokens = [⟨.endOfFile, 1, 1⟩] ∧
      after.errors = [] ∧ parsed.ungrouped = tree.expression := by
  obtain ⟨head, tail, split, heads⟩ := tree.kinds_head
  have whole := (tree.reads within unspent).1
  rw [split] at whole
  have reads := whole.descend within unspent heads (Nat.zero_le _) tree.level_le
  rw [← split] at reads
  have parsed := reads.expression within unspent maxParseDepth within
    (.new (onLine 1 (tree.kinds ++ [.endOfFile]))) 1 [] [.endOfFile] .endOfFile (by decide)
      (Nat.zero_add _).le
  exact ⟨_, _, _, tree.tokenize_text, parsed, rfl, rfl, tree.ungrouped_grouped⟩

/-- A parser with room on its stack and nothing around its expressions. -/
def bareSurroundings : Surroundings where
  overStack _ := false
  parseBlock := Parse.fail
  parseIfExpression := Parse.fail
  parseUnlessExpression := Parse.fail
  parseMatchExpression := Parse.fail
  parseAsyncExpression := Parse.fail
  parseTypeAnnotation := Parse.fail
  parseTypeArguments := Parse.fail
  parseFStringParts _ := Parse.fail
  parseLambdaParamsAfterOpenPipe := Parse.fail
  finishLambdaExpression _ _ := Parse.fail

/-- A name of one letter. -/
def letter (ch : Char) (start : isIdentifierStart ch)
    (unreserved : Keyword.fromIdentifier (String.ofList [ch]) = none) :
    OperatorTree :=
  .leaf (.name ch [] start nofun unreserved)

/-- The negation of `-(a + b) < c << d`. -/
def negatedComparison : OperatorTree :=
  .unary .notWord
    (.binary
      (.unary .negate
      (.binary (letter 'a' rfl (by decide)) .add false (letter 'b' rfl (by decide)))) .less false
      (.binary (letter 'c' rfl (by decide)) .shl false (letter 'd' rfl (by decide))))

theorem parseExpression_negatedComparison :
    String.ofList negatedComparison.text = "not -(a + b) < c << d" ∧
      ∃ tokens parsed after, tokenize negatedComparison.text = .ok tokens ∧
        parseExpression bareSurroundings (.new tokens) = (some parsed, after) ∧
          after.tokens = [⟨.endOfFile, 1, 1⟩] ∧
        after.errors = [] ∧ parsed.ungrouped = negatedComparison.expression :=
  ⟨by decide, parseExpression_text bareSurroundings negatedComparison (by decide) (fun _ _ => rfl)⟩

end SpectraLang

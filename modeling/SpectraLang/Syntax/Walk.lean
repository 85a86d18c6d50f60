import SpectraLang.Syntax.Ast

/-! # Scoped walks over the syntax tree

A walk passes every expression and statement of a phrase, carries a scope that grows with
declarations and lists what its visitor records at identifiers, assignments and lambdas. Blocks,
arms and loop bodies are scopes of their own. Patterns only declare names.
-/

namespace SpectraLang

mutual

/-- `collect_pattern_names_for_closure`. -/
def patternNames : Pattern → List String
  | .wildcard | .literal _ => []
  | .identifier name => [name]
  | .tuple elements => patternsNames elements
  | .struct _ fields => fieldPatternsNames fields
  | .enumVariant _ _ _ _ data structData =>
    optionalPatternsNames data ++ optionalFieldsNames structData
  | .or alternatives => patternsNames alternatives

def patternsNames : List Pattern → List String
  | [] => []
  | pattern :: rest => patternNames pattern ++ patternsNames rest

def fieldPatternsNames : List FieldPattern → List String
  | [] => []
  | .mk _ pattern :: rest => patternNames pattern ++ fieldPatternsNames rest

def optionalPatternsNames : Option (List Pattern) → List String
  | none => []
  | some patterns => patternsNames patterns

def optionalFieldsNames : Option (List FieldPattern) → List String
  | none => []
  | some fields => fieldPatternsNames fields

end

/-- The names a statement declares for the statements after it. -/
def Statement.declares : Statement → List String
  | .letStmt pattern _ _ => patternNames pattern
  | _ => []

/-- What a walk records, and how its scope changes at declarations and inside a lambda. -/
structure Visitor (Scope Event : Type) where
  read : Scope → String → List Event
  assign : Scope → String → List Event
  lambda : Scope → List String → Expression → List Event
  bind : Scope → List String → Scope
  enter : Scope → List String → Scope

namespace Visitor

variable {Scope Event : Type} (visitor : Visitor Scope Event)

mutual

def expression (scope : Scope) : Expression → List Event
  | .identifier name => visitor.read scope name
  | .numberLiteral _ | .stringLiteral _ | .boolLiteral _ | .charLiteral _ => []
  | .fString parts => fStringParts scope parts
  | .block body | .differentiableBlock body | .asyncBlock body => block scope body
  | .binary left _ right => expression scope left ++ expression scope right
  | .unary _ operand | .tryExpr operand | .await operand => expression scope operand
  | .range start stop _ => expression scope start ++ expression scope stop
  | .call callee arguments => expression scope callee ++ expressions scope arguments
  | .ifExpr condition thenBlock elifBlocks elseBlock =>
    expression scope condition ++ block scope thenBlock ++ elifs scope elifBlocks ++
      optionalBlock scope elseBlock
  | .unlessExpr condition thenBlock elseBlock =>
    expression scope condition ++ block scope thenBlock ++ optionalBlock scope elseBlock
  | .grouping inner => expression scope inner
  | .arrayLiteral elements | .tupleLiteral elements => expressions scope elements
  | .indexAccess array index => expression scope array ++ expression scope index
  | .tupleAccess tuple _ => expression scope tuple
  | .structLiteral _ _ fields => fieldValues scope fields
  | .fieldAccess object _ => expression scope object
  | .enumVariant _ _ _ _ data structData =>
    optionalExpressions scope data ++ optionalFields scope structData
  | .matchExpr scrutinee arms => expression scope scrutinee ++ matchArms scope arms
  | .methodCall object _ arguments _ => expression scope object ++ expressions scope arguments
  | .lambda _ params body =>
    visitor.lambda scope (params.map LambdaParam.name) body
      ++ expression (visitor.enter scope (params.map LambdaParam.name)) body
  | .cast operand _ _ => expression scope operand

def fStringParts (scope : Scope) : List FStringPart → List Event
  | [] => []
  | .literal _ :: rest => fStringParts scope rest
  | .interpolated value :: rest => expression scope value ++ fStringParts scope rest

def expressions (scope : Scope) : List Expression → List Event
  | [] => []
  | value :: rest => expression scope value ++ expressions scope rest

def optionalExpressions (scope : Scope) : Option (List Expression) → List Event
  | none => []
  | some values => expressions scope values

def optionalExpression (scope : Scope) : Option Expression → List Event
  | none => []
  | some value => expression scope value

def fieldValues (scope : Scope) : List FieldValue → List Event
  | [] => []
  | .mk _ value :: rest => expression scope value ++ fieldValues scope rest

def optionalFields (scope : Scope) : Option (List FieldValue) → List Event
  | none => []
  | some fields => fieldValues scope fields

def elifs (scope : Scope) : List ElifBlock → List Event
  | [] => []
  | .mk condition body :: rest => expression scope condition ++ block scope body ++ elifs scope rest

def matchArms (scope : Scope) : List MatchArm → List Event
  | [] => []
  | .mk pattern guard body :: rest =>
    optionalExpression (visitor.bind scope (patternNames pattern)) guard
      ++ expression (visitor.bind scope (patternNames pattern)) body ++ matchArms scope rest

def block (scope : Scope) : Block → List Event
  | .mk body => statements scope body

def optionalBlock (scope : Scope) : Option Block → List Event
  | none => []
  | some body => block scope body

def statements (scope : Scope) : List Statement → List Event
  | [] => []
  | first :: rest => statement scope first ++ statements (visitor.bind scope first.declares) rest

def statement (scope : Scope) : Statement → List Event
  | .letStmt _ _ value => optionalExpression scope value
  | .assignment target value => lvalue scope target ++ expression scope value
  | .returnStmt value => optionalExpression scope value
  | .expression value => expression scope value
  | .whileLoop condition body => expression scope condition ++ block scope body
  | .doWhile body condition => block scope body ++ expression scope condition
  | .forLoop iterator iterable body =>
    expression scope iterable ++ block (visitor.bind scope [iterator]) body
  | .loop body => block scope body
  | .switch value cases default =>
    expression scope value ++ switchCases scope cases ++ optionalBlock scope default
  | .breakStmt | .continueStmt => []
  | .ifLet pattern value thenBlock elseBlock =>
    expression scope value ++ block (visitor.bind scope (patternNames pattern)) thenBlock
      ++ optionalBlock scope elseBlock
  | .whileLet pattern value body =>
    expression scope value ++ block (visitor.bind scope (patternNames pattern)) body

def switchCases (scope : Scope) : List SwitchCase → List Event
  | [] => []
  | .mk pattern body :: rest =>
    expression scope pattern ++ block scope body ++ switchCases scope rest

def lvalue (scope : Scope) : LValue → List Event
  | .identifier name => visitor.assign scope name
  | .indexAccess array index => expression scope array ++ expression scope index
  | .fieldAccess object _ => expression scope object

end

end Visitor

section Covering

/-- Every event of the first list is answered by one of the second. -/
def EventsCovered {Event Answer : Type} (answers : Event → Answer → Prop) (events : List Event)
    (others : List Answer) : Prop :=
  ∀ event ∈ events, ∃ answer ∈ others, answers event answer

variable {Scope Event Scope' Event' : Type} {answers : Event → Event' → Prop}

theorem EventsCovered.nil {others : List Event'} : EventsCovered answers [] others := by
  intro event member
  simp at member

theorem EventsCovered.append {first second : List Event} {others more : List Event'}
    (left : EventsCovered answers first others) (right : EventsCovered answers second more) :
    EventsCovered answers (first ++ second) (others ++ more) := by
  intro event member
  rcases List.mem_append.mp member with member | member
  · obtain ⟨answer, isAnswer, answered⟩ := left event member
    exact ⟨answer, List.mem_append_left _ isAnswer, answered⟩
  · obtain ⟨answer, isAnswer, answered⟩ := right event member
    exact ⟨answer, List.mem_append_right _ isAnswer, answered⟩

/-- Related scopes are walked with covered events. -/
def Tracks (related : Scope → Scope' → Prop) (answers : Event → Event' → Prop)
    (walk : Scope → List Event) (walk' : Scope' → List Event') : Prop :=
  ∀ ⦃scope scope'⦄, related scope scope' → EventsCovered answers (walk scope) (walk' scope')

variable {related : Scope → Scope' → Prop}

theorem Tracks.nil : Tracks related answers (fun _ => []) (fun _ => []) := fun _ _ _ => .nil

theorem Tracks.append {walk next : Scope → List Event} {walk' next' : Scope' → List Event'}
    (first : Tracks related answers walk walk') (second : Tracks related answers next next') :
    Tracks related answers (fun scope => walk scope ++ next scope)
      (fun scope => walk' scope ++ next' scope) :=
  fun _ _ isRelated => (first isRelated).append (second isRelated)

/-- Two visitors that keep their scopes related and answer each other's records. -/
structure Visitor.Follows (visitor : Visitor Scope Event) (other : Visitor Scope' Event')
    (related : Scope → Scope' → Prop) (answers : Event → Event' → Prop) : Prop where
  read : ∀ {scope scope'}, related scope scope' → ∀ name,
    EventsCovered answers (visitor.read scope name) (other.read scope' name)
  assign : ∀ {scope scope'}, related scope scope' → ∀ name,
    EventsCovered answers (visitor.assign scope name) (other.assign scope' name)
  lambda : ∀ {scope scope'}, related scope scope' → ∀ params body,
    EventsCovered answers (visitor.lambda scope params body) (other.lambda scope' params body)
  bind : ∀ {scope scope'}, related scope scope' → ∀ names,
    related (visitor.bind scope names) (other.bind scope' names)
  enter : ∀ {scope scope'}, related scope scope' → ∀ params,
    related (visitor.enter scope params) (other.enter scope' params)

namespace Visitor.Follows

set_option linter.unusedSectionVars false

variable {visitor : Visitor Scope Event} {other : Visitor Scope' Event'} {walk : Scope → List Event}
  {walk' : Scope' → List Event'} (follows : visitor.Follows other related answers)

include follows

/-- The visitors walk a kind of phrase in step. -/
def InStep (_ : visitor.Follows other related answers) (walk : ∀ {S E : Type}, Visitor S E → S →
    List E) : Prop :=
  Tracks related answers (walk visitor) (walk other)

theorem bound (names : List String) (tracks : Tracks related answers walk walk') :
    Tracks related answers (fun scope => walk (visitor.bind scope names)) fun scope =>
      walk' (other.bind scope names) :=
  fun _ _ isRelated => tracks (follows.bind isRelated names)

mutual

theorem expression : ∀ value : Expression, follows.InStep (·.expression · value)
  | .identifier name => fun _ _ isRelated => follows.read isRelated name
  | .numberLiteral _ | .stringLiteral _ | .boolLiteral _ | .charLiteral _ => Tracks.nil
  | .fString parts => fStringParts parts
  | .block body | .differentiableBlock body | .asyncBlock body => block body
  | .binary left _ right | .range left right _ | .indexAccess left right =>
    (expression left).append (expression right)
  | .unary _ operand | .tryExpr operand | .await operand | .grouping operand |
      .tupleAccess operand _
  | .fieldAccess operand _ | .cast operand _ _ => expression operand
  | .call callee arguments => (expression callee).append (expressions arguments)
  | .ifExpr condition thenBlock elifBlocks elseBlock =>
    (((expression condition).append (block thenBlock)).append
        (elifs elifBlocks)).append (optionalBlock elseBlock)
  | .unlessExpr condition thenBlock elseBlock =>
    ((expression condition).append (block thenBlock)).append (optionalBlock elseBlock)
  | .arrayLiteral elements | .tupleLiteral elements => expressions elements
  | .structLiteral _ _ fields => fieldValues fields
  | .enumVariant _ _ _ _ data structData =>
    (optionalExpressions data).append (optionalFields structData)
  | .matchExpr scrutinee arms => (expression scrutinee).append (matchArms arms)
  | .methodCall object _ arguments _ => (expression object).append (expressions arguments)
  | .lambda _ _ body => Tracks.append (fun _ _ isRelated => follows.lambda isRelated _ body)
      fun _ _ isRelated => expression body (follows.enter isRelated _)

theorem fStringParts : ∀ parts : List FStringPart, follows.InStep (·.fStringParts · parts)
  | [] => Tracks.nil
  | .literal _ :: rest => fStringParts rest
  | .interpolated value :: rest => (expression value).append (fStringParts rest)

theorem expressions : ∀ values : List Expression, follows.InStep (·.expressions · values)
  | [] => Tracks.nil
  | value :: rest => (expression value).append (expressions rest)

theorem optionalExpressions : ∀ values : Option (List Expression),
    follows.InStep (·.optionalExpressions · values)
  | none => Tracks.nil
  | some values => expressions values

theorem optionalExpression : ∀ value :
    Option Expression, follows.InStep (·.optionalExpression · value)
  | none => Tracks.nil
  | some value => expression value

theorem fieldValues : ∀ fields : List FieldValue, follows.InStep (·.fieldValues · fields)
  | [] => Tracks.nil
  | .mk _ value :: rest => (expression value).append (fieldValues rest)

theorem optionalFields : ∀ fields : Option (List FieldValue),
    follows.InStep (·.optionalFields · fields)
  | none => Tracks.nil
  | some fields => fieldValues fields

theorem elifs : ∀ branches : List ElifBlock, follows.InStep (·.elifs · branches)
  | [] => Tracks.nil
  | .mk condition body :: rest => ((expression condition).append (block body)).append (elifs rest)

theorem matchArms : ∀ arms : List MatchArm, follows.InStep (·.matchArms · arms)
  | [] => Tracks.nil
  | .mk _ guard body :: rest => ((follows.bound _ (optionalExpression guard)).append
        (follows.bound _ (expression body))).append (matchArms rest)

theorem block : ∀ body : Block, follows.InStep (·.block · body)
  | .mk body => statements body

theorem optionalBlock : ∀ body : Option Block, follows.InStep (·.optionalBlock · body)
  | none => Tracks.nil
  | some body => block body

theorem statements : ∀ body : List Statement, follows.InStep (·.statements · body)
  | [] => Tracks.nil
  | first :: rest => (statement first).append (follows.bound _ (statements rest))

theorem statement : ∀ body : Statement, follows.InStep (·.statement · body)
  | .letStmt _ _ value | .returnStmt value => optionalExpression value
  | .assignment target value => (lvalue target).append (expression value)
  | .expression value => expression value
  | .whileLoop condition body => (expression condition).append (block body)
  | .doWhile body condition => (block body).append (expression condition)
  | .forLoop _ iterable body => (expression iterable).append (follows.bound _ (block body))
  | .loop body => block body
  | .switch value cases default =>
    ((expression value).append (switchCases cases)).append (optionalBlock default)
  | .breakStmt | .continueStmt => Tracks.nil
  | .ifLet _ value thenBlock elseBlock =>
    ((expression value).append (follows.bound _ (block thenBlock))).append
        (optionalBlock elseBlock)
  | .whileLet _ value body => (expression value).append (follows.bound _ (block body))

theorem switchCases : ∀ cases : List SwitchCase, follows.InStep (·.switchCases · cases)
  | [] => Tracks.nil
  | .mk pattern body :: rest => ((expression pattern).append (block body)).append (switchCases rest)

theorem lvalue : ∀ target : LValue, follows.InStep (·.lvalue · target)
  | .identifier name => fun _ _ isRelated => follows.assign isRelated name
  | .indexAccess array index => (expression array).append (expression index)
  | .fieldAccess object _ => expression object

end

end Visitor.Follows

end Covering

end SpectraLang

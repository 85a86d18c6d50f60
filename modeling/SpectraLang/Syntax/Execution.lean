import SpectraLang.Syntax.Ast

/-! # Structural executions of source code

What a phrase can do to the control flow, with every condition, scrutinee and guard taking any
value. A way through a phrase lists the parts it evaluates in order; a part that jumps ends it.
Break and continue belong to the innermost loop whose body they stand in, conditions and iterables
not included; a lambda is a value, and so is an async block, whose return leaves only that block.
-/

namespace SpectraLang

/-- How the execution of a phrase ends. -/
inductive Completion where
  | normal | broke | continued | returned
  deriving DecidableEq

/-- A piece of syntax in execution: syntax, a sequence of pieces, or a loop about to evaluate its
test or run its body. Only some loops may stop after their test. -/
inductive Phrase where
  | expr (expression : Expression)
  | block (block : Block)
  | statements (statements : List Statement)
  | statement (statement : Statement)
  | seq (parts : List Phrase)
  | cycle (test : List Expression) (mayStop : Bool) (body : Block)
  | turn (test : List Expression) (mayStop : Bool) (body : Block)

/-- The operands of an expression that evaluates all of them in order and nothing else. -/
def Expression.operands? : Expression → Option (List Expression)
  | identifier _ | numberLiteral _ | stringLiteral _ | boolLiteral _ | charLiteral _ | lambda .. =>
    some []
  | fString parts => some (parts.filterMap fun
    | .literal _ => none
    | .interpolated value => some value)
  | binary left _ right => some [left, right]
  | unary _ operand | tryExpr operand | await operand | grouping operand | cast operand _ _ =>
    some [operand]
  | range start stop _ => some [start, stop]
  | call callee arguments => some (callee :: arguments)
  | arrayLiteral elements | tupleLiteral elements => some elements
  | indexAccess array index => some [array, index]
  | tupleAccess tuple _ => some [tuple]
  | structLiteral _ _ fields => some (fields.map (·.value))
  | fieldAccess object _ => some [object]
  | enumVariant _ _ _ _ data structData => some (data.getD [] ++ (structData.getD []).map (·.value))
  | methodCall object _ arguments _ => some (object :: arguments)
  | block _ | differentiableBlock _ | asyncBlock _ | ifExpr .. | unlessExpr .. | matchExpr .. =>
    none

/-- The expressions in an assignment target. -/
def LValue.operands : LValue → List Expression
  | identifier _ => []
  | indexAccess array index => [array, index]
  | fieldAccess object _ => [object]

/-- A way through a phrase without jumps of its own. -/
inductive Takes : Phrase → List Phrase → Prop where
  | operands {expression : Expression} {operands : List Expression}
      (all : expression.operands? = some operands) :
    Takes (.expr expression) (operands.map .expr)
  | shortCircuit (left right : Expression) {operator : BinaryOperator}
      (logical : operator = .and ∨ operator = .or) :
    Takes (.expr (.binary left operator right)) [.expr left]
  | block (body : Block) : Takes (.expr (.block body)) [.block body]
  | differentiableBlock (body : Block) : Takes (.expr (.differentiableBlock body)) [.block body]
  | ifThen (condition : Expression) (thenBlock : Block) (elifBlocks : List ElifBlock)
      (elseBlock : Option Block) :
    Takes (.expr (.ifExpr condition thenBlock elifBlocks elseBlock))
      [.expr condition, .block thenBlock]
  | ifElif (condition : Expression) (thenBlock : Block) {elifBlocks before after : List ElifBlock}
      {chosen : ElifBlock}
    (elseBlock : Option Block) (split : elifBlocks = before ++ chosen :: after) :
    Takes (.expr (.ifExpr condition thenBlock elifBlocks elseBlock))
      (.expr condition :: (before.map fun elif => .expr elif.condition) ++
        [.expr chosen.condition, .block chosen.body])
  | ifElse (condition : Expression) (thenBlock : Block) (elifBlocks : List ElifBlock)
      (elseBlock : Option Block) :
    Takes (.expr (.ifExpr condition thenBlock elifBlocks elseBlock))
      (.expr condition :: (elifBlocks.map fun elif => .expr elif.condition) ++ elseBlock.toList.map
        .block)
  | unlessThen (condition : Expression) (thenBlock : Block) (elseBlock : Option Block) :
    Takes (.expr (.unlessExpr condition thenBlock elseBlock)) [.expr condition, .block thenBlock]
  | unlessElse (condition : Expression) (thenBlock : Block) (elseBlock : Option Block) :
    Takes (.expr (.unlessExpr condition thenBlock elseBlock))
      (.expr condition :: elseBlock.toList.map .block)
  | arm (scrutinee : Expression) {arms before after : List MatchArm} {chosen : MatchArm}
      {guards : List Expression}
    (split : arms = before ++ chosen :: after)
    (tried : guards.Sublist (before.filterMap (·.guard) ++ chosen.guard.toList)) :
    Takes (.expr (.matchExpr scrutinee arms))
      (.expr scrutinee :: guards.map .expr ++ [.expr chosen.body])
  | statements (body : Block) : Takes (.block body) [.statements body.statements]
  | nil : Takes (.statements []) []
  | cons (first : Statement) (rest : List Statement) :
    Takes (.statements (first :: rest)) [.statement first, .statements rest]
  | letStmt (pattern : Pattern) (ty : Option TypeAnnotation) (value : Option Expression) :
    Takes (.statement (.letStmt pattern ty value)) (value.toList.map .expr)
  | assignment (target : LValue) (value : Expression) :
    Takes (.statement (.assignment target value)) (target.operands.map .expr ++ [.expr value])
  | expression (value : Expression) : Takes (.statement (.expression value)) [.expr value]
  | whileLoop (condition : Expression) (body : Block) :
    Takes (.statement (.whileLoop condition body)) [.cycle [condition] true body]
  | doWhile (body : Block) (condition : Expression) :
    Takes (.statement (.doWhile body condition)) [.turn [condition] true body]
  | forLoop (iterator : String) (iterable : Expression) (body : Block) :
    Takes (.statement (.forLoop iterator iterable body)) [.expr iterable, .cycle [] true body]
  | loop (body : Block) : Takes (.statement (.loop body)) [.turn [] false body]
  | case (value : Expression) {cases : List SwitchCase} {chosen : SwitchCase}
      (default : Option Block)
    (member : chosen ∈ cases) :
    Takes (.statement (.switch value cases default)) [.expr value, .block chosen.body]
  | default (value : Expression) (cases : List SwitchCase) (default : Option Block) :
    Takes (.statement (.switch value cases default)) (.expr value :: default.toList.map .block)
  | ifLetThen (pattern : Pattern) (value : Expression) (thenBlock : Block)
      (elseBlock : Option Block) :
    Takes (.statement (.ifLet pattern value thenBlock elseBlock)) [.expr value, .block thenBlock]
  | ifLetElse (pattern : Pattern) (value : Expression) (thenBlock : Block)
      (elseBlock : Option Block) :
    Takes (.statement (.ifLet pattern value thenBlock elseBlock))
      (.expr value :: elseBlock.toList.map .block)
  | whileLet (pattern : Pattern) (value : Expression) (body : Block) :
    Takes (.statement (.whileLet pattern value body)) [.cycle [value] true body]

/-- The phrase has a terminating execution that completes in the given way. -/
inductive Executes : Phrase → Completion → Prop where
  | through {phrase : Phrase} {parts : List Phrase} {completion : Completion}
      (way : Takes phrase parts)
    (run : Executes (.seq parts) completion) : Executes phrase completion
  | done : Executes (.seq []) .normal
  | next {part : Phrase} {parts : List Phrase} {completion : Completion}
      (first : Executes part .normal)
    (rest : Executes (.seq parts) completion) : Executes (.seq (part :: parts)) completion
  | jump {part : Phrase} (parts : List Phrase) {completion : Completion}
      (first : Executes part completion)
    (jumps : completion ≠ .normal) : Executes (.seq (part :: parts)) completion
  | breakStmt : Executes (.statement .breakStmt) .broke
  | continueStmt : Executes (.statement .continueStmt) .continued
  | returnStmt {value : Option Expression}
      (run : Executes (.seq (value.toList.map .expr)) .normal) :
    Executes (.statement (.returnStmt value)) .returned
  | returnJump {value : Option Expression} {completion : Completion}
      (run : Executes (.seq (value.toList.map .expr)) completion)
    (jumps : completion ≠ .normal) : Executes (.statement (.returnStmt value)) completion
  | tryReturn {operand : Expression} (run : Executes (.expr operand) .normal) :
    Executes (.expr (.tryExpr operand)) .returned
  | asyncBlock (body : Block) : Executes (.expr (.asyncBlock body)) .normal
  | asyncJump {body : Block} {completion : Completion} (run : Executes (.block body) completion)
    (leaves : completion = .broke ∨ completion = .continued) :
      Executes (.expr (.asyncBlock body)) completion
  | stop {test : List Expression} (body : Block)
      (tested : Executes (.seq (test.map .expr)) .normal) :
    Executes (.cycle test true body) .normal
  | testJump {test : List Expression} (mayStop : Bool) (body : Block) {completion : Completion}
    (tested : Executes (.seq (test.map .expr)) completion) (jumps : completion ≠ .normal) :
    Executes (.cycle test mayStop body) completion
  | enter {test : List Expression} {mayStop : Bool} {body : Block} {completion : Completion}
    (tested : Executes (.seq (test.map .expr)) .normal)
      (run : Executes (.turn test mayStop body) completion) :
    Executes (.cycle test mayStop body) completion
  | again {test : List Expression} {mayStop : Bool} {body : Block} {ending completion : Completion}
    (run : Executes (.block body) ending) (goes : ending = .normal ∨ ending = .continued)
    (rest : Executes (.cycle test mayStop body) completion) :
      Executes (.turn test mayStop body) completion
  | leave (test : List Expression) (mayStop : Bool) {body : Block}
      (run : Executes (.block body) .broke) :
    Executes (.turn test mayStop body) .normal
  | leaveFunction (test : List Expression) (mayStop : Bool) {body : Block}
      (run : Executes (.block body) .returned) :
    Executes (.turn test mayStop body) .returned

/-- A jump of the given kind stands in the phrase and belongs to a loop around it. -/
inductive JumpIn (jump : Statement) : Phrase → Prop where
  | here : JumpIn jump (.statement jump)
  | part {phrase part : Phrase} {parts : List Phrase} (way : Takes phrase parts)
      (member : part ∈ parts)
    (inside : JumpIn jump part) : JumpIn jump phrase
  | seq {part : Phrase} {parts : List Phrase} (member : part ∈ parts) (inside : JumpIn jump part) :
    JumpIn jump (.seq parts)
  | returned {value : Expression} (inside : JumpIn jump (.expr value)) :
    JumpIn jump (.statement (.returnStmt (some value)))
  | tried {operand : Expression} (inside : JumpIn jump (.expr operand)) :
      JumpIn jump (.expr (.tryExpr operand))
  | asyncBlock {body : Block} (inside : JumpIn jump (.block body)) :
      JumpIn jump (.expr (.asyncBlock body))
  | cycle {test : List Expression} (mayStop : Bool) (body : Block) {condition : Expression}
      (member : condition ∈ test)
    (inside : JumpIn jump (.expr condition)) : JumpIn jump (.cycle test mayStop body)
  | turn {test : List Expression} (mayStop : Bool) (body : Block) {condition : Expression}
      (member : condition ∈ test)
    (inside : JumpIn jump (.expr condition)) : JumpIn jump (.turn test mayStop body)

/-- The statement that ends a phrase in this way without leaving the function. -/
def Completion.jump? : Completion → Option Statement
  | broke => some .breakStmt
  | continued => some .continueStmt
  | _ => none

/-- A phrase that ends with a jump to a loop around it contains that jump. -/
theorem Executes.jumpIn {phrase : Phrase} {completion : Completion}
    (run : Executes phrase completion)
    {jump : Statement} (jumps : completion.jump? = some jump) : JumpIn jump phrase := by
  induction run with
  | through way _ ih =>
    cases ih jumps with
    | seq member inside => exact .part way member inside
    | part impossible => cases impossible
  | done | stop | returnStmt | tryReturn | asyncBlock | leave | leaveFunction =>
    simp [Completion.jump?] at jumps
  | next _ _ _ ih =>
    cases ih jumps with
    | seq member inside => exact .seq (List.mem_cons_of_mem _ member) inside
    | part impossible => cases impossible
  | jump parts _ _ ih => exact .seq (List.mem_cons_self) (ih jumps)
  | breakStmt | continueStmt =>
    cases jumps
    exact .here
  | returnJump _ _ ih =>
    cases ih jumps with
    | seq member inside =>
      obtain ⟨value, listed, rfl⟩ := List.mem_map.mp member
      rw [Option.mem_toList.mp listed]
      exact .returned inside
    | part impossible => cases impossible
  | asyncJump _ _ ih => exact .asyncBlock (ih jumps)
  | testJump mayStop body _ _ ih =>
    cases ih jumps with
    | seq member inside =>
      obtain ⟨condition, listed, rfl⟩ := List.mem_map.mp member
      exact .cycle mayStop body listed inside
    | part impossible => cases impossible
  | enter _ _ _ ih =>
    cases ih jumps with
    | turn _ _ member inside => exact .cycle _ _ member inside
    | part impossible => cases impossible
  | again _ _ _ _ ih =>
    cases ih jumps with
    | cycle _ _ member inside => exact .turn _ _ member inside
    | part impossible => cases impossible

end SpectraLang

import SpectraLang.Syntax.Execution

/-! # The missing-return check

`blockGuaranteedReturn` decides whether a body may end without a return. A trailing loop counts as
never ending when `blockHasBreak` finds no break in it. That search does not enter every position of
a break, and a trailing async block counts as returning; where neither occurs the check is sound.
-/

namespace SpectraLang

open List

mutual

/-- `block_has_break`. -/
def blockHasBreak : Block → Bool
  | .mk statements => statementsHaveBreak statements

def statementsHaveBreak : List Statement → Bool
  | [] => false
  | statement :: rest => stmtHasBreak statement || statementsHaveBreak rest

/-- `stmt_has_break`. -/
def stmtHasBreak : Statement → Bool
  | .breakStmt => true
  | .switch _ cases default => casesHaveBreak cases || optionalHasBreak default
  | .expression value => exprHasBreak value
  | .ifLet _ _ thenBlock elseBlock => blockHasBreak thenBlock || optionalHasBreak elseBlock
  | _ => false

def casesHaveBreak : List SwitchCase → Bool
  | [] => false
  | .mk _ body :: rest => blockHasBreak body || casesHaveBreak rest

def optionalHasBreak : Option Block → Bool
  | none => false
  | some block => blockHasBreak block

/-- `expr_has_break`. -/
def exprHasBreak : Expression → Bool
  | .ifExpr _ thenBlock elifBlocks elseBlock =>
    blockHasBreak thenBlock || elifsHaveBreak elifBlocks || optionalHasBreak elseBlock
  | .unlessExpr _ thenBlock elseBlock => blockHasBreak thenBlock || optionalHasBreak elseBlock
  | .matchExpr _ arms => armsHaveBreak arms
  | .block body | .asyncBlock body | .differentiableBlock body => blockHasBreak body
  | .grouping inner => exprHasBreak inner
  | _ => false

def elifsHaveBreak : List ElifBlock → Bool
  | [] => false
  | .mk _ body :: rest => blockHasBreak body || elifsHaveBreak rest

def armsHaveBreak : List MatchArm → Bool
  | [] => false
  | .mk _ _ body :: rest => exprHasBreak body || armsHaveBreak rest

end

section Check

-- Whether the guard against deep nesting trips at a depth.
variable (tripped : Nat → Bool)

mutual

/-- `block_guaranteed_return`; a tripped guard means that the block may fall through. -/
def blockGuaranteedReturn (depth : Nat) : Block → Bool
  | .mk statements => !tripped (depth + 1) && statementsGuaranteedReturn (depth + 1) statements

/-- The loop of `block_guaranteed_return_inner` over the statements that are left. -/
def statementsGuaranteedReturn (depth : Nat) : List Statement → Bool
  | [] => false
  | statement :: rest =>
    statementGuaranteedReturn depth rest.isEmpty statement || statementsGuaranteedReturn depth rest

/-- `statement_guaranteed_return`. -/
def statementGuaranteedReturn (depth : Nat) (isLast : Bool) : Statement → Bool
  | .returnStmt _ => true
  | .expression value => isLast && expressionGuaranteedReturn depth value
  | .loop body => isLast && !blockHasBreak body
  | .switch _ cases default =>
    isLast && casesGuaranteedReturn depth cases && optionalGuaranteedReturn depth default
  | .ifLet _ _ thenBlock elseBlock =>
    isLast && blockGuaranteedReturn depth thenBlock && optionalGuaranteedReturn depth elseBlock
  | _ => false

def casesGuaranteedReturn (depth : Nat) : List SwitchCase → Bool
  | [] => true
  | .mk _ body :: rest => blockGuaranteedReturn depth body && casesGuaranteedReturn depth rest

def optionalGuaranteedReturn (depth : Nat) : Option Block → Bool
  | none => false
  | some block => blockGuaranteedReturn depth block

/-- `expression_guaranteed_return`. -/
def expressionGuaranteedReturn (depth : Nat) : Expression → Bool
  | .ifExpr _ thenBlock elifBlocks elseBlock =>
    blockGuaranteedReturn depth thenBlock && elifsGuaranteedReturn depth elifBlocks &&
      optionalGuaranteedReturn depth elseBlock
  | .unlessExpr _ thenBlock elseBlock =>
    blockGuaranteedReturn depth thenBlock && optionalGuaranteedReturn depth elseBlock
  | .matchExpr _ arms => !arms.isEmpty && armsGuaranteedReturn depth arms
  | .block body | .asyncBlock body => blockGuaranteedReturn depth body
  | _ => false

def elifsGuaranteedReturn (depth : Nat) : List ElifBlock → Bool
  | [] => true
  | .mk _ body :: rest => blockGuaranteedReturn depth body && elifsGuaranteedReturn depth rest

def armsGuaranteedReturn (depth : Nat) : List MatchArm → Bool
  | [] => true
  | .mk _ _ body :: rest => expressionGuaranteedReturn depth body && armsGuaranteedReturn depth rest

end

end Check

section Families
variable {tripped : Nat → Bool} {depth : Nat}

theorem casesGuaranteedReturn_eq (cases : List SwitchCase) :
    casesGuaranteedReturn tripped depth cases = cases.all fun case => blockGuaranteedReturn tripped
      depth case.body := by
  induction cases with
  | nil => rfl
  | cons case rest ih =>
    cases case
    rw [casesGuaranteedReturn, ih]
    rfl

theorem elifsGuaranteedReturn_eq (elifs : List ElifBlock) :
    elifsGuaranteedReturn tripped depth elifs = elifs.all fun elif => blockGuaranteedReturn tripped
      depth elif.body := by
  induction elifs with
  | nil => rfl
  | cons elif rest ih =>
    cases elif
    rw [elifsGuaranteedReturn, ih]
    rfl

theorem armsGuaranteedReturn_eq (arms : List MatchArm) :
    armsGuaranteedReturn tripped depth arms = arms.all fun arm => expressionGuaranteedReturn tripped
      depth arm.body := by
  induction arms with
  | nil => rfl
  | cons arm rest ih =>
    cases arm
    rw [armsGuaranteedReturn, ih]
    rfl

end Families

section Soundness

variable {phrase part last : Phrase} {parts : List Phrase} {completion : Completion}

/-- Control can reach the second phrase as the last one of the first: what is evaluated before it
can complete. -/
inductive Ends : Phrase → Phrase → Prop where
  | refl (phrase : Phrase) : Ends phrase phrase
  | statement {statement : Statement} {last : Phrase} (ends : Ends (.statement statement) last) :
    Ends (.statements [statement]) last
  | through {phrase part last : Phrase} {before : List Phrase}
      (way : Takes phrase (before ++ [part]))
    (reached : Executes (.seq before) .normal) (ends : Ends part last) : Ends phrase last

theorem Executes.append {before after : List Phrase} (first : Executes (.seq before) .normal)
    (rest : Executes (.seq after) completion) : Executes (.seq (before ++ after)) completion := by
  induction before with
  | nil => exact rest
  | cons part before ih =>
    cases first with
    | through way => cases way
    | next here later => exact .next here (ih later)
    | jump _ _ jumps => exact absurd rfl jumps

theorem Executes.before {before after : List Phrase}
    (run : Executes (.seq (before ++ after)) .normal) :
    Executes (.seq before) .normal := by
  induction before with
  | nil => exact .done
  | cons part before ih =>
    cases run with
    | through way => cases way
    | next here later => exact .next here (ih later)
    | jump _ _ jumps => exact absurd rfl jumps

/-- What completes normally as the last phrase lets the whole complete normally. -/
theorem Ends.normal (ends : Ends phrase last) (run : Executes last .normal) :
    Executes phrase .normal := by
  induction ends with
  | refl => exact run
  | statement _ ih =>
    exact .through (.cons _ []) (.next (ih run) (.next (.through .nil .done) .done))
  | through way reached _ ih => exact .through way (reached.append (.next (ih run) .done))

/-- No async block can be reached as the last phrase, and the search finds a break in every loop
that can and whose body can break out of it. -/
structure PlainEnds (phrase : Phrase) : Prop where
  noAsync : ∀ body, ¬Ends phrase (.expr (.asyncBlock body))
  loops : ∀ body, Ends phrase (.statement (.loop body)) → Executes (.block body) .broke →
    blockHasBreak body

theorem PlainEnds.of_ends (plain : PlainEnds phrase)
    (inside : ∀ last, Ends part last → Ends phrase last) :
    PlainEnds part :=
  ⟨fun body ends => plain.noAsync body (inside _ ends), fun body ends => plain.loops body
    (inside _ ends)⟩

/-- The last part of a way that completes normally. -/
theorem PlainEnds.through {before : List Phrase} (plain : PlainEnds phrase)
    (way : Takes phrase parts)
    (run : Executes (.seq parts) .normal) (split : parts = before ++ [part]) : PlainEnds part := by
  subst split
  exact plain.of_ends fun _ ends => .through way run.before ends

variable {tripped : Nat → Bool}

/-- The phrase cannot complete normally as far as the check tells. -/
inductive Guaranteed (tripped : Nat → Bool) : Phrase → Prop where
  | expr {depth : Nat} {expression : Expression}
      (checked : expressionGuaranteedReturn tripped depth expression)
    (plain : PlainEnds (.expr expression)) : Guaranteed tripped (.expr expression)
  | block {depth : Nat} {block : Block} (checked : blockGuaranteedReturn tripped depth block)
    (plain : PlainEnds (.block block)) : Guaranteed tripped (.block block)
  | statements {depth : Nat} {statements : List Statement}
      (checked : statementsGuaranteedReturn tripped depth statements)
    (plain : PlainEnds (.statements statements)) : Guaranteed tripped (.statements statements)
  | statement {depth : Nat} {isLast : Bool} {statement : Statement}
    (checked : statementGuaranteedReturn tripped depth isLast statement)
    (plain : isLast → PlainEnds (.statement statement)) : Guaranteed tripped (.statement statement)
  | seq {part : Phrase} {parts : List Phrase} (member : part ∈ parts)
      (inside : Guaranteed tripped part) :
    Guaranteed tripped (.seq parts)
  | cycle (test : List Expression) {body : Block} (endless : ¬Executes (.block body) .broke) :
    Guaranteed tripped (.cycle test false body)
  | turn (test : List Expression) {body : Block} (endless : ¬Executes (.block body) .broke) :
    Guaranteed tripped (.turn test false body)

variable {statement : Statement}

namespace Guaranteed

variable {depth : Nat}

section
variable {before : List Phrase} (way : Takes phrase parts) (run : Executes (.seq parts) .normal)
  (plain : PlainEnds phrase)
include way run plain

/-- A branch that the check has looked into, after some other parts. -/
theorem of_branch {chosen : Block} (split : parts = before ++ [.block chosen])
    (checked : blockGuaranteedReturn tripped depth chosen) : Guaranteed tripped (.seq parts) :=
  .seq (by simp [split]) (.block checked (plain.through way run split))

/-- The else branch, which the check requires to exist. -/
theorem of_else {elseBlock : Option Block} (split : parts = before ++ elseBlock.toList.map .block)
    (checked : optionalGuaranteedReturn tripped depth elseBlock) :
      Guaranteed tripped (.seq parts) := by
  cases elseBlock with
  | none => simp [optionalGuaranteedReturn] at checked
  | some block => exact of_branch way run plain split checked

end

theorem takes_expr {expression : Expression} (way : Takes (.expr expression) parts)
    (run : Executes (.seq parts) .normal)
      (checked : expressionGuaranteedReturn tripped depth expression)
    (plain : PlainEnds (.expr expression)) : Guaranteed tripped (.seq parts) := by
  cases way with
  | operands all =>
    cases expression <;> simp [expressionGuaranteedReturn, Expression.operands?] at checked all
  | shortCircuit | differentiableBlock => simp [expressionGuaranteedReturn] at checked
  | block body =>
    rw [expressionGuaranteedReturn] at checked
    exact of_branch (.block body) run plain (List.nil_append _).symm checked
  | ifThen condition thenBlock elifBlocks elseBlock =>
    simp only [expressionGuaranteedReturn, Bool.and_eq_true] at checked
    exact of_branch (.ifThen ..) run plain (List.singleton_append).symm checked.1.1
  | @ifElif condition thenBlock elifBlocks before after chosen elseBlock split =>
    simp only [expressionGuaranteedReturn, Bool.and_eq_true, elifsGuaranteedReturn_eq, all_eq_true]
      at checked
    exact of_branch (.ifElif _ _ _ split) run plain (append_cons ..)
      (checked.1.2 chosen (by simp [split]))
  | ifElse condition thenBlock elifBlocks elseBlock =>
    simp only [expressionGuaranteedReturn, Bool.and_eq_true] at checked
    exact of_else (.ifElse ..) run plain rfl checked.2
  | unlessThen condition thenBlock elseBlock =>
    simp only [expressionGuaranteedReturn, Bool.and_eq_true] at checked
    exact of_branch (.unlessThen ..) run plain (List.singleton_append).symm checked.1
  | unlessElse condition thenBlock elseBlock =>
    simp only [expressionGuaranteedReturn, Bool.and_eq_true] at checked
    exact of_else (.unlessElse ..) run plain (List.singleton_append).symm checked.2
  | @arm scrutinee arms before after chosen guards split tried =>
    simp only [expressionGuaranteedReturn, Bool.and_eq_true, armsGuaranteedReturn_eq, all_eq_true]
      at checked
    exact .seq (mem_append_right _ (mem_singleton_self _))
      (.expr (checked.2 chosen (by simp [split]))
        (plain.through (.arm scrutinee split tried) run rfl))

theorem takes_statement {isLast : Bool} (way : Takes (.statement statement) parts)
    (run : Executes (.seq parts) .normal)
      (checked : statementGuaranteedReturn tripped depth isLast statement)
    (plain : isLast → PlainEnds (.statement statement)) : Guaranteed tripped (.seq parts) := by
  cases way with
  | letStmt | assignment | whileLoop | doWhile | forLoop | whileLet =>
    simp [statementGuaranteedReturn] at checked
  | expression value =>
    simp only [statementGuaranteedReturn, Bool.and_eq_true] at checked
    exact .seq (mem_singleton_self _)
      (.expr checked.2 ((plain checked.1).through (.expression value) run (List.nil_append _).symm))
  | loop body =>
    simp only [statementGuaranteedReturn, Bool.and_eq_true, Bool.not_eq_true'] at checked
    refine .seq (mem_singleton_self _) (.turn [] fun broken => ?_)
    have found := (plain checked.1).loops body (.refl _) broken
    rw [checked.2] at found
    cases found
  | @case value cases chosen default member =>
    simp only [statementGuaranteedReturn, Bool.and_eq_true, casesGuaranteedReturn_eq, all_eq_true]
      at checked
    exact of_branch (.case value default member) run (plain checked.1.1)
      (List.singleton_append).symm (checked.1.2 chosen member)
  | default value cases default =>
    simp only [statementGuaranteedReturn, Bool.and_eq_true] at checked
    exact of_else (.default ..) run (plain checked.1.1) (List.singleton_append).symm checked.2
  | ifLetThen pattern value thenBlock elseBlock =>
    simp only [statementGuaranteedReturn, Bool.and_eq_true] at checked
    exact of_branch (.ifLetThen ..) run (plain checked.1.1) (List.singleton_append).symm checked.1.2
  | ifLetElse pattern value thenBlock elseBlock =>
    simp only [statementGuaranteedReturn, Bool.and_eq_true] at checked
    exact of_else (.ifLetElse ..) run (plain checked.1.1) (List.singleton_append).symm checked.2

/-- On every way through a guaranteed phrase that completes normally some part is guaranteed. -/
theorem takes (guaranteed : Guaranteed tripped phrase) (way : Takes phrase parts)
    (run : Executes (.seq parts) .normal) : Guaranteed tripped (.seq parts) := by
  cases guaranteed with
  | expr checked plain => exact takes_expr way run checked plain
  | statement checked plain => exact takes_statement way run checked plain
  | seq | cycle | turn => cases way
  | @block depth block checked plain =>
    cases way
    obtain ⟨statements⟩ := block
    simp only [blockGuaranteedReturn, Bool.and_eq_true] at checked
    exact .seq (mem_singleton_self _)
      (.statements checked.2 (plain.through (.statements _) run (List.nil_append _).symm))
  | @statements depth statements checked plain =>
    cases way with
    | nil => simp [statementsGuaranteedReturn] at checked
    | cons first rest =>
      simp only [statementsGuaranteedReturn, Bool.or_eq_true] at checked
      rcases checked with here | later
      · refine .seq mem_cons_self (.statement here fun isLast => plain.of_ends fun last ends => ?_)
        obtain rfl := List.isEmpty_iff.mp isLast
        exact .statement ends
      · exact .seq (mem_cons_of_mem _ (mem_singleton_self _))
          (.statements later (plain.through (.cons first rest) run (List.singleton_append).symm))

/-- A guaranteed phrase does not complete normally. -/
theorem not_normal (run : Executes phrase completion) (guaranteed : Guaranteed tripped phrase) :
    completion ≠ .normal := by
  induction run with
  | through way run ih =>
    rintro rfl
    exact ih (guaranteed.takes way run) rfl
  | done =>
    cases guaranteed with
    | seq member => simp at member
  | next _ _ firstIh restIh =>
    cases guaranteed with
    | seq member inside =>
      rcases mem_cons.mp member with rfl | later
      · exact absurd rfl (firstIh inside)
      · exact restIh (.seq later inside)
  | jump _ _ jumps | returnJump _ jumps | testJump _ _ _ jumps => exact jumps
  | breakStmt | continueStmt | returnStmt | tryReturn | leaveFunction => simp
  | asyncBlock body =>
    cases guaranteed with
    | expr checked plain => exact absurd (.refl _) (plain.noAsync body)
  | asyncJump _ leaves => rcases leaves with rfl | rfl <;> simp
  | stop => cases guaranteed
  | enter _ _ _ ih =>
    cases guaranteed with
    | cycle _ endless => exact ih (.turn _ endless)
  | again _ _ _ _ ih =>
    cases guaranteed with
    | turn _ endless => exact ih (.cycle _ endless)
  | leave _ _ run =>
    cases guaranteed with
    | turn _ endless => exact absurd run endless

end Guaranteed

/-- `return` in front of `async { return }`. -/
def afterReturn : Block :=
  .mk [.returnStmt none, .expression (.asyncBlock (.mk [.returnStmt none]))]

/-- The async block is not reached. -/
theorem afterReturn_plain : PlainEnds (.block afterReturn) := by
  have stops : ¬Executes (.seq [.statement (.returnStmt none)]) .normal := by
    intro run
    cases run with
    | through way => cases way
    | jump _ _ jumps => exact jumps rfl
    | next run =>
      cases run with
      | through way => cases way
      | returnJump _ jumps => exact jumps rfl
  have statements : ∀ last, Ends (.statements afterReturn.statements) last →
    last = .statements afterReturn.statements := by
    intro last ends
    cases ends with
    | refl => rfl
    | @through _ part _ before way reached _ =>
      generalize split : before ++ [part] = parts at way
      cases way
      obtain ⟨rfl, -⟩ := List.append_inj' (split.trans List.singleton_append.symm) rfl
      exact absurd reached stops
  have block : ∀ last, Ends (.block afterReturn) last →
      last = .block afterReturn ∨ last = .statements afterReturn.statements := by
    intro last ends
    cases ends with
    | refl => exact .inl rfl
    | @through _ part _ before way _ ends =>
      generalize split : before ++ [part] = parts at way
      cases way
      obtain ⟨-, same⟩ := List.append_inj' (split.trans (List.nil_append _).symm) rfl
      cases same
      exact .inr (statements last ends)
  exact ⟨fun body ends => (block _ ends).elim nofun nofun, fun body ends =>
    (block _ ends).elim nofun nofun⟩

/-- `loop { let x = { break } }`. -/
def hiddenBreak : Block :=
  .mk [.loop (.mk [.letStmt (.identifier "x") none (some (.block (.mk [.breakStmt])))])]

/-- `async { return }` as the value of the body. -/
def asyncTail : Block := .mk [.expression (.asyncBlock (.mk [.returnStmt none]))]

theorem Executes.single {phrase part : Phrase} (way : Takes phrase [part])
    (run : Executes part completion) : Executes phrase completion := by
  refine .through way ?_
  by_cases normal : completion = .normal
  · subst normal
    exact .next run .done
  · exact .jump [] run normal

theorem Executes.first (rest : List Statement)
    (run : Executes (.statement statement) completion) (jumps : completion ≠ .normal) :
    Executes (.block (.mk (statement :: rest))) completion :=
  .single (.statements _) (.through (.cons statement rest) (.jump _ run jumps))

theorem Executes.only (run : Executes (.statement statement) .normal) :
    Executes (.block (.mk [statement])) .normal :=
  .single (.statements _)
    (.through (.cons statement []) (.next run (.next (.through .nil .done) .done)))

end Soundness

end SpectraLang

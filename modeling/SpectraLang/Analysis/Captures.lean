import SpectraLang.Syntax.Walk

/-! # Assignments to captured variables

A lambda captures by value, so the analyzer rejects assignments to captured variables. It intersects
the names the body captures, by the scopes of the whole body, with the names it finds assigned; that
search ignores scopes and enters statements, blocks and `if` branches only.
-/

namespace SpectraLang

open List

/-- The visitor of `collect_capture_names_expr`: names without a local binding that resolve
outside. -/
def captureVisitor (visible : List String) : Visitor (List String) String where
  read locals name := if name ∉ locals ∧ name ∈ visible then [name] else []
  assign locals name := if name ∉ locals ∧ name ∈ visible then [name] else []
  lambda _ _ _ := []
  bind locals names := names ++ locals
  enter locals params := params ++ locals

def collectLambdaCaptureNames (visible params : List String) (body : Expression) : List String :=
  (captureVisitor visible).expression params body

mutual

def collectAssignedNamesInExpression : Expression → List String
  | .block body | .asyncBlock body => collectAssignedNamesInBlock body
  | .ifExpr _ thenBlock elifBlocks elseBlock =>
    collectAssignedNamesInBlock thenBlock ++ collectAssignedNamesInElifs elifBlocks
      ++ collectAssignedNamesInOptional elseBlock
  | _ => []

def collectAssignedNamesInBlock : Block → List String
  | .mk statements => collectAssignedNamesInStatements statements

def collectAssignedNamesInStatements : List Statement → List String
  | [] => []
  | statement :: rest =>
    collectAssignedNamesInStatement statement ++ collectAssignedNamesInStatements rest

def collectAssignedNamesInElifs : List ElifBlock → List String
  | [] => []
  | .mk _ body :: rest => collectAssignedNamesInBlock body ++ collectAssignedNamesInElifs rest

def collectAssignedNamesInOptional : Option Block → List String
  | none => []
  | some body => collectAssignedNamesInBlock body

def collectAssignedNamesInCases : List SwitchCase → List String
  | [] => []
  | .mk _ body :: rest => collectAssignedNamesInBlock body ++ collectAssignedNamesInCases rest

def collectAssignedNamesInValue : Option Expression → List String
  | none => []
  | some value => collectAssignedNamesInExpression value

def collectAssignedNamesInStatement : Statement → List String
  | .assignment (.identifier name) value => name :: collectAssignedNamesInExpression value
  | .assignment _ value => collectAssignedNamesInExpression value
  | .letStmt _ _ value | .returnStmt value => collectAssignedNamesInValue value
  | .expression value => collectAssignedNamesInExpression value
  | .whileLoop _ body | .doWhile body _ | .forLoop _ _ body | .loop body | .whileLet _ _ body =>
    collectAssignedNamesInBlock body
  | .ifLet _ _ thenBlock elseBlock =>
    collectAssignedNamesInBlock thenBlock ++ collectAssignedNamesInOptional elseBlock
  | .switch _ cases default =>
    collectAssignedNamesInCases cases ++ collectAssignedNamesInOptional default
  | .breakStmt | .continueStmt => []

end

/-- A lambda the analysis reaches, with the names that resolve where it stands. -/
structure LambdaSite where
  visible : List String
  params : List String
  body : Expression

namespace LambdaSite

def captures (site : LambdaSite) : List String :=
  collectLambdaCaptureNames site.visible site.params site.body

/-- The errors recorded when the lambda itself is analyzed. -/
def errors (site : LambdaSite) : List String :=
  ((collectAssignedNamesInExpression site.body).filter (· ∈ site.captures)).map fun name =>
    "Cannot assign to captured variable '" ++ name ++ "' inside closure; captures are by value"

end LambdaSite

/-- The lambdas of an expression as the analysis meets them, with its scopes. -/
def siteVisitor : Visitor (List String) LambdaSite where
  read _ _ := []
  assign _ _ := []
  lambda visible params body := [⟨visible, params, body⟩]
  bind visible names := names ++ visible
  enter visible params := params ++ visible

def lambdaSites (visible : List String) (value : Expression) : List LambdaSite :=
  siteVisitor.expression visible value

/-- The captured-assignment errors of analyzing an expression. -/
def capturedAssignmentErrors (visible : List String) (value : Expression) : List String :=
  (lambdaSites visible value).flatMap LambdaSite.errors

/-- Records the assignments of a lambda body outside of nested lambdas, where the scope is `none`,
that `keep` selects by the names bound inside the lambda at that point. -/
def ownVisitor (keep : List String → String → Bool) : Visitor (Option (List String)) String where
  read _ _ := []
  assign scope name := if scope.any (keep · name) then [name] else []
  lambda _ _ _ := []
  bind scope names := scope.map (names ++ ·)
  enter _ _ := none

namespace LambdaSite

def ownAssignments (site : LambdaSite) (keep : List String → String → Bool) : List String :=
  (ownVisitor keep).expression (some site.params) site.body

/-- Targets of assignments that refer to a variable declared outside the lambda. -/
def outerAssignments (site : LambdaSite) : List String :=
  site.ownAssignments fun inner name => decide (name ∉ inner ∧ name ∈ site.visible)

/-- Targets of assignments that refer to a variable declared inside the lambda. -/
def innerAssignments (site : LambdaSite) : List String :=
  site.ownAssignments fun inner name => decide (name ∈ inner)

end LambdaSite

/-- No assignment stands in the expression, nested lambdas apart. -/
def assignmentFree (value : Expression) : Bool :=
  ((ownVisitor fun _ _ => true).expression (some []) value).isEmpty

mutual

/-- Assignments stand only where statements are collected from: not in conditions, operands,
arguments, match arms, `unless`, parentheses or differentiable blocks. -/
def plainExpression : Expression → Bool
  | .block body | .asyncBlock body => plainBlock body
  | .ifExpr condition thenBlock elifBlocks elseBlock =>
    assignmentFree condition && plainBlock thenBlock && plainElifs elifBlocks && plainOptional
      elseBlock
  | value => assignmentFree value

def plainBlock : Block → Bool
  | .mk statements => plainStatements statements

def plainStatements : List Statement → Bool
  | [] => true
  | statement :: rest => plainStatement statement && plainStatements rest

def plainElifs : List ElifBlock → Bool
  | [] => true
  | .mk condition body :: rest => assignmentFree condition && plainBlock body && plainElifs rest

def plainOptional : Option Block → Bool
  | none => true
  | some body => plainBlock body

def plainCases : List SwitchCase → Bool
  | [] => true
  | .mk pattern body :: rest => assignmentFree pattern && plainBlock body && plainCases rest

def plainValue : Option Expression → Bool
  | none => true
  | some value => plainExpression value

def plainStatement : Statement → Bool
  | .assignment (.identifier _) value => plainExpression value
  | .assignment (.indexAccess array index) value =>
    assignmentFree array && assignmentFree index && plainExpression value
  | .assignment (.fieldAccess object _) value => assignmentFree object && plainExpression value
  | .letStmt _ _ value | .returnStmt value => plainValue value
  | .expression value => plainExpression value
  | .whileLoop condition body | .doWhile body condition | .forLoop _ condition body |
      .whileLet _ condition body =>
    assignmentFree condition && plainBlock body
  | .loop body => plainBlock body
  | .ifLet _ value thenBlock elseBlock =>
    assignmentFree value && plainBlock thenBlock && plainOptional elseBlock
  | .switch value cases default => assignmentFree value && plainCases cases && plainOptional default
  | .breakStmt | .continueStmt => true

end

variable {name : String}

section Collected
variable {keep : List String → String → Bool}

theorem ownVisitor_follows_all : (ownVisitor keep).Follows (ownVisitor fun _ _ => true)
    (fun scope scope' => scope.isSome → scope'.isSome) (fun name name' => name = name') where
  read _ _ := .nil
  assign := by
    intro scope scope' isRelated name event member
    simp only [ownVisitor] at member ⊢
    split at member
    · next kept =>
      obtain ⟨inner, rfl, _⟩ := (Option.any_eq_true _ _).mp kept
      obtain ⟨inner', rfl⟩ := Option.isSome_iff_exists.mp (isRelated rfl)
      exact ⟨event, by simpa using member, rfl⟩
    · simp at member
  lambda _ _ _ := .nil
  bind isRelated names := by simpa [ownVisitor] using isRelated
  enter _ _ := by simp [ownVisitor]

theorem not_mem_of_assignmentFree {value : Expression} (free : assignmentFree value = true)
    {scope : Option (List String)} : name ∉ (ownVisitor keep).expression scope value := by
  intro member
  have isRelated : scope.isSome → (some ([] : List String)).isSome := fun _ => rfl
  obtain ⟨other, isOther, _⟩ := ownVisitor_follows_all.expression value isRelated name member
  beta_reduce at isOther
  rw [List.isEmpty_iff.mp free] at isOther
  simp at isOther

/-- The names of a part are targets of assignments in it, whichever are selected, and where the part
is plain it records no others. -/
structure Collects (plain : Bool) (walk : Visitor (Option (List String)) String →
    Option (List String) → List String) (names : List String) : Prop where
  recorded : plain = true → ∀ keep scope, walk (ownVisitor keep) scope ⊆ names
  assigned : ∀ name ∈ names, ∀ inner, ∃ bound, ∀ keep, keep bound name = true →
    name ∈ walk (ownVisitor keep) (some inner)

namespace Collects

variable {plain also : Bool} {walk next : Visitor (Option (List String)) String →
  Option (List String) → List String} {names more : List String}

theorem nil : Collects true (fun _ _ => []) [] := ⟨fun _ _ _ => Subset.refl _, nofun⟩

theorem free (value : Expression) : Collects (assignmentFree value) (·.expression · value) [] :=
  ⟨fun free _ _ _ member => absurd member (not_mem_of_assignmentFree free), nofun⟩

theorem assign (target : String) : Collects true (·.assign · target) [target] where
  recorded _ keep scope other member := by
    simp only [ownVisitor] at member
    split at member
    · exact member
    · simp at member
  assigned name member inner := by
    obtain rfl := mem_singleton.mp member
    exact ⟨inner, fun keep kept => by simp [ownVisitor, kept]⟩

theorem append (first : Collects plain walk names) (second : Collects also next more) :
    Collects (plain && also) (fun own scope => walk own scope ++ next own scope)
      (names ++ more) where
  recorded both keep scope := by
    obtain ⟨isPlain, isAlso⟩ := Bool.and_eq_true_iff.mp both
    exact append_subset.mpr
      ⟨Subset.trans (first.recorded isPlain keep scope) (subset_append_left ..),
      Subset.trans (second.recorded isAlso keep scope) (subset_append_right ..)⟩
  assigned name member inner := by
    rcases mem_append.mp member with member | member
    · obtain ⟨bound, records⟩ := first.assigned name member inner
      exact ⟨bound, fun keep kept => mem_append_left _ (records keep kept)⟩
    · obtain ⟨bound, records⟩ := second.assigned name member inner
      exact ⟨bound, fun keep kept => mem_append_right _ (records keep kept)⟩

theorem bound (declared : List String) (collects : Collects plain walk names) :
    Collects plain (fun own scope => walk own (own.bind scope declared)) names :=
  ⟨fun isPlain keep scope => collects.recorded isPlain keep (scope.map (declared ++ ·)),
    fun name member inner => collects.assigned name member (declared ++ inner)⟩

end Collects

mutual

theorem collected_expression (value : Expression) : Collects (plainExpression value)
    (·.expression · value) (collectAssignedNamesInExpression value) := by
  cases value with
  | block body | asyncBlock body => exact collected_block body
  | ifExpr condition thenBlock elifBlocks elseBlock =>
    exact (((Collects.free condition).append (collected_block thenBlock)).append
      (collected_elifs elifBlocks)).append (collected_optional elseBlock)
  | _ => exact .free _

theorem collected_block : ∀ body : Block,
    Collects (plainBlock body) (·.block · body) (collectAssignedNamesInBlock body)
  | .mk statements => collected_statements statements

theorem collected_statements : ∀ statements : List Statement, Collects (plainStatements statements)
    (·.statements · statements) (collectAssignedNamesInStatements statements)
  | [] => .nil
  | statement :: rest =>
    (collected_statement statement).append ((collected_statements rest).bound _)

theorem collected_elifs : ∀ branches : List ElifBlock,
    Collects (plainElifs branches) (·.elifs · branches) (collectAssignedNamesInElifs branches)
  | [] => .nil
  | .mk condition body :: rest =>
    ((Collects.free condition).append (collected_block body)).append (collected_elifs rest)

theorem collected_optional : ∀ body : Option Block, Collects (plainOptional body)
    (·.optionalBlock · body) (collectAssignedNamesInOptional body)
  | none => .nil
  | some body => collected_block body

theorem collected_cases : ∀ cases : List SwitchCase,
    Collects (plainCases cases) (·.switchCases · cases) (collectAssignedNamesInCases cases)
  | [] => .nil
  | .mk pattern body :: rest =>
    ((Collects.free pattern).append (collected_block body)).append (collected_cases rest)

theorem collected_value : ∀ value : Option Expression, Collects (plainValue value)
    (·.optionalExpression · value) (collectAssignedNamesInValue value)
  | none => .nil
  | some value => collected_expression value

theorem collected_statement : ∀ statement : Statement,
    Collects (plainStatement statement) (·.statement · statement)
      (collectAssignedNamesInStatement statement)
  | .letStmt _ _ value | .returnStmt value => collected_value value
  | .expression value => collected_expression value
  | .assignment (.identifier name) value =>
    (Collects.assign name).append (collected_expression value)
  | .assignment (.indexAccess array index) value =>
    ((Collects.free array).append (.free index)).append (collected_expression value)
  | .assignment (.fieldAccess object _) value =>
    (Collects.free object).append (collected_expression value)
  | .whileLoop condition body => (Collects.free condition).append (collected_block body)
  | .forLoop _ condition body | .whileLet _ condition body =>
    (Collects.free condition).append ((collected_block body).bound _)
  | .doWhile body condition => by
    -- The condition is checked first and walked last.
    have both := (collected_block body).append (.free condition)
    rw [Bool.and_comm, append_nil] at both
    exact both
  | .loop body => collected_block body
  | .ifLet _ value thenBlock elseBlock =>
    ((Collects.free value).append ((collected_block thenBlock).bound _)).append
      (collected_optional elseBlock)
  | .switch value cases default =>
    ((Collects.free value).append (collected_cases cases)).append (collected_optional default)
  | .breakStmt | .continueStmt => .nil

end

end Collected

section Report

namespace LambdaSite

variable (visible : List String)

/-- An assignment to an outer variable is itself an occurrence that captures it. -/
theorem outerVisitor_follows_capture :
    (ownVisitor fun inner name => decide (name ∉ inner ∧ name ∈ visible)).Follows
      (captureVisitor visible)
      (fun scope locals => ∀ inner, scope = some inner → inner = locals)
        (fun name name' => name = name') where
  read _ _ := .nil
  assign := by
    intro scope locals isRelated name event member
    simp only [ownVisitor] at member
    split at member
    · next kept =>
      obtain ⟨inner, isInner, outside⟩ := (Option.any_eq_true _ _).mp kept
      obtain rfl := isRelated inner isInner
      obtain rfl := mem_singleton.mp member
      exact ⟨event, by simp [captureVisitor, of_decide_eq_true outside], rfl⟩
    · simp at member
  lambda _ _ _ := .nil
  bind := by
    intro scope locals isRelated names inner isInner
    obtain ⟨before, rfl, rfl⟩ := Option.map_eq_some_iff.mp isInner
    rw [isRelated before rfl]
    rfl
  enter _ _ := by simp [ownVisitor]

variable {site : LambdaSite}

theorem captures_of_outerAssignment (assigned : name ∈ site.outerAssignments) :
    name ∈ site.captures := by
  have isRelated : ∀ inner, some site.params = some inner → inner = site.params := by
    rintro inner ⟨⟩
    rfl
  obtain ⟨other, isCapture, rfl⟩ :=
    (outerVisitor_follows_capture site.visible).expression site.body isRelated name assigned
  exact isCapture

theorem resolved_covered (locals : List String) (name : String) :
    EventsCovered (fun name _ => name ∈ visible)
      (if name ∉ locals ∧ name ∈ visible then [name] else [])
      (if name ∉ locals ∧ name ∈ visible then [name] else []) := by
  intro event member
  refine ⟨event, member, ?_⟩
  split at member
  · next resolved =>
    obtain rfl := mem_singleton.mp member
    exact resolved.2
  · simp at member

theorem captureVisitor_follows_visible :
    (captureVisitor visible).Follows (captureVisitor visible) Eq
      (fun name _ => name ∈ visible) where
  read same name := same ▸ resolved_covered visible _ name
  assign same name := same ▸ resolved_covered visible _ name
  lambda _ _ _ := .nil
  bind same _ := same ▸ rfl
  enter same _ := same ▸ rfl

theorem visible_of_captures (captured : name ∈ site.captures) : name ∈ site.visible := by
  obtain ⟨_, _, isVisible⟩ := (captureVisitor_follows_visible site.visible).expression site.body rfl
    name captured
  exact isVisible

/-- An outer assignment that is collected is reported. -/
theorem errors_of_outerAssignment (plain : plainExpression site.body = true)
    (assigned : name ∈ site.outerAssignments) : site.errors ≠ [] := by
  have collected := (collected_expression site.body).recorded plain _ _ assigned
  have reported : name ∈ (collectAssignedNamesInExpression site.body).filter (· ∈ site.captures) :=
    mem_filter.mpr ⟨collected, decide_eq_true (captures_of_outerAssignment assigned)⟩
  exact ne_nil_of_mem (mem_map_of_mem reported)

/-- A report is about an outer assignment when no assigned inner variable has a captured name. -/
theorem outerAssignment_of_errors
    (unshadowed : ∀ name ∈ site.innerAssignments, name ∉ site.captures)
    (reported : site.errors ≠ []) : ∃ name, name ∈ site.outerAssignments := by
  obtain ⟨message, isMessage⟩ := exists_mem_of_ne_nil _ reported
  obtain ⟨name, member, -⟩ := mem_map.mp isMessage
  obtain ⟨collected, captured⟩ := mem_filter.mp member
  have captured := of_decide_eq_true captured
  obtain ⟨inner, recorded⟩ := (collected_expression site.body).assigned name collected site.params
  refine ⟨name, recorded _ (decide_eq_true ⟨?_, visible_of_captures captured⟩)⟩
  intro isInner
  exact unshadowed name (recorded _ (decide_eq_true isInner)) captured

end LambdaSite

/-- `|y| { if c { x = y }  |z| { let w = z; w = y } }`, where `x` and `c` are declared outside. -/
def assigningLambda : Expression :=
  .lambda false [⟨"y", none⟩] (.block (.mk [
    .expression (.ifExpr (.identifier "c") (.mk [.assignment (.identifier "x") (.identifier "y")])
      [] none),
    .expression (.lambda false [⟨"z", none⟩] (.block (.mk [
      .letStmt (.identifier "w") none (some (.identifier "z")),
      .assignment (.identifier "w") (.identifier "y")])))]))

end Report

end SpectraLang

import SpectraLang.IR

/-! # The Spectra abstract syntax tree

Types, expressions, statements and patterns as the parser produces them. Source spans are not
represented.
-/

namespace SpectraLang

/-- The semantic types, `ast::Type`. -/
inductive Ty where
  | int
  | float
  | exactInt (signed : Bool) (width : IntWidth)
  | exactFloat (width : FloatWidth)
  | bool
  | string
  | char
  | unit
  | unknown
  | array (elementType : Ty) (size : Option Nat)
  | tuple (elements : List Ty)
  | struct (name : String)
  | enum (name : String)
  | applied (name : String) (args : List Ty)
  | typeParameter (name : String)
  | selfType
  | fn (params : List Ty) (returnType : Ty)
  | task (output : Ty)
  | range
  | tensor (dtype : Ty) (rank : Option Nat) (dims : Option (List (Option Nat)))
      (layout device : Option String)
  | dynTrait (traitName : String) (autoTraits : List String)

inductive TypeAnnotation where
  | simple (segments : List String)
  | tuple (elements : List TypeAnnotation)
  | function (params : List TypeAnnotation) (returnType : TypeAnnotation)
  | generic (name : String) (typeArgs : List TypeAnnotation)
  | dynTrait (traitName : String) (autoTraits : List String)

inductive BinaryOperator where
  | add | subtract | multiply | divide | modulo
  | bitAnd | bitOr | bitXor | shl | shr
  | equal | notEqual | less | greater | lessEqual | greaterEqual
  | and | or
  deriving DecidableEq

inductive UnaryOperator where
  | negate | not | bitNot
  deriving DecidableEq

inductive CastMode where
  | checked | wrapping
  deriving DecidableEq

structure LambdaParam where
  name : String
  ty : Option TypeAnnotation

mutual

/-- `ast::ExpressionKind`. -/
inductive Expression where
  | identifier (name : String)
  | numberLiteral (text : String)
  | stringLiteral (text : String)
  | boolLiteral (value : Bool)
  | charLiteral (value : Char)
  | fString (parts : List FStringPart)
  | block (body : Block)
  | differentiableBlock (body : Block)
  | asyncBlock (body : Block)
  | binary (left : Expression) (operator : BinaryOperator) (right : Expression)
  | unary (operator : UnaryOperator) (operand : Expression)
  | tryExpr (operand : Expression)
  | await (operand : Expression)
  | range (start stop : Expression) (inclusive : Bool)
  | call (callee : Expression) (arguments : List Expression)
  | ifExpr (condition : Expression) (thenBlock : Block) (elifBlocks : List ElifBlock)
      (elseBlock : Option Block)
  | unlessExpr (condition : Expression) (thenBlock : Block) (elseBlock : Option Block)
  | grouping (inner : Expression)
  | arrayLiteral (elements : List Expression)
  | indexAccess (array index : Expression)
  | tupleLiteral (elements : List Expression)
  | tupleAccess (tuple : Expression) (index : Nat)
  | structLiteral (name : String) (typeArgs : List TypeAnnotation) (fields : List FieldValue)
  | fieldAccess (object : Expression) (field : String)
  | enumVariant (modulePath : Option String) (enumName : String) (typeArgs : List TypeAnnotation)
      (variantName : String)
      (data : Option (List Expression)) (structData : Option (List FieldValue))
  | matchExpr (scrutinee : Expression) (arms : List MatchArm)
  | methodCall (object : Expression) (methodName : String) (arguments : List Expression)
      (typeName : Option String)
  | lambda (isAsync : Bool) (params : List LambdaParam) (body : Expression)
  | cast (operand : Expression) (targetType : TypeAnnotation) (mode : CastMode)

inductive FStringPart where
  | literal (text : String)
  | interpolated (value : Expression)

/-- An `elif` condition with its block. -/
inductive ElifBlock where
  | mk (condition : Expression) (body : Block)

/-- A named field with its value. -/
inductive FieldValue where
  | mk (name : String) (value : Expression)

inductive MatchArm where
  | mk (pattern : Pattern) (guard : Option Expression) (body : Expression)

inductive Pattern where
  | wildcard
  | literal (value : Expression)
  | identifier (name : String)
  | tuple (elements : List Pattern)
  | struct (name : String) (fields : List FieldPattern)
  | enumVariant (modulePath : Option String) (enumName : String) (typeArgs : List TypeAnnotation)
      (variantName : String)
      (data : Option (List Pattern)) (structData : Option (List FieldPattern))
  | or (alternatives : List Pattern)

/-- A named field with its pattern. -/
inductive FieldPattern where
  | mk (name : String) (pattern : Pattern)

inductive Block where
  | mk (statements : List Statement)

/-- `ast::StatementKind`. -/
inductive Statement where
  | letStmt (pattern : Pattern) (ty : Option TypeAnnotation) (value : Option Expression)
  | assignment (target : LValue) (value : Expression)
  | returnStmt (value : Option Expression)
  | expression (value : Expression)
  | whileLoop (condition : Expression) (body : Block)
  | doWhile (body : Block) (condition : Expression)
  | forLoop (iterator : String) (iterable : Expression) (body : Block)
  | loop (body : Block)
  | switch (value : Expression) (cases : List SwitchCase) (default : Option Block)
  | breakStmt
  | continueStmt
  | ifLet (pattern : Pattern) (value : Expression) (thenBlock : Block) (elseBlock : Option Block)
  | whileLet (pattern : Pattern) (value : Expression) (body : Block)

inductive SwitchCase where
  | mk (pattern : Expression) (body : Block)

inductive LValue where
  | identifier (name : String)
  | indexAccess (array index : Expression)
  | fieldAccess (object : Expression) (field : String)

end

namespace Block

def statements : Block → List Statement
  | mk statements => statements

end Block

namespace ElifBlock

def condition : ElifBlock → Expression
  | mk condition _ => condition

def body : ElifBlock → Block
  | mk _ body => body

end ElifBlock

namespace FieldValue

def name : FieldValue → String
  | mk name _ => name

def value : FieldValue → Expression
  | mk _ value => value

end FieldValue

namespace FieldPattern

def name : FieldPattern → String
  | mk name _ => name

def pattern : FieldPattern → Pattern
  | mk _ pattern => pattern

end FieldPattern

namespace MatchArm

def pattern : MatchArm → Pattern
  | mk pattern _ _ => pattern

def guard : MatchArm → Option Expression
  | mk _ guard _ => guard

def body : MatchArm → Expression
  | mk _ _ body => body

end MatchArm

namespace SwitchCase

def pattern : SwitchCase → Expression
  | mk pattern _ => pattern

def body : SwitchCase → Block
  | mk _ body => body

end SwitchCase

end SpectraLang

import TemplateCompiler.NamingScript.Token

/-!
# Syntax of naming scripts

The tree of a script: statements made of expressions. Names and what else can
be reported keep their places; `Expr.start` is where an expression starts.
-/

namespace TemplateCompiler

namespace NamingScript

/-- An operator of one operand. -/
inductive UnaryOp where
  | not
  | minus
  | plus
deriving DecidableEq, Repr, Inhabited

def UnaryOp.text : UnaryOp → Bytes
  | .not => "not"
  | .minus => "-"
  | .plus => "+"

/-- An operator that compares two values. -/
inductive Comparison where
  | equal
  | unequal
  | less
  | more
  | atMost
  | atLeast
deriving DecidableEq, Repr, Inhabited

def Comparison.text : Comparison → Bytes
  | .equal => "=="
  | .unequal => "!="
  | .less => "<"
  | .more => ">"
  | .atMost => "<="
  | .atLeast => ">="

def Comparison.holds (op : Comparison) (o : Ordering) : Bool :=
  match op with
  | .equal => o == .eq
  | .unequal => o != .eq
  | .less => o == .lt
  | .more => o == .gt
  | .atMost => o != .gt
  | .atLeast => o != .lt

/-- An operator of two operands. -/
inductive BinaryOp where
  | or
  | and
  | compare (op : Comparison)
  | isIn
  | notIn
  | minus
  | plus
  | times
  | modulo
  | divide
  | floorDivide
deriving DecidableEq, Repr, Inhabited

namespace BinaryOp

def text : BinaryOp → Bytes
  | .or => "or"
  | .and => "and"
  | .compare op => op.text
  | .isIn => "in"
  | .notIn => "not in"
  | .minus => "-"
  | .plus => "+"
  | .times => "*"
  | .modulo => "%"
  | .divide => "/"
  | .floorDivide => "//"

/-- How tightly an operator binds. Level two is that of `not`. -/
def level : BinaryOp → Nat
  | .or => 0
  | .and => 1
  | .compare _ | .isIn | .notIn => 3
  | .minus | .plus => 4
  | .times | .modulo | .divide | .floorDivide => 5

/-- The operators that signs and words stand for. -/
def all : List BinaryOp :=
  [.or, .and, .compare .equal, .compare .unequal, .compare .less, .compare .more,
    .compare .atMost, .compare .atLeast, .isIn, .notIn, .minus, .plus, .times, .modulo, .divide,
    .floorDivide]

def ofText? (text : Bytes) : Option BinaryOp := all.find? (·.text == text)

end BinaryOp

/-- A name and its place. -/
structure Ident where
  spot : Spot
  name : Bytes
deriving DecidableEq, Repr, Inhabited

/-- An expression. -/
inductive Expr where
  | ident (id : Ident)
  | int (spot : Spot) (value : Nat)
  | float (spot : Spot) (value : Double)
  | string (spot : Spot) (value : Bytes)
  | list (spot : Spot) (items : List Expr)
  | tuple (spot : Spot) (items : List Expr)
  | dict (spot : Spot) (entries : List (Expr × Expr))
  | paren (spot : Spot) (inner : Expr)
  | unary (spot : Spot) (op : UnaryOp) (operand : Expr)
  | binary (op : BinaryOp) (left right : Expr)
  | conditional (test yes no : Expr)
  | index (object key : Expr)
  /-- A call. An argument is passed by place, or by a name. -/
  | call (function : Expr) (args : List (Option Ident × Expr))
deriving Repr

def Expr.start : Expr → Spot
  | .ident id => id.spot
  | .int spot _ | .float spot _ | .string spot _ | .list spot _ | .tuple spot _ | .dict spot _
  | .paren spot _ | .unary spot .. => spot
  | .binary _ left _ => left.start
  | .conditional _ yes _ => yes.start
  | .index object _ => object.start
  | .call function _ => function.start

/-- A statement. -/
inductive Stmt where
  | expr (value : Expr)
  | assign (target value : Expr)
  | define (id : Ident) (params : List Ident) (body : List Stmt)
  | giveBack (spot : Spot) (value : Option Expr)
  | choice (spot : Spot) (test : Expr) (yes no : List Stmt)
  | pass
deriving Repr

end NamingScript

end TemplateCompiler

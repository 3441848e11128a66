import TemplateCompiler.Text.Quoted

/-!
# Words of expressions

An expression is made of names, strings, numbers and operators. This module
has the words themselves; `Template.Token` cuts source into them.
-/

namespace TemplateCompiler

/-- The operators and brackets of expressions. -/
inductive Op where
  | identical | notIdentical | power | floorDivide | equal | notEqual | atMost | atLeast
  | plus | minus | times | divide | percent | tilde | less | greater | assign
  | openParen | closeParen | openBracket | closeBracket | openBrace | closeBrace
  | comma | dot | colon | bar
deriving DecidableEq, Repr, Inhabited

namespace Op

/-- All operators, longer ones before their beginnings. -/
def all : List Op :=
  [.identical, .notIdentical, .power, .floorDivide, .equal, .notEqual, .atMost, .atLeast,
   .plus, .minus, .times, .divide, .percent, .tilde, .less, .greater, .assign,
   .openParen, .closeParen, .openBracket, .closeBracket, .openBrace, .closeBrace,
   .comma, .dot, .colon, .bar]

/-- The spelling of an operator. -/
def text : Op → Bytes
  | .identical => "==="
  | .notIdentical => "!=="
  | .power => "**"
  | .floorDivide => "//"
  | .equal => "=="
  | .notEqual => "!="
  | .atMost => "<="
  | .atLeast => ">="
  | .plus => "+"
  | .minus => "-"
  | .times => "*"
  | .divide => "/"
  | .percent => "%"
  | .tilde => "~"
  | .less => "<"
  | .greater => ">"
  | .assign => "="
  | .openParen => "("
  | .closeParen => ")"
  | .openBracket => "["
  | .closeBracket => "]"
  | .openBrace => "\x7b"
  | .closeBrace => "\x7d"
  | .comma => ","
  | .dot => "."
  | .colon => ":"
  | .bar => "|"

def isOpening (op : Op) : Bool := op matches .openParen | .openBracket | .openBrace

def isClosing (op : Op) : Bool := op matches .closeParen | .closeBracket | .closeBrace

def isComparison (op : Op) : Bool :=
  op matches .equal | .identical | .notEqual | .notIdentical | .less | .greater | .atMost
    | .atLeast

end Op

/-- A word of an expression. Numbers keep their spelling. -/
inductive Lexeme where
  | name (text : Bytes)
  | string (value : Bytes)
  | int (digits : Bytes)
  | float (text : Bytes)
  | op (symbol : Op)
deriving DecidableEq, Repr, Inhabited

namespace Lexeme

/-- The wording of what stands at a place, `none` at the end. -/
def describe : Option Lexeme → Bytes
  | none => "end of expression"
  | some (.string value) => "string " ++ quoted value
  | some (.name text) | some (.int text) | some (.float text) => quoted text
  | some (.op o) => quoted o.text

end Lexeme

end TemplateCompiler

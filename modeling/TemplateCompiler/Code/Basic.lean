import TemplateCompiler.Template.Literal
import TemplateCompiler.Template.Position

/-!
# Generated code

Templates compile to code: expressions of the target script, and units, which
are its functions. A program is a root unit with the units of its partials.
Every piece of code may carry the `Location` of the template source it was
made from. `Code.missing` stands where there is no code, such as the body of
a function made of statements.
-/

namespace TemplateCompiler

/-- The template source that a piece of code was made from. `index` numbers
the pieces of one compilation in the order in which they were located. -/
structure Location where
  file : Bytes
  line : Int
  column : Int
  index : Nat
deriving DecidableEq, Repr, Inhabited

def Location.describe (l : Location) : Bytes :=
  l.file ++ ":" ++ Bytes.integer l.line ++ ":" ++ Bytes.integer l.column

/-- The kinds of literals. -/
inductive LiteralKind where
  | string | number | boolean | null | unknown
deriving DecidableEq, Repr, Inhabited

def LiteralKind.name : LiteralKind → Bytes
  | .string => "string"
  | .number => "number"
  | .boolean => "boolean"
  | .null => "null"
  | .unknown => "unknown"

/-- A name in code. A builtin one is known to the target script or names
another unit; it never stands for an input. -/
structure Identifier where
  loc : Option Location := none
  name : Bytes
  builtin : Bool := false
deriving DecidableEq, Repr, Inhabited

/-- A unit that another unit calls, with the partial it was made from. -/
structure ImportRef where
  loc : Option Location := none
  unit : Bytes
  source : Bytes
deriving DecidableEq, Repr, Inhabited

/-- A parameter that takes an object apart. `keys` is empty or holds, for
each name, the key it is read from; an empty key is the name's own
spelling. -/
structure Destructure where
  loc : Option Location := none
  names : List Identifier
  keys : List Bytes := []
deriving DecidableEq, Repr, Inhabited

namespace Destructure

/-- One more name, read from `key`. -/
def add (d : Destructure) (key : Bytes) (id : Identifier) : Destructure :=
  let keys :=
    if key == id.name && d.keys.isEmpty then []
    else d.keys ++ List.replicate (d.names.length - d.keys.length) []
      ++ [if key == id.name then [] else key]
  { d with names := d.names ++ [id], keys }

/-- Each name with the key it is read from. -/
def pairUp : List Identifier → List Bytes → List (Bytes × Identifier)
  | [], _ => []
  | id :: names, [] => (id.name, id) :: pairUp names []
  | id :: names, key :: keys =>
    ((if key.isEmpty then id.name else key), id) :: pairUp names keys

/-- The names of a pattern, each with the key it is read from. -/
def bindings (d : Destructure) : List (Bytes × Identifier) := pairUp d.names d.keys

end Destructure

/-- A function of the target script: its statements run, then its body is
returned. -/
structure UnitOf (code : Type) where
  loc : Option Location := none
  name : Bytes
  source : Bytes
  params : List code := []
  locals : List Bytes := []
  statements : List code := []
  body : code
  imports : List ImportRef := []
deriving Repr, Inhabited

/-- Code of the target script. -/
inductive Code where
  /-- No code. -/
  | missing
  | literal (loc : Option Location) (kind : LiteralKind) (value : Literal)
  | identifier (id : Identifier)
  /-- A member by name or, if computed, by the value of an expression. -/
  | member (loc : Option Location) (object property : Code) (computed : Bool)
  | call (loc : Option Location) (callee : Code) (args : List Code)
  | unary (loc : Option Location) (op : Bytes) (arg : Code)
  | binary (loc : Option Location) (op : Bytes) (left right : Code)
  /-- An operation that may not reach its right operand. -/
  | logical (loc : Option Location) (op : Bytes) (left right : Code)
  | conditional (loc : Option Location) (test consequent alternate : Code)
  | array (loc : Option Location) (elements : List Code)
  | object (loc : Option Location) (props : List (Bytes × Code))
  | sequence (loc : Option Location) (exprs : List Code)
  /-- Text with holes: runs of text and, between them, code. -/
  | interpolation (loc : Option Location) (tag : Bytes) (runs : List Bytes) (holes : List Code)
  | assign (loc : Option Location) (target value : Code)
  /-- A function expression with a body or, without one, a block. -/
  | lambda (loc : Option Location) (params : List Code) (body : Code) (block : List Code)
  | destructure (pattern : Destructure)
  | function (unit : UnitOf Code)
  | importRef (ref : ImportRef)
deriving Repr, Inhabited

/-- A function whose parts are code. -/
abbrev CodeUnit := UnitOf Code

/-- The result of a compilation: the root unit, and the units of partials in
an order in which each comes after those it calls. -/
structure Program where
  root : Option CodeUnit
  units : List CodeUnit := []
  imports : List ImportRef := []
deriving Repr, Inhabited

namespace Program

def allUnits (p : Program) : List CodeUnit := p.units ++ p.root.toList

end Program

namespace Code

def str (text : Bytes) : Code := .literal none .string (.string text)

def int (n : Int) : Code := .literal none .number (.int n)

def null : Code := .literal none .null .null

def ident (name : Bytes) : Code := .identifier { name }

/-- The literal for a value; lists of words have none. -/
def ofLiteral? : Literal → Option Code
  | .null => some null
  | .string s => some (str s)
  | .bool b => some (.literal none .boolean (.bool b))
  | .int n | .plain n => some (int n)
  | .float d => some (.literal none .number (.float d))
  | .words _ => none

/-- The kind that belongs to a value. -/
def kindOf : Literal → LiteralKind
  | .null => .null
  | .string _ | .words _ => .string
  | .bool _ => .boolean
  | .int _ | .plain _ | .float _ => .number

def loc : Code → Option Location
  | .missing => none
  | .literal l .. | .member l .. | .call l .. | .unary l .. | .binary l .. | .logical l ..
  | .conditional l .. | .array l .. | .object l .. | .sequence l .. | .interpolation l ..
  | .assign l .. | .lambda l .. => l
  | .identifier id => id.loc
  | .destructure d => d.loc
  | .function u => u.loc
  | .importRef r => r.loc

def kind : Code → Bytes
  | .missing => "nil"
  | .literal .. => "Literal"
  | .identifier .. => "Identifier"
  | .member .. => "Member"
  | .call .. => "Call"
  | .unary .. => "Unary"
  | .binary .. => "Binary"
  | .logical .. => "Logical"
  | .conditional .. => "Conditional"
  | .array .. => "Array"
  | .object .. => "Object"
  | .sequence .. => "Sequence"
  | .interpolation .. => "Interpolation"
  | .assign .. => "Assign"
  | .lambda .. => "Lambda"
  | .destructure .. => "Destructure"
  | .function .. => "FunctionUnit"
  | .importRef .. => "ImportRef"

def isMissing : Code → Bool
  | .missing => true
  | _ => false

end Code

end TemplateCompiler

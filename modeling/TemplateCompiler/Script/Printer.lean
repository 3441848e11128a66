import TemplateCompiler.Script.Doc
import TemplateCompiler.Script.Names
import TemplateCompiler.Script.Quote

/-!
# Printing code

`Code.doc` prints an expression: parts are put in parentheses exactly where
they bind less tightly than their surroundings ask for. A mark stands in
front of every located part, inside its own parentheses. `CodeUnit.doc` prints
a function and `ImportRef.doc` an import.

Printing fails on code that is no expression and on malformed parts; the
first such place in the order of printing is reported.
-/

namespace TemplateCompiler

/-- Why code cannot be printed. -/
inductive PrintError where
  | missingExpression
  | invalidParameter (param : Code)
  | staticProperty (property : Code)
  | notExpression (code : Code)
  | runCount (runs holes : Nat)
  | noRoot
  | inUnit (name : Bytes) (cause : PrintError)
deriving Repr

def Code.typeName : Code → Bytes
  | .missing => "<nil>"
  | c => "*ir." ++ c.kind

def PrintError.message : PrintError → Bytes
  | .missingExpression => "missing expression"
  | .invalidParameter p => "invalid parameter " ++ p.typeName
  | .staticProperty p => "static member property must be an identifier, got " ++ p.typeName
  | .notExpression c => "cannot print " ++ c.typeName ++ " as an expression"
  | .runCount runs holes =>
    "interpolation has " ++ Bytes.decimal runs ++ " runs for " ++ Bytes.decimal holes ++ " holes"
  | .noRoot => "program has no root unit"
  | .inUnit name cause => "unit " ++ name ++ ": " ++ cause.message

/-- How tightly the forms of the script bind. -/
abbrev Precedence := Nat

namespace Precedence

def sequence : Precedence := 1

/-- Assignments and functions; also what stands between commas. -/
def assign : Precedence := 2

def conditional : Precedence := 3

def or : Precedence := 4

def and : Precedence := 5

def equality : Precedence := 9

/-- Other comparisons, and operators without an entry of their own. -/
def relation : Precedence := 10

def additive : Precedence := 12

def multiply : Precedence := 13

def exponent : Precedence := 14

def unary : Precedence := 15

/-- Calls, members and interpolations. -/
def call : Precedence := 18

/-- Everything that needs no parentheses. -/
def primary : Precedence := 20

/-- More than anything reaches: always in parentheses. -/
def always : Precedence := primary + 1

/-- How tightly a binary operator binds. -/
def ofBinary (op : Bytes) : Precedence :=
  if (["==", "!=", "===", "!=="] : List Bytes).contains op then equality
  else if (["+", "-"] : List Bytes).contains op then additive
  else if (["*", "/", "%"] : List Bytes).contains op then multiply
  else if op == "**" then exponent
  else relation

/-- How tightly a logical operator binds. -/
def ofLogical (op : Bytes) : Precedence := if op == "&&" then and else or

end Precedence

namespace Literal

/-- Whether a literal is written with a minus sign. A negative zero is not
below zero and does not count. -/
def isNegative : Literal → Bool
  | .int n => n < 0
  | .float d => d.isNegative
  | _ => false

def script : Literal → Bytes
  | .string s => Script.quote s
  | .null => "null"
  | value => value.text

end Literal

namespace Code

/-- How tightly a piece of code binds. -/
def precedence : Code → Precedence
  | .sequence .. => .sequence
  | .assign .. | .lambda .. => .assign
  | .conditional .. => .conditional
  | .logical _ op .. => .ofLogical op
  | .binary _ op .. => .ofBinary op
  | .unary .. => .unary
  | .literal _ _ value => if value.isNegative then .unary else .primary
  | .call .. | .member .. | .interpolation .. => .call
  | _ => .primary

/-- Whether the text of a piece of code starts with a sign. -/
def startsWithSign : Code → Bool
  | .unary _ op _ => op == "-" || op == "+"
  | .literal _ _ value => value.isNegative
  | _ => false

def isObject : Code → Bool
  | .object .. => true
  | _ => false

/-- How tightly the object of a member has to bind. A number is put in
parentheses, since its text would run into the dot. -/
def memberLevel : Code → Precedence
  | .literal _ .number _ => .always
  | _ => .call

/-- How tightly code has to bind that cannot start with a brace. -/
def braceless (least : Precedence) (c : Code) : Precedence :=
  if c.isObject then .always else least

/-- The operand levels of a binary operator: the right operand binds more
tightly. Powers associate to the right, and their base is no bare sign. -/
def operandLevels (op : Bytes) : Precedence × Precedence :=
  if op == "**" then (Precedence.unary + 1, .exponent)
  else (.ofBinary op, Precedence.ofBinary op + 1)

/-- `inner` is the text of `c`: marked, and in parentheses if `c` binds less
tightly than `least`. -/
def enclosed (least : Precedence) (c : Code) (inner : Doc) : Doc :=
  if c.precedence < least then Doc.ofText "(" ++ Doc.mark c.loc ++ inner ++ Doc.ofText ")"
  else Doc.mark c.loc ++ inner

/-- One name of a destructuring parameter. -/
def bindingDoc (key : Bytes) (id : Identifier) : Doc :=
  (if key == id.name then [] else Doc.ofText (key ++ ": ")) ++ Doc.mark id.loc ++ Doc.ofText id.name

def paramDoc (c : Code) : Except PrintError Doc :=
  match c with
  | .identifier id => .ok (Doc.mark id.loc ++ Doc.ofText id.name)
  | .destructure d =>
    .ok (Doc.mark d.loc ++ Doc.ofText "\x7b"
      ++ Doc.join ", " (d.bindings.map fun (key, id) => bindingDoc key id) ++ Doc.ofText "\x7d")
  | _ => .error (.invalidParameter c)

def paramsDoc (params : List Code) : Except PrintError Doc := do
  pure (Doc.join ", " (← params.mapM paramDoc))

def keyText (key : Bytes) : Bytes :=
  if Script.isIdentifier key then key else Script.quote key

/-- Whether a property is written as a bare name: a name under its own
spelling. -/
def isShorthand (key : Bytes) : Code → Bool
  | .identifier id => id.name == key && Script.isIdentifier key
  | _ => false

/-- Runs of text with holes between them. -/
def interleave : List Bytes → List Doc → Doc
  | [], _ => []
  | run :: runs, [] => Doc.ofText (Script.escapeRun run) ++ interleave runs []
  | run :: runs, hole :: holes =>
    Doc.ofText (Script.escapeRun run) ++ Doc.ofText "$\x7b" ++ hole ++ Doc.ofText "\x7d"
      ++ interleave runs holes

/-- The properties of an object in braces. -/
def braced : List Doc → Doc
  | [] => Doc.ofText "\x7b\x7d"
  | ds => Doc.ofText "\x7b " ++ Doc.join ", " ds ++ Doc.ofText " \x7d"

/-- The statements of a function expression in braces. -/
def blockDoc : List Doc → Doc
  | [] => Doc.ofText "\x7b\x7d"
  | ds => Doc.ofText "\x7b " ++ ds.flatMap (· ++ Doc.ofText " ") ++ Doc.ofText "\x7d"

mutual

/-- An expression, in parentheses if it binds less tightly than `least`. -/
def doc (least : Precedence) (c : Code) : Except PrintError Doc := do
  let inner ← match c with
    | .missing => throw .missingExpression
    | .literal _ _ value => pure (Doc.ofText value.script)
    | .identifier id => pure (Doc.ofText id.name)
    | .member _ target key computed => do
      let o ← target.doc target.memberLevel
      if computed then
        let p ← key.doc .sequence
        pure (o ++ Doc.ofText "[" ++ p ++ Doc.ofText "]")
      else
        match key with
        | .identifier id =>
          pure (o ++ Doc.ofText "." ++ Doc.mark id.loc ++ Doc.ofText id.name)
        | _ => throw (.staticProperty key)
    | .call _ callee args => do
      let f ← callee.doc .call
      let xs ← docs .assign args
      pure (f ++ Doc.ofText "(" ++ Doc.join ", " xs ++ Doc.ofText ")")
    | .unary _ op arg => do
      let x ← arg.doc .unary
      pure (Doc.ofText op ++ (if arg.startsWithSign then Doc.ofText " " else []) ++ x)
    | .binary _ op left right => do
      let l ← left.doc (operandLevels op).1
      let r ← right.doc (operandLevels op).2
      pure (l ++ Doc.ofText (" " ++ op ++ " ") ++ r)
    | .logical _ op left right => do
      let l ← left.doc (.ofLogical op)
      let r ← right.doc (Precedence.ofLogical op + 1)
      pure (l ++ Doc.ofText (" " ++ op ++ " ") ++ r)
    | .conditional _ test consequent alternate => do
      let t ← test.doc .or
      let a ← consequent.doc .assign
      let b ← alternate.doc .assign
      pure (t ++ Doc.ofText " ? " ++ a ++ Doc.ofText " : " ++ b)
    | .array _ elements => do
      let xs ← docs .assign elements
      pure (Doc.ofText "[" ++ Doc.join ", " xs ++ Doc.ofText "]")
    | .object _ props => do
      pure (braced (← propDocs props))
    | .sequence _ exprs => do
      pure (Doc.join ", " (← docs .assign exprs))
    | .interpolation _ tag runs holes => do
      if runs.length ≠ holes.length + 1 then
        throw (.runCount runs.length holes.length)
      let xs ← docs .sequence holes
      pure (Doc.ofText (tag ++ [Byte.backquote]) ++ interleave runs xs
        ++ Doc.ofText [Byte.backquote])
    | .assign _ target value => do
      let t ← target.doc .call
      let v ← value.doc .assign
      pure (t ++ Doc.ofText " = " ++ v)
    | .lambda _ params body block => do
      let head := Doc.ofText "(" ++ (← paramsDoc params) ++ Doc.ofText ") => "
      match body with
      | .missing => do pure (head ++ blockDoc (← statementDocs block))
      | _ => do pure (head ++ (← body.doc (body.braceless .assign)))
    | .destructure .. | .function .. | .importRef .. => throw (.notExpression c)
  pure (enclosed least c inner)

/-- Expressions, one document each. -/
def docs (least : Precedence) : List Code → Except PrintError (List Doc)
  | [] => pure []
  | c :: cs => do
    let d ← c.doc least
    let ds ← docs least cs
    pure (d :: ds)

/-- Statements, one document each. None starts with a brace. -/
def statementDocs : List Code → Except PrintError (List Doc)
  | [] => pure []
  | c :: cs => do
    let d ← c.doc (c.braceless .sequence)
    let ds ← statementDocs cs
    pure ((d ++ Doc.ofText ";") :: ds)

/-- The properties of an object, one document each. -/
def propDocs : List (Bytes × Code) → Except PrintError (List Doc)
  | [] => pure []
  | (key, c) :: props => do
    let d ← c.doc .assign
    let ds ← propDocs props
    pure ((if c.isShorthand key then d else Doc.ofText (keyText key) ++ Doc.ofText ": " ++ d) :: ds)

end

end Code

namespace ImportRef

/-- The import of a unit from the module of its name. -/
def doc (r : ImportRef) : Doc :=
  Doc.mark r.loc ++ Doc.ofText ("import \x7b " ++ r.unit ++ " \x7d from "
    ++ Script.quote ("./" ++ r.unit ++ ".js") ++ ";")

end ImportRef

namespace CodeUnit

/-- A function. Its lines are indented by `indent`. -/
def doc (indent : Bytes) (exported : Bool) (u : CodeUnit) : Except PrintError Doc := do
  let line (d : Doc) : Doc := Doc.ofText ("\n" ++ indent) ++ d
  let params ← Code.paramsDoc u.params
  let statements ← Code.statementDocs u.statements
  let body ← u.body.doc .sequence
  let locals :=
    if u.locals.isEmpty then [] else [Doc.ofText ("var " ++ Bytes.join ", " u.locals ++ ";")]
  let lines := locals ++ statements ++ [Doc.ofText "return " ++ body ++ Doc.ofText ";"]
  pure (Doc.mark u.loc ++ Doc.ofText (if exported then "export " else "")
    ++ Doc.ofText ("function " ++ u.name ++ "(") ++ params ++ Doc.ofText ") \x7b"
    ++ lines.flatMap line ++ Doc.ofText "\n\x7d")

end CodeUnit

end TemplateCompiler

import TemplateCompiler.Code.Basic
import TemplateCompiler.Yaml.Document

/-!
# Programs for inspection

`Program.dump` shows a program as a YAML document: each piece of code is a
mapping whose first key names its kind, and which ends with its location.
-/

namespace TemplateCompiler

open Yaml (Document)

/-- A mapping that ends with a location, if there is one. -/
def Location.close (loc : Option Location) (entries : List (Bytes × Document)) : Document :=
  .mapping (entries ++ loc.toList.map fun l => (Bytes.ofString "at", .plain l.describe))

def entryIf (wanted : Bool) (key : Bytes) (value : Document) : List (Bytes × Document) :=
  if wanted then [(key, value)] else []

/-- The words that show a destructuring parameter. -/
def Destructure.labels (d : Destructure) : List Bytes :=
  d.bindings.map fun (key, id) => if key == id.name then id.name else key ++ ": " ++ id.name

/-- The value of a literal; none for null. -/
def Literal.entries : Literal → List (Bytes × Document)
  | .string s => [("value", .quoted s)]
  | .null => []
  | value => [("value", .plain value.text)]

def ImportRef.document (r : ImportRef) : Document :=
  Location.close r.loc [("import", .plain r.unit), ("from", .quoted r.source)]

namespace Code

mutual

def document : Code → Document
  | .missing => .plain "null"
  | .literal loc kind value =>
    Location.close loc (("literal", .plain kind.name) :: value.entries)
  | .identifier id =>
    Location.close id.loc
      (("identifier", .plain id.name) :: entryIf id.builtin "builtin" (.plain "true"))
  | .member loc target key computed =>
    Location.close loc
      [("member", .plain (Literal.boolText computed)), ("object", target.document),
        ("property", key.document)]
  | .call loc callee args =>
    Location.close loc [("call", callee.document), ("args", .list (documents args))]
  | .unary loc op arg =>
    Location.close loc [("unary", .quoted op), ("arg", arg.document)]
  | .binary loc op left right =>
    Location.close loc
      [("binary", .quoted op), ("left", left.document), ("right", right.document)]
  | .logical loc op left right =>
    Location.close loc
      [("logical", .quoted op), ("left", left.document), ("right", right.document)]
  | .conditional loc test consequent alternate =>
    Location.close loc
      [("test", test.document), ("consequent", consequent.document),
        ("alternate", alternate.document)]
  | .array loc elements => Location.close loc [("array", .list (documents elements))]
  | .object loc props => Location.close loc [("object", .mapping (propDocuments props))]
  | .sequence loc exprs => Location.close loc [("sequence", .list (documents exprs))]
  | .interpolation loc tag runs holes =>
    Location.close loc
      [("interpolation", .plain tag), ("runs", .words runs), ("holes", .list (documents holes))]
  | .assign loc target value =>
    Location.close loc [("assign", target.document), ("value", value.document)]
  | .lambda loc params body block =>
    Location.close loc
      [("lambda", .list (documents params)),
        (match body with
          | .missing => ("block", .list (documents block))
          | _ => ("body", body.document))]
  | .destructure d => Location.close d.loc [("destructure", .words d.labels)]
  | .function ⟨loc, name, source, params, locals, statements, body, _⟩ =>
    Location.close loc <|
      entryIf true "unit" (.plain name) ++ entryIf (!source.isEmpty) "source" (.quoted source)
        ++ entryIf true "params" (.list (documents params))
        ++ entryIf (!locals.isEmpty) "locals" (.words locals)
        ++ entryIf (!statements.isEmpty) "statements" (.list (documents statements))
        ++ entryIf true "body" body.document
  | .importRef r => r.document

def documents : List Code → List Document
  | [] => []
  | c :: cs => c.document :: documents cs

/-- The values of an object as documents under their keys. -/
def propDocuments : List (Bytes × Code) → List (Bytes × Document)
  | [] => []
  | (key, c) :: props => (key, c.document) :: propDocuments props

end

end Code

namespace Program

def document (p : Program) : Document :=
  let units := p.units.map fun u => (Code.function u).document
  let imports := p.imports.map ImportRef.document
  let root := p.root.toList.map fun u => (Bytes.ofString "root", (Code.function u).document)
  .mapping <|
    entryIf (!units.isEmpty) "units" (.list units)
      ++ entryIf (!imports.isEmpty) "imports" (.list imports) ++ root

/-- A program as text for inspection. -/
def dump (p : Program) : Bytes := p.document.render

end Program

end TemplateCompiler

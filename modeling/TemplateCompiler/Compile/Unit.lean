import TemplateCompiler.Code.Builder
import TemplateCompiler.Code.Walk
import TemplateCompiler.Compile.Lower

/-!
# Compiling a template into a unit

The assignments that come before anything else of a template but text become
statements of its unit, and the rest becomes the unit's body. The names that
these need from outside are the unit's inputs: its first parameter takes them
out of an object. The names they assign are its locals.
-/

namespace TemplateCompiler

namespace Node

def children : Node → List Node
  | .list _ nodes => nodes
  | n => [n]

/-- The nodes of a template, each output replaced by its contents. -/
def flatten (nodes : List Node) : List Node :=
  nodes.flatMap fun
    | .output _ inner => inner
    | n => [n]

def isText : Node → Bool
  | .text .. => true
  | _ => false

def isAssignment : Node → Bool
  | .assign .. => true
  | _ => false

/-- The assignments that come before any node but text, and the nodes that
remain. -/
def hoist (nodes : List Node) : List Node × List Node :=
  let (front, rest) := nodes.span fun n => n.isText || n.isAssignment
  (front.filter isAssignment, front.filter isText ++ rest)

def lowerAssignment (site : Site) (n : Node) : Compile (List Code) :=
  match n with
  | .assign pos targets value body =>
    assignments site pos (assignedValue n value body (value.lower site) (body.lower site))
      (lowerTargets site targets)
  | _ => pure []

end Node

namespace CodeUnit

/-- Locates what has no location in a unit. -/
def stamp (file : Bytes) (pos : Position) (u : CodeUnit) : StateM Nat CodeUnit := do
  match ← (Code.function u).stamp file pos with
  | .function located => pure located
  | _ => pure u

/-- The inputs of a unit: each name under the template's spelling of it. -/
def inputs (free : List Bytes) : Destructure :=
  free.foldl (fun d name => d.add (Script.templateName name) { name }) { names := [] }

/-- The units that a unit calls: the known names in it that are units. -/
def callees (s : Session) (u : CodeUnit) : List ImportRef :=
  (Code.function u).preorder.filterMap fun
    | .identifier id =>
      if id.builtin then
        (s.entryOfUnit? id.name).map fun e => ⟨id.loc, e.unit, e.partialName⟩
      else none
    | _ => none

end CodeUnit

namespace Compile

/-- The unit `name` of a template tree. -/
def unit (o : CompileOptions) (site : Site) (name : Bytes) (tree : Node) : Compile CodeUnit := do
  let (sets, rest) := Node.hoist (Node.flatten tree.children)
  let statements ← sets.mapM (Node.lowerAssignment site)
  let parts ← Node.lowerParts site rest
  let body ← BodyPart.assemble site tree.pos parts
  let draft : CodeUnit := { name, source := site.file, statements := statements.flatten, body }
  let scope := Scope.ofUnit o.reserved draft
  let params := [.destructure (CodeUnit.inputs scope.free), .ident Script.filterNamespace]
  let imports := draft.callees (← get)
  let full : CodeUnit := imports.foldl CodeUnit.addImport { draft with params, locals := scope.declared }
  let u ← locating (full.stamp site.file tree.pos)
  debug "compiled unit" [("unit", u.name), ("source", u.source),
    ("inputs", LogRecord.listText scope.free), ("locals", LogRecord.listText scope.declared),
    ("imports", Bytes.decimal u.imports.length)]
  pure u

end Compile

end TemplateCompiler

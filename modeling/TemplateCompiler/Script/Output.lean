import TemplateCompiler.Script.Printer
import TemplateCompiler.SourceMap.Basic

/-!
# Output files

A piece of code printed on its own, and a program printed as files: all units
in one file, those of partials first and the root last, or, if it is split,
one module for each unit, which imports the units it calls.
-/

namespace TemplateCompiler

/-- How code is printed. -/
structure PrintOptions where
  /-- One level of indentation; two spaces if empty. -/
  indent : Bytes := []
  /-- Whether functions are exported. -/
  exported : Bool := false
  /-- Whether a source map is made. -/
  sourceMap : Bool := false
  /-- The name of the generated file. -/
  file : Bytes := []
  /-- Whether each unit gets a file of its own. -/
  split : Bool := false
deriving DecidableEq, Repr, Inhabited

namespace PrintOptions

def indentation (o : PrintOptions) : Bytes := if o.indent.isEmpty then "  " else o.indent

end PrintOptions

/-- A generated file. -/
structure OutputFile where
  name : Bytes
  code : Bytes
  sourceMap : Option SourceMap
deriving DecidableEq, Repr, Inhabited

namespace OutputFile

/-- The file `name` that holds a document. -/
def ofDoc (o : PrintOptions) (name : Bytes) (d : Doc) : OutputFile :=
  ⟨name, d.text, if o.sourceMap then some (SourceMap.ofMarks name d.marks) else none⟩

end OutputFile

namespace Code

/-- A piece of code on its own: a function, an import or an expression. -/
def print (o : PrintOptions) (c : Code) : Except PrintError OutputFile := do
  let d ← match c with
    | .function u => CodeUnit.doc o.indentation o.exported u
    | .importRef r => pure r.doc
    | _ => c.doc .sequence
  pure (.ofDoc o o.file d)

end Code

namespace CodeUnit

/-- A unit of a program; a failure names it. -/
def docIn (o : PrintOptions) (exported : Bool) (u : CodeUnit) : Except PrintError Doc :=
  (CodeUnit.doc o.indentation exported u).mapError (.inUnit u.name)

def moduleDoc (o : PrintOptions) (u : CodeUnit) : Except PrintError Doc := do
  let imports := u.imports.flatMap fun r => r.doc ++ Doc.ofText "\n"
  let gap := if u.imports.isEmpty then [] else Doc.ofText "\n"
  pure (imports ++ gap ++ (← docIn o true u) ++ Doc.ofText "\n")

end CodeUnit

namespace Program

/-- The units of a program as files of their own. The root's file is
`file`. -/
def printSplit (o : PrintOptions) (file : Bytes) (root : CodeUnit) (p : Program) :
    Except PrintError (List OutputFile) := do
  let units ← p.units.mapM fun u => do
    pure (OutputFile.ofDoc o (u.name ++ ".js") (← u.moduleDoc o))
  pure (units ++ [.ofDoc o file (← root.moduleDoc o)])

/-- All units of a program in one file. Only the root is exported. -/
def printJoined (o : PrintOptions) (file : Bytes) (root : CodeUnit) (p : Program) :
    Except PrintError (List OutputFile) := do
  let units ← p.units.mapM (·.docIn o false)
  let d := Doc.join "\n\n" (units ++ [← root.docIn o o.exported]) ++ Doc.ofText "\n"
  pure [.ofDoc o file d]

/-- The files of a program. Without a name in the options the root's name
gives the file's. -/
def print (o : PrintOptions) (p : Program) : Except PrintError (List OutputFile) :=
  match p.root with
  | none => .error .noRoot
  | some root =>
    let file := if o.file.isEmpty then root.name ++ ".js" else o.file
    if o.split then p.printSplit o file root else p.printJoined o file root

end Program

end TemplateCompiler

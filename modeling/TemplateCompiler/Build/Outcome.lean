import TemplateCompiler.Cache.Entry
import TemplateCompiler.Compile.Error
import TemplateCompiler.Files.Error
import TemplateCompiler.Files.Path
import TemplateCompiler.Script.Output

/-!
# Outcomes of a build

What a build makes of one root template: the generated files and a summary of
each unit, or the reason why there are none. A failed template does not stop
the build of the others.
-/

namespace TemplateCompiler

/-- What a build generates. -/
inductive Emit where
  /-- Script files. -/
  | script
  /-- The code in YAML. -/
  | code
  /-- The outline of the template. -/
  | outline
deriving DecidableEq, Repr, Inhabited

namespace Emit

/-- The word for what is generated. -/
def text : Emit → Bytes
  | .script => "js"
  | .code => "ir"
  | .outline => "ast"

/-- Everything that can be generated. -/
def all : List Emit := [.script, .code, .outline]

def ofText? (word : Bytes) : Option Emit := all.find? (·.text == word)

end Emit

/-- What a unit needs and assigns, under the names of the template. -/
structure UnitSummary where
  name : Bytes
  inputs : List Bytes
  locals : List Bytes
deriving DecidableEq, Repr, Inhabited

/-- Why a template is not built. -/
inductive TemplateFailure where
  /-- The file cannot be read. -/
  | unreadable (cause : FileError)
  /-- There is no tree for an outline. -/
  | malformed (cause : SyntaxError)
  /-- The template does not compile. -/
  | uncompiled (cause : CompileError)
  /-- The code cannot be printed. -/
  | unprintable (cause : PrintError)
deriving Repr

namespace TemplateFailure

def message : TemplateFailure → Bytes
  | .unreadable cause => cause.message
  | .malformed cause => cause.message
  | .uncompiled cause => cause.message
  | .unprintable cause => cause.message

/-- The file at fault and the position in it, if there is one. -/
def locate? (root : Bytes) : TemplateFailure → Option (Bytes × Position)
  | .malformed cause => some (root, cause.pos)
  | .uncompiled cause =>
    let (file, pos) := cause.locate root
    pos.map ((file, ·))
  | .unreadable _ | .unprintable _ => none

end TemplateFailure

/-- What is built of a template. -/
structure Built where
  files : List CachedFile
  units : List UnitSummary := []
  /-- Whether the files come from the cache. -/
  cached : Bool := false
deriving DecidableEq, Repr, Inhabited

/-- What a build makes of a template. -/
structure Outcome where
  path : Bytes
  /-- The source that was compiled, empty if the file cannot be read. -/
  source : Bytes := []
  result : Except TemplateFailure Built
deriving Repr

namespace Outcome

/-- The name of the template, after which its files are named. -/
def name (o : Outcome) : Bytes := Path.stem o.path

def built? (o : Outcome) : Option Built := o.result.toOption

/-- Why nothing was built, if so. -/
def failure? (o : Outcome) : Option TemplateFailure :=
  match o.result with
  | .ok _ => none
  | .error e => some e

end Outcome

end TemplateCompiler

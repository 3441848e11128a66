import TemplateCompiler.Template.SyntaxError

/-!
# Compile errors

Why a template does not compile. An error in a partial is wrapped once for
every partial on the way to it, so the wrapping spells out the include path;
`CompileError.locate` follows it to the file and position at fault. An include
cycle is never wrapped: it carries its own chain of names.
-/

namespace TemplateCompiler

/-- Why a template does not compile. -/
inductive CompileError where
  /-- The source is malformed. -/
  | malformed (cause : SyntaxError)
  /-- An error in the root template's file. -/
  | inFile (file : Bytes) (cause : CompileError)
  /-- An error in a partial. -/
  | inPartial (name : Bytes) (cause : CompileError)
  /-- A construct that cannot be compiled. -/
  | unsupported (kind : Bytes) (pos : Option Position) (reason : Bytes)
  /-- A comparison with several operators. -/
  | chainedComparison (ops : List Bytes) (pos : Position)
  /-- An include whose target is not known before the template runs. -/
  | dynamicInclude (kind : Bytes) (pos : Position)
  /-- An include of a partial that does not exist. -/
  | missingPartial (name file : Bytes) (pos : Position)
  /-- A partial that includes itself, directly or through others. -/
  | includeCycle (chain : List Bytes)
deriving DecidableEq, Repr, Inhabited

namespace CompileError

/-- A position in front of a message, if it is known. -/
def atPosition : Option Position → Bytes
  | some pos => pos.describe ++ ": "
  | none => []

/-- A reason behind a message, if there is one. -/
def becauseOf (reason : Bytes) : Bytes := if reason.isEmpty then [] else ": " ++ reason

def message : CompileError → Bytes
  | .malformed cause => cause.message
  | .inFile file cause => file ++ ": " ++ cause.message
  | .inPartial name cause => "partial " ++ quoted name ++ ": " ++ cause.message
  | .unsupported kind pos reason =>
    atPosition pos ++ "unsupported node " ++ kind ++ becauseOf reason
  | .chainedComparison ops pos =>
    pos.describe ++ ": chained comparison " ++ quoted (Bytes.join " " ops)
      ++ " is not supported, use 'and'"
  | .dynamicInclude kind pos =>
    pos.describe ++ ": include target must be a string literal, got " ++ kind
  | .missingPartial name file pos =>
    file ++ ":" ++ Bytes.decimal pos.line ++ ":" ++ Bytes.decimal pos.column
      ++ ": partial not found: " ++ name
  | .includeCycle chain => "include cycle: " ++ Bytes.join " -> " chain

/-- An error and the errors it wraps, the outermost first. -/
def chain : CompileError → List CompileError
  | e@(.inFile _ cause) | e@(.inPartial _ cause) => e :: cause.chain
  | e => [e]

/-- The error as it leaves the partial `name`: wrapped, unless it names that
partial already or is a cycle. -/
def leaving (name : Bytes) (e : CompileError) : CompileError :=
  match e with
  | .includeCycle _ => e
  | .inPartial inner _ => if inner == name then e else .inPartial name e
  | _ => .inPartial name e

/-- The file at fault and, if it is known, the position in it. -/
def locate (file : Bytes) : CompileError → Bytes × Option Position
  | .malformed cause => (file, some cause.pos)
  | .inFile _ cause => cause.locate file
  | .inPartial name cause => cause.locate name
  | .unsupported _ pos _ => (file, pos)
  | .chainedComparison _ pos | .dynamicInclude _ pos => (file, some pos)
  | .missingPartial _ file pos => (file, some pos)
  | .includeCycle _ => (file, none)

end CompileError

end TemplateCompiler

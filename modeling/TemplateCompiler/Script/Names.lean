import TemplateCompiler.Text.Bytes

/-!
# Names of the generated script

Which names can be written bare in generated code, which ones it relies on,
and how a template's names are spelled there: a name that is a keyword of the
script gets a dollar sign behind it, so `class` is bound as `class$`.
`templateName` undoes `bindingName`.
-/

namespace TemplateCompiler.Script

/-- The tag of every interpolation. -/
def htmlTag : Bytes := "html"

/-- The helper for keyed lists. -/
def repeatHelper : Bytes := "repeat"

/-- The object that holds the filters. -/
def filterNamespace : Bytes := "_F"

/-- The name of the root function, unless another is asked for. -/
def rootName : Bytes := "template"

/-- What the names of partial functions start with. -/
def partialMark : Bytes := "partial_"

/-- The names that generated code relies on. No template receives them as
inputs. -/
def helpers : List Bytes := [htmlTag, repeatHelper, filterNamespace]

/-- The globals that generated code may refer to. -/
def builtins : List Bytes := ["Array", "Object", "Math", "undefined"]

/-- The words that are no identifiers. -/
def keywords : List Bytes :=
  List.map Bytes.ofString
    ["break", "case", "catch", "class", "const", "continue", "debugger", "default", "delete",
      "do", "else", "enum", "export", "extends", "false", "finally", "for", "function", "if",
      "import", "in", "instanceof", "new", "null", "return", "super", "switch", "this", "throw",
      "true", "try", "typeof", "var", "void", "while", "with", "yield", "let", "static", "await"]

def isKeyword (name : Bytes) : Bool := keywords.contains name

def isBuiltin (name : Bytes) : Bool := builtins.contains name

/-- Whether a text can stand as a bare name or behind a dot: a letter, `_` or
`$`, then those and digits. -/
def isIdentifier : Bytes → Bool
  | [] => false
  | b :: bs => Byte.isNameStart b && bs.all Byte.isNamePart

/-- The spelling of a template's name in generated code. -/
def bindingName (name : Bytes) : Bytes :=
  if isKeyword name then name ++ [Byte.dollar] else name

/-- The template's name behind a spelling in generated code. -/
def templateName (binding : Bytes) : Bytes :=
  match Bytes.dropSuffix? [Byte.dollar] binding with
  | some name => if isKeyword name then name else binding
  | none => binding

end TemplateCompiler.Script

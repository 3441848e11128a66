import TemplateCompiler.Text.Bytes

/-!
# Log records

What the program reports on the way: a level, a message and named values. A
record keeps the text of each value; how records are shown is up to the
embedding program.
-/

namespace TemplateCompiler

/-- How important a record is. -/
inductive LogLevel where
  | debug | info | warn | error
deriving DecidableEq, Repr, Inhabited

def LogLevel.name : LogLevel → Bytes
  | .debug => "DEBUG"
  | .info => "INFO"
  | .warn => "WARN"
  | .error => "ERROR"

/-- One report. -/
structure LogRecord where
  level : LogLevel
  message : Bytes
  fields : List (Bytes × Bytes) := []
deriving DecidableEq, Repr, Inhabited

namespace LogRecord

def listText (items : List Bytes) : Bytes := "[" ++ Bytes.join " " items ++ "]"

end LogRecord

end TemplateCompiler

import TemplateCompiler.Log
import TemplateCompiler.Text.Quoted

/-!
# Log lines

A log record is shown as one line of `name=value` pairs: the level, the
message, and the record's own values. A value that would not stand out as one
word is quoted.
-/

namespace TemplateCompiler

/-- Whether a step through a value asks for quotes: a space, an equals sign, a
quote, whatever is not printable, and the sign for a character that could not
be read. -/
def Rune.asksForQuotes : Rune → Bool
  | .stray _ => true
  | .point code =>
    if code == 0x7f then false
    else code == 0x20 || code == 0x3d || code == 0x22 || code == 0xfffd || !isPrintable code

def logValue (value : Bytes) : Bytes :=
  if value.isEmpty || (Utf8.runes value).any Rune.asksForQuotes then quoted value else value

namespace LogRecord

def pair (field : Bytes × Bytes) : Bytes := field.1 ++ "=" ++ logValue field.2

def pairs (r : LogRecord) : List (Bytes × Bytes) :=
  let front : List (Bytes × Bytes) := [("level", r.level.name), ("msg", r.message)]
  front ++ r.fields

def line (r : LogRecord) : Bytes := Bytes.join " " (r.pairs.map pair) ++ "\n"

end LogRecord

end TemplateCompiler

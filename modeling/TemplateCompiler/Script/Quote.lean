import TemplateCompiler.Text.Utf8

/-!
# Text inside generated code

The two ways in which text stands in generated code. `Script.quote` writes a
string in double quotes: line ends, controls, quotes and backslashes are
escaped, and a byte that is no UTF-8 becomes the replacement mark.
`Script.escapeRun` prepares a run of an interpolation, where only the
backslash, the backquote and the opening of a hole need an escape.
-/

namespace TemplateCompiler.Script

/-- The four-digit escape of a code point. -/
def unicodeEscape (code : Nat) : Bytes := "\\u" ++ Bytes.hex 4 code

def quotePoint (code : Nat) : Bytes :=
  match code with
  | 0x22 => "\\\""
  | 0x5c => "\\\\"
  | 0x0a => "\\n"
  | 0x0d => "\\r"
  | 0x09 => "\\t"
  | 0x08 => "\\b"
  | 0x0c => "\\f"
  | _ =>
    if code < 0x20 || code == 0x7f || code == 0x2028 || code == 0x2029 then unicodeEscape code
    else Utf8.encode code

/-- A string literal in double quotes. -/
def quote (bs : Bytes) : Bytes := "\"" ++ (Utf8.points bs).flatMap quotePoint ++ "\""

def escapeRun : Bytes → Bytes
  | [] => []
  | Byte.backslash :: bs => Byte.backslash :: Byte.backslash :: escapeRun bs
  | Byte.backquote :: bs => Byte.backslash :: Byte.backquote :: escapeRun bs
  | Byte.dollar :: Byte.openBrace :: bs =>
    Byte.backslash :: Byte.dollar :: Byte.openBrace :: escapeRun bs
  | b :: bs => b :: escapeRun bs

end TemplateCompiler.Script

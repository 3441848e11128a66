import TemplateCompiler.Text.Utf8

/-!
# Strings in JSON

Strings are written so that they can also stand inside a web page: angle
brackets and ampersands are escaped, and so are the two line separators
beyond ASCII. A byte that is no UTF-8 is written as the escaped replacement
mark.
-/

namespace TemplateCompiler.Json

def unicodeEscape (code : Nat) : Bytes := "\\u" ++ Bytes.hex 4 code

/-- Whether a code point is escaped by its number. -/
def isNumbered (code : Nat) : Bool :=
  code < 0x20 || code == 0x3c || code == 0x3e || code == 0x26 || code == 0x2028 || code == 0x2029

def stringRune : Rune → Bytes
  | .stray _ => unicodeEscape Utf8.replacement
  | .point code =>
    match code with
    | 0x22 => "\\\""
    | 0x5c => "\\\\"
    | 0x08 => "\\b"
    | 0x0c => "\\f"
    | 0x0a => "\\n"
    | 0x0d => "\\r"
    | 0x09 => "\\t"
    | _ => if isNumbered code then unicodeEscape code else Utf8.encode code

def string (bs : Bytes) : Bytes := "\"" ++ (Utf8.runes bs).flatMap stringRune ++ "\""

/-- A list of values that are written already. -/
def array (items : List Bytes) : Bytes := "[" ++ Bytes.join "," items ++ "]"

def member (key value : Bytes) : Bytes := string key ++ ":" ++ value

def object (members : List Bytes) : Bytes := "\x7b" ++ Bytes.join "," members ++ "\x7d"

end TemplateCompiler.Json

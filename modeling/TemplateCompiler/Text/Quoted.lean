import TemplateCompiler.Text.Printable
import TemplateCompiler.Text.Utf8

/-!
# Quoted text in messages

Messages quote names and text so that they stay on one line and every byte
can be told: `quoted` puts double quotes around the text, escapes the quote
and the backslash, and writes what is not printable by its number.
`quotedPoint` does the same for a single code point between single quotes.
-/

namespace TemplateCompiler

def controlLetter? : Nat → Option Bytes
  | 0x07 => some "a"
  | 0x08 => some "b"
  | 0x09 => some "t"
  | 0x0a => some "n"
  | 0x0b => some "v"
  | 0x0c => some "f"
  | 0x0d => some "r"
  | _ => none

/-- One code point inside quotes of the kind `mark`. -/
def quotedCode (mark : Nat) (code : Nat) : Bytes :=
  if code == mark || code == 0x5c then Byte.backslash :: Utf8.encode code
  else if isPrintable code then Utf8.encode code
  else match controlLetter? code with
    | some letter => Byte.backslash :: letter
    | none =>
      if code < 0x20 || code == 0x7f then "\\x" ++ Bytes.hex 2 code
      else if code < 0x10000 then "\\u" ++ Bytes.hex 4 code
      else "\\U" ++ Bytes.hex 8 code

/-- One step of text inside double quotes; a stray byte is written by its
number. -/
def quotedRune : Rune → Bytes
  | .point code => quotedCode 0x22 code
  | .stray byte => "\\x" ++ Bytes.hex 2 byte.toNat

/-- Text between double quotes, on one line. -/
def quoted (bs : Bytes) : Bytes :=
  "\"" ++ (Utf8.runes bs).flatMap quotedRune ++ "\""

/-- A code point between single quotes, on one line. -/
def quotedPoint (code : Nat) : Bytes := "'" ++ quotedCode 0x27 code ++ "'"

end TemplateCompiler

import TemplateCompiler.Text.Utf8

/-!
# White space

White space in the sense of character classes: the ASCII blanks with the
vertical tab and the form feed, and the spaces and separators beyond ASCII.
`trimSpace` removes it from both ends of a text.
-/

namespace TemplateCompiler

def isSpacePoint (code : Nat) : Bool :=
  (0x09 ≤ code && code ≤ 0x0d) || code == 0x20 || code == 0x85 || code == 0xa0
    || code == 0x1680 || (0x2000 ≤ code && code ≤ 0x200a) || code == 0x2028
    || code == 0x2029 || code == 0x202f || code == 0x205f || code == 0x3000

def Rune.isSpace : Rune → Bool
  | .point code => isSpacePoint code
  | .stray _ => false

def Rune.bytes : Rune → Bytes
  | .point code => Utf8.encode code
  | .stray byte => [byte]

def trimSpace (bs : Bytes) : Bytes :=
  let front := (Utf8.runes bs).dropWhile Rune.isSpace
  (front.reverse.dropWhile Rune.isSpace).reverse.flatMap Rune.bytes

end TemplateCompiler

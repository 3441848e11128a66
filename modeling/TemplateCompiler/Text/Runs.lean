import TemplateCompiler.Text.Bytes

/-!
# Runs of code points

A property of code points is a list of lengths: how many code points do not
have it, how many that follow do, and so on in turn. What comes behind the last
length does not have it.
-/

namespace TemplateCompiler

/-- Whether a code point has the property that the lengths give. -/
def inRuns : List Nat → Nat → Bool
  | skipped :: members :: runs, code =>
    if code < skipped then false
    else code < skipped + members || inRuns runs (code - (skipped + members))
  | _, _ => false

/-- The numbers in a table. The last digit of a number is one of the digits and
small letters, in base 36; the ones in front of it are capitals, in base 26. -/
def readNumbers (front : Nat) : Bytes → List Nat
  | [] => []
  | b :: bs =>
    if Byte.isUpper b then readNumbers (26 * front + (b.toNat - 0x41)) bs
    else
      let last := if Byte.isDigit b then b.toNat - 0x30 else b.toNat - 0x57
      (36 * front + last) :: readNumbers 0 bs

def numbersOf (lines : List String) : List Nat := readNumbers 0 (lines.flatMap Bytes.ofString)

def quadsOf : List Nat → List (Nat × Nat × Nat × Nat)
  | a :: b :: c :: d :: rest => (a, b, c, d) :: quadsOf rest
  | _ => []

/-- The code points of a text. Tables give code points by themselves. -/
def pointsOf (text : String) : List Nat := text.toList.map Char.toNat

def pairsOf : List Nat → List (Nat × Nat)
  | a :: b :: rest => (a, b) :: pairsOf rest
  | _ => []

end TemplateCompiler

import TemplateCompiler.Text.Bytes

/-!
# Code points of byte text

`Rune.decode` reads the code point at the front of a text. Where the bytes
there are no UTF-8 it takes one byte and says so, so that reading a text
always ends and never loses a byte: the pieces of `Utf8.runes` concatenate to
the text.
-/

namespace TemplateCompiler

/-- One step through byte text: a code point, or a byte that starts none. -/
inductive Rune where
  | point (code : Nat)
  | stray (byte : UInt8)
deriving DecidableEq, Repr

namespace Utf8

/-- A byte that continues a multi-byte code point. -/
def isContinuation (b : UInt8) : Bool := 0x80 ≤ b && b ≤ 0xbf

/-- The six low bits of a continuation byte. -/
def payload (b : UInt8) : Nat := b.toNat % 64

/-- The code point at the front of a text and the number of bytes it takes
after the first. Overlong forms, surrogates and numbers above `0x10ffff` are
refused. -/
def point? : Bytes → Option (Nat × Nat)
  | [] => none
  | a :: rest =>
    if a < 0x80 then some (a.toNat, 0)
    else if 0xc2 ≤ a && a ≤ 0xdf then
      match rest with
      | b :: _ =>
        if isContinuation b then some (a.toNat % 32 * 64 + payload b, 1) else none
      | [] => none
    else if 0xe0 ≤ a && a ≤ 0xef then
      match rest with
      | b :: c :: _ =>
        let least : UInt8 := if a == 0xe0 then 0xa0 else 0x80
        let most : UInt8 := if a == 0xed then 0x9f else 0xbf
        if least ≤ b && b ≤ most && isContinuation c then
          some (a.toNat % 16 * 4096 + payload b * 64 + payload c, 2)
        else none
      | _ => none
    else if 0xf0 ≤ a && a ≤ 0xf4 then
      match rest with
      | b :: c :: d :: _ =>
        let least : UInt8 := if a == 0xf0 then 0x90 else 0x80
        let most : UInt8 := if a == 0xf4 then 0x8f else 0xbf
        if least ≤ b && b ≤ most && isContinuation c && isContinuation d then
          some (a.toNat % 8 * 262144 + payload b * 4096 + payload c * 64 + payload d, 3)
        else none
      | _ => none
    else none

/-- The steps through a text, front to back. -/
def runes (bs : Bytes) : List Rune :=
  match bs with
  | [] => []
  | b :: rest =>
    match point? (b :: rest) with
    | some (code, more) => .point code :: runes (rest.drop more)
    | none => .stray b :: runes rest
termination_by bs.length
decreasing_by all_goals simp <;> omega

def encode (code : Nat) : Bytes :=
  if code < 0x80 then [UInt8.ofNat code]
  else if code < 0x800 then
    [UInt8.ofNat (0xc0 + code / 64), UInt8.ofNat (0x80 + code % 64)]
  else if code < 0x10000 then
    [UInt8.ofNat (0xe0 + code / 4096), UInt8.ofNat (0x80 + code / 64 % 64),
      UInt8.ofNat (0x80 + code % 64)]
  else
    [UInt8.ofNat (0xf0 + code / 262144), UInt8.ofNat (0x80 + code / 4096 % 64),
      UInt8.ofNat (0x80 + code / 64 % 64), UInt8.ofNat (0x80 + code % 64)]

/-- The mark that stands for bytes that are no UTF-8. -/
def replacement : Nat := 0xfffd

/-- The code points of a text, a stray byte read as the replacement mark. -/
def points (bs : Bytes) : List Nat :=
  (runes bs).map fun
    | .point code => code
    | .stray _ => replacement

def ofPoints (codes : List Nat) : Bytes := codes.flatMap encode

def isValid (bs : Bytes) : Bool :=
  (runes bs).all fun
    | .point _ => true
    | .stray _ => false

/-- How many UTF-16 units a step takes: two beyond the basic plane, one
otherwise, a stray byte included. -/
def units : Rune → Nat
  | .point code => if code < 0x10000 then 1 else 2
  | .stray _ => 1

end Utf8

end TemplateCompiler

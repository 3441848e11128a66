/-!
# Byte text

Templates, names, generated code and messages are sequences of bytes. Most
of them are UTF-8, but nothing depends on it: a template may hold any bytes,
and what it holds is carried to the output unchanged. Positions count bytes
too. `Bytes.ofString` embeds the program's own wording, and it is a coercion,
so string literals stand where bytes are expected.
-/

namespace TemplateCompiler

attribute [local instance (2000)] instPowNat

abbrev Bytes := List UInt8

namespace Byte

/-- A horizontal tab. -/
@[match_pattern] abbrev tab : UInt8 := 0x09

/-- A line feed, which ends a line. -/
@[match_pattern] abbrev newline : UInt8 := 0x0a

/-- A carriage return. -/
@[match_pattern] abbrev carriageReturn : UInt8 := 0x0d

/-- A form feed. -/
@[match_pattern] abbrev formFeed : UInt8 := 0x0c

/-- A space. -/
@[match_pattern] abbrev space : UInt8 := 0x20

/-- A double quote. -/
@[match_pattern] abbrev quote : UInt8 := 0x22

/-- A number sign. -/
@[match_pattern] abbrev hash : UInt8 := 0x23

/-- A dollar sign. -/
@[match_pattern] abbrev dollar : UInt8 := 0x24

/-- A percent sign. -/
@[match_pattern] abbrev percent : UInt8 := 0x25

/-- A single quote. -/
@[match_pattern] abbrev apostrophe : UInt8 := 0x27

/-- A plus sign. -/
@[match_pattern] abbrev plus : UInt8 := 0x2b

/-- A comma. -/
@[match_pattern] abbrev comma : UInt8 := 0x2c

/-- A minus sign. -/
@[match_pattern] abbrev minus : UInt8 := 0x2d

/-- A full stop. -/
@[match_pattern] abbrev dot : UInt8 := 0x2e

/-- A slash. -/
@[match_pattern] abbrev slash : UInt8 := 0x2f

/-- The digit zero. -/
@[match_pattern] abbrev zero : UInt8 := 0x30

/-- A colon. -/
@[match_pattern] abbrev colon : UInt8 := 0x3a

/-- An equals sign. -/
@[match_pattern] abbrev equals : UInt8 := 0x3d

/-- An opening bracket. -/
@[match_pattern] abbrev openBracket : UInt8 := 0x5b

/-- A backslash. -/
@[match_pattern] abbrev backslash : UInt8 := 0x5c

/-- A closing bracket. -/
@[match_pattern] abbrev closeBracket : UInt8 := 0x5d

/-- An underscore. -/
@[match_pattern] abbrev underscore : UInt8 := 0x5f

/-- A backquote. -/
@[match_pattern] abbrev backquote : UInt8 := 0x60

/-- An opening brace. -/
@[match_pattern] abbrev openBrace : UInt8 := 0x7b

/-- A closing brace. -/
@[match_pattern] abbrev closeBrace : UInt8 := 0x7d

/-- The blanks of template source: space, tab, line feed and carriage
return. -/
def isBlank (b : UInt8) : Bool :=
  b == space || b == tab || b == newline || b == carriageReturn

def isDigit (b : UInt8) : Bool := zero ≤ b && b ≤ 0x39

/-- An upper-case letter of the Latin alphabet. -/
def isUpper (b : UInt8) : Bool := 0x41 ≤ b && b ≤ 0x5a

/-- A lower-case letter of the Latin alphabet. -/
def isLower (b : UInt8) : Bool := 0x61 ≤ b && b ≤ 0x7a

/-- What a name may start with: a letter, an underscore or a dollar sign. -/
def isNameStart (b : UInt8) : Bool :=
  b == underscore || b == dollar || isLower b || isUpper b

def isNamePart (b : UInt8) : Bool := isNameStart b || isDigit b

/-- The lower-case form of a letter, any other byte unchanged. -/
def toLower (b : UInt8) : UInt8 := if isUpper b then b + 0x20 else b

/-- The digit that stands for `n`, for `n` below sixteen. -/
def hexDigit (n : Nat) : UInt8 :=
  if n < 10 then UInt8.ofNat (0x30 + n) else UInt8.ofNat (0x57 + n)

def hexValue? (b : UInt8) : Option Nat :=
  if isDigit b then some (b.toNat - 0x30)
  else if 0x61 ≤ b && b ≤ 0x66 then some (b.toNat - 0x57)
  else if 0x41 ≤ b && b ≤ 0x46 then some (b.toNat - 0x37)
  else none

end Byte

namespace Bytes

def ofString (s : String) : Bytes := s.toByteArray.data.toList

instance : Coe String Bytes := ⟨ofString⟩

/-- Whether every byte of a text has a property is settled byte by byte. -/
instance (priority := high) decidableAll (p : UInt8 → Prop) [DecidablePred p] (text : Bytes) :
    Decidable (∀ b ∈ text, p b) := List.decidableBAll p text

/-- The digits of `n` in base ten, without leading zeros. -/
def decimal (n : Nat) : Bytes :=
  if n < 10 then [Byte.hexDigit n] else decimal (n / 10) ++ [Byte.hexDigit (n % 10)]
termination_by n
decreasing_by exact Nat.div_lt_self (by omega) (by omega)

/-- An integer in base ten, with a minus sign in front of a negative one. -/
def integer : Int → Bytes
  | .ofNat n => decimal n
  | .negSucc n => Byte.minus :: decimal (n + 1)

/-- The digits of `n` in a base of at most sixteen, without leading zeros. -/
def inBase (base n : Nat) : Bytes := (Nat.toDigits base n).map fun c => UInt8.ofNat c.toNat

/-- Letters in upper case, other bytes unchanged. -/
def toUpper (bs : Bytes) : Bytes := bs.map fun b => if Byte.isLower b then b - 0x20 else b

/-- The value of a run of decimal digits; other bytes count by their code. -/
def digitsValue (ds : Bytes) : Nat :=
  ds.foldl (fun n d => 10 * n + (d.toNat - 0x30)) 0

/-- `n` in base sixteen with at least `width` digits. -/
def hex (width : Nat) (n : Nat) : Bytes :=
  (List.range width).reverse.map fun i => Byte.hexDigit (n / 16 ^ i % 16)

/-- Two hexadecimal digits for each byte. -/
def toHex (bs : Bytes) : Bytes := bs.flatMap fun b => hex 2 b.toNat

/-- Reads two hexadecimal digits for each byte. -/
def ofHex? : Bytes → Option Bytes
  | [] => some []
  | [_] => none
  | a :: b :: rest => do
    let hi ← Byte.hexValue? a
    let lo ← Byte.hexValue? b
    let tail ← ofHex? rest
    pure (UInt8.ofNat (16 * hi + lo) :: tail)

/-- Removes the longest run of bytes in `p` from the front. -/
def trimStart (p : UInt8 → Bool) (bs : Bytes) : Bytes := bs.dropWhile p

/-- Removes the longest run of bytes in `p` from the back. -/
def trimEnd (p : UInt8 → Bool) (bs : Bytes) : Bytes :=
  (bs.reverse.dropWhile p).reverse

/-- `bs` without `start`, if it starts with it. -/
def dropPrefix? : (start bs : Bytes) → Option Bytes
  | [], bs => some bs
  | _ :: _, [] => none
  | s :: start, b :: bs => if s == b then dropPrefix? start bs else none

/-- `bs` without `tail`, if it ends with it. -/
def dropSuffix? (tail bs : Bytes) : Option Bytes :=
  (dropPrefix? tail.reverse bs.reverse).map List.reverse

/-- Cuts at every `sep`: one piece more than there are separators. -/
def splitOn (sep : UInt8) : Bytes → List Bytes
  | [] => [[]]
  | b :: bs =>
    if b == sep then [] :: splitOn sep bs
    else match splitOn sep bs with
      | [] => [[b]]
      | piece :: more => (b :: piece) :: more

/-- The pieces with `sep` between neighbours. -/
def join (sep : Bytes) : List Bytes → Bytes
  | [] => []
  | [piece] => piece
  | piece :: more => piece ++ sep ++ join sep more

def repeated (n : Nat) (bs : Bytes) : Bytes := (List.replicate n bs).flatten

/-- Whether `part` stands somewhere in `bs`. -/
def contains (part : Bytes) : Bytes → Bool
  | [] => part.isEmpty
  | b :: bs => part.isPrefixOf (b :: bs) || contains part bs

/-- The order of byte text: the first difference decides, and a text comes
before its continuations. -/
def le : Bytes → Bytes → Bool
  | [], _ => true
  | _ :: _, [] => false
  | a :: as, b :: bs => a < b || (a == b && le as bs)

def sorted (names : List Bytes) : List Bytes := names.mergeSort le

end Bytes

end TemplateCompiler

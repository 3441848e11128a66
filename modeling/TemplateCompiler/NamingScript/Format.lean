import TemplateCompiler.NamingScript.Value

/-!
# Formatted texts

In a format a percent sign and a letter stand for a value, and a doubled
percent sign for itself. The values come from a tuple one after the other, or
there is a single one; a name in parentheses takes a value out of a dict.
-/

namespace TemplateCompiler

namespace NamingScript

namespace Value

def smallInt? (n : Int) : Option Int :=
  if -2147483648 ≤ n && n ≤ 2147483647 then some n else Option.none

/-- The integer that a number stands for. The places of a float are dropped. -/
def toInteger : Value → Except Bytes Int
  | .int n => .ok n
  | .float d =>
    if d.isInfinite then .error "cannot convert float infinity to integer"
    else if d.isNaN then .error "cannot convert float NaN to integer"
    else .ok d.truncated
  | v => .error ("cannot convert " ++ v.typeName ++ " to int")

/-- The float that a number stands for; what is too large is infinite. -/
def toFloat? : Value → Option Double
  | .float d => some d
  | .int n => some ((Double.ofInt? n).getD (Double.ofFields (n < 0) 2047 0))
  | _ => Option.none

end Value

namespace Format

def integerIn (base : Nat) (n : Int) : Bytes :=
  (if n < 0 then "-" else "") ++ Bytes.inBase base n.natAbs

def integerText (letter : UInt8) (n : Int) : Bytes :=
  if letter == 0x6f then integerIn 8 n
  else if letter == 0x78 then integerIn 16 n
  else if letter == 0x58 then Bytes.toUpper (integerIn 16 n)
  else Bytes.integer n

/-- How many places a float shows behind its point. -/
def floatPlaces : Nat := 6

/-- The text of a float for a letter. Only the small letter asks for places
without an exponent; its capital shows the letter itself. -/
def floatText (letter : UInt8) (d : Double) : Bytes :=
  if d.isNaN || d.isInfinite || letter == 0x67 || letter == 0x47 then
    Value.floatText (letter == 0x47) d
  else if letter == 0x65 || letter == 0x45 then d.exponential floatPlaces [letter]
  else if letter == 0x66 then d.fixed floatPlaces
  else [Byte.percent, letter]

/-- The text of a code. Half of a pair of surrogates has none of its own. -/
def codeCharacter (code : Nat) : Bytes :=
  Utf8.encode (if 0xd800 ≤ code && code < 0xe000 then Utf8.replacement else code)

def characterText : Value → Except Bytes Bytes
  | .int n =>
    if 0 ≤ n && n ≤ 0x10ffff then .ok (codeCharacter n.toNat)
    else .error ("%c format requires a valid Unicode code point, got " ++ Bytes.integer n)
  | .string s =>
    match Utf8.points s with
    | [c] => .ok (Utf8.encode c)
    | _ => .error "%c format requires a single-character string"
  | v => .error ("%c format requires int or single-character string, not " ++ v.typeName)

def valueText (letter : UInt8) (v : Value) : Except Bytes Bytes :=
  let isOneOf (letters : Bytes) : Bool := letters.any (· == letter)
  if letter == 0x73 then .ok (v.text)
  else if letter == 0x72 then .ok (v.repr)
  else if isOneOf "dioxX" then
    match v.toInteger with
    | .ok n => .ok (integerText letter n)
    | .error reason => .error ("%" ++ [letter] ++ " format requires integer: " ++ reason)
  else if isOneOf "efgEFG" then
    match v.toFloat? with
    | some d => .ok (floatText letter d)
    | none => .error ("%" ++ [letter] ++ " format requires float, not " ++ v.typeName)
  else if letter == 0x63 then characterText v
  else .error ("unknown conversion %" ++ Utf8.encode letter.toNat)

/-- What a format takes its values from, and how many it has taken. -/
structure Supply where
  source : Value
  index : Nat := 0

namespace Supply

def count (s : Supply) : Nat :=
  match s.source with
  | .tuple items => items.length
  | _ => 1

def next (s : Supply) : Except Bytes Value :=
  let missing : Except Bytes Value := .error "not enough arguments for format string"
  match s.source with
  | .tuple items => (items[s.index]?).elim missing .ok
  | v => if s.index == 0 then .ok v else missing

def named (s : Supply) (name : Bytes) : Except Bytes Value :=
  match s.source with
  | .dict entries =>
    match Value.find? entries (.string name) with
    | .ok (some v) => .ok v
    | _ => .error ("key not found: " ++ name)
  | _ => .error "format requires a mapping"

/-- Whether values are left over. A dict may have any number of them. -/
def isLeft (s : Supply) : Bool :=
  match s.source with
  | .dict _ => false
  | _ => s.index < s.count

end Supply

/-- Where the reader of a format stands. -/
inductive Place where
  | plain
  /-- Behind a percent sign. -/
  | marked
  /-- In a name, whose bytes so far are reversed. -/
  | name (before : Bytes)
  /-- In front of the letter for a value. -/
  | letter (v : Value)

def write (s : Supply) (place : Place) : Bytes → Except Bytes Bytes
  | [] =>
    match place with
    | .plain => if s.isLeft then .error "too many arguments for format string" else .ok []
    | .marked => do
      let _ ← s.next
      .error "incomplete format"
    | .name _ => .error "incomplete format key"
    | .letter _ => .error "incomplete format"
  | b :: rest =>
    let shown (v : Value) : Except Bytes Bytes := do
      let text ← valueText b v
      return text ++ (← write { s with index := s.index + 1 } .plain rest)
    match place with
    | .plain =>
      if b == Byte.percent then write s .marked rest
      else return b :: (← write s .plain rest)
    | .marked =>
      if b == Byte.percent then return b :: (← write s .plain rest)
      else if b == 0x28 then write s (.name []) rest
      else do shown (← s.next)
    | .name before =>
      if b == 0x29 then do write s (.letter (← s.named before.reverse)) rest
      else write s (.name (b :: before)) rest
    | .letter v =>
      if b == Byte.percent then
        return b :: (← write { s with index := s.index + 1 } .plain rest)
      else shown v

end Format

def formatted (format : Bytes) (source : Value) : Except Bytes Bytes :=
  Format.write { source } .plain format

end NamingScript

end TemplateCompiler

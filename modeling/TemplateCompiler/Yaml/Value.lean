import TemplateCompiler.Number.Double
import TemplateCompiler.Text.Bytes

/-!
# Values of YAML scalars

What a scalar stands for. A scalar in quotes is text. A plain one is what it
looks like: nothing, a truth value, an integer or a number, and text otherwise.
-/

namespace TemplateCompiler

attribute [local instance (2000)] instPowNat

/-- What a scalar stands for. -/
inductive YamlValue where
  | null
  | bool (value : Bool)
  | int (value : Int)
  | float (value : Double)
  | text
deriving DecidableEq, Repr

namespace YamlValue

def tag : YamlValue → Bytes
  | .null => "!!null"
  | .bool _ => "!!bool"
  | .int _ => "!!int"
  | .float _ => "!!float"
  | .text => "!!str"

/-- The words with a meaning of their own. -/
def words : List (Bytes × YamlValue) :=
  let infinity : Double := ⟨0x7ff0000000000000⟩
  let forWords (value : YamlValue) (spellings : List String) : List (Bytes × YamlValue) :=
    spellings.map fun word => (Bytes.ofString word, value)
  forWords .null ["", "~", "null", "Null", "NULL"]
    ++ forWords (.bool true) ["true", "True", "TRUE"]
    ++ forWords (.bool false) ["false", "False", "FALSE"]
    ++ forWords (.float infinity) [".inf", ".Inf", ".INF", "+.inf", "+.Inf", "+.INF"]
    ++ forWords (.float infinity.neg) ["-.inf", "-.Inf", "-.INF"]
    ++ forWords (.float ⟨0x7ff8000000000001⟩) [".nan", ".NaN", ".NAN"]

/-- A sign in front of a number: whether it is a minus, and the rest. -/
def splitSign (bs : Bytes) : Bool × Bytes :=
  match bs with
  | Byte.minus :: rest => (true, rest)
  | Byte.plus :: rest => (false, rest)
  | _ => (false, bs)

/-- The number that digits in a base stand for. There has to be a digit. -/
def digits? (base : Nat) (bs : Bytes) : Option Nat :=
  if bs.isEmpty then none
  else bs.foldlM (fun n b => do
    let d ← Byte.hexValue? b
    if d < base then some (base * n + d) else none) 0

/-- The base that a number is written in, and its digits. -/
def splitBase (bs : Bytes) : Nat × Bytes :=
  match bs with
  | Byte.zero :: b :: rest =>
    let mark := Byte.toLower b
    if mark == 0x78 then (16, rest)
    else if mark == 0x6f then (8, rest)
    else if mark == 0x62 then (2, rest)
    else (8, b :: rest)
  | _ => (10, bs)

/-- An integer of 64 bits with digits in a base. Without a sign, one bit more
may be used. -/
def signed? (negative hasSign : Bool) (base : Nat) (ds : Bytes) : Option Int := do
  let n ← digits? base ds
  if negative then (if n ≤ 2 ^ (63 : Nat) then some (-(n : Int)) else none)
  else if n < 2 ^ (63 : Nat) || (n < 2 ^ (64 : Nat) && !hasSign) then some (n : Int)
  else none

/-- An integer of 64 bits, with or without a sign. -/
def int? (bs : Bytes) : Option Int :=
  let (negative, rest) := splitSign bs
  let (base, ds) := splitBase rest
  signed? negative (rest != bs) base ds

/-- The exponent of a decimal number, which is zero if there is none. -/
def exponent? (bs : Bytes) : Option Int :=
  match bs with
  | [] => some 0
  | e :: rest =>
    if Byte.toLower e == 0x65 then do
      let (negative, ds) := splitSign rest
      let n ← digits? 10 ds
      some (if negative then -(n : Int) else n)
    else none

/-- A decimal number with a point or an exponent. -/
def float? (bs : Bytes) : Option Double := do
  let (negative, rest) := splitSign bs
  let whole := rest.takeWhile Byte.isDigit
  let rest := rest.dropWhile Byte.isDigit
  let (point, rest) := match rest with
    | Byte.dot :: rest => (true, rest)
    | _ => (false, rest)
  let decimals := if point then rest.takeWhile Byte.isDigit else []
  let rest := if point then rest.dropWhile Byte.isDigit else rest
  if whole.isEmpty && decimals.isEmpty then none
  else
    let exp ← exponent? rest
    Double.ofDecimal? negative (Bytes.digitsValue (whole ++ decimals))
      (exp - (decimals.length : Int))

/-- What a plain scalar that starts like a number stands for. -/
def ofNumeral (bs : Bytes) : YamlValue :=
  let plain := bs.filter (· != Byte.underscore)
  match int? plain, float? plain with
  | some n, _ => .int n
  | none, some d => .float d
  | none, none => .text

def ofPlain (bs : Bytes) : YamlValue :=
  match words.lookup bs, bs with
  | some value, _ => value
  | none, [] => .null
  | none, b :: _ =>
    if Byte.isDigit b || b == Byte.minus || b == Byte.plus then ofNumeral bs
    else if b == Byte.dot then ((float? bs).map .float).getD .text
    else .text

def ofScalar (bs : Bytes) (quoted : Bool) : YamlValue := if quoted then .text else ofPlain bs

end YamlValue

def Double.truncate (d : Double) : Int :=
  let q : Int := (d.exponent : Int) - 1075
  let n : Nat :=
    if 0 ≤ q then d.significand * 2 ^ q.toNat else d.significand / 2 ^ (-q).toNat
  if d.signBit then -(n : Int) else n

end TemplateCompiler

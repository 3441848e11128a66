import TemplateCompiler.Number.Double

/-!
# Computing with numbers in double precision

The order of doubles and integers, conversions between them, the remainder of
a division, and texts with a fixed number of digits. All of it is exact
arithmetic with one rounding at the end; sums, products and quotients are left
to the machine, which rounds them in the same way.
-/

namespace TemplateCompiler

attribute [local instance (2000)] instPowNat

namespace Double

/-- The power of two that the significand counts. -/
def scale (d : Double) : Int := (d.exponent : Int) - 1075

/-- The order of an integer and a finite value. -/
def compareFinite (n : Int) (d : Double) : Ordering :=
  let m : Int := if d.signBit then -(d.significand : Int) else d.significand
  compare (n * 2 ^ (-d.scale).toNat) (m * 2 ^ d.scale.toNat)

/-- The order of an integer and a double. What is no number comes last. -/
def compareInt (n : Int) (d : Double) : Ordering :=
  if d.isNaN then .lt
  else if d.isInfinite then (if d.signBit then .gt else .lt)
  else compareFinite n d

/-- The order of doubles. What is no number comes last, and both zeros are
one. -/
def order (a b : Double) : Ordering :=
  match a.isNaN, b.isNaN with
  | true, true => .eq
  | true, false => .gt
  | false, true => .lt
  | false, false =>
    let key (d : Double) : Int :=
      let size : Int := (d.bits.toNat % 2 ^ (63 : Nat) : Nat)
      if d.signBit then -size else size
    compare (key a) (key b)

/-- The double nearest to an integer, unless it is too large. -/
def ofInt? (n : Int) : Option Double := ofQuotient? (n < 0) n.natAbs 1

def truncated (d : Double) : Int :=
  let n : Nat := d.significand * 2 ^ d.scale.toNat / 2 ^ (-d.scale).toNat
  if d.signBit then -(n : Int) else n

/-- The value as the machine computes with it. -/
def toFloat (d : Double) : Float := Float.ofBits d.bits

def ofFloat (f : Float) : Double := ⟨f.toBits⟩

/-- The remainder of a division that goes toward zero, for finite numbers and
a divisor that is not zero. -/
def remainder (a b : Double) : Double :=
  let low := min a.exponent b.exponent
  let x := a.significand * 2 ^ (a.exponent - low)
  let y := b.significand * 2 ^ (b.exponent - low)
  let r := x % y
  -- `r` units of `2 ^ (low - 1075)`
  let num := r * 2 ^ (low - 1075)
  (ofQuotient? a.signBit num (2 ^ (1075 - low))).getD ⟨0⟩

/-! ### Texts of a fixed number of digits -/

/-- `m * 2 ^ q * 10 ^ shift`, rounded to a whole number. -/
def roundScaled (m : Nat) (q shift : Int) : Nat :=
  roundDiv (m * 2 ^ q.toNat * 10 ^ shift.toNat) (2 ^ (-q).toNat * 10 ^ (-shift).toNat)

/-- The value `m * 2 ^ q` rounded to `count` digits, and the power of ten of
the first of them. -/
def roundedDigits (m : Nat) (q : Int) (count : Nat) : Nat × Int :=
  if m == 0 then (0, 0)
  else
    let x := leadingExponent m q
    let digits := roundScaled m q ((count : Int) - 1 - x)
    if digits == 10 ^ count then (digits / 10, x + 1) else (digits, x)

/-- A number in front of a text of at least `width` digits. -/
def padded (width n : Nat) : Bytes :=
  let shown := Bytes.decimal n
  List.replicate (width - shown.length) Byte.zero ++ shown

def signText (d : Double) : Bytes := if d.signBit then "-" else ""

/-- A finite value with one digit before the point, `places` behind it, and an
exponent of at least two digits. -/
def exponential (places : Nat) (mark : Bytes) (d : Double) : Bytes :=
  let (digits, x) := roundedDigits d.significand d.scale (places + 1)
  let shown := padded (places + 1) digits
  let sign : Bytes := if x < 0 then "-" else "+"
  d.signText ++ shown.take 1 ++ "." ++ shown.drop 1 ++ mark ++ sign ++ padded 2 x.natAbs

/-- A finite value with `places` digits behind the point. -/
def fixed (places : Nat) (d : Double) : Bytes :=
  let shown := padded (places + 1) (roundScaled d.significand d.scale places)
  d.signText ++ shown.take (shown.length - places) ++ "." ++ shown.drop (shown.length - places)

end Double

end TemplateCompiler

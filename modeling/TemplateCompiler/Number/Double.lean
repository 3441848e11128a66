import TemplateCompiler.Text.Bytes

/-!
# Numbers in double precision

A `Double` is the 64-bit pattern of a binary floating-point number: a sign
bit, eleven bits of exponent and fifty-two of fraction. Everything here is
exact arithmetic on natural numbers. `Double.ofDecimal?` rounds a decimal to
the nearest double, a tie to the even one. `Double.shortest` goes the other
way: the fewest decimal digits that are rounded to this double, and of those the
nearest.
-/

namespace TemplateCompiler

attribute [local instance (2000)] instPowNat

/-- A number in double precision, by its bit pattern. -/
structure Double where
  bits : UInt64
deriving DecidableEq, Repr

namespace Double

def signBit (d : Double) : Bool := 2 ^ (63 : Nat) ≤ d.bits.toNat

def exponentField (d : Double) : Nat := d.bits.toNat / 2 ^ (52 : Nat) % 2 ^ (11 : Nat)

def fractionField (d : Double) : Nat := d.bits.toNat % 2 ^ (52 : Nat)

def isNaN (d : Double) : Bool := d.exponentField == 2047 && d.fractionField != 0

def isInfinite (d : Double) : Bool := d.exponentField == 2047 && d.fractionField == 0

def isZero (d : Double) : Bool := d.exponentField == 0 && d.fractionField == 0

/-- The whole number `m` of the finite value `m * 2 ^ (exponent - 1075)`. -/
def significand (d : Double) : Nat :=
  if d.exponentField == 0 then d.fractionField else 2 ^ (52 : Nat) + d.fractionField

/-- The exponent of the finite value, at least one. -/
def exponent (d : Double) : Nat := max d.exponentField 1

def isNegative (d : Double) : Bool := d.signBit && !d.isZero && !d.isNaN

def neg (d : Double) : Double := ⟨d.bits ^^^ 0x8000000000000000⟩

def ofFields (negative : Bool) (exponentField fractionField : Nat) : Double :=
  ⟨UInt64.ofNat ((if negative then 2 ^ (63 : Nat) else 0)
    + exponentField * 2 ^ (52 : Nat) + fractionField)⟩

/-- The quotient rounded to the nearest whole number, a tie to the even
one. -/
def roundDiv (num den : Nat) : Nat :=
  let q := num / den
  let twice := 2 * (num % den)
  if twice < den then q
  else if den < twice then q + 1
  else if q % 2 == 0 then q else q + 1

/-- Numbers are counted in units of `2 ^ (-finest)`. The last place of the least
double is `2 ^ 26` of them. -/
def finest : Nat := 1100

/-- The double nearest to `num / den` units, a tie to the even one; `none` if it
would lie beyond the largest double. -/
def round? (negative : Bool) (num den : Nat) : Option Double :=
  -- the last place, never below that of the least double
  let place := max (Nat.log2 (num / den) - 52) 26
  let m := roundDiv num (den * 2 ^ place)
  let (m, place) := if m == 2 ^ (53 : Nat) then (2 ^ (52 : Nat), place + 1) else (m, place)
  if m < 2 ^ (52 : Nat) then some (ofFields negative 0 m)
  else
    let field := place - 25
    if 2047 ≤ field then none else some (ofFields negative field (m - 2 ^ (52 : Nat)))

/-- The double nearest to `num / den`. -/
def ofQuotient? (negative : Bool) (num den : Nat) : Option Double :=
  round? negative (num * 2 ^ finest) den

/-- The double nearest to `digits * 10 ^ exp`; `none` if it would lie beyond
the largest double. What lies far beyond the largest or far below the least
one is decided without writing out the power. -/
def ofDecimal? (negative : Bool) (digits : Nat) (exp : Int) : Option Double :=
  if digits == 0 then some (ofFields negative 0 0)
  else if 400 < exp then none
  -- below `10 ^ (-1100)`, because `digits` is less than `8 ^ (-1100 - exp)`
  else if Nat.log2 digits + 1 < 3 * (-1100 - exp).toNat then some (ofFields negative 0 0)
  else if 0 ≤ exp then ofQuotient? negative (digits * 10 ^ exp.toNat) 1
  else ofQuotient? negative digits (10 ^ (-exp).toNat)

def digitCount (n : Nat) : Nat := (Bytes.decimal n).length

/-- The decimal exponent of the first digit of `m * 2 ^ q`, for `m` above
zero. -/
def leadingExponent (m : Nat) (q : Int) : Int :=
  if 0 ≤ q then (digitCount (m * 2 ^ q.toNat) : Int) - 1
  else (digitCount (m * 10 ^ (400 : Nat) / 2 ^ (-q).toNat) : Int) - 401

def dropZeros (digits : Nat) (exp : Int) : Nat × Int :=
  if digits == 0 || digits % 10 != 0 then (digits, exp) else dropZeros (digits / 10) (exp + 1)
termination_by digits
decreasing_by
  rename_i h
  simp only [Bool.or_eq_true, not_or, beq_iff_eq] at h
  exact Nat.div_lt_self (Nat.pos_of_ne_zero h.1) (by omega)

/-- The decimals of `n` digits next to `m * 2 ^ q`, the nearest first: their
digits and the exponent of the last of them. -/
def neighbours (m : Nat) (q : Int) (n : Nat) : List (Nat × Int) :=
  let s := leadingExponent m q - (n : Int) + 1
  let scaled := 10 ^ (-s).toNat * m * 2 ^ q.toNat
  let grid := 10 ^ s.toNat * 2 ^ (-q).toNat
  let floor := scaled / grid
  [roundDiv scaled grid, floor, floor + 1].map (dropZeros · s)

/-- The whole number below `2 ^ 53` that a finite value is, if it is one. -/
def whole? (d : Double) : Option Nat :=
  let unit := 2 ^ (1075 - d.exponent)
  if d.exponent ≤ 1075 ∧ d.significand % unit = 0 then some (d.significand / unit) else none

/-- All digits of a finite value. -/
def allDigits (d : Double) : Nat × Int :=
  if 1075 ≤ d.exponent then (d.significand * 2 ^ (d.exponent - 1075), 0)
  else (d.significand * 5 ^ (1075 - d.exponent), (d.exponent : Int) - 1075)

/-- The fewest digits that read back as a finite value other than zero, as a
whole number and a power of ten. A whole number has no fewer than its own, and
seventeen digits always suffice. -/
def shortest (d : Double) : Nat × Int :=
  match d.whole? with
  | some n => dropZeros n 0
  | none =>
    let found := (List.range 17).findSome? fun n =>
      (neighbours d.significand ((d.exponent : Int) - 1075) (n + 1)).find? fun (digits, exp) =>
        ofDecimal? d.signBit digits exp == some d
    found.getD d.allDigits

/-- Digits with a point behind the first `n` of them, if there are more. -/
def pointed (digits : Bytes) (n : Nat) : Bytes :=
  if digits.length ≤ n then digits else digits.take n ++ Byte.dot :: digits.drop n

/-- Text without an exponent for a number whose first digit stands for
`10 ^ x`. -/
def positional (digits : Bytes) (x : Int) : Bytes :=
  let whole := x.toNat + 1
  let places := List.replicate (-x).toNat Byte.zero ++ digits
  pointed (places ++ List.replicate (whole - places.length) Byte.zero) whole

/-- An exponent with its sign and at least `width` digits. -/
def power (width : Nat) (x : Int) : Bytes :=
  let digits := Bytes.decimal x.natAbs
  (if x < 0 then Byte.minus else Byte.plus)
    :: (List.replicate (width - digits.length) Byte.zero ++ digits)

/-- Text with an exponent of at least `width` digits. -/
def scientific (width : Nat) (digits : Bytes) (x : Int) : Bytes :=
  pointed digits 1 ++ 0x65 :: power width x

/-- Text for a number whose first digit stands for `10 ^ x`: with an exponent
unless `x` is between minus four and five. -/
def layout (digits : Bytes) (x : Int) : Bytes :=
  if x < -4 ∨ 6 ≤ x then scientific 2 digits x else positional digits x

/-- The digits of a finite value other than zero, and the power of ten of the
first of them. -/
def shown (d : Double) : Bytes × Int :=
  let p := d.shortest
  (Bytes.decimal p.1, p.2 + (digitCount p.1 : Int) - 1)

/-- The text of a number: the fewest digits that read back. -/
def text (d : Double) : Bytes :=
  if d.isNaN then "NaN"
  else
    let sign : Bytes := if d.signBit then "-" else ""
    if d.isInfinite then (if d.signBit then "-Inf" else "+Inf")
    else if d.isZero then sign ++ "0"
    else sign ++ layout d.shown.1 d.shown.2

end Double

end TemplateCompiler

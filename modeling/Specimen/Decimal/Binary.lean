/-!
# Binary floating point numbers

A floating point number as a whole number times a power of two. The conversions of this module read
the bits of a `Float` and compute with whole numbers, so they are exact where no rounding is stated.
Numbers of single precision are held as `Float`s too, which has room for all of them.
-/

namespace Specimen.Decimal

/-! ## Formats -/

/-- A binary format: the number of digits of the significand, and the exponents of the last digit of
its least and its greatest numbers. -/
structure Format where
  digits : Nat
  least : Int
  greatest : Int
deriving DecidableEq, Repr

/-- Double precision. -/
def double : Format := ⟨53, -1074, 971⟩

/-- Single precision. -/
def single : Format := ⟨24, -149, 104⟩

/-! ## Parts of a number -/

/-- What a floating point number denotes; the sign is set for negative numbers and negative zero. A
finite number is `significand * 2 ^ exponent`. -/
inductive Value where
  | nan
  | infinite (negative : Bool)
  | finite (negative : Bool) (significand : Nat) (exponent : Int)
deriving DecidableEq, Repr

/-- The parts of a number. The significand of a number that is not zero has 53 digits unless the
exponent is the least. -/
def decode (x : Float) : Value :=
  let bits := x.toBits.toNat
  let negative := Nat.pow 2 63 ≤ bits
  let exponent : Nat := bits / Nat.pow 2 52 % Nat.pow 2 11
  let fraction := bits % Nat.pow 2 52
  if exponent = 2047 then if fraction = 0 then .infinite negative else .nan
  else if exponent = 0 then .finite negative fraction (-1074)
  else .finite negative (Nat.pow 2 52 + fraction) ((exponent : Int) - 1075)

/-- The number with a sign, a significand below 2^53 and an exponent. The significand has 53 digits
unless the exponent is the least. -/
def encode (negative : Bool) (significand : Nat) (exponent : Int) : Float :=
  let sign := if negative then Nat.pow 2 63 else 0
  let magnitude :=
    if significand < Nat.pow 2 52 then significand
    else (exponent + 1075).toNat * Nat.pow 2 52 + (significand - Nat.pow 2 52)
  Float.ofBits (sign + magnitude).toUInt64

/-- The infinite number of a sign. -/
def infinity (negative : Bool) : Float :=
  Float.ofBits (if negative then 0xFFF0000000000000 else 0x7FF0000000000000)

/-- The number that is none. -/
def nan : Float := Float.ofBits 0x7FF8000000000000

/-! ## Rounding to a format -/

/-- The quotient of two numbers, rounded to the nearest whole number, of two such the even one. -/
def divideToEven (num den : Nat) : Nat :=
  let quotient := num / den
  let twice := 2 * (num % den)
  if twice < den || (twice == den && quotient % 2 == 0) then quotient else quotient + 1

/-- The fraction `num / den` in units of `2 ^ exponent`, rounded to the nearest, of two such the
even one. -/
def scaleToEven (num den : Nat) (exponent : Int) : Nat :=
  if 0 ≤ exponent then divideToEven num (den * Nat.pow 2 exponent.toNat)
  else divideToEven (num * Nat.pow 2 (-exponent).toNat) den

/-- An exponent with which the significand of a fraction may just fit into a format, or is at most
four times too large. It is no less than the format allows. -/
def lowExponent (f : Format) (num den : Nat) : Int :=
  max f.least ((Nat.log2 num : Int) - Nat.log2 den - f.digits)

/-- The exponent with which a fraction is rounded to a format: the least one with which the rounded
significand fits. -/
def exponentFor (f : Format) (num den : Nat) : Int :=
  let low := lowExponent f num den
  let fits := fun e => scaleToEven num den e < Nat.pow 2 f.digits
  if fits low then low else if fits (low + 1) then low + 1 else low + 2

/-- The number `significand * 2 ^ exponent`, where the significand is below 2^53 and the exponent is
that of a double precision number or larger. -/
def ofParts (negative : Bool) (significand : Nat) (exponent : Int) : Float :=
  if significand = 0 then encode negative 0 (-1074)
  else
    let shift := min (52 - Nat.log2 significand) (exponent + 1074).toNat
    encode negative (significand * Nat.pow 2 shift) (exponent - shift)

/-- The number of a format that is nearest to a fraction that is not negative, of two such the one
with the even significand, and infinite if the fraction is too large. -/
def nearest (f : Format) (negative : Bool) (num den : Nat) : Float :=
  let exponent := exponentFor f num den
  if f.greatest < exponent then infinity negative
  else ofParts negative (scaleToEven num den exponent) exponent

/-- The number of single precision that is nearest to a number. -/
def toSingle (x : Float) : Float :=
  match decode x with
  | .nan => nan
  | .infinite negative => infinity negative
  | .finite negative m q =>
    if 0 ≤ q then nearest single negative (m * Nat.pow 2 q.toNat) 1
    else nearest single negative m (Nat.pow 2 (-q).toNat)

/-! ## Whole numbers -/

/-- The magnitude `m * 2 ^ q`, rounded to the nearest whole number, a half upwards. -/
def roundMagnitude (m : Nat) (q : Int) : Nat :=
  if 0 ≤ q then m * Nat.pow 2 q.toNat
  else (2 * m + Nat.pow 2 (-q).toNat) / Nat.pow 2 ((-q).toNat + 1)

/-- The magnitude `m * 2 ^ q` without its fraction. -/
def truncateMagnitude (m : Nat) (q : Int) : Nat :=
  if 0 ≤ q then m * Nat.pow 2 q.toNat else m / Nat.pow 2 (-q).toNat

/-- A whole number with a sign. -/
def signed (negative : Bool) (n : Nat) : Int := if negative then -(n : Int) else n

/-- The nearest whole number between two bounds, where a half is rounded away from zero, an infinite
number is beyond every bound, and what is no number counts as zero. -/
def roundBetween (lo hi : Int) (x : Float) : Int :=
  match decode x with
  | .nan => max lo (min hi 0)
  | .infinite true => lo
  | .infinite false => hi
  | .finite negative m q => max lo (min hi (signed negative (roundMagnitude m q)))

/-- The whole number between two bounds that a number has without its fraction, where an infinite
number is beyond every bound, and what is no number counts as zero. -/
def truncateBetween (lo hi : Int) (x : Float) : Int :=
  match decode x with
  | .nan => max lo (min hi 0)
  | .infinite true => lo
  | .infinite false => hi
  | .finite negative m q => max lo (min hi (signed negative (truncateMagnitude m q)))

/-- The double precision number nearest to a whole number. -/
def ofInt (n : Int) : Float := nearest double (n < 0) n.natAbs 1

end Specimen.Decimal

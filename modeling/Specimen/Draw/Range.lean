import Specimen.Decimal.Binary
import Specimen.Draw.Source

/-!
# Draws from a range

A number between two bounds is drawn by mapping a number `u` of the unit interval to `min + u * (max
- min)`. Whole numbers are the nearest ones to that, which gives both bounds half the weight of the
numbers between them. Bounds in the wrong order are exchanged.
-/

namespace Specimen.Draw

open Decimal

variable {σ : Type} [Source σ]

/-- A finite number or none, and no infinite one. -/
def isFinite (x : Float) : Bool :=
  match decode x with
  | .finite _ _ _ => true
  | _ => false

/-- The number at `u` between two bounds. Where the distance of the bounds is too large for a
number, the bounds are weighted instead. -/
def scale (min max u : Float) : Float :=
  let x := min + u * (max - min)
  if isFinite x then x else min * (1 - u) + max * u

/-- The whole number at `u` between two bounds. -/
def scaleInt (min max : Int) (u : Float) : Int :=
  roundBetween min max (scale (ofInt min) (ofInt max) u)

/-- A whole number between two bounds. -/
def int (a b : Int) (s : σ) : Int × σ :=
  let (u, s) := unit s
  (if b < a then scaleInt b a u else scaleInt a b u, s)

/-- A number that is not negative between two bounds. -/
def nat (a b : Nat) (s : σ) : Nat × σ :=
  let (n, s) := int a b s
  (n.toNat, s)

/-- A double precision number between two bounds. -/
def real (a b : Float) (s : σ) : Float × σ :=
  let (u, s) := unit s
  (if b < a then scale b a u else scale a b u, s)

/-- A single precision number between two bounds of single precision. -/
def shortReal (a b : Float) (s : σ) : Float × σ :=
  let (x, s) := real a b s
  (toSingle x, s)

end Specimen.Draw

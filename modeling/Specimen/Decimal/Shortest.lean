import Specimen.Decimal.Binary

/-!
# Shortest decimal notation

A floating point number is written with the fewest digits that are read back as this number, and of
those with the digits nearest to it. The notation is positional, whatever the size of the number:
there is no exponent, and a whole number has no point.

The reals that are rounded to a number lie between the middles to its two neighbours. The search
goes from coarse decimal grids to finer ones and tests, on each, the points next to the number below
and above.
-/

namespace Specimen.Decimal

/-! ## The reals that are rounded to a number -/

/-- A number with the reals that are rounded to it, all in units of `2 ^ exponent`. The two ends
belong to it if `closed` is set. -/
structure Interval where
  low : Nat
  value : Nat
  high : Nat
  exponent : Int
  closed : Bool
deriving DecidableEq, Repr

/-- The reals that are rounded to `m * 2 ^ q` in a format; `m` is positive. The neighbour below is
nearer if `m` is a power of two and the exponent is not the least. -/
def interval (f : Format) (m : Nat) (q : Int) : Interval :=
  let nearer := m == Nat.pow 2 (f.digits - 1) && f.least < q
  ⟨4 * m - (if nearer then 1 else 2), 4 * m, 4 * m + 2, q - 2, m % 2 == 0⟩

/-- The significand and the exponent with which a format holds `m * 2 ^ q`. -/
def partsIn (f : Format) (m : Nat) (q : Int) : Nat × Int :=
  let drop := max (f.least - q) ((Nat.log2 m : Int) + 1 - f.digits)
  if 0 ≤ drop then (m / Nat.pow 2 drop.toNat, q + drop) else (m, q)

/-! ## Decimal grids -/

/-- `n * base ^ e`, or `n` itself if `e` is negative. -/
def scaleUp (base n : Nat) (e : Int) : Nat := if 0 ≤ e then n * Nat.pow base e.toNat else n

/-- The factors by which numbers of units and numbers of grid points are multiplied to compare them:
the unit is `2 ^ exponent`, and the grid is that of the multiples of `10 ^ power`. -/
def factors (exponent power : Int) : Nat × Nat :=
  (scaleUp 10 (scaleUp 2 1 exponent) (-power), scaleUp 2 (scaleUp 10 1 power) (-exponent))

/-- A grid point, given as its product with the second factor, is rounded to the number. -/
def Interval.holds (i : Interval) (unit point : Nat) : Bool :=
  if i.closed then i.low * unit ≤ point && point ≤ i.high * unit
  else i.low * unit < point && point < i.high * unit

/-- The point of a grid that is nearest to the number, the upper one of two such, if a point of the
grid is rounded to the number. -/
def gridPoint? (i : Interval) (power : Int) : Option Nat :=
  let (unit, grid) := factors i.exponent power
  let below := i.value * unit / grid
  let lower := i.holds unit (below * grid)
  let upper := i.holds unit ((below + 1) * grid)
  let nearUpper := (below + 1) * grid - i.value * unit ≤ i.value * unit - below * grid
  if lower && (!upper || !nearUpper) then some below
  else if upper then some (below + 1)
  else none

/-- The first grid from `10 ^ power` on with a point that is rounded to the number, and this point,
on at most `steps` grids. -/
def search (i : Interval) : Nat → Int → Nat × Int
  | 0, power =>
    let (unit, grid) := factors i.exponent power
    (i.value * unit / grid, power)
  | steps + 1, power =>
    match gridPoint? i power with
    | some point => (point, power)
    | none => search i steps (power - 1)

/-- A power of ten above the number: about 1233/4096 decimal digits for each binary one. -/
def powerAbove (i : Interval) : Int :=
  ((Nat.log2 i.value : Int) + 1 + i.exponent) * 1233 / 4096 + 2

/-- The shortest decimal digits that are read back as `m * 2 ^ q` in a format, as a number, and the
power of ten of the last one. -/
def shortest (f : Format) (m : Nat) (q : Int) : Nat × Int :=
  let (m, q) := partsIn f m q
  let i := interval f m q
  search i 40 (powerAbove i)

/-! ## Notation -/

/-- The number `digits * 10 ^ power` in positional notation. -/
def positional (digits : Nat) (power : Int) : List Char :=
  let text := Nat.toDigits 10 digits
  if 0 ≤ power then text ++ List.replicate power.toNat '0'
  else
    let places := (-power).toNat
    if places < text.length then
      text.take (text.length - places) ++ '.' :: text.drop (text.length - places)
    else ['0', '.'] ++ List.replicate (places - text.length) '0' ++ text

/-- A number of a format in shortest notation. -/
def render (f : Format) (x : Float) : String :=
  match decode x with
  | .nan => "NaN"
  | .infinite negative => if negative then "-inf" else "inf"
  | .finite negative m q =>
    let text :=
      if m = 0 then ['0']
      else
        let (digits, power) := shortest f m q
        positional digits power
    String.ofList (if negative then '-' :: text else text)

end Specimen.Decimal

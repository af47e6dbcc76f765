import Specimen.Decimal.Binary
import Specimen.Text.Numeral

/-!
# Reading floating point numbers

A number is written as an optional sign, digits with an optional point, and an optional power of
ten; there has to be a digit before or after the point. `inf`, `infinity` and `nan` are permitted in
any case. The number that is read is the one of the format nearest to what is written.
-/

namespace Specimen.Decimal

open Specimen.Text

/-! ## Grammar -/

/-- A written number: the digits without the point, and the power of ten of the last one. -/
structure Literal where
  digits : Nat
  power : Int
deriving DecidableEq, Repr

/-- Reads the part after the letter `e`: an optional sign and digits up to the end. -/
def readPower (cs : List Char) : Option Int :=
  match cs with
  | '-' :: rest => (readDigits rest).map fun n => -(n : Int)
  | '+' :: rest => (readDigits rest).map Int.ofNat
  | _ => (readDigits cs).map Int.ofNat

/-- Reads digits with an optional point, then an optional power of ten, up to the end. -/
def readLiteral (cs : List Char) : Option Literal :=
  let (whole, rest) := cs.span isDigit
  let (fraction, rest) := match rest with
    | '.' :: after => after.span isDigit
    | _ => ([], rest)
  if whole.isEmpty && fraction.isEmpty then none
  else
    let power? := match rest with
      | [] => some 0
      | c :: after => if c == 'e' || c == 'E' then readPower after else none
    power?.map fun power => ⟨digitsValue (whole ++ fraction), power - fraction.length⟩

/-! ## Values -/

/-- Powers of ten beyond these make every number infinite or zero. -/
def powerCap : Int := 100000

/-- The number of a format nearest to a written one. -/
def Literal.toFloat (f : Format) (negative : Bool) (l : Literal) : Float :=
  let size := (Nat.toDigits 10 l.digits).length
  if l.digits = 0 then nearest f negative 0 1
  else if powerCap < l.power + size then infinity negative
  else if l.power + size < -powerCap then nearest f negative 0 1
  else if 0 ≤ l.power then nearest f negative (l.digits * Nat.pow 10 l.power.toNat) 1
  else nearest f negative l.digits (Nat.pow 10 (-l.power).toNat)

/-- Reads a number without its sign. -/
def readMagnitude (f : Format) (negative : Bool) (cs : List Char) : Option Float :=
  match String.ofList (cs.map Char.toLower) with
  | "inf" => some (infinity negative)
  | "infinity" => some (infinity negative)
  | "nan" => some nan
  | _ => (readLiteral cs).map (Literal.toFloat f negative)

/-- Reads a number of a format. -/
def read (f : Format) (s : String) : Option Float :=
  match s.toList with
  | '-' :: rest => readMagnitude f true rest
  | '+' :: rest => readMagnitude f false rest
  | cs => readMagnitude f false cs

end Specimen.Decimal

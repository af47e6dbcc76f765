/-!
# Decimal numerals

Unsigned numbers written with the ASCII digits, as counts and bounds are written in a schema.
Leading zeros are permitted, and so is one plus sign where `readCount` reads.
-/

namespace Specimen.Text

/-- An ASCII digit. -/
def isDigit (c : Char) : Bool := '0' ≤ c && c ≤ '9'

/-- The value of an ASCII digit. -/
def digitValue (c : Char) : Nat := c.toNat - '0'.toNat

/-- The number that a row of digits denotes. -/
def digitsValue (ds : List Char) : Nat := ds.foldl (fun n d => n * 10 + digitValue d) 0

/-- Reads a row of digits that is not empty. -/
def readDigits (cs : List Char) : Option Nat :=
  if cs.isEmpty || !cs.all isDigit then none else some (digitsValue cs)

/-- Counts and bounds are below this number. -/
def countLimit : Nat := Nat.pow 2 32

/-- Reads a number below `limit`: an optional plus sign, then digits. -/
def readBelow (limit : Nat) (cs : List Char) : Option Nat :=
  let digits := match cs with
    | '+' :: rest => rest
    | _ => cs
  (readDigits digits).filter (· < limit)

/-- Reads a count: an optional plus sign, then digits, with a value below `countLimit`. -/
def readCount (s : String) : Option Nat := readBelow countLimit s.toList

/-- Different numbers are written differently. -/
theorem toString_injective {m n : Nat} (h : toString m = toString n) : m = n := by
  replace h : Nat.repr m = Nat.repr n := h
  rw [Nat.repr_eq_ofList_toDigits, Nat.repr_eq_ofList_toDigits] at h
  have hdigits : Nat.toDigits 10 m = Nat.toDigits 10 n := by simpa using congrArg String.toList h
  have := congrArg (fun digits => Nat.ofDigitChars 10 digits 0) hdigits
  simpa [Nat.ofDigitChars_ten_toDigits] using this

end Specimen.Text

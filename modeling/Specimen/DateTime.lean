import Specimen.Text.Blank
import Specimen.Text.Numeral

/-!
# Dates and times

A clock reading in the proleptic Gregorian calendar, down to nanoseconds and without a time zone.
The 60th second of a minute is admitted as a leap second. The written form is `YYYY-MM-DDTHH:MM:SS`
with an optional fraction; the reader also takes fields of one digit and blanks around the fields.
-/

namespace Specimen

/-- A clock reading. -/
structure DateTime where
  year : Int
  month : Nat
  day : Nat
  hour : Nat
  minute : Nat
  second : Nat
  nanosecond : Nat := 0
deriving DecidableEq, Repr, Inhabited

namespace DateTime

/-! ## The calendar -/

/-- A year of 366 days. -/
def isLeapYear (year : Int) : Bool := year % 4 == 0 && (year % 100 != 0 || year % 400 == 0)

/-- The number of days of a month. -/
def daysIn (year : Int) (month : Nat) : Nat :=
  if month = 2 then if isLeapYear year then 29 else 28
  else if [4, 6, 9, 11].contains month then 30
  else 31

/-- The first year of the calendar that can be represented. -/
def minYear : Int := -262143

/-- The last year of the calendar that can be represented. -/
def maxYear : Int := 262142

/-- The fields are those of a day in the calendar and of a time of day. -/
def isValid (t : DateTime) : Bool :=
  minYear ≤ t.year && t.year ≤ maxYear
    && 1 ≤ t.month && t.month ≤ 12 && 1 ≤ t.day && t.day ≤ daysIn t.year t.month
    && t.hour < 24 && t.minute < 60 && t.second ≤ 60 && t.nanosecond < 1000000000

/-! ## Writing -/

/-- The digits of a number, with zeros in front up to a width. -/
def padded (width n : Nat) : List Char :=
  let digits := Nat.toDigits 10 n
  List.replicate (width - digits.length) '0' ++ digits

/-- A year, with four digits at least, and with a sign if it has none of 0 to 9999. -/
def yearText (year : Int) : List Char :=
  if year < 0 then '-' :: padded 4 year.natAbs
  else if 9999 < year then '+' :: padded 4 year.natAbs
  else padded 4 year.natAbs

/-- The date. -/
def dateText (t : DateTime) : String :=
  String.ofList (yearText t.year ++ '-' :: padded 2 t.month ++ '-' :: padded 2 t.day)

/-- The time of day without the fraction of the second. -/
def timeText (t : DateTime) : String :=
  String.ofList (padded 2 t.hour ++ ':' :: padded 2 t.minute ++ ':' :: padded 2 t.second)

/-- The fraction of a second with 3, 6 or 9 digits, as few as are needed, or nothing. -/
def fractionText (nanosecond : Nat) : List Char :=
  if nanosecond = 0 then []
  else if nanosecond % 1000000 = 0 then '.' :: padded 3 (nanosecond / 1000000)
  else if nanosecond % 1000 = 0 then '.' :: padded 6 (nanosecond / 1000)
  else '.' :: padded 9 nanosecond

/-- The date and the time without a fraction. -/
def plainText (t : DateTime) : String := t.dateText ++ "T" ++ t.timeText

/-- The date and the time with the fraction. -/
def text (t : DateTime) : String :=
  t.plainText ++ String.ofList (fractionText t.nanosecond)

/-! ## Reading -/

/-- Reads up to `width` digits after blanks, and at least one. -/
def readField (width : Nat) (cs : List Char) : Option (Nat × List Char) :=
  let cs := Text.trimStartChars cs
  let digits := (cs.take width).takeWhile Text.isDigit
  if digits.isEmpty then none else some (Text.digitsValue digits, cs.drop digits.length)

/-- Reads as many digits as there are, and at least one. -/
def readLong (cs : List Char) : Option (Nat × List Char) :=
  let digits := cs.takeWhile Text.isDigit
  if digits.isEmpty then none else some (Text.digitsValue digits, cs.drop digits.length)

/-- Reads a year after blanks: four digits at most, or any number of digits after a sign. -/
def readYear (cs : List Char) : Option (Int × List Char) :=
  match Text.trimStartChars cs with
  | '-' :: rest => (readLong rest).map fun (n, rest) => (-(n : Int), rest)
  | '+' :: rest => (readLong rest).map fun (n, rest) => ((n : Int), rest)
  | cs => (readField 4 cs).map fun (n, rest) => ((n : Int), rest)

/-- Reads a mark after blanks. -/
def readMark (mark : Char) (cs : List Char) : Option (List Char) :=
  match Text.trimStartChars cs with
  | c :: rest => if c = mark then some rest else none
  | [] => none

/-- Reads the digits after the point of a second. Those behind the ninth do not count. -/
def readFraction (cs : List Char) : Option (Nat × List Char) :=
  match cs with
  | '.' :: rest =>
    let digits := rest.takeWhile Text.isDigit
    if digits.isEmpty then none
    else
      let counted := digits.take 9
      some (Text.digitsValue counted * Nat.pow 10 (9 - counted.length), rest.drop digits.length)
  | _ => some (0, cs)

/-- Reads a date and a time of day. -/
def read? (s : String) : Option DateTime := do
  let (year, rest) ← readYear s.toList
  let rest ← readMark '-' rest
  let (month, rest) ← readField 2 rest
  let rest ← readMark '-' rest
  let (day, rest) ← readField 2 rest
  let rest ← readMark 'T' rest
  let (hour, rest) ← readField 2 rest
  let rest ← readMark ':' rest
  let (minute, rest) ← readField 2 rest
  let rest ← readMark ':' rest
  let (second, rest) ← readField 2 rest
  let (nanosecond, rest) ← readFraction rest
  let t : DateTime := ⟨year, month, day, hour, minute, second, nanosecond⟩
  if (Text.trimStartChars rest).isEmpty && t.isValid then some t else none

end DateTime

end Specimen

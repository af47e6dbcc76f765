/-!
# JSON texts

The parts of JSON that policies and event lists are written with: quoted strings, whole numbers, and
the blanks between. A reader gives the rest of the text that it has not used. Strings are strict: no
control character, only the escapes of the standard, and surrogates in pairs.
-/

namespace Specimen.Json

/-! ## Writing -/

/-- The digit of a number below 16. -/
def hexDigit (n : Nat) : Char :=
  if n < 10 then Char.ofNat ('0'.toNat + n) else Char.ofNat ('a'.toNat + (n - 10))

/-- What is written for a character in a string. -/
def escapeChar (c : Char) : List Char :=
  if c = '"' then ['\\', '"']
  else if c = '\\' then ['\\', '\\']
  else if c = '\n' then ['\\', 'n']
  else if c = '\r' then ['\\', 'r']
  else if c = '\t' then ['\\', 't']
  else if c.toNat = 0x08 then ['\\', 'b']
  else if c.toNat = 0x0C then ['\\', 'f']
  else if c.toNat < 0x20 then
    ['\\', 'u', '0', '0', hexDigit (c.toNat / 16), hexDigit (c.toNat % 16)]
  else [c]

/-- A string in quotes. -/
def quote (s : String) : String := String.ofList ('"' :: s.toList.flatMap escapeChar ++ ['"'])

/-! ## Blanks and marks -/

/-- A character that may stand between the parts of a text. -/
def isSpace (c : Char) : Bool := c == ' ' || c == '\n' || c == '\t' || c == '\r'

/-- Drops the blanks in front. -/
def skip (cs : List Char) : List Char := cs.dropWhile isSpace

/-- Reads a word that stands next. -/
def readWord (word : List Char) (cs : List Char) : Option (List Char) :=
  if word.isPrefixOf cs then some (cs.drop word.length) else none

/-! ## Numbers -/

/-- An ASCII digit. -/
def isDigit (c : Char) : Bool := '0' ≤ c && c ≤ '9'

/-- Reads a whole number that is not negative: no sign, no zero in front of other digits, and
neither point nor exponent behind. -/
def readNat (cs : List Char) : Option (Nat × List Char) :=
  let (digits, rest) := cs.span isDigit
  let value := digits.foldl (fun n d => n * 10 + (d.toNat - '0'.toNat)) 0
  match digits, rest with
  | [], _ => none
  | '0' :: _ :: _, _ => none
  | _, c :: _ => if c == '.' || c == 'e' || c == 'E' then none else some (value, rest)
  | _, [] => some (value, [])

/-! ## Strings -/

/-- The value of a hexadecimal digit. -/
def hexValue? (c : Char) : Option Nat :=
  if '0' ≤ c && c ≤ '9' then some (c.toNat - '0'.toNat)
  else if 'a' ≤ c && c ≤ 'f' then some (c.toNat - 'a'.toNat + 10)
  else if 'A' ≤ c && c ≤ 'F' then some (c.toNat - 'A'.toNat + 10)
  else none

/-- The number that four hexadecimal digits denote. -/
def hexQuad? (a b c d : Char) : Option Nat := do
  return ((← hexValue? a) * 16 + (← hexValue? b)) * 256 + (← hexValue? c) * 16 + (← hexValue? d)

/-- The character that a letter after a backslash stands for. -/
def escaped? (c : Char) : Option Char :=
  match c with
  | '"' => some '"'
  | '\\' => some '\\'
  | '/' => some '/'
  | 'b' => some (Char.ofNat 0x08)
  | 'f' => some (Char.ofNat 0x0C)
  | 'n' => some '\n'
  | 'r' => some '\r'
  | 't' => some '\t'
  | _ => none

/-- The character of a code unit that is no surrogate. -/
def unitChar? (n : Nat) : Option Char :=
  if 0xD800 ≤ n && n ≤ 0xDFFF then none else some (Char.ofNat n)

/-- The character of a pair of surrogates. -/
def pairChar? (high low : Nat) : Option Char :=
  if 0xD800 ≤ high && high ≤ 0xDBFF && 0xDC00 ≤ low && low ≤ 0xDFFF then
    some (Char.ofNat (0x10000 + (high - 0xD800) * 0x400 + (low - 0xDC00)))
  else none

/-- Puts a character in front of a string that has been read. -/
def consChar (c : Char) (r : List Char × List Char) : List Char × List Char := (c :: r.1, r.2)

/-- Reads the rest of a string up to its closing quote. -/
def readChars : List Char → Option (List Char × List Char)
  | [] => none
  | '"' :: rest => some ([], rest)
  | '\\' :: 'u' :: a :: b :: c :: d :: rest =>
    match (hexQuad? a b c d).bind unitChar? with
    | some ch => (readChars rest).map (consChar ch)
    | none =>
      match rest with
      | '\\' :: 'u' :: e :: f :: g :: h :: rest' =>
        match hexQuad? a b c d, hexQuad? e f g h with
        | some high, some low =>
          match pairChar? high low with
          | some ch => (readChars rest').map (consChar ch)
          | none => none
        | _, _ => none
      | _ => none
  | '\\' :: e :: rest =>
    match escaped? e with
    | some ch => (readChars rest).map (consChar ch)
    | none => none
  | c :: rest => if c.toNat < 0x20 || c == '\\' then none else (readChars rest).map (consChar c)

/-- Reads a string in quotes. -/
def readString (cs : List Char) : Option (String × List Char) :=
  match cs with
  | '"' :: rest => (readChars rest).map fun (chars, rest) => (String.ofList chars, rest)
  | _ => none

end Specimen.Json

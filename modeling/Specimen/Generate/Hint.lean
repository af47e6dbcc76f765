/-!
# Values made up from a hint

The text of a leaf without a better source is its hint, the local name of the element or attribute
it fills, with the number of times that the hint has been used. The length facets of the type
stretch the hint or cut it; where even the number does not fit, the number is left out.
-/

namespace Specimen

/-! ## Counting uses -/

/-- How often each hint has been used. -/
structure HintCounters where
  uses : List (String × Nat) := []
deriving DecidableEq, Repr, Inhabited

namespace HintCounters

/-- The number of uses of a hint so far. -/
def get (c : HintCounters) (hint : String) : Nat := (c.uses.lookup hint).getD 0

/-- Sets the number of uses of a hint. -/
def setUses (hint : String) (n : Nat) : List (String × Nat) → List (String × Nat)
  | [] => [(hint, n)]
  | entry :: rest => if entry.1 = hint then (hint, n) :: rest else entry :: setUses hint n rest

/-- Counts one more use of a hint; the first is number one. -/
def next (c : HintCounters) (hint : String) : Nat × HintCounters :=
  (c.get hint + 1, ⟨setUses hint (c.get hint + 1) c.uses⟩)

end HintCounters

/-! ## The text -/

namespace Hint

/-- Underscores behind the hint, so that hint and number have `minLength` characters. -/
def stretch (minLength : Option Nat) (hint number : List Char) : List Char :=
  match minLength with
  | none => hint
  | some n => hint ++ List.replicate (n - (hint.length + number.length)) '_'

/-- Takes characters from the end of the hint, so that hint and number have at most `maxLength`
characters. If this would take the whole hint, the number is left out instead. -/
def cut (maxLength : Option Nat) (hint number : List Char) : List Char :=
  match maxLength with
  | none => hint ++ number
  | some n =>
    let excess := hint.length + number.length - n
    if excess = 0 then hint ++ number
    else if excess < hint.length then hint.take (hint.length - excess) ++ number
    else hint.take n

/-- The text for a hint that is used for the `n`-th time. -/
def value (hint : String) (n : Nat) (minLength maxLength : Option Nat) : String :=
  let number := Nat.toDigits 10 n
  String.ofList (cut maxLength (stretch minLength hint.toList number) number)

end Hint

end Specimen

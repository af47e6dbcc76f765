import Specimen.Error
import Specimen.Text.Blank
import Specimen.Text.Numeral

/-!
# Occurrence bounds

How often a particle may occur: a lower bound, and an upper bound or none. The bounds that are read
from a schema are in order; a range built otherwise may be reversed, and then it holds no number.
-/

namespace Specimen

/-- At least `min` times, and at most `max` times if there is an upper bound. -/
structure Occurs where
  min : Nat
  max : Option Nat
deriving DecidableEq, Repr, Inhabited

namespace Occurs

/-! ## Usual ranges -/

/-- Exactly once, the range of a particle that states none. -/
def once : Occurs := ⟨1, some 1⟩

/-- At most once. -/
def optional : Occurs := ⟨0, some 1⟩

/-- Any number of times. -/
def zeroOrMore : Occurs := ⟨0, none⟩

/-- At least once. -/
def oneOrMore : Occurs := ⟨1, none⟩

/-! ## Questions -/

/-- Present or absent, and never repeated. -/
def isOptional (o : Occurs) : Bool := o.min == 0 && o.max == some 1

/-- Without an upper bound. -/
def isUnbounded (o : Occurs) : Bool := o.max.isNone

/-- With one possible number only. -/
def isUnivocal (o : Occurs) : Bool := o.max == some o.min

/-- A number within the bounds. -/
def contains (o : Occurs) (n : Nat) : Bool :=
  o.min ≤ n && (match o.max with | some max => n ≤ max | none => true)

/-! ## Notation -/

/-- The suffix that stands for the range in a content model: `?`, `*` or `+`, the two bounds in
brackets, or nothing for exactly once. -/
def suffix (o : Occurs) : String :=
  match o.min, o.max with
  | 1, some 1 => ""
  | 0, some 1 => "?"
  | 0, none => "*"
  | 1, none => "+"
  | min, none => "[" ++ toString min ++ ",*]"
  | min, some max => "[" ++ toString min ++ "," ++ toString max ++ "]"

/-! ## Reading -/

/-- Reads a lower bound, one if none is given. The report quotes the value as it was given. -/
def readMin : Option String → Except Error Nat
  | none => .ok 1
  | some text =>
    match Text.readCount (Text.trim text) with
    | some min => .ok min
    | none => .error (.parse ⟨.badMinOccurs, none, some text⟩)

/-- Reads an upper bound that may not be below `min`. Without one, a particle occurs at most once.
The report quotes the value without the blanks around it. -/
def readMax (min : Nat) : Option String → Except Error (Option Nat)
  | none => if 1 < min then .error (.ofCause .minAboveOne) else .ok (some 1)
  | some text =>
    let text := Text.trim text
    if text = "unbounded" then .ok none
    else
      match Text.readCount text with
      | none => .error (.parse ⟨.badMaxOccurs, none, some text⟩)
      | some max => if max < min then .error (.ofCause .maxBelowMin) else .ok (some max)

/-- Reads the values of `minOccurs` and `maxOccurs`. The lower bound is looked at first. -/
def read (minText maxText : Option String) : Except Error Occurs := do
  let min ← readMin minText
  let max ← readMax min maxText
  return ⟨min, max⟩

end Occurs

end Specimen

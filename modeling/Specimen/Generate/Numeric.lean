import Specimen.Decimal.Read
import Specimen.Decimal.Shortest
import Specimen.Draw.Range
import Specimen.Schema.SimpleType

/-!
# Values of numeric types

A number between the bounds of a type, whole if the type has no fraction digits. Exclusive bounds
are moved inwards by one. The digit facets cut the text of the number; so a number may be cut to one
that is out of bounds.
-/

namespace Specimen

/-- A bound with its value; an exclusive one is not itself a value. -/
structure Bound where
  value : Float
  isExclusive : Bool
deriving Inhabited

/-- The bounds and the digit counts of a numeric type. -/
structure NumericRange where
  min : Option Bound := none
  max : Option Bound := none
  totalDigits : Option Nat := none
  fractionDigits : Option Nat := none
deriving Inhabited

namespace NumericRange

/-! ## The range of a type -/

/-- Reads the value of a bound. -/
def readBound (kind : FacetKind) (isExclusive : Bool) (value : String) : Except Error Bound :=
  match Decimal.read Decimal.double (Text.trim value) with
  | some x => .ok ⟨x, isExclusive⟩
  | none => .error (.shape (.badBound kind value))

/-- The bound of one side that a single step declares; an exclusive one goes before an inclusive
one. -/
def declaredBound (inclusive exclusive : FacetKind) (type : SimpleType) :
    Option (FacetKind × Bool × String) :=
  match type.facets.get? exclusive with
  | some (.bound _ value) => some (exclusive, true, value)
  | _ =>
    match type.facets.get? inclusive with
    | some (.bound _ value) => some (inclusive, false, value)
    | _ => none

/-- The bound of one side that is declared first along a chain. -/
def nearestBound (inclusive exclusive : FacetKind) (chain : List SimpleType) :
    Except Error (Option Bound) :=
  match chain.findSome? (declaredBound inclusive exclusive) with
  | some (kind, isExclusive, value) => some <$> readBound kind isExclusive value
  | none => .ok none

/-- The effective bounds and digit counts of a type. -/
def ofType (m : Model) (type : SimpleType) : Except Error NumericRange := do
  let chain ← m.chain type
  let min ← nearestBound .minInclusive .minExclusive chain
  let max ← nearestBound .maxInclusive .maxExclusive chain
  let totalDigits ← m.countFacet type .totalDigits
  let fractionDigits ← m.countFacet type .fractionDigits
  return ⟨min, max, totalDigits, fractionDigits⟩

/-! ## Digit facets -/

/-- The longest beginning of a text that takes up at most `n` bytes in UTF-8. -/
def takeBytes : Nat → List Char → List Char
  | _, [] => []
  | n, c :: cs => if c.utf8Size ≤ n then c :: takeBytes (n - c.utf8Size) cs else []

/-- Cuts a text to a number of bytes, if there is one. -/
def cutTo (limit : Option Nat) (cs : List Char) : List Char :=
  match limit with
  | some n => takeBytes n cs
  | none => cs

/-- A text without its sign, and whether it had one. -/
def splitSign (cs : List Char) : Bool × List Char :=
  match cs with
  | '-' :: rest => (true, rest)
  | _ => (false, cs)

/-- The texts before and after the first point. -/
def splitPoint (cs : List Char) : List Char × List Char :=
  match cs.span (· ≠ '.') with
  | (whole, _ :: fraction) => (whole, fraction)
  | (whole, []) => (whole, [])

/-- Puts a number together. A point is written only before a fraction that is not empty. -/
def join (negative : Bool) (whole fraction : List Char) : List Char :=
  (if negative then ['-'] else []) ++ whole
    ++ (if fraction.isEmpty then [] else '.' :: fraction)

/-- Keeps the first digits before the point and the first ones after it, as many as the digit counts
say. The sign is kept. -/
def cutDigits (r : NumericRange) (text : String) : String :=
  let (negative, unsigned) := splitSign text.toList
  let (whole, fraction) := splitPoint unsigned
  String.ofList (join negative (cutTo r.totalDigits whole) (cutTo r.fractionDigits fraction))

/-! ## Drawing -/

variable {σ : Type} [Source σ]

/-- The least whole number that is drawn. -/
def minInt : Int := -Int.pow 2 63

/-- The greatest whole number that is drawn. -/
def maxInt : Int := Int.pow 2 63 - 1

/-- The lower bound for whole numbers. -/
def wholeMin (r : NumericRange) : Int :=
  match r.min with
  | some b =>
    let n := Decimal.truncateBetween minInt maxInt b.value
    if b.isExclusive then Min.min maxInt (n + 1) else n
  | none => minInt

/-- The upper bound for whole numbers. -/
def wholeMax (r : NumericRange) : Int :=
  match r.max with
  | some b =>
    let n := Decimal.truncateBetween minInt maxInt b.value
    if b.isExclusive then Max.max minInt (n - 1) else n
  | none => maxInt

/-- The lower bound for real numbers, where `least` stands for a missing one. -/
def realMin (r : NumericRange) (least : Float) : Float :=
  match r.min with
  | some b => if b.isExclusive then b.value + 1 else b.value
  | none => least

/-- The upper bound for real numbers, where `greatest` stands for a missing one. -/
def realMax (r : NumericRange) (greatest : Float) : Float :=
  match r.max with
  | some b => if b.isExclusive then b.value - 1 else b.value
  | none => greatest

/-- The least positive number of a format. -/
def leastOf (f : Decimal.Format) : Float := Decimal.ofParts false 1 f.least

/-- The greatest finite number of a format. -/
def greatestOf (f : Decimal.Format) : Float := Decimal.ofParts false (Nat.pow 2 f.digits - 1) f.greatest

/-- The text of a number in the range: a whole one if there are no fraction digits, and one of
double precision otherwise. -/
def drawNumber (r : NumericRange) (s : σ) : String × σ :=
  if r.fractionDigits = some 0 then
    let (n, s) := Draw.int r.wholeMin r.wholeMax s
    (r.cutDigits (toString n), s)
  else
    let (x, s) := Draw.real (r.realMin (leastOf Decimal.double))
      (r.realMax (greatestOf Decimal.double)) s
    (r.cutDigits (Decimal.render Decimal.double x), s)

/-- The text of a number in the range, of single precision unless it is a whole one. -/
def drawFloat (r : NumericRange) (s : σ) : String × σ :=
  if r.fractionDigits = some 0 then r.drawNumber s
  else
    let (x, s) := Draw.shortReal (Decimal.toSingle (r.realMin (leastOf Decimal.single)))
      (Decimal.toSingle (r.realMax (greatestOf Decimal.single))) s
    (r.cutDigits (Decimal.render Decimal.single x), s)

end NumericRange

end Specimen

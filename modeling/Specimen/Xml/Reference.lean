import Specimen.Xml.Scan

/-!
# References

Character data and attribute values may refer to a character by its number, to one of five
characters by its name, or to an entity that the document has declared. A text is first cut into its
characters and references; what an entity stands for is put in its place afterwards.

The replacement of one reference is bounded: entities are nested ten deep at most, and within one of
them 255 further references are followed. An entity that contains itself exceeds these bounds.
-/

namespace Specimen.Xml

/-! ## Pieces of a text -/

/-- A character as it stands, a character that is referred to, or a reference to an entity. -/
inductive Piece where
  | plain (c : Char)
  | referred (c : Char)
  | entity (name : String)
deriving DecidableEq, Repr

/-- The value of a digit in base 16. -/
def hexDigit? (c : Char) : Option Nat :=
  if '0' ≤ c && c ≤ '9' then some (c.toNat - '0'.toNat)
  else if 'a' ≤ c && c ≤ 'f' then some (c.toNat - 'a'.toNat + 10)
  else if 'A' ≤ c && c ≤ 'F' then some (c.toNat - 'A'.toNat + 10)
  else none

/-- The number that digits in base 16 denote. -/
def hexNumber (n : Nat) : List Char → Option Nat
  | [] => some n
  | c :: cs => (hexDigit? c).bind fun d => hexNumber (16 * n + d) cs

/-- The number that digits in base 10 denote. -/
def decimalNumber (n : Nat) : List Char → Option Nat
  | [] => some n
  | c :: cs =>
    if '0' ≤ c && c ≤ '9' then decimalNumber (10 * n + (c.toNat - '0'.toNat)) cs else none

/-- The character with a number below `2 ^ 32`. A number that no character has stands for the
replacement character, and the character has to be one that a document may hold. -/
def numberedChar (n : Nat) : Option Char :=
  if Nat.pow 2 32 ≤ n then none
  else
    let c := if n.isValidChar then Char.ofNat n else Char.ofNat 0xFFFD
    if isChar c then some c else none

/-- The character with a name of its own. -/
def namedChar? : String → Option Char
  | "lt" => some '<'
  | "gt" => some '>'
  | "amp" => some '&'
  | "apos" => some '\''
  | "quot" => some '"'
  | _ => none

/-- What stands between the ampersand and the semicolon of a reference. -/
def readReference (body : List Char) : Option Piece :=
  match body with
  | '#' :: 'x' :: digits =>
    if digits.isEmpty then none else ((hexNumber 0 digits).bind numberedChar).map .referred
  | '#' :: digits =>
    if digits.isEmpty then none else ((decimalNumber 0 digits).bind numberedChar).map .referred
  | _ =>
    match readName body with
    | some (name, []) =>
      match namedChar? name with
      | some c => some (.referred c)
      | none => some (.entity name)
    | _ => none

/-- Cuts a text into its pieces. `body` holds what has been read of a reference, last character
first, while one is being read. -/
def piecesFrom : Option (List Char) → List Char → Option (List Piece)
  | none, [] => some []
  | some _, [] => none
  | none, c :: cs =>
    if c = '&' then piecesFrom (some []) cs else (piecesFrom none cs).map (.plain c :: ·)
  | some body, c :: cs =>
    if c = ';' then do
      let piece ← readReference body.reverse
      let rest ← piecesFrom none cs
      return piece :: rest
    else piecesFrom (some (c :: body)) cs

/-- Cuts a text into its characters and references, if all references are well formed. -/
def pieces (cs : List Char) : Option (List Piece) := piecesFrom none cs

/-! ## Entities -/

/-- The text that an entity stands for, with the number of characters of the document behind it. -/
structure Entity where
  text : List Char
  behind : Nat
deriving Repr

/-- The declared entities, the first declaration of a name first. -/
abbrev Entities := List (String × Entity)

/-- How much may still be replaced: how deep the entities may be nested from here on, and how many
references within the outermost one may be followed. -/
structure Budget where
  levels : Nat
  references : Nat
deriving DecidableEq, Repr

namespace Budget

/-- The nesting that is permitted. -/
def maxLevels : Nat := 10

/-- The budget outside of any entity. -/
def full : Budget := ⟨maxLevels, 255⟩

/-- Inside of an entity. -/
def isInside (b : Budget) : Bool := b.levels < maxLevels

/-- The references that are left after one more. Outside of entities there is no bound on them. -/
def spend (b : Budget) : Option Nat :=
  if b.isInside then (if b.references = 0 then none else some (b.references - 1))
  else some full.references

/-- The budget after a reference that left so many references over. -/
def resume (b : Budget) (left : Nat) : Budget :=
  if b.isInside then { b with references := left } else b

end Budget

/-- Replaces a reference to an entity. `expand` reads the text of the entity, one level further in,
with the references that it may follow. -/
def replace {α : Type} (expand : Entity → Nat → Option (α × Nat)) (entities : Entities)
    (budget : Budget) (name : String) : Option (α × Budget) := do
  let entity ← entities.lookup name
  let left ← budget.spend
  let (a, left) ← expand entity left
  return (a, budget.resume left)

/-! ## Attribute values -/

/-- Every kind of space becomes a blank. -/
def blanked (c : Char) : Char := if isSpace c then ' ' else c

/-- The value that pieces stand for. A line break of two characters becomes one blank. Characters
that are referred to are kept as they are, but inside of an entity they are treated like others, and
none of them may be `<`. -/
def valueOf (expand : Budget → String → Option (List Char × Budget)) :
    Budget → List Piece → Option (List Char × Budget)
  | budget, [] => some ([], budget)
  | budget, .plain c :: rest =>
    if c = '\r' ∧ rest.head? = some (.plain '\n') then valueOf expand budget rest
    else (valueOf expand budget rest).map fun (cs, b) => (blanked c :: cs, b)
  | budget, .referred c :: rest =>
    if budget.isInside && c == '<' then none
    else
      let c := if budget.isInside then blanked c else c
      (valueOf expand budget rest).map fun (cs, b) => (c :: cs, b)
  | budget, .entity name :: rest => do
    let (cs, budget) ← expand budget name
    let (more, budget) ← valueOf expand budget rest
    return (cs ++ more, budget)

/-- Reads an attribute value, with `levels` of entities permitted from here on. -/
def readAttributeText (entities : Entities) : Nat → Nat → List Char → Option (List Char × Nat)
  | levels, left, cs => do
    let ps ← pieces cs
    let (value, budget) ← valueOf (fun budget name =>
      match levels with
      | 0 => none
      | below + 1 =>
        replace (fun entity left => readAttributeText entities below left entity.text) entities
          budget name) ⟨levels, left⟩ ps
    return (value, budget.references)

/-- The value of an attribute, and the budget behind it. -/
def readAttributeValue (entities : Entities) (budget : Budget) (cs : List Char) :
    Option (String × Budget) := do
  let (value, left) ← readAttributeText entities budget.levels budget.references cs
  return (String.ofList value, { budget with references := left })

end Specimen.Xml

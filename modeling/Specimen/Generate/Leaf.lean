import Specimen.Generate.Count
import Specimen.Generate.Hint
import Specimen.Generate.Numeric

/-!
# Values of simple types

The text of an element or attribute. An enumeration goes before all else: one of its values is
picked. A list has as many items as its length facets and the policy say, a union is filled for one
of its members, and an atomic type is filled by the built-in type it comes from. Lists and unions
inside each other are followed `Leaf.nestingLimit` times.

What is filled draws on the random source and counts the uses of hints. Both stay used when a value
cannot be made.
-/

namespace Specimen

/-- What filling leaves uses up: the counters of hints and the random source. -/
structure Supply (σ : Type) where
  counters : HintCounters := {}
  source : σ

/-- A computation that uses up the supply, and keeps what it has used when it fails. -/
abbrev Filling (σ : Type) := ExceptT Error (StateM (Supply σ))

namespace Filling

variable {σ α : Type}

/-- A draw from the source. -/
def draw (f : σ → α × σ) : Filling σ α := fun supply =>
  let (a, source) := f supply.source
  (.ok a, { supply with source })

/-- An answer about the schema. -/
def ask (answer : Except Error α) : Filling σ α := fun supply => (answer, supply)

/-- The number of the next use of a hint. -/
def countUse (hint : String) : Filling σ Nat := fun supply =>
  let (n, counters) := supply.counters.next hint
  (.ok n, { supply with counters })

/-- The results of a computation that is done `n` times. -/
def times (n : Nat) (fill : Filling σ α) : Filling σ (List α) :=
  match n with
  | 0 => pure []
  | n + 1 => do
    let a ← fill
    let rest ← times n fill
    return a :: rest

end Filling

/-- What leaves are filled for: the schema, the policy, and the clock reading for dates and times.
-/
structure Leaf.Setting where
  model : Model
  policy : Policy
  now : DateTime

namespace Leaf

open Filling

variable {σ : Type} [Source σ]

/-- How deep lists and unions may stand inside each other. -/
def nestingLimit : Nat := 32

/-- One of some values. -/
def pickValue (values : List String) : Filling σ String := do
  let value ← draw (Draw.pick values)
  return value.getD ""

/-- The items again and again, doubled until there are `n` of them; `steps` is not below the number
of times they have to be doubled. -/
def doubleUpTo (n : Nat) : Nat → List String → List String
  | 0, items => items
  | steps + 1, items => if items.length < n then doubleUpTo n steps (items ++ items) else items

/-- A list of `n` enumerated values. Each value is used once before one is used again. -/
def enumeratedList (values : List String) (n : Nat) : Filling σ String := do
  let shuffled ← draw (Draw.shuffle (doubleUpTo n n values))
  return " ".intercalate (shuffled.take n)

/-- The value of an atomic type, by the built-in type it comes from. -/
def atomicValue (w : Setting) (type : SimpleType) (hint : String) : Filling σ String := do
  let builtin ← ask (w.model.builtinAncestor type)
  let name := match builtin.name with
    | some name => name.localName
    | none => ""
  match BuiltinKind.ofName name with
  | .boolean =>
    let b ← draw Draw.coin
    return if b then "true" else "false"
  | .numeric =>
    let range ← ask (NumericRange.ofType w.model type)
    if name = "float" then draw range.drawFloat else draw range.drawNumber
  | .date => return w.now.dateText
  | .time => return w.now.timeText
  | .dateTime => return w.now.plainText
  | .other =>
    let minLength ← ask (w.model.countFacet type .minLength)
    let maxLength ← ask (w.model.countFacet type .maxLength)
    let n ← countUse hint
    return Hint.value hint n minLength maxLength

/-- The number of items of a list type. -/
def listLength (w : Setting) (type : SimpleType) : Filling σ Nat := do
  let length ← ask (w.model.countFacet type .length)
  let minLength ← ask (w.model.countFacet type .minLength)
  let maxLength ← ask (w.model.countFacet type .maxLength)
  draw (Count.ofLengths w.policy length minLength maxLength)

/-- The value of a simple type, inside at most `steps` lists and unions. -/
def valueWithin (w : Setting) (hint : String) : Nat → SimpleType → Filling σ String
  | 0, _ => ask (.error (.shape (.nestedTooDeep hint)))
  | steps + 1, type => do
    match ← ask (w.model.enumeration type) with
    | some values => pickValue values
    | none =>
      match ← ask (w.model.variety type) with
      | .list item => do
        let itemType ← ask (w.model.resolveSimple item)
        let n ← listLength w type
        match ← ask (w.model.enumeration itemType) with
        | some values => enumeratedList values n
        | none => " ".intercalate <$> times n (valueWithin w hint steps itemType)
      | .union (first :: others) => do
        let i ← draw (Draw.index (others.length + 1))
        let member ← ask (w.model.resolveSimple ((first :: others).getD i first))
        valueWithin w hint steps member
      | _ => atomicValue w type hint

/-- The value of a simple type for an element or attribute whose local name is the hint. -/
def value (w : Setting) (type : SimpleType) (hint : String) : Filling σ String :=
  valueWithin w hint (nestingLimit + 1) type

end Leaf

end Specimen

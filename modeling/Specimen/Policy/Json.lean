import Specimen.Json.Text
import Specimen.Policy.Basic
import Specimen.Text.Numeral

/-!
# Policies as JSON texts

A policy is written as an object with a member for each setting. The reader takes the members in any
order, each at most once and no other ones, and leaves the settings that are missing as they are in
the default policy. It also takes an array with the settings in their order, of which the last ones
may be missing. What is wrong first in the text is what is reported.
-/

namespace Specimen.Policy

open Specimen.Json

/-! ## Settings -/

/-- The settings of a policy. -/
inductive Field where
  | minElements
  | maxElements
  | minListItems
  | maxListItems
  | optionalElements
  | optionalAttributes
  | fixedAttributes
  | defaultAttributes
  | optionalAttributeAsEmptyString
  | exhaustiveChoices
  | annotateContentModel
  | fixedNow
deriving DecidableEq, Repr

namespace Field

/-- The settings in their order. -/
def all : List Field :=
  [minElements, maxElements, minListItems, maxListItems, optionalElements, optionalAttributes,
   fixedAttributes, defaultAttributes, optionalAttributeAsEmptyString, exhaustiveChoices,
   annotateContentModel, fixedNow]

/-- The key of a setting. -/
def key : Field → String
  | minElements => "minElements"
  | maxElements => "maxElements"
  | minListItems => "minListItems"
  | maxListItems => "maxListItems"
  | optionalElements => "optionalElements"
  | optionalAttributes => "optionalAttributes"
  | fixedAttributes => "fixedAttributes"
  | defaultAttributes => "defaultAttributes"
  | optionalAttributeAsEmptyString => "optionalAttributeAsEmptyString"
  | exhaustiveChoices => "exhaustiveChoices"
  | annotateContentModel => "annotateContentModel"
  | fixedNow => "fixedNow"

/-- The setting with a key. -/
def ofKey? (key : String) : Option Field := all.find? fun field => field.key == key

end Field

/-! ## Writing -/

/-- The value of a setting, or nothing for a clock reading that is not set. -/
def fieldText (p : Policy) : Field → Option String
  | .minElements => some (toString p.minElements)
  | .maxElements => some (toString p.maxElements)
  | .minListItems => some (toString p.minListItems)
  | .maxListItems => some (toString p.maxListItems)
  | .optionalElements => some (quote p.optionalElements.word)
  | .optionalAttributes => some (quote p.optionalAttributes.word)
  | .fixedAttributes => some (quote p.fixedAttributes.word)
  | .defaultAttributes => some (quote p.defaultAttributes.word)
  | .optionalAttributeAsEmptyString => some (quote p.optionalAttributeAsEmptyString.word)
  | .exhaustiveChoices => some (if p.exhaustiveChoices then "true" else "false")
  | .annotateContentModel => some (if p.annotateContentModel then "true" else "false")
  | .fixedNow => p.now.map fun t => quote t.text

/-- The member of a setting, if it is written. -/
def memberText (p : Policy) (field : Field) : Option String :=
  (p.fieldText field).map fun text => quote field.key ++ ":" ++ text

/-- The policy as an object. -/
def toJson (p : Policy) : String :=
  "\x7b" ++ ",".intercalate (Field.all.filterMap p.memberText) ++ "\x7d"

/-! ## Reading values -/

/-- A part of the text and the rest; a part that is missing where it has to stand is a fault without
further words. -/
def part {α : Type} : Option (α × List Char) → Except ConfigFault (α × List Char)
  | some r => .ok r
  | none => .error .badPolicy

/-- Reads a count. -/
def readCount (cs : List Char) : Except ConfigFault (Nat × List Char) :=
  part ((readNat cs).filter fun r => r.1 < Text.countLimit)

/-- Reads `true` or `false`. -/
def readBool (cs : List Char) : Except ConfigFault (Bool × List Char) :=
  part (((readWord ['t', 'r', 'u', 'e'] cs).map (true, ·)).or
    ((readWord ['f', 'a', 'l', 's', 'e'] cs).map (false, ·)))

/-- Reads `null`. -/
def readNull (cs : List Char) : Option (List Char) := readWord ['n', 'u', 'l', 'l'] cs

/-- Reads a flag: a truth value, `null` for chance, or a word. Only an unknown word has a report of
its own. -/
def readTriState (cs : List Char) : Except ConfigFault (TriState × List Char) :=
  match readNull cs with
  | some rest => .ok (.random, rest)
  | none =>
    match readString cs with
    | some (word, rest) =>
      match TriState.ofWord? word with
      | some flag => .ok (flag, rest)
      | none => .error (.badTriState word)
    | none => (readBool cs).map fun (b, rest) => (TriState.ofBool b, rest)

/-- Reads a clock reading, or `null` for none. -/
def readNow (cs : List Char) : Except ConfigFault (Option DateTime × List Char) :=
  match readNull cs with
  | some rest => .ok (none, rest)
  | none => part ((readString cs).bind fun (s, rest) => (DateTime.read? s).map (some ·, rest))

/-- Reads the value of a setting into a policy. -/
def readField (p : Policy) (field : Field) (cs : List Char) :
    Except ConfigFault (Policy × List Char) :=
  match field with
  | .minElements => (readCount cs).map fun (n, rest) => ({ p with minElements := n }, rest)
  | .maxElements => (readCount cs).map fun (n, rest) => ({ p with maxElements := n }, rest)
  | .minListItems => (readCount cs).map fun (n, rest) => ({ p with minListItems := n }, rest)
  | .maxListItems => (readCount cs).map fun (n, rest) => ({ p with maxListItems := n }, rest)
  | .optionalElements =>
    (readTriState cs).map fun (f, rest) => ({ p with optionalElements := f }, rest)
  | .optionalAttributes =>
    (readTriState cs).map fun (f, rest) => ({ p with optionalAttributes := f }, rest)
  | .fixedAttributes =>
    (readTriState cs).map fun (f, rest) => ({ p with fixedAttributes := f }, rest)
  | .defaultAttributes =>
    (readTriState cs).map fun (f, rest) => ({ p with defaultAttributes := f }, rest)
  | .optionalAttributeAsEmptyString =>
    (readTriState cs).map fun (f, rest) => ({ p with optionalAttributeAsEmptyString := f }, rest)
  | .exhaustiveChoices =>
    (readBool cs).map fun (b, rest) => ({ p with exhaustiveChoices := b }, rest)
  | .annotateContentModel =>
    (readBool cs).map fun (b, rest) => ({ p with annotateContentModel := b }, rest)
  | .fixedNow => (readNow cs).map fun (t, rest) => ({ p with now := t }, rest)

/-! ## Reading objects and arrays -/

/-- Reads a member into a policy, where `unset` lists the settings that have not been given yet. -/
def readMember (p : Policy) (unset : List Field) (cs : List Char) :
    Except ConfigFault ((Policy × Field) × List Char) := do
  let (key, rest) ← part (readString (skip cs))
  match (Field.ofKey? key).filter unset.contains with
  | none => .error .badPolicy
  | some field =>
    match skip rest with
    | ':' :: rest =>
      let (p, rest) ← p.readField field (skip rest)
      return ((p, field), rest)
    | _ => .error .badPolicy

/-- Reads members up to the closing brace. There are at most as many as there are settings. -/
def readMembers : Nat → Policy → List Field → List Char → Except ConfigFault (Policy × List Char)
  | 0, _, _, _ => .error .badPolicy
  | steps + 1, p, unset, cs => do
    let ((p, field), rest) ← p.readMember unset cs
    match skip rest with
    | ',' :: rest => readMembers steps p (unset.erase field) rest
    | '}' :: rest => return (p, rest)
    | _ => .error .badPolicy

/-- Reads the values of the settings in their order, up to the closing bracket. -/
def readItems : List Field → Policy → List Char → Except ConfigFault (Policy × List Char)
  | [], _, _ => .error .badPolicy
  | field :: later, p, cs => do
    let (p, rest) ← p.readField field (skip cs)
    match skip rest with
    | ',' :: rest => readItems later p rest
    | ']' :: rest => return (p, rest)
    | _ => .error .badPolicy

/-- Reads an object or an array. -/
def readBody (cs : List Char) : Except ConfigFault (Policy × List Char) :=
  match skip cs with
  | '{' :: rest =>
    match skip rest with
    | '}' :: rest => .ok ({}, rest)
    | _ => readMembers Field.all.length {} Field.all rest
  | '[' :: rest =>
    match skip rest with
    | ']' :: rest => .ok ({}, rest)
    | _ => readItems Field.all {} rest
  | _ => .error .badPolicy

/-- Reads a policy without looking at the order of its bounds. -/
def readText (text : String) : Except ConfigFault Policy := do
  let (p, rest) ← readBody text.toList
  if (skip rest).isEmpty then return p else .error .badPolicy

/-- Reads a policy. -/
def read (text : String) : Except Error Policy := do
  match readText text with
  | .error fault => .error (.config fault)
  | .ok p =>
    p.check
    return p

end Specimen.Policy

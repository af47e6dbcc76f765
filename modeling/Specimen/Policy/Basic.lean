import Specimen.DateTime
import Specimen.Draw.Source
import Specimen.Error

/-!
# Generation policies

What a user may settle about the documents to be generated: how often things are repeated, which
optional parts are written, and the clock reading for dates. A flag may be left to chance, and then
a coin is tossed at each use.
-/

namespace Specimen

/-! ## Flags that may be left to chance -/

/-- Yes, no, or a coin. -/
inductive TriState where
  | always
  | never
  | random
deriving DecidableEq, Repr, Inhabited

namespace TriState

/-- The word for a flag. -/
def word : TriState → String
  | always => "always"
  | never => "never"
  | random => "random"

/-- The flag that a word stands for. -/
def ofWord? : String → Option TriState
  | "always" => some always
  | "true" => some always
  | "never" => some never
  | "false" => some never
  | "random" => some random
  | _ => none

/-- The flag for a truth value. -/
def ofBool : Bool → TriState
  | true => always
  | false => never

/-- The flag for a truth value that may be missing. -/
def ofBool? : Option Bool → TriState
  | some b => ofBool b
  | none => random

/-- Settles a flag. A word is drawn only if it is left to chance. -/
def draw {σ : Type} [Source σ] (flag : TriState) (s : σ) : Bool × σ :=
  match flag with
  | always => (true, s)
  | never => (false, s)
  | random => Draw.coin s

end TriState

/-! ## Policies -/

/-- The settings of a run. `now` is the clock reading for dates and times. -/
structure Policy where
  minElements : Nat := 1
  maxElements : Nat := 4
  minListItems : Nat := 1
  maxListItems : Nat := 4
  optionalElements : TriState := .random
  optionalAttributes : TriState := .random
  fixedAttributes : TriState := .random
  defaultAttributes : TriState := .random
  optionalAttributeAsEmptyString : TriState := .never
  exhaustiveChoices : Bool := true
  annotateContentModel : Bool := true
  now : Option DateTime := none
deriving DecidableEq, Repr, Inhabited

namespace Policy

/-- Refuses bounds in the wrong order; those of the elements are looked at first. -/
def check (p : Policy) : Except Error Unit :=
  if p.maxElements < p.minElements then
    .error (.config (.reversedElements p.minElements p.maxElements))
  else if p.maxListItems < p.minListItems then
    .error (.config (.reversedListItems p.minListItems p.maxListItems))
  else .ok ()

end Policy

end Specimen

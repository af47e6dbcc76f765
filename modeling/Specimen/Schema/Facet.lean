import Specimen.Error
import Specimen.Text.Blank
import Specimen.Text.Numeral

/-!
# Facets

What one step of a derivation demands of the values of a simple type. Bounds keep the text they were
written in, since their meaning depends on the type; counts are numbers. A set holds one facet of
each kind at most: a later one replaces an earlier one of its kind, and enumerated values are added
to those that are there.
-/

namespace Specimen

/-- A facet with its value. -/
inductive Facet where
  | bound (kind : FacetKind) (value : String)
  | count (kind : FacetKind) (value : Nat)
  | enumeration (values : List String)
deriving DecidableEq, Repr

namespace Facet

/-- What the facet constrains. -/
def kind : Facet → FacetKind
  | bound kind _ => kind
  | count kind _ => kind
  | enumeration _ => .enumeration

/-- Reads the value of a facet. An enumerated value is taken as it is; the blanks around any other
value are dropped, and a count has to be one. -/
def read (kind : FacetKind) (value : String) : Except Error Facet :=
  if kind = .enumeration then .ok (enumeration [value])
  else
    let text := Text.trim value
    if kind.isCount then
      match Text.readCount text with
      | some n => .ok (count kind n)
      | none => .error (.parse ⟨.badCount kind, none, some text⟩)
    else .ok (bound kind text)

end Facet

/-! ## Sets of facets -/

/-- The facets declared at one step of a derivation, in the order of their last declaration. -/
structure FacetSet where
  facets : List Facet := []
deriving DecidableEq, Repr, Inhabited

namespace FacetSet

/-- No facet. -/
def empty : FacetSet := ⟨[]⟩

/-- The facet of a kind, if there is one. -/
def get? (set : FacetSet) (kind : FacetKind) : Option Facet :=
  set.facets.find? fun facet => facet.kind == kind

/-- Adds values to the first facet of the kind of enumerations, if it is an enumeration, or an
enumeration at the end. -/
def addValues (values : List String) : List Facet → List Facet
  | [] => [.enumeration values]
  | .enumeration earlier :: rest => .enumeration (earlier ++ values) :: rest
  | facet :: rest =>
    if facet.kind = .enumeration then facet :: (rest ++ [.enumeration values])
    else facet :: addValues values rest

/-- Adds a facet. -/
def push (set : FacetSet) (facet : Facet) : FacetSet :=
  match facet with
  | .enumeration values => ⟨addValues values set.facets⟩
  | other => ⟨set.facets.filter (fun earlier => earlier.kind != other.kind) ++ [other]⟩

/-- The set with no facet. -/
def isEmpty (set : FacetSet) : Bool := set.facets.isEmpty

end FacetSet

end Specimen

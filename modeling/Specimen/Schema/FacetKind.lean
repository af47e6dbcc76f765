/-!
# Kinds of facets

The facets that steer the values of a simple type: bounds, digit counts, lengths and enumerations.
-/

namespace Specimen

/-- What a facet constrains. -/
inductive FacetKind where
  | minInclusive
  | minExclusive
  | maxInclusive
  | maxExclusive
  | totalDigits
  | fractionDigits
  | length
  | minLength
  | maxLength
  | enumeration
deriving DecidableEq, Repr

namespace FacetKind

/-- The name of the facet in a schema. -/
def name : FacetKind → String
  | minInclusive => "minInclusive"
  | minExclusive => "minExclusive"
  | maxInclusive => "maxInclusive"
  | maxExclusive => "maxExclusive"
  | totalDigits => "totalDigits"
  | fractionDigits => "fractionDigits"
  | length => "length"
  | minLength => "minLength"
  | maxLength => "maxLength"
  | enumeration => "enumeration"

/-- Every kind. -/
def all : List FacetKind :=
  [minInclusive, minExclusive, maxInclusive, maxExclusive, totalDigits, fractionDigits, length,
   minLength, maxLength, enumeration]

/-- The kind with a name, if the name is one of a facet. -/
def ofName? (name : String) : Option FacetKind := all.find? fun kind => kind.name == name

/-- The kinds whose value is a count. -/
def isCount : FacetKind → Bool
  | totalDigits | fractionDigits | length | minLength | maxLength => true
  | _ => false

end FacetKind

end Specimen

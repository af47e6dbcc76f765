import Specimen.Schema.ComplexType

/-!
# Effective properties of simple types

A simple type together with the types it is derived from, nearest first, is its chain. The effective
facet of a kind is the one declared nearest along the chain, and a restriction has the variety of
the nearest type that declares one. A chain that does not end within `Model.chainLimit` steps is
reported as circular.
-/

namespace Specimen

namespace Model

/-! ## Resolution -/

/-- The simple type that a reference is about, after at most `steps` steps from a complex type to
its simple content. `whole` is the reference that the search began with. -/
def resolveSimpleWithin (m : Model) (whole : TypeRef) : Nat → TypeRef → Except Error SimpleType
  | 0, _ => .error (.shape (.circular whole.name))
  | steps + 1, ref => do
    match ← m.resolveType ref with
    | .simple type => .ok type
    | .complex type =>
      match ← m.contentOf type with
      | .simple content => m.resolveSimpleWithin whole steps content
      | _ => .error (.shape (.noSimpleContent type.name))

/-- The simple type that a reference is about. A complex type with simple content stands for that
content. -/
def resolveSimple (m : Model) (ref : TypeRef) : Except Error SimpleType :=
  m.resolveSimpleWithin ref chainLimit ref

/-- The simple type of the text of an element, if its type allows only text: the type itself, or the
simple content of a complex type. -/
def textType (m : Model) : TypeDef → Except Error (Option SimpleType)
  | .simple type => .ok (some type)
  | .complex type => do
    match ← m.contentOf type with
    | .simple content => some <$> m.resolveSimple content
    | _ => return none

/-! ## Chains -/

/-- What a simple type is derived from, nearest first and at most `steps` types. -/
def ancestorsWithin (m : Model) : Nat → SimpleType → Except Error (List SimpleType)
  | steps, type =>
    match type.base with
    | none => .ok []
    | some base =>
      match steps with
      | 0 => .error (.shape (.circular base.name))
      | steps + 1 => do
        let next ← m.resolveSimple base
        let rest ← m.ancestorsWithin steps next
        return next :: rest

/-- A simple type and what it is derived from, nearest first. -/
def chain (m : Model) (type : SimpleType) : Except Error (List SimpleType) :=
  (type :: ·) <$> m.ancestorsWithin chainLimit type

/-! ## Facets -/

/-- The facet of a kind that is declared first along a chain. -/
def nearestFacet (kind : FacetKind) (chain : List SimpleType) : Option Facet :=
  chain.findSome? fun type => type.facets.get? kind

/-- The effective facet of a kind. -/
def facet (m : Model) (type : SimpleType) (kind : FacetKind) : Except Error (Option Facet) :=
  nearestFacet kind <$> m.chain type

/-- The effective value of a count. -/
def countFacet (m : Model) (type : SimpleType) (kind : FacetKind) : Except Error (Option Nat) := do
  match ← m.facet type kind with
  | some (.count _ n) => return some n
  | _ => return none

/-- The effective value of a bound, as it is written. -/
def boundFacet (m : Model) (type : SimpleType) (kind : FacetKind) :
    Except Error (Option String) := do
  match ← m.facet type kind with
  | some (.bound _ value) => return some value
  | _ => return none

/-- The effective enumeration, if it lists a value. -/
def enumeration (m : Model) (type : SimpleType) : Except Error (Option (List String)) := do
  match ← m.facet type .enumeration with
  | some (.enumeration values) => return if values.isEmpty then none else some values
  | _ => return none

/-! ## Variety and origin -/

/-- The variety that is declared first along a chain. -/
def nearestVariety : List SimpleType → Variety
  | [] => .atomic
  | type :: rest =>
    match type.variety with
    | .atomic => nearestVariety rest
    | declared => declared

/-- The effective variety. -/
def variety (m : Model) (type : SimpleType) : Except Error Variety :=
  nearestVariety <$> m.chain type

/-- The nearest type along the chain that is built in. -/
def builtinAncestor (m : Model) (type : SimpleType) : Except Error SimpleType := do
  match (← m.chain type).find? SimpleType.isBuiltin with
  | some builtin => return builtin
  | none => .error (.shape (.noBuiltinAncestor type.name))

end Model

end Specimen

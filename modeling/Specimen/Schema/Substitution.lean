import Specimen.Schema.ComplexType

/-!
# Substitutes

The elements that may stand for an abstract element, and the types that may stand for an abstract
complex type. Both are found by following links to the head or the base, `Model.chainLimit` of them
at most.
-/

namespace Specimen

namespace Model

/-- One of the first `steps` links from `start` on leads to `goal`. A link that leads nowhere, or to
nothing that is declared, ends the search. -/
def leadsTo (follow : QName → Option QName) (goal : QName) : Nat → Option QName → Bool
  | 0, _ => false
  | _ + 1, none => false
  | steps + 1, some name => name == goal || leadsTo follow goal steps (follow name)

/-- The head of the substitution group that a global element joins. -/
def headOf (m : Model) (name : QName) : Option QName := (m.elements.get? name).bind (·.head)

/-- The base that a global complex type is derived from. -/
def baseOf (m : Model) (name : QName) : Option QName :=
  match m.types.get? name with
  | some (.complex type) => type.derivation.map (·.base)
  | _ => none

/-- The elements that may stand for the element `head`, in the order of registration: those that are
not abstract and reach it through the heads of substitution groups. -/
def substitutionMembers (m : Model) (head : QName) : List ElementDecl :=
  m.elements.values.filter fun decl =>
    !decl.isAbstract && decl.name != head && leadsTo m.headOf head chainLimit decl.head

/-- The types that may stand for the type `base`, in the order of registration: the complex types
that are not abstract and reach it through the bases of derivations. -/
def concreteSubtypes (m : Model) (base : QName) : List ComplexType :=
  (m.types.values.filterMap TypeDef.asComplex).filter fun type =>
    !type.isAbstract && type.name != some base
      && leadsTo m.baseOf base chainLimit (type.derivation.map (·.base))

end Model

end Specimen

import Specimen.Schema.Component

/-!
# Numbering declarations

Gives the element declarations and wildcards inside a component numbers of their own, counting up
from a first free number. Each function returns the component with its new numbers and the next free
number; what a component holds besides numbers is left as it was. The recursion is on the component.
-/

namespace Specimen

/-- Gives a wildcard the number `n`. -/
def Wildcard.numberFrom (w : Wildcard) (n : Nat) : Wildcard × Nat := ({ w with id := n }, n + 1)

/-- Gives the wildcard the number `n`, if there is one. -/
def numberWildcard (w : Option Wildcard) (n : Nat) : Option Wildcard × Nat :=
  match w with
  | none => (none, n)
  | some w => (some { w with id := n }, n + 1)

mutual

/-- Numbers what a type declared in place holds. -/
def TypeRef.numberFrom : TypeRef → Nat → TypeRef × Nat
  | .named name, n => (.named name, n)
  | .anonymous definition, n =>
    let (definition, n) := definition.numberFrom n
    (.anonymous definition, n)

/-- Numbers what a type definition holds. -/
def TypeDef.numberFrom : TypeDef → Nat → TypeDef × Nat
  | .simple type, n =>
    let (type, n) := type.numberFrom n
    (.simple type, n)
  | .complex type, n =>
    let (type, n) := type.numberFrom n
    (.complex type, n)

/-- Numbers what the base and the variety of a simple type hold. -/
def SimpleType.numberFrom : SimpleType → Nat → SimpleType × Nat
  | ⟨name, base, variety, facets⟩, n =>
    let (base, n) := numberBase base n
    let (variety, n) := variety.numberFrom n
    (⟨name, base, variety, facets⟩, n)

/-- Numbers what the base of a simple type holds. -/
def numberBase : Option TypeRef → Nat → Option TypeRef × Nat
  | none, n => (none, n)
  | some type, n =>
    let (type, n) := type.numberFrom n
    (some type, n)

/-- Numbers what the item type or the member types hold. -/
def Variety.numberFrom : Variety → Nat → Variety × Nat
  | .atomic, n => (.atomic, n)
  | .list item, n =>
    let (item, n) := item.numberFrom n
    (.list item, n)
  | .union members, n =>
    let (members, n) := numberTypes members n
    (.union members, n)

/-- Numbers what a list of types holds, from left to right. -/
def numberTypes : List TypeRef → Nat → List TypeRef × Nat
  | [], n => ([], n)
  | type :: rest, n =>
    let (type, n) := type.numberFrom n
    let (rest, n) := numberTypes rest n
    (type :: rest, n)

/-- Numbers what a complex type holds: its content, its attributes, then its wildcard. -/
def ComplexType.numberFrom : ComplexType → Nat → ComplexType × Nat
  | ⟨name, isAbstract, content, attributes, wildcard, derivation⟩, n =>
    let (content, n) := content.numberFrom n
    let (attributes, n) := numberItems attributes n
    let (wildcard, n) := numberWildcard wildcard n
    (⟨name, isAbstract, content, attributes, wildcard, derivation⟩, n)

/-- Numbers what the content of a type holds. -/
def Content.numberFrom : Content → Nat → Content × Nat
  | .empty, n => (.empty, n)
  | .simple type, n =>
    let (type, n) := type.numberFrom n
    (.simple type, n)
  | .elements particle, n =>
    let (particle, n) := particle.numberFrom n
    (.elements particle, n)
  | .mixed particle, n =>
    let (particle, n) := particle.numberFrom n
    (.mixed particle, n)

/-- Numbers what an attribute list holds, from left to right. -/
def numberItems : List AttributeItem → Nat → List AttributeItem × Nat
  | [], n => ([], n)
  | item :: rest, n =>
    let (item, n) := item.numberFrom n
    let (rest, n) := numberItems rest n
    (item :: rest, n)

/-- Numbers what the type of a used attribute holds. -/
def AttributeItem.numberFrom : AttributeItem → Nat → AttributeItem × Nat
  | .group name, n => (.group name, n)
  | .use use, n =>
    let (use, n) := use.numberFrom n
    (.use use, n)

/-- Numbers what the type of a used attribute holds. -/
def AttributeUse.numberFrom : AttributeUse → Nat → AttributeUse × Nat
  | ⟨mode, constraint, target⟩, n =>
    let (target, n) := target.numberFrom n
    (⟨mode, constraint, target⟩, n)

/-- Numbers what an attribute declared in place holds. -/
def AttributeTarget.numberFrom : AttributeTarget → Nat → AttributeTarget × Nat
  | .global name, n => (.global name, n)
  | .inline decl, n =>
    let (decl, n) := decl.numberFrom n
    (.inline decl, n)

/-- Numbers what the type of an attribute holds. -/
def AttributeDecl.numberFrom : AttributeDecl → Nat → AttributeDecl × Nat
  | ⟨name, type, constraint⟩, n =>
    let (type, n) := type.numberFrom n
    (⟨name, type, constraint⟩, n)

/-- Gives an element declaration the number `n`, and numbers what its type holds. -/
def ElementDecl.numberFrom : ElementDecl → Nat → ElementDecl × Nat
  | ⟨_, name, type, scope, isAbstract, head⟩, n =>
    let (type, next) := type.numberFrom (n + 1)
    (⟨n, name, type, scope, isAbstract, head⟩, next)

/-- Numbers what the term of a particle holds. The particle itself takes a number that is not used,
so that a component never has more particles than it takes numbers. -/
def Particle.numberFrom : Particle → Nat → Particle × Nat
  | ⟨occurs, term⟩, n =>
    let (term, n) := term.numberFrom (n + 1)
    (⟨occurs, term⟩, n)

/-- Numbers what a term holds. -/
def Term.numberFrom : Term → Nat → Term × Nat
  | .elementRef name, n => (.elementRef name, n)
  | .element decl, n =>
    let (decl, n) := decl.numberFrom n
    (.element decl, n)
  | .group group, n =>
    let (group, n) := group.numberFrom n
    (.group group, n)
  | .groupRef name, n => (.groupRef name, n)
  | .any wildcard, n =>
    let (wildcard, n) := wildcard.numberFrom n
    (.any wildcard, n)

/-- Numbers what the particles of a model group hold. -/
def ModelGroup.numberFrom : ModelGroup → Nat → ModelGroup × Nat
  | ⟨compositor, particles⟩, n =>
    let (particles, n) := numberParticles particles n
    (⟨compositor, particles⟩, n)

/-- Numbers what a list of particles holds, from left to right. -/
def numberParticles : List Particle → Nat → List Particle × Nat
  | [], n => ([], n)
  | particle :: rest, n =>
    let (particle, n) := particle.numberFrom n
    let (rest, n) := numberParticles rest n
    (particle :: rest, n)

end

/-- Numbers what an attribute group holds: its attributes, then its wildcard. -/
def AttributeGroup.numberFrom (group : AttributeGroup) (n : Nat) : AttributeGroup × Nat :=
  let (items, n) := numberItems group.items n
  let (wildcard, n) := numberWildcard group.wildcard n
  (⟨group.name, items, wildcard⟩, n)

end Specimen

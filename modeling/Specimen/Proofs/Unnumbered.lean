import Mathlib.Logic.Basic
import Specimen.Schema.Numbering

/-!
# Components without numbers

The numbers of element declarations and wildcards tell one from another and say nothing else about
them. Which numbers a component has depends on what was registered before it; without its numbers it
is what was declared. Two components that are the same without their numbers are alike.
-/

namespace Specimen

/-- A wildcard without its number. -/
def Wildcard.unnumbered (w : Wildcard) : Wildcard := { w with id := 0 }

mutual

/-- A reference to a type, without the numbers in what is declared in place. -/
def TypeRef.unnumbered : TypeRef → TypeRef
  | .named name => .named name
  | .anonymous definition => .anonymous definition.unnumbered

/-- A type definition without the numbers in it. -/
def TypeDef.unnumbered : TypeDef → TypeDef
  | .simple type => .simple type.unnumbered
  | .complex type => .complex type.unnumbered

/-- A simple type without the numbers in what it is made from. -/
def SimpleType.unnumbered : SimpleType → SimpleType
  | ⟨name, base, variety, facets⟩ => ⟨name, unnumberedBase base, variety.unnumbered, facets⟩

/-- A base without the numbers in it. -/
def unnumberedBase : Option TypeRef → Option TypeRef
  | none => none
  | some type => some type.unnumbered

/-- A variety without the numbers in the types of items or members. -/
def Variety.unnumbered : Variety → Variety
  | .atomic => .atomic
  | .list item => .list item.unnumbered
  | .union members => .union (unnumberedTypes members)

/-- Types without the numbers in them. -/
def unnumberedTypes : List TypeRef → List TypeRef
  | [] => []
  | type :: rest => type.unnumbered :: unnumberedTypes rest

/-- A complex type without the numbers in it. -/
def ComplexType.unnumbered : ComplexType → ComplexType
  | ⟨name, isAbstract, content, attributes, wildcard, derivation⟩ =>
    ⟨name, isAbstract, content.unnumbered, unnumberedItems attributes,
      wildcard.map Wildcard.unnumbered, derivation⟩

/-- Content without the numbers in it. -/
def Content.unnumbered : Content → Content
  | .empty => .empty
  | .simple type => .simple type.unnumbered
  | .elements particle => .elements particle.unnumbered
  | .mixed particle => .mixed particle.unnumbered

/-- Entries of an attribute list without the numbers in them. -/
def unnumberedItems : List AttributeItem → List AttributeItem
  | [] => []
  | item :: rest => item.unnumbered :: unnumberedItems rest

/-- An entry of an attribute list without the numbers in it. -/
def AttributeItem.unnumbered : AttributeItem → AttributeItem
  | .group name => .group name
  | .use use => .use use.unnumbered

/-- The use of an attribute without the numbers in it. -/
def AttributeUse.unnumbered : AttributeUse → AttributeUse
  | ⟨mode, constraint, target⟩ => ⟨mode, constraint, target.unnumbered⟩

/-- An attribute that is used, without the numbers in what is declared in place. -/
def AttributeTarget.unnumbered : AttributeTarget → AttributeTarget
  | .global name => .global name
  | .inline decl => .inline decl.unnumbered

/-- An attribute declaration without the numbers in its type. -/
def AttributeDecl.unnumbered : AttributeDecl → AttributeDecl
  | ⟨name, type, constraint⟩ => ⟨name, type.unnumbered, constraint⟩

/-- An element declaration without its number and those in its type. -/
def ElementDecl.unnumbered : ElementDecl → ElementDecl
  | ⟨_, name, type, scope, isAbstract, head⟩ => ⟨0, name, type.unnumbered, scope, isAbstract, head⟩

/-- A particle without the numbers in its term. -/
def Particle.unnumbered : Particle → Particle
  | ⟨occurs, term⟩ => ⟨occurs, term.unnumbered⟩

/-- A term without the numbers in it. -/
def Term.unnumbered : Term → Term
  | .elementRef name => .elementRef name
  | .element decl => .element decl.unnumbered
  | .group group => .group group.unnumbered
  | .groupRef name => .groupRef name
  | .any wildcard => .any wildcard.unnumbered

/-- A model group without the numbers in its particles. -/
def ModelGroup.unnumbered : ModelGroup → ModelGroup
  | ⟨compositor, particles⟩ => ⟨compositor, unnumberedParticles particles⟩

/-- Particles without the numbers in them. -/
def unnumberedParticles : List Particle → List Particle
  | [] => []
  | particle :: rest => particle.unnumbered :: unnumberedParticles rest

end

/-- An attribute group without the numbers in it. -/
def AttributeGroup.unnumbered (group : AttributeGroup) : AttributeGroup :=
  ⟨group.name, unnumberedItems group.items, group.wildcard.map Wildcard.unnumbered⟩

theorem unnumberedBase_eq_map (base : Option TypeRef) :
    unnumberedBase base = base.map TypeRef.unnumbered := by
  cases base <;> rfl

theorem unnumberedItems_eq_map (items : List AttributeItem) :
    unnumberedItems items = items.map AttributeItem.unnumbered := by
  induction items with
  | nil => rfl
  | cons item rest ih => rw [unnumberedItems, ih, List.map_cons]

/-! ## Numbering -/

theorem unnumbered_numberWildcard (w : Option Wildcard) (n : Nat) :
    (numberWildcard w n).1.map Wildcard.unnumbered = w.map Wildcard.unnumbered := by
  cases w <;> rfl

mutual

/-- **Numbering changes nothing but numbers.** -/
theorem TypeRef.unnumbered_numberFrom : ∀ (type : TypeRef) (n : Nat),
    (type.numberFrom n).1.unnumbered = type.unnumbered
  | .named _, _ => rfl
  | .anonymous definition, n => congrArg TypeRef.anonymous (definition.unnumbered_numberFrom n)

theorem TypeDef.unnumbered_numberFrom : ∀ (definition : TypeDef) (n : Nat),
    (definition.numberFrom n).1.unnumbered = definition.unnumbered
  | .simple type, n => congrArg TypeDef.simple (type.unnumbered_numberFrom n)
  | .complex type, n => congrArg TypeDef.complex (type.unnumbered_numberFrom n)

theorem SimpleType.unnumbered_numberFrom : ∀ (type : SimpleType) (n : Nat),
    (type.numberFrom n).1.unnumbered = type.unnumbered
  | ⟨name, base, variety, facets⟩, n =>
    congrArg₂ (fun base variety => SimpleType.mk name base variety facets)
      (unnumbered_numberBase base n) (variety.unnumbered_numberFrom (numberBase base n).2)

theorem unnumbered_numberBase : ∀ (base : Option TypeRef) (n : Nat),
    unnumberedBase (numberBase base n).1 = unnumberedBase base
  | none, _ => rfl
  | some type, n => congrArg some (type.unnumbered_numberFrom n)

theorem Variety.unnumbered_numberFrom : ∀ (variety : Variety) (n : Nat),
    (variety.numberFrom n).1.unnumbered = variety.unnumbered
  | .atomic, _ => rfl
  | .list item, n => congrArg Variety.list (item.unnumbered_numberFrom n)
  | .union members, n => congrArg Variety.union (unnumbered_numberTypes members n)

theorem unnumbered_numberTypes : ∀ (types : List TypeRef) (n : Nat),
    unnumberedTypes (numberTypes types n).1 = unnumberedTypes types
  | [], _ => rfl
  | type :: rest, n => congrArg₂ List.cons (type.unnumbered_numberFrom n)
      (unnumbered_numberTypes rest (type.numberFrom n).2)

theorem ComplexType.unnumbered_numberFrom : ∀ (type : ComplexType) (n : Nat),
    (type.numberFrom n).1.unnumbered = type.unnumbered
  | ⟨name, isAbstract, content, attributes, wildcard, derivation⟩, n => by
    rw [ComplexType.numberFrom, ComplexType.unnumbered, ComplexType.unnumbered]
    rw [content.unnumbered_numberFrom n,
      unnumbered_numberItems attributes (content.numberFrom n).2, unnumbered_numberWildcard]

theorem Content.unnumbered_numberFrom : ∀ (content : Content) (n : Nat),
    (content.numberFrom n).1.unnumbered = content.unnumbered
  | .empty, _ => rfl
  | .simple type, n => congrArg Content.simple (type.unnumbered_numberFrom n)
  | .elements particle, n => congrArg Content.elements (particle.unnumbered_numberFrom n)
  | .mixed particle, n => congrArg Content.mixed (particle.unnumbered_numberFrom n)

theorem unnumbered_numberItems : ∀ (items : List AttributeItem) (n : Nat),
    unnumberedItems (numberItems items n).1 = unnumberedItems items
  | [], _ => rfl
  | item :: rest, n => congrArg₂ List.cons (item.unnumbered_numberFrom n)
      (unnumbered_numberItems rest (item.numberFrom n).2)

theorem AttributeItem.unnumbered_numberFrom : ∀ (item : AttributeItem) (n : Nat),
    (item.numberFrom n).1.unnumbered = item.unnumbered
  | .group _, _ => rfl
  | .use use, n => congrArg AttributeItem.use (use.unnumbered_numberFrom n)

theorem AttributeUse.unnumbered_numberFrom : ∀ (use : AttributeUse) (n : Nat),
    (use.numberFrom n).1.unnumbered = use.unnumbered
  | ⟨mode, constraint, target⟩, n =>
    congrArg (AttributeUse.mk mode constraint) (target.unnumbered_numberFrom n)

theorem AttributeTarget.unnumbered_numberFrom : ∀ (target : AttributeTarget) (n : Nat),
    (target.numberFrom n).1.unnumbered = target.unnumbered
  | .global _, _ => rfl
  | .inline decl, n => congrArg AttributeTarget.inline (decl.unnumbered_numberFrom n)

theorem AttributeDecl.unnumbered_numberFrom : ∀ (decl : AttributeDecl) (n : Nat),
    (decl.numberFrom n).1.unnumbered = decl.unnumbered
  | ⟨name, type, constraint⟩, n =>
    congrArg (fun type => AttributeDecl.mk name type constraint) (type.unnumbered_numberFrom n)

theorem ElementDecl.unnumbered_numberFrom : ∀ (decl : ElementDecl) (n : Nat),
    (decl.numberFrom n).1.unnumbered = decl.unnumbered
  | ⟨_, name, type, scope, isAbstract, head⟩, n =>
    congrArg (fun type => ElementDecl.mk 0 name type scope isAbstract head)
      (type.unnumbered_numberFrom (n + 1))

theorem Particle.unnumbered_numberFrom : ∀ (particle : Particle) (n : Nat),
    (particle.numberFrom n).1.unnumbered = particle.unnumbered
  | ⟨occurs, term⟩, n => congrArg (Particle.mk occurs) (term.unnumbered_numberFrom (n + 1))

theorem Term.unnumbered_numberFrom : ∀ (term : Term) (n : Nat),
    (term.numberFrom n).1.unnumbered = term.unnumbered
  | .elementRef _, _ => rfl
  | .element decl, n => congrArg Term.element (decl.unnumbered_numberFrom n)
  | .group group, n => congrArg Term.group (group.unnumbered_numberFrom n)
  | .groupRef _, _ => rfl
  | .any _, _ => rfl

theorem ModelGroup.unnumbered_numberFrom : ∀ (group : ModelGroup) (n : Nat),
    (group.numberFrom n).1.unnumbered = group.unnumbered
  | ⟨compositor, particles⟩, n =>
    congrArg (ModelGroup.mk compositor) (unnumbered_numberParticles particles n)

theorem unnumbered_numberParticles : ∀ (particles : List Particle) (n : Nat),
    unnumberedParticles (numberParticles particles n).1 = unnumberedParticles particles
  | [], _ => rfl
  | particle :: rest, n => congrArg₂ List.cons (particle.unnumbered_numberFrom n)
      (unnumbered_numberParticles rest (particle.numberFrom n).2)

end

theorem AttributeGroup.unnumbered_numberFrom (group : AttributeGroup) (n : Nat) :
    (group.numberFrom n).1.unnumbered = group.unnumbered :=
  congrArg₂ (AttributeGroup.mk group.name) (unnumbered_numberItems group.items n)
    (unnumbered_numberWildcard group.wildcard (numberItems group.items n).2)

end Specimen

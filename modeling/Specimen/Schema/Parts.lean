import Specimen.Schema.Model

/-!
# Parts of a schema

What a document may be generated from, inside a component and inside a whole schema: the element
declarations, complex types and particles, with those of the types that are declared in place. A
reference counts for nothing here; what it refers to is a part of the component that declares it.
Simple types and attributes hold no elements of a document and are left out.
-/

namespace Specimen

/-- An element declaration, a complex type or a particle. -/
inductive Part where
  | element (decl : ElementDecl)
  | type (type : ComplexType)
  | particle (particle : Particle)

mutual

/-- The parts of a type declared in place. -/
def TypeRef.parts : TypeRef → List Part
  | .named _ => []
  | .anonymous definition => definition.parts

/-- The parts of a type definition. -/
def TypeDef.parts : TypeDef → List Part
  | .simple _ => []
  | .complex type => type.parts

/-- A complex type and the parts of its content. -/
def ComplexType.parts : ComplexType → List Part
  | ⟨name, isAbstract, content, attributes, wildcard, derivation⟩ =>
    .type ⟨name, isAbstract, content, attributes, wildcard, derivation⟩ :: content.parts

/-- The parts of the particle of a content. -/
def Content.parts : Content → List Part
  | .empty => []
  | .simple _ => []
  | .elements particle => particle.parts
  | .mixed particle => particle.parts

/-- An element declaration and the parts of its type. -/
def ElementDecl.parts : ElementDecl → List Part
  | ⟨id, name, type, scope, isAbstract, head⟩ =>
    .element ⟨id, name, type, scope, isAbstract, head⟩ :: type.parts

/-- A particle and the parts of its term. -/
def Particle.parts : Particle → List Part
  | ⟨occurs, term⟩ => .particle ⟨occurs, term⟩ :: term.parts

/-- The parts of what a term declares in place. -/
def Term.parts : Term → List Part
  | .elementRef _ => []
  | .element decl => decl.parts
  | .group group => group.parts
  | .groupRef _ => []
  | .any _ => []

/-- The parts of the particles of a group. -/
def ModelGroup.parts : ModelGroup → List Part
  | ⟨_, particles⟩ => partsOfAll particles

/-- The parts of all particles of a list. -/
def partsOfAll : List Particle → List Part
  | [] => []
  | particle :: rest => particle.parts ++ partsOfAll rest

end

/-- The declaration, if the part is one. -/
def Part.declaration? : Part → Option ElementDecl
  | element decl => some decl
  | _ => none

namespace Model

/-- The parts of all global components. -/
def parts (m : Model) : List Part :=
  m.elements.values.flatMap ElementDecl.parts ++ m.types.values.flatMap TypeDef.parts
    ++ m.groups.values.flatMap ModelGroup.parts

/-- The element declarations of a schema, global and local ones. -/
def declarations (m : Model) : List ElementDecl := m.parts.filterMap Part.declaration?

end Model

end Specimen

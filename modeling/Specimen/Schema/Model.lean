import Specimen.Schema.Builtin
import Specimen.Schema.Numbering
import Specimen.Schema.Table

/-!
# Schema models

The global components of a schema, each kind in a table of its own, with the built-in types in front
of the types. Registering a component numbers its declarations and wildcards from the model's next
free number, so all numbers inside a model are below `next`.
-/

namespace Specimen

/-- The global components of a schema. -/
structure Model where
  target : Option String := none
  elements : Table ElementDecl := .empty
  types : Table TypeDef := .empty
  attributes : Table AttributeDecl := .empty
  groups : Table ModelGroup := .empty
  attributeGroups : Table AttributeGroup := .empty
  next : Nat := 0

namespace Model

/-! ## Registration -/

/-- Registers a global element. -/
def addElement (m : Model) (decl : ElementDecl) : Model :=
  let (decl, next) := decl.numberFrom m.next
  { m with elements := m.elements.insert decl.name decl, next }

/-- Registers a type under a name. -/
def addNamedType (m : Model) (name : QName) (definition : TypeDef) : Model :=
  let (definition, next) := definition.numberFrom m.next
  { m with types := m.types.insert name definition, next }

/-- Registers a global type under its own name, which it has to have. -/
def addType (m : Model) (definition : TypeDef) : Except Error Model :=
  match definition.name with
  | some name => .ok (m.addNamedType name definition)
  | none => .error (.shape .unnamedType)

/-- Registers a global attribute. -/
def addAttribute (m : Model) (decl : AttributeDecl) : Model :=
  let (decl, next) := decl.numberFrom m.next
  { m with attributes := m.attributes.insert decl.name decl, next }

/-- Registers a model group under a name. -/
def addGroup (m : Model) (name : QName) (group : ModelGroup) : Model :=
  let (group, next) := group.numberFrom m.next
  { m with groups := m.groups.insert name group, next }

/-- Registers an attribute group under a name. -/
def addNamedAttributeGroup (m : Model) (name : QName) (group : AttributeGroup) : Model :=
  let (group, next) := group.numberFrom m.next
  { m with attributeGroups := m.attributeGroups.insert name group, next }

/-- Registers an attribute group under its own name, which it has to have. -/
def addAttributeGroup (m : Model) (group : AttributeGroup) : Except Error Model :=
  match group.name with
  | some name => .ok (m.addNamedAttributeGroup name group)
  | none => .error (.shape .unnamedAttributeGroup)

/-- The model with the built-in types only. -/
def builtin : Model :=
  let simple : Model := BuiltinType.all.foldl
    (fun (m : Model) type => m.addNamedType (QName.xsd type.name) (.simple type.definition)) {}
  simple.addNamedType (QName.xsd "anyType") (.complex anyType)

instance : Inhabited Model := ⟨builtin⟩

/-- The model with the built-in types only, for a schema with a target namespace. -/
def withTarget (uri : String) : Model := { builtin with target := (some uri).filter (· ≠ "") }

/-- The name of a component of this schema. -/
def qname (m : Model) (localName : String) : QName := QName.make m.target localName

/-! ## Questions -/

/-- The names of the elements that a document may start with, in the order of registration. -/
def rootElements (m : Model) : List QName :=
  (m.elements.entries.filter fun entry => !entry.2.isAbstract).map Prod.fst

/-- The global element that a document starts with. -/
def rootElement (m : Model) (name : QName) : Except Error ElementDecl :=
  match m.elements.get? name with
  | some decl => .ok decl
  | none => .error (.rootNotFound name)

/-- The type that a reference is about. -/
def resolveType (m : Model) : TypeRef → Except Error TypeDef
  | .anonymous definition => .ok definition
  | .named name =>
    match m.types.get? name with
    | some definition => .ok definition
    | none => .error (.shape (.unknown .type name))

/-- The global element with a name. -/
def resolveElement (m : Model) (name : QName) : Except Error ElementDecl :=
  match m.elements.get? name with
  | some decl => .ok decl
  | none => .error (.shape (.unknown .element name))

/-- The model group with a name. -/
def resolveGroup (m : Model) (name : QName) : Except Error ModelGroup :=
  match m.groups.get? name with
  | some group => .ok group
  | none => .error (.shape (.unknown .group name))

/-- The declaration that an attribute use is about. -/
def resolveAttribute (m : Model) : AttributeTarget → Except Error AttributeDecl
  | .inline decl => .ok decl
  | .global name =>
    match m.attributes.get? name with
    | some decl => .ok decl
    | none => .error (.shape (.unknown .attr name))

/-- The attribute group with a name. -/
def resolveAttributeGroup (m : Model) (name : QName) : Except Error AttributeGroup :=
  match m.attributeGroups.get? name with
  | some group => .ok group
  | none => .error (.shape (.unknown .attrGroup name))

end Model

end Specimen

import Specimen.Name.Basic
import Specimen.Schema.Facet
import Specimen.Schema.Occurs
import Specimen.Schema.Wildcard

/-!
# Components of a schema

Types, declarations and model groups as they are declared. A component refers to a global one by its
name, so recursive schemas need no cyclic data, and holds what is declared in place.

Element declarations and wildcards have numbers. Two declarations may well be equal in all that is
written down and still be two declarations; the numbers keep them apart. They are given out when a
component is registered (`Specimen.Schema.Numbering`), and are zero before.
-/

namespace Specimen

/-! ## Small parts -/

/-- How the particles of a model group are combined. -/
inductive Compositor where
  | sequence
  | choice
  | all
deriving DecidableEq, Repr, Inhabited

namespace Compositor

/-- The name of the group's element in a schema. -/
def name : Compositor → String
  | sequence => "sequence"
  | choice => "choice"
  | all => "all"

/-- The compositor with a name. -/
def ofName? : String → Option Compositor
  | "sequence" => some sequence
  | "choice" => some choice
  | "all" => some all
  | _ => none

/-- What stands between two particles of the group in a content model. -/
def separator : Compositor → String
  | sequence => ", "
  | choice => " | "
  | all => " ; "

end Compositor

/-- How a complex type is derived from its base. -/
inductive DerivationMethod where
  | extension
  | restriction
deriving DecidableEq, Repr, Inhabited

/-- The method with a name. -/
def DerivationMethod.ofName? : String → Option DerivationMethod
  | "extension" => some extension
  | "restriction" => some restriction
  | _ => none

/-- The derivation of a complex type from a named base. -/
structure Derivation where
  method : DerivationMethod
  base : QName
deriving DecidableEq, Repr

/-- Whether the names of local declarations are in the target namespace. -/
inductive Form where
  | qualified
  | unqualified
deriving DecidableEq, Repr, Inhabited

/-- The form with a name. -/
def Form.ofName? : String → Option Form
  | "qualified" => some qualified
  | "unqualified" => some unqualified
  | _ => none

/-- Whether an attribute has to be present, may be, or may not be. -/
inductive UseMode where
  | optional
  | required
  | prohibited
deriving DecidableEq, Repr, Inhabited

/-- Reads the value of a `use` attribute. -/
def UseMode.read : String → Except Error UseMode
  | "optional" => .ok optional
  | "required" => .ok required
  | "prohibited" => .ok prohibited
  | value => .error (.ofCause (.badUseMode value))

/-- The value that an attribute is tied to. -/
inductive ValueConstraint where
  | free
  | fixed (value : String)
  | default (value : String)
deriving DecidableEq, Repr, Inhabited

namespace ValueConstraint

/-- Reads the values of `fixed` and `default`, of which only one may be given. -/
def read : Option String → Option String → Except Error ValueConstraint
  | some _, some _ => .error (.ofCause .fixedAndDefault)
  | some value, none => .ok (fixed value)
  | none, some value => .ok (default value)
  | none, none => .ok free

/-- Tied to no value. -/
def isFree : ValueConstraint → Bool
  | free => true
  | _ => false

/-- The first of two constraints that ties the attribute to a value. -/
def orElse : ValueConstraint → ValueConstraint → ValueConstraint
  | free, other => other
  | own, _ => own

end ValueConstraint

/-- Whether an element is declared at the top of a schema or inside a type or group. -/
inductive Scope where
  | global
  | local
deriving DecidableEq, Repr, Inhabited

/-! ## Types, declarations and groups -/

mutual

/-- The type of a declaration: a global type by its name, or one declared in place. -/
inductive TypeRef where
  | named (name : QName)
  | anonymous (definition : TypeDef)

/-- A type definition. -/
inductive TypeDef where
  | simple (type : SimpleType)
  | complex (type : ComplexType)

/-- A simple type: what it is derived from, its variety and the facets of this step. Only the type
that all simple types come from has no base. -/
structure SimpleType where
  name : Option QName
  base : Option TypeRef
  variety : Variety
  facets : FacetSet

/-- The declared variety of a simple type. A restriction is atomic here and takes over the variety
of its base. -/
inductive Variety where
  | atomic
  | list (item : TypeRef)
  | union (members : List TypeRef)

/-- A complex type as it is declared; what it inherits is not in it. -/
structure ComplexType where
  name : Option QName
  isAbstract : Bool
  content : Content
  attributes : List AttributeItem
  wildcard : Option Wildcard
  derivation : Option Derivation

/-- The content that a complex type declares. -/
inductive Content where
  | empty
  | simple (type : TypeRef)
  | elements (particle : Particle)
  | mixed (particle : Particle)

/-- An entry in the attribute list of a type or attribute group. -/
inductive AttributeItem where
  | use (use : AttributeUse)
  | group (name : QName)

/-- An attribute as a type uses it. A constraint of the use goes before that of the declaration. -/
structure AttributeUse where
  mode : UseMode
  constraint : ValueConstraint
  target : AttributeTarget

/-- The declaration that an attribute use is about. -/
inductive AttributeTarget where
  | global (name : QName)
  | inline (decl : AttributeDecl)

/-- An attribute declaration. -/
structure AttributeDecl where
  name : QName
  type : TypeRef
  constraint : ValueConstraint

/-- An element declaration. `head` is the element whose substitution group it joins. -/
structure ElementDecl where
  id : Nat
  name : QName
  type : TypeRef
  scope : Scope
  isAbstract : Bool
  head : Option QName

/-- A term with its occurrence bounds. -/
structure Particle where
  occurs : Occurs
  term : Term

/-- What a particle stands for. -/
inductive Term where
  | elementRef (name : QName)
  | element (decl : ElementDecl)
  | group (group : ModelGroup)
  | groupRef (name : QName)
  | any (wildcard : Wildcard)

/-- A model group: its particles in the order of their declaration. -/
structure ModelGroup where
  compositor : Compositor
  particles : List Particle

end

/-- An attribute group. -/
structure AttributeGroup where
  name : Option QName
  items : List AttributeItem
  wildcard : Option Wildcard

/-! ## Building components -/

instance : Inhabited TypeRef := ⟨.named default⟩

instance : Inhabited SimpleType := ⟨⟨none, none, .atomic, .empty⟩⟩

instance : Inhabited ComplexType := ⟨⟨none, false, .empty, [], none, none⟩⟩

instance : Inhabited TypeDef := ⟨.simple default⟩

instance : Inhabited ElementDecl := ⟨⟨0, default, default, .global, false, none⟩⟩

instance : Inhabited Particle := ⟨⟨.once, .elementRef default⟩⟩

instance : Inhabited AttributeDecl := ⟨⟨default, default, .free⟩⟩

namespace TypeRef

/-- A built-in type, by its local name. -/
def builtin (localName : String) : TypeRef := named (QName.xsd localName)

/-- The type of an element without a type. -/
def anyType : TypeRef := builtin "anyType"

/-- The type of an attribute without a type. -/
def anySimpleType : TypeRef := builtin "anySimpleType"

end TypeRef

namespace TypeDef

/-- The name of a type, if it is not declared in place. -/
def name : TypeDef → Option QName
  | simple type => type.name
  | complex type => type.name

/-- The complex type, if it is one. -/
def asComplex : TypeDef → Option ComplexType
  | simple _ => none
  | complex type => some type

end TypeDef

/-- The name to report a type reference by. -/
def TypeRef.name : TypeRef → Option QName
  | named name => some name
  | anonymous definition => definition.name

namespace SimpleType

/-- A step of restriction without facets yet. -/
def restriction (base : TypeRef) : SimpleType := ⟨none, some base, .atomic, .empty⟩

/-- A list of items of one type. -/
def listOf (item : TypeRef) : SimpleType := ⟨none, some .anySimpleType, .list item, .empty⟩

/-- A union of member types. -/
def unionOf (members : List TypeRef) : SimpleType :=
  ⟨none, some .anySimpleType, .union members, .empty⟩

/-- Adds a facet to this step. -/
def withFacet (type : SimpleType) (facet : Facet) : SimpleType :=
  { type with facets := type.facets.push facet }

/-- A type in the namespace of the schema language. -/
def isBuiltin (type : SimpleType) : Bool :=
  match type.name with
  | some name => name.isXsd
  | none => false

end SimpleType

namespace Content

/-- The particle of element-only or mixed content. -/
def particle : Content → Option Particle
  | elements p => some p
  | mixed p => some p
  | _ => none

/-- Text may stand between the elements. -/
def isMixed : Content → Bool
  | mixed _ => true
  | _ => false

end Content

/-- The name of the attribute that a use is about. -/
def AttributeTarget.name : AttributeTarget → QName
  | global name => name
  | inline decl => decl.name

end Specimen

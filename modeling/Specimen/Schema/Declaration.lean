import Specimen.Name.NCName
import Specimen.Schema.Component
import Specimen.Schema.Node

/-!
# Reading declarations

Components are read from the elements of a schema document. References between components stay
names, so it does not matter in which order they are declared or whether they are declared at all;
what is wrong with an element by itself is reported with its place.
-/

namespace Specimen

/-! ## The document around a declaration -/

/-- What a declaration takes over from its document: the target namespace, the forms of local names,
and how places are reported. `isAdopted` tells that the document has no target namespace of its own
and takes that of the document which includes it; names without a namespace are then in the target
namespace. -/
structure DocumentSetting where
  target : Option String
  isAdopted : Bool
  elementForm : Form
  attributeForm : Form
  place : Nat → String

namespace DocumentSetting

variable {α : Type}

/-- A name in the target namespace. -/
def qname (s : DocumentSetting) (localName : String) : QName := QName.make s.target localName

/-- The name of a local declaration. -/
def localName (s : DocumentSetting) (form : Form) (name : String) : QName :=
  match form with
  | .qualified => s.qname name
  | .unqualified => QName.bare name

/-- Reports what is wrong with an element. -/
def fail (s : DocumentSetting) (tag : SchemaTag) (cause : ParseCause) : Except Error α :=
  .error (.parse ⟨cause, some (s.place tag.offset), none⟩)

/-- Adds the place of an element to a report that has none. -/
def located (s : DocumentSetting) (tag : SchemaTag) (result : Except Error α) : Except Error α :=
  result.mapError (Error.locate (s.place tag.offset))

/-- The component that an attribute value refers to. -/
def resolve (s : DocumentSetting) (tag : SchemaTag) (value : String) : Except Error QName :=
  let (pfx, name) := splitPrefix (Text.trim value)
  match pfx, tag.scope.uri? pfx with
  | some pfx, none => s.fail tag (.unknownPrefix pfx)
  | none, none => .ok (if s.isAdopted then s.qname name else QName.bare name)
  | _, some uri => .ok (QName.qualified uri name)

/-- The value of an attribute that has to be given. -/
def required (s : DocumentSetting) (tag : SchemaTag) (name : String) : Except Error String :=
  match tag.attr? name with
  | some value => .ok value
  | none => s.fail tag (.missingAttribute tag.name name)

/-- The component that an attribute refers to which has to be given. -/
def reference (s : DocumentSetting) (tag : SchemaTag) (name : String) : Except Error QName := do
  s.resolve tag (← s.required tag name)

/-- The occurrence bounds of a particle. -/
def occurs (s : DocumentSetting) (tag : SchemaTag) : Except Error Occurs :=
  s.located tag (Occurs.read (tag.attr? "minOccurs") (tag.attr? "maxOccurs"))

/-- The wildcard that an element declares. -/
def wildcard (s : DocumentSetting) (tag : SchemaTag) : Except Error Wildcard := do
  let namespaces ← s.located tag
    (NamespaceConstraint.read ((tag.attr? "namespace").getD "##any") s.target)
  return ⟨0, namespaces⟩

/-- The value that an attribute is tied to. -/
def constraint (s : DocumentSetting) (tag : SchemaTag) : Except Error ValueConstraint :=
  s.located tag (ValueConstraint.read (tag.attr? "fixed") (tag.attr? "default"))

/-- Whether an attribute has to be present. -/
def useMode (s : DocumentSetting) (tag : SchemaTag) : Except Error UseMode :=
  match tag.attr? "use" with
  | some value => s.located tag (UseMode.read (Text.trim value))
  | none => .ok .optional

/-- The form of the name of a local declaration. -/
def form (tag : SchemaTag) (usual : Form) : Form :=
  ((tag.attr? "form").bind Form.ofName?).getD usual

/-! ## Types of declarations -/

/-- A type that is named by an attribute, or else declared in place. -/
def typeOr (s : DocumentSetting) (tag : SchemaTag) (name : String)
    (inline : Except Error (Option TypeRef)) : Except Error (Option TypeRef) :=
  match tag.attr? name with
  | some value => do return some (.named (← s.resolve tag value))
  | none => inline

/-- A type that is named by an attribute, or else has to be declared in place. -/
def baseOr (s : DocumentSetting) (tag : SchemaTag) (name : String)
    (inline : Except Error (Option TypeRef)) : Except Error TypeRef := do
  match ← s.typeOr tag name inline with
  | some type => return type
  | none => s.fail tag (.noBaseType tag.name name)

/-- The facets that elements declare, put behind those of a type. -/
def facets (s : DocumentSetting) (type : SimpleType) : List SchemaNode → Except Error SimpleType
  | [] => .ok type
  | node :: rest =>
    match FacetKind.ofName? node.tag.name with
    | none => s.facets type rest
    | some kind => do
      let value ← s.required node.tag "value"
      let facet ← s.located node.tag (Facet.read kind value)
      s.facets (type.withFacet facet) rest

/-- The union of the types that an attribute names and those declared in place. -/
def unionType (s : DocumentSetting) (tag : SchemaTag) (inline : Except Error (List TypeRef)) :
    Except Error SimpleType := do
  let names ← (Text.words ((tag.attr? "memberTypes").getD "")).mapM (s.resolve tag)
  let members := names.map TypeRef.named ++ (← inline)
  if members.isEmpty then s.fail tag .noMemberTypes else return .unionOf members

/-! ## Content -/

/-- The attributes of a type or attribute group, with its wildcard. -/
abbrev Attributes := List AttributeItem × Option Wildcard

/-- What a complex type declares besides its name and whether it is abstract. -/
structure Body where
  content : Content
  attributes : Attributes
  derivation : Option Derivation

/-- The body with these groups and attributes. Of several groups the last one counts. -/
def body (isMixed : Bool) (derivation : Option Derivation) (groups : Except Error (List Particle))
    (attributes : Except Error Attributes) : Except Error Body := do
  let content := match (← groups).getLast? with
    | some particle => if isMixed then .mixed particle else .elements particle
    | none => .empty
  return ⟨content, ← attributes, derivation⟩

/-- The body of a type with simple content. A restriction has facets of its own, on a type declared
in place or on the base. -/
def simpleBody (s : DocumentSetting) (derivation : Derivation) (children : List SchemaNode)
    (inline : Except Error (Option TypeRef)) (attributes : Except Error Attributes) :
    Except Error Body := do
  let attributes ← attributes
  match derivation.method with
  | .extension => return ⟨.empty, attributes, some derivation⟩
  | .restriction =>
    let base := (← inline).getD (.named derivation.base)
    let type ← s.facets (.restriction base) children
    return ⟨.simple (.anonymous (.simple type)), attributes, some derivation⟩

/-- The complex type with a body. -/
def Body.type (tag : SchemaTag) (body : Body) : ComplexType :=
  ⟨none, tag.flag "abstract", body.content, body.attributes.1, body.attributes.2, body.derivation⟩

end DocumentSetting

/-- The name of an element that declares or refers to a model group. -/
def isGroupName (name : String) : Bool := name == "group" || (Compositor.ofName? name).isSome

/-! ## Types, particles and attributes -/

section

open DocumentSetting

variable (s : DocumentSetting)

mutual

/-- Reads a simple type. -/
def readSimpleType : SchemaNode → Except Error SimpleType
  | ⟨tag, children⟩ => readVariety tag children

/-- Reads the first element that gives a simple type its variety. -/
def readVariety (owner : SchemaTag) : List SchemaNode → Except Error SimpleType
  | [] => s.fail owner .noVariety
  | ⟨tag, children⟩ :: rest =>
    if tag.name = "restriction" then do
      let base ← s.baseOr tag "base" (readInline children)
      s.facets (.restriction base) children
    else if tag.name = "list" then do
      return .listOf (← s.baseOr tag "itemType" (readInline children))
    else if tag.name = "union" then s.unionType tag (readMembers children)
    else readVariety owner rest

/-- Reads the first simple type that is declared in place. -/
def readInline : List SchemaNode → Except Error (Option TypeRef)
  | [] => .ok none
  | node :: rest =>
    if node.tag.name = "simpleType" then do
      return some (.anonymous (.simple (← readSimpleType node)))
    else readInline rest

/-- Reads every simple type that is declared in place. -/
def readMembers : List SchemaNode → Except Error (List TypeRef)
  | [] => .ok []
  | node :: rest =>
    if node.tag.name = "simpleType" then do
      let type ← readSimpleType node
      return .anonymous (.simple type) :: (← readMembers rest)
    else readMembers rest

/-- Reads a complex type. -/
def readComplexType : SchemaNode → Except Error ComplexType
  | ⟨tag, children⟩ => do
    let isMixed := tag.flag "mixed"
    match ← readDerived isMixed children with
    | some body => return body.type tag
    | none => return (← body isMixed none (readGroups children) (readAttributes children)).type tag

/-- Reads the first element that derives a complex type from another one. -/
def readDerived (isMixed : Bool) : List SchemaNode → Except Error (Option Body)
  | [] => .ok none
  | ⟨tag, children⟩ :: rest =>
    if tag.name = "simpleContent" then some <$> readSimpleContent tag children
    else if tag.name = "complexContent" then
      some <$> readComplexContent tag
        (match tag.attr? "mixed" with
          | some value => SchemaTag.isTrue (some value)
          | none => isMixed) children
    else readDerived isMixed rest

/-- Reads the derivation of a type with simple content. -/
def readSimpleContent (owner : SchemaTag) : List SchemaNode → Except Error Body
  | [] => s.fail owner (.noDerivation owner.name)
  | ⟨tag, children⟩ :: rest =>
    match DerivationMethod.ofName? tag.name with
    | none => readSimpleContent owner rest
    | some method => do
      let base ← s.reference tag "base"
      s.simpleBody ⟨method, base⟩ children (readInline children) (readAttributes children)

/-- Reads the derivation of a type with elements or mixed content. -/
def readComplexContent (owner : SchemaTag) (isMixed : Bool) : List SchemaNode → Except Error Body
  | [] => s.fail owner (.noDerivation owner.name)
  | ⟨tag, children⟩ :: rest =>
    match DerivationMethod.ofName? tag.name with
    | none => readComplexContent owner isMixed rest
    | some method => do
      let base ← s.reference tag "base"
      body isMixed (some ⟨method, base⟩) (readGroups children) (readAttributes children)

/-- Reads the model groups among the elements of a type. -/
def readGroups : List SchemaNode → Except Error (List Particle)
  | [] => .ok []
  | node :: rest =>
    if isGroupName node.tag.name then do
      let particle ← readGroup node
      return particle :: (← readGroups rest)
    else readGroups rest

/-- Reads a model group or a reference to one, with its occurrence bounds. -/
def readGroup : SchemaNode → Except Error Particle
  | ⟨tag, children⟩ => do
    let occurs ← s.occurs tag
    match Compositor.ofName? tag.name with
    | some compositor => return ⟨occurs, .group ⟨compositor, ← readParticles children⟩⟩
    | none => return ⟨occurs, .groupRef (← s.reference tag "ref")⟩

/-- Reads the particles of a model group. -/
def readParticles : List SchemaNode → Except Error (List Particle)
  | [] => .ok []
  | node :: rest =>
    if node.tag.name = "element" then do
      let particle ← readElement node
      return particle :: (← readParticles rest)
    else if node.tag.name = "any" then do
      let occurs ← s.occurs node.tag
      let wildcard ← s.wildcard node.tag
      return ⟨occurs, .any wildcard⟩ :: (← readParticles rest)
    else if isGroupName node.tag.name then do
      let particle ← readGroup node
      return particle :: (← readParticles rest)
    else readParticles rest

/-- Reads a local element or a reference to a global one, with its occurrence bounds. -/
def readElement : SchemaNode → Except Error Particle
  | ⟨tag, children⟩ => do
    let occurs ← s.occurs tag
    match tag.attr? "ref" with
    | some name => return ⟨occurs, .elementRef (← s.resolve tag name)⟩
    | none =>
      let name := s.localName (form tag s.elementForm) (← s.required tag "name")
      let type ← s.typeOr tag "type" (readElementType children)
      return ⟨occurs, .element ⟨0, name, type.getD .anyType, .local, false, none⟩⟩

/-- Reads the first type that is declared in place. -/
def readElementType : List SchemaNode → Except Error (Option TypeRef)
  | [] => .ok none
  | node :: rest =>
    if node.tag.name = "complexType" then do
      return some (.anonymous (.complex (← readComplexType node)))
    else if node.tag.name = "simpleType" then do
      return some (.anonymous (.simple (← readSimpleType node)))
    else readElementType rest

/-- Reads the attributes of a type or attribute group. Of several wildcards the last one counts. -/
def readAttributes : List SchemaNode → Except Error Attributes
  | [] => .ok ([], none)
  | node :: rest =>
    if node.tag.name = "attribute" then do
      let use ← readUse node
      let (items, wildcard) ← readAttributes rest
      return (.use use :: items, wildcard)
    else if node.tag.name = "attributeGroup" then do
      let name ← s.reference node.tag "ref"
      let (items, wildcard) ← readAttributes rest
      return (.group name :: items, wildcard)
    else if node.tag.name = "anyAttribute" then do
      let own ← s.wildcard node.tag
      let (items, wildcard) ← readAttributes rest
      return (items, some (wildcard.getD own))
    else readAttributes rest

/-- Reads an attribute that a type uses. -/
def readUse : SchemaNode → Except Error AttributeUse
  | ⟨tag, children⟩ => do
    let mode ← s.useMode tag
    let constraint ← s.constraint tag
    match tag.attr? "ref" with
    | some name => return ⟨mode, constraint, .global (← s.resolve tag name)⟩
    | none =>
      let name := s.localName (form tag s.attributeForm) (← s.required tag "name")
      let type ← s.typeOr tag "type" (readInline children)
      return ⟨mode, constraint, .inline ⟨name, type.getD .anySimpleType, .free⟩⟩

end

/-! ## Global declarations -/

/-- A global component. `inheritsType` tells that an element has no type of its own and takes that
of the element whose substitution group it joins. -/
inductive Declaration where
  | element (decl : ElementDecl) (inheritsType : Bool)
  | type (name : QName) (definition : TypeDef)
  | attr (decl : AttributeDecl)
  | attributeGroup (name : QName) (group : AttributeGroup)
  | group (name : QName) (group : ModelGroup)

/-- Reads a global element. -/
def readGlobalElement (node : SchemaNode) : Except Error Declaration := do
  let name := s.qname (← s.required node.tag "name")
  let head ← (node.tag.attr? "substitutionGroup").mapM (s.resolve node.tag)
  let type ← s.typeOr node.tag "type" (readElementType s node.children)
  return .element ⟨0, name, type.getD .anyType, .global, node.tag.flag "abstract", head⟩
    (type.isNone && head.isSome)

/-- Reads a global attribute. -/
def readGlobalAttribute (node : SchemaNode) : Except Error Declaration := do
  let name := s.qname (← s.required node.tag "name")
  let type ← s.typeOr node.tag "type" (readInline s node.children)
  let constraint ← s.constraint node.tag
  return .attr ⟨name, type.getD .anySimpleType, constraint⟩

/-- Reads a named model group: the first group inside it, or an empty sequence. -/
def readGroupDefinition (node : SchemaNode) : Except Error ModelGroup :=
  match node.children.find? fun child => (Compositor.ofName? child.tag.name).isSome with
  | some child => do
    return ⟨(Compositor.ofName? child.tag.name).getD .sequence, ← readParticles s child.children⟩
  | none => .ok ⟨.sequence, []⟩

/-- Reads a global component, if the element declares one. -/
def readDeclaration (node : SchemaNode) : Except Error (Option Declaration) := do
  match node.tag.name with
  | "element" => return some (← readGlobalElement s node)
  | "complexType" =>
    let name := s.qname (← s.required node.tag "name")
    let type ← readComplexType s node
    return some (.type name (.complex { type with name := some name }))
  | "simpleType" =>
    let name := s.qname (← s.required node.tag "name")
    let type ← readSimpleType s node
    return some (.type name (.simple { type with name := some name }))
  | "attribute" => return some (← readGlobalAttribute s node)
  | "attributeGroup" =>
    let name := s.qname (← s.required node.tag "name")
    let (items, wildcard) ← readAttributes s node.children
    return some (.attributeGroup name ⟨some name, items, wildcard⟩)
  | "group" =>
    let name := s.qname (← s.required node.tag "name")
    return some (.group name (← readGroupDefinition s node))
  | _ => return none

end

end Specimen

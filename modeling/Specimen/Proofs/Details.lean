import Specimen.Proofs.Entering

/-!
# Details of components

What a component says, however deep inside it and in types without a name: the components it refers
to, the names it declares, the occurrence bounds of its particles, and its simple types. What holds
of every detail of a schema holds everywhere in it.

A simple type that is a detail of a component brings all its own details along.
-/

namespace Specimen

/-- Something that a component says. -/
inductive Detail where
  | refers (symbol : Symbol)
  | declares (name : QName)
  | occurs (occurs : Occurs)
  | simple (type : SimpleType)

/-! ## Details inside components -/

/-- The name that is declared, if there is one. -/
def nameDetails (name : Option QName) : List Detail := name.toList.map .declares

/-- The base that a complex type is derived from, if there is one. -/
def baseDetails (derivation : Option Derivation) : List Detail :=
  derivation.toList.map fun derivation => .refers ⟨.type, derivation.base⟩

/-- The head of the substitution group that an element joins, if there is one. -/
def headDetails (head : Option QName) : List Detail :=
  head.toList.map fun head => .refers ⟨.element, head⟩

mutual

/-- The details of a type that is named or declared in place. -/
def TypeRef.details : TypeRef → List Detail
  | .named name => [.refers ⟨.type, name⟩]
  | .anonymous definition => definition.details

/-- The details of a type definition. -/
def TypeDef.details : TypeDef → List Detail
  | .simple type => type.details
  | .complex type => type.details

/-- A simple type and the details of what it is made from. -/
def SimpleType.details : SimpleType → List Detail
  | ⟨name, base, variety, facets⟩ =>
    .simple ⟨name, base, variety, facets⟩
      :: (nameDetails name ++ (detailsOfBase base ++ variety.details))

/-- The details of the base of a simple type. -/
def detailsOfBase : Option TypeRef → List Detail
  | none => []
  | some type => type.details

/-- The details of the item type or the member types. -/
def Variety.details : Variety → List Detail
  | .atomic => []
  | .list item => item.details
  | .union members => detailsOfTypes members

/-- The details of all types of a list. -/
def detailsOfTypes : List TypeRef → List Detail
  | [] => []
  | type :: rest => type.details ++ detailsOfTypes rest

/-- The details of a complex type. -/
def ComplexType.details : ComplexType → List Detail
  | ⟨name, _, content, attributes, _, derivation⟩ =>
    nameDetails name ++ (baseDetails derivation ++ (content.details ++ detailsOfItems attributes))

/-- The details of the content of a type. -/
def Content.details : Content → List Detail
  | .empty => []
  | .simple type => type.details
  | .elements particle => particle.details
  | .mixed particle => particle.details

/-- The details of all entries of an attribute list. -/
def detailsOfItems : List AttributeItem → List Detail
  | [] => []
  | item :: rest => item.details ++ detailsOfItems rest

/-- The details of an entry of an attribute list. -/
def AttributeItem.details : AttributeItem → List Detail
  | .use use => use.details
  | .group name => [.refers ⟨.attributeGroup, name⟩]

/-- The details of an attribute that is used. -/
def AttributeUse.details : AttributeUse → List Detail
  | ⟨_, _, target⟩ => target.details

/-- The details of an attribute that is referred to or declared in place. -/
def AttributeTarget.details : AttributeTarget → List Detail
  | .global name => [.refers ⟨.attr, name⟩]
  | .inline decl => decl.details

/-- The details of an attribute declaration. -/
def AttributeDecl.details : AttributeDecl → List Detail
  | ⟨name, type, _⟩ => .declares name :: type.details

/-- The details of an element declaration. -/
def ElementDecl.details : ElementDecl → List Detail
  | ⟨_, name, type, _, _, head⟩ => .declares name :: (headDetails head ++ type.details)

/-- The details of a particle. -/
def Particle.details : Particle → List Detail
  | ⟨occurs, term⟩ => .occurs occurs :: term.details

/-- The details of a term. -/
def Term.details : Term → List Detail
  | .elementRef name => [.refers ⟨.element, name⟩]
  | .element decl => decl.details
  | .group group => group.details
  | .groupRef name => [.refers ⟨.group, name⟩]
  | .any _ => []

/-- The details of a model group. -/
def ModelGroup.details : ModelGroup → List Detail
  | ⟨_, particles⟩ => detailsOfAll particles

/-- The details of all particles of a list. -/
def detailsOfAll : List Particle → List Detail
  | [] => []
  | particle :: rest => particle.details ++ detailsOfAll rest

end

/-- The details of an attribute group. -/
def AttributeGroup.details (group : AttributeGroup) : List Detail :=
  nameDetails group.name ++ detailsOfItems group.items

/-- The details of a schema. -/
def Model.details (m : Model) : List Detail :=
  m.elements.values.flatMap ElementDecl.details ++ (m.types.values.flatMap TypeDef.details
    ++ (m.attributes.values.flatMap AttributeDecl.details
      ++ (m.groups.values.flatMap ModelGroup.details
        ++ m.attributeGroups.values.flatMap AttributeGroup.details)))

/-! ## Rows of components -/

theorem detailsOfItems_eq (items : List AttributeItem) :
    detailsOfItems items = items.flatMap AttributeItem.details := by
  induction items with
  | nil => rfl
  | cons item rest ih => rw [detailsOfItems, ih, List.flatMap_cons]

theorem detailsOfTypes_eq (types : List TypeRef) :
    detailsOfTypes types = types.flatMap TypeRef.details := by
  induction types with
  | nil => rfl
  | cons type rest ih => rw [detailsOfTypes, ih, List.flatMap_cons]

theorem detailsOfAll_eq (particles : List Particle) :
    detailsOfAll particles = particles.flatMap Particle.details := by
  induction particles with
  | nil => rfl
  | cons particle rest ih => rw [detailsOfAll, ih, List.flatMap_cons]

/-! ## Details of parts -/

theorem SimpleType.details_eq (type : SimpleType) :
    type.details = .simple type
      :: (nameDetails type.name ++ (detailsOfBase type.base ++ type.variety.details)) := by
  cases type
  rfl

theorem SimpleType.mem_details (type : SimpleType) : .simple type ∈ type.details := by
  rw [type.details_eq]
  exact List.mem_cons_self

theorem SimpleType.base_subset {type : SimpleType} {base : TypeRef} (h : type.base = some base) :
    base.details ⊆ type.details := by
  rw [type.details_eq, h, detailsOfBase]
  exact fun _ hd => List.mem_cons_of_mem _
    (List.mem_append_right _ (List.mem_append_left _ hd))

theorem SimpleType.variety_subset (type : SimpleType) : type.variety.details ⊆ type.details := by
  rw [type.details_eq]
  exact fun _ hd => List.mem_cons_of_mem _
    (List.mem_append_right _ (List.mem_append_right _ hd))

theorem ComplexType.details_eq (type : ComplexType) :
    type.details = nameDetails type.name ++ (baseDetails type.derivation
      ++ (type.content.details ++ detailsOfItems type.attributes)) := by
  cases type
  rfl

theorem ComplexType.base_mem {type : ComplexType} {derivation : Derivation}
    (h : type.derivation = some derivation) :
    .refers ⟨.type, derivation.base⟩ ∈ type.details := by
  rw [type.details_eq, h]
  exact List.mem_append_right _ (List.mem_append_left _ List.mem_cons_self)

theorem ComplexType.content_subset (type : ComplexType) :
    type.content.details ⊆ type.details := by
  rw [type.details_eq]
  exact fun _ hd => List.mem_append_right _
    (List.mem_append_right _ (List.mem_append_left _ hd))

theorem ComplexType.attributes_subset (type : ComplexType) :
    detailsOfItems type.attributes ⊆ type.details := by
  rw [type.details_eq]
  exact fun _ hd => List.mem_append_right _
    (List.mem_append_right _ (List.mem_append_right _ hd))

theorem Content.details_of_particle {content : Content} {particle : Particle}
    (h : content.particle = some particle) : content.details = particle.details := by
  cases content <;> cases h <;> rfl

theorem AttributeUse.details_eq (use : AttributeUse) : use.details = use.target.details := by
  cases use
  rfl

theorem AttributeDecl.details_eq (decl : AttributeDecl) :
    decl.details = .declares decl.name :: decl.type.details := by
  cases decl
  rfl

theorem AttributeDecl.type_subset (decl : AttributeDecl) : decl.type.details ⊆ decl.details := by
  rw [decl.details_eq]
  exact List.subset_cons_self _ _

theorem ElementDecl.details_eq (decl : ElementDecl) :
    decl.details = .declares decl.name :: (headDetails decl.head ++ decl.type.details) := by
  cases decl
  rfl

theorem ElementDecl.type_subset (decl : ElementDecl) : decl.type.details ⊆ decl.details := by
  rw [decl.details_eq]
  exact fun _ hd => List.mem_cons_of_mem _ (List.mem_append_right _ hd)

theorem Particle.details_eq (p : Particle) : p.details = .occurs p.occurs :: p.term.details := by
  cases p
  rfl

theorem ModelGroup.details_eq (group : ModelGroup) :
    group.details = group.particles.flatMap Particle.details := by
  cases group
  exact detailsOfAll_eq _

theorem AttributeGroup.items_subset (group : AttributeGroup) :
    detailsOfItems group.items ⊆ group.details :=
  List.subset_append_right _ _

/-! ## Simple types among details -/

/-- With every simple type that is among these details, its own details are among them. -/
def Details.AreClosed (details : List Detail) : Prop :=
  ∀ type, .simple type ∈ details → type.details ⊆ details

namespace Details.AreClosed

variable {details others : List Detail}

theorem nil : AreClosed [] := fun _ h => absurd h List.not_mem_nil

theorem append (h : AreClosed details) (h' : AreClosed others) : AreClosed (details ++ others) := by
  intro type htype
  rcases List.mem_append.mp htype with htype | htype
  · exact fun _ hd => List.mem_append_left _ (h type htype hd)
  · exact fun _ hd => List.mem_append_right _ (h' type htype hd)

/-- A detail that is no simple type brings nothing along. -/
theorem cons {detail : Detail} (hne : ∀ type, detail ≠ .simple type) (h : AreClosed details) :
    AreClosed (detail :: details) := by
  intro type htype
  rcases List.mem_cons.mp htype with heq | htype
  · exact absurd heq.symm (hne type)
  · exact fun _ hd => List.mem_cons_of_mem _ (h type htype hd)

theorem map {α : Type} {f : α → Detail} (hne : ∀ a type, f a ≠ .simple type) (l : List α) :
    AreClosed (l.map f) := by
  induction l with
  | nil => exact nil
  | cons a rest ih => exact cons (hne a) ih

theorem flatMap {α : Type} {f : α → List Detail} {l : List α} (h : ∀ a ∈ l, AreClosed (f a)) :
    AreClosed (l.flatMap f) := by
  induction l with
  | nil => exact nil
  | cons a rest ih =>
    obtain ⟨hfirst, hrest⟩ := List.forall_mem_cons.mp h
    rw [List.flatMap_cons]
    exact hfirst.append (ih hrest)

theorem nameDetails (name : Option QName) : AreClosed (nameDetails name) :=
  map (f := .declares) (fun _ => nofun) _

theorem headDetails (head : Option QName) : AreClosed (headDetails head) :=
  map (f := fun head => .refers ⟨.element, head⟩) (fun _ => nofun) _

theorem baseDetails (derivation : Option Derivation) : AreClosed (baseDetails derivation) :=
  map (f := fun derivation : Derivation => .refers ⟨.type, derivation.base⟩) (fun _ => nofun) _

end Details.AreClosed

open Details (AreClosed)

mutual

theorem TypeRef.areClosed_details : ∀ type : TypeRef, AreClosed type.details
  | .named _ => .cons nofun .nil
  | .anonymous definition => definition.areClosed_details

theorem TypeDef.areClosed_details : ∀ definition : TypeDef, AreClosed definition.details
  | .simple type => type.areClosed_details
  | .complex type => type.areClosed_details

theorem SimpleType.areClosed_details : ∀ type : SimpleType, AreClosed type.details
  | ⟨name, base, variety, facets⟩ => by
    have hparts : AreClosed (nameDetails name ++ (detailsOfBase base ++ variety.details)) :=
      (AreClosed.nameDetails name).append
        ((areClosed_detailsOfBase base).append variety.areClosed_details)
    intro type htype
    rcases List.mem_cons.mp htype with heq | htype
    · obtain rfl := Detail.simple.inj heq
      exact List.Subset.refl _
    · exact fun _ hd => List.mem_cons_of_mem _ (hparts type htype hd)

theorem areClosed_detailsOfBase : ∀ base : Option TypeRef, AreClosed (detailsOfBase base)
  | none => .nil
  | some type => type.areClosed_details

theorem Variety.areClosed_details : ∀ variety : Variety, AreClosed variety.details
  | .atomic => .nil
  | .list item => item.areClosed_details
  | .union members => areClosed_detailsOfTypes members

theorem areClosed_detailsOfTypes : ∀ types : List TypeRef, AreClosed (detailsOfTypes types)
  | [] => .nil
  | type :: rest => type.areClosed_details.append (areClosed_detailsOfTypes rest)

theorem ComplexType.areClosed_details : ∀ type : ComplexType, AreClosed type.details
  | ⟨name, _, content, attributes, _, derivation⟩ =>
    (AreClosed.nameDetails name).append ((AreClosed.baseDetails derivation).append
      (content.areClosed_details.append (areClosed_detailsOfItems attributes)))

theorem Content.areClosed_details : ∀ content : Content, AreClosed content.details
  | .empty => .nil
  | .simple type => type.areClosed_details
  | .elements particle => particle.areClosed_details
  | .mixed particle => particle.areClosed_details

theorem areClosed_detailsOfItems : ∀ items : List AttributeItem, AreClosed (detailsOfItems items)
  | [] => .nil
  | item :: rest => item.areClosed_details.append (areClosed_detailsOfItems rest)

theorem AttributeItem.areClosed_details : ∀ item : AttributeItem, AreClosed item.details
  | .use use => use.areClosed_details
  | .group _ => .cons nofun .nil

theorem AttributeUse.areClosed_details : ∀ use : AttributeUse, AreClosed use.details
  | ⟨_, _, target⟩ => target.areClosed_details

theorem AttributeTarget.areClosed_details : ∀ target : AttributeTarget, AreClosed target.details
  | .global _ => .cons nofun .nil
  | .inline decl => decl.areClosed_details

theorem AttributeDecl.areClosed_details : ∀ decl : AttributeDecl, AreClosed decl.details
  | ⟨_, type, _⟩ => .cons nofun type.areClosed_details

theorem ElementDecl.areClosed_details : ∀ decl : ElementDecl, AreClosed decl.details
  | ⟨_, _, type, _, _, head⟩ =>
    .cons nofun ((AreClosed.headDetails head).append type.areClosed_details)

theorem Particle.areClosed_details : ∀ p : Particle, AreClosed p.details
  | ⟨_, term⟩ => .cons nofun term.areClosed_details

theorem Term.areClosed_details : ∀ term : Term, AreClosed term.details
  | .elementRef _ => .cons nofun .nil
  | .element decl => decl.areClosed_details
  | .group group => group.areClosed_details
  | .groupRef _ => .cons nofun .nil
  | .any _ => .nil

theorem ModelGroup.areClosed_details : ∀ group : ModelGroup, AreClosed group.details
  | ⟨_, particles⟩ => areClosed_detailsOfAll particles

theorem areClosed_detailsOfAll : ∀ particles : List Particle, AreClosed (detailsOfAll particles)
  | [] => .nil
  | particle :: rest => particle.areClosed_details.append (areClosed_detailsOfAll rest)

end

/-- **A simple type anywhere in a schema brings all its own details along.** -/
theorem Model.areClosed_details (m : Model) : AreClosed m.details :=
  .append (.flatMap fun decl _ => decl.areClosed_details)
    (.append (.flatMap fun definition _ => definition.areClosed_details)
      (.append (.flatMap fun decl _ => decl.areClosed_details)
        (.append (.flatMap fun group _ => group.areClosed_details)
          (.flatMap fun group _ => (AreClosed.nameDetails group.name).append
            (areClosed_detailsOfItems group.items)))))

/-! ## Details of a schema -/

namespace Model

variable {m : Model}

theorem details_of_element {decl : ElementDecl} (h : decl ∈ m.elements.values) :
    decl.details ⊆ m.details :=
  fun _ hd => List.mem_append_left _ (List.mem_flatMap.mpr ⟨decl, h, hd⟩)

theorem details_of_type {definition : TypeDef} (h : definition ∈ m.types.values) :
    definition.details ⊆ m.details :=
  fun _ hd => List.mem_append_right _
    (List.mem_append_left _ (List.mem_flatMap.mpr ⟨definition, h, hd⟩))

theorem details_of_attr {decl : AttributeDecl} (h : decl ∈ m.attributes.values) :
    decl.details ⊆ m.details :=
  fun _ hd => List.mem_append_right _ (List.mem_append_right _
    (List.mem_append_left _ (List.mem_flatMap.mpr ⟨decl, h, hd⟩)))

theorem details_of_group {group : ModelGroup} (h : group ∈ m.groups.values) :
    group.details ⊆ m.details :=
  fun _ hd => List.mem_append_right _ (List.mem_append_right _ (List.mem_append_right _
    (List.mem_append_left _ (List.mem_flatMap.mpr ⟨group, h, hd⟩))))

theorem details_of_attributeGroup {group : AttributeGroup} (h : group ∈ m.attributeGroups.values) :
    group.details ⊆ m.details :=
  fun _ hd => List.mem_append_right _ (List.mem_append_right _ (List.mem_append_right _
    (List.mem_append_right _ (List.mem_flatMap.mpr ⟨group, h, hd⟩))))

end Model

end Specimen

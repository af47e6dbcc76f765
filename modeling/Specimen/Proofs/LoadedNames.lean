import Specimen.Proofs.AttributeNames
import Specimen.Proofs.Loaded

/-!
# Names of attributes in schemas that are loaded

A document leaves the target namespace out, or spells the lack of one as an empty URI. Both are
read as the same name, wherever an attribute is declared: globally, in a type at any depth, or in an
attribute group. So no name of an attribute in a schema that is loaded has an empty URI.

Registering a component numbers what is declared in it, and changes no names.
-/

namespace Specimen

/-! ## Attributes that are declared in place -/

/-- None of these names spells "no namespace" as an empty URI. -/
def AreProper (names : List QName) : Prop := ∀ name ∈ names, name.IsProper

theorem AreProper.nil : AreProper [] := fun _ h => absurd h List.not_mem_nil

theorem areProper_append {names others : List QName} :
    AreProper (names ++ others) ↔ AreProper names ∧ AreProper others :=
  List.forall_mem_append

theorem AreProper.append {names others : List QName} (h : AreProper names)
    (h' : AreProper others) : AreProper (names ++ others) :=
  areProper_append.mpr ⟨h, h'⟩

/-- The names of the attributes that are declared in place in an attribute list. -/
def localNames (items : List AttributeItem) : List QName :=
  (items.filterMap AttributeItem.decl?).map AttributeDecl.name

theorem localNames_append (items others : List AttributeItem) :
    localNames (items ++ others) = localNames items ++ localNames others := by
  rw [localNames, List.filterMap_append, List.map_append, localNames, localNames]

theorem localNames_cons (item : AttributeItem) (rest : List AttributeItem) :
    localNames (item :: rest) = localNames [item] ++ localNames rest :=
  localNames_append [item] rest

theorem localNames_flatMap {α : Type} (f : α → List AttributeItem) (l : List α) :
    localNames (l.flatMap f) = l.flatMap fun a => localNames (f a) := by
  rw [localNames, List.filterMap_flatMap, List.map_flatMap]
  rfl

/-- The names of the attributes that are declared in place in the types among some parts. -/
def localNamesOf (parts : List Part) : List QName :=
  parts.flatMap fun part => localNames part.attributes

theorem localNamesOf_append (parts others : List Part) :
    localNamesOf (parts ++ others) = localNamesOf parts ++ localNamesOf others :=
  List.flatMap_append

theorem AreProper.subset {parts others : List Part} (h : AreProper (localNamesOf others))
    (hs : parts ⊆ others) : AreProper (localNamesOf parts) := fun name hname => by
  obtain ⟨part, hpart, hname⟩ := List.mem_flatMap.mp hname
  exact h name (List.mem_flatMap.mpr ⟨part, hs hpart, hname⟩)

/-- A type declares what its attribute list and its content declare, whatever its name is. -/
theorem ComplexType.localNamesOf_parts (type : ComplexType) :
    localNamesOf type.parts = localNames type.attributes ++ localNamesOf type.content.parts := by
  cases type
  rfl

/-- A declaration declares the attributes of its type. -/
theorem ElementDecl.localNamesOf_parts (decl : ElementDecl) :
    localNamesOf decl.parts = localNamesOf decl.type.parts := by
  cases decl
  rfl

theorem AreProper.cons {p : Particle} {rest : List Particle} (h : AreProper (localNamesOf p.parts))
    (hrest : AreProper (localNamesOf (partsOfAll rest))) :
    AreProper (localNamesOf (partsOfAll (p :: rest))) := by
  rw [partsOfAll, localNamesOf_append]
  exact h.append hrest

/-! ## Numbering -/

theorem AttributeItem.localNames_numberFrom (item : AttributeItem) (n : Nat) :
    localNames [(item.numberFrom n).1] = localNames [item] := by
  rcases item with ⟨_, _, _ | ⟨_, _, _⟩⟩ | _ <;> rfl

theorem AttributeDecl.name_numberFrom (decl : AttributeDecl) (n : Nat) :
    (decl.numberFrom n).1.name = decl.name := by
  cases decl
  rfl

theorem localNames_numberItems (items : List AttributeItem) (n : Nat) :
    localNames (numberItems items n).1 = localNames items := by
  induction items generalizing n with
  | nil => rfl
  | cons item rest ih =>
    rw [numberItems, localNames_cons, localNames_cons item, item.localNames_numberFrom n,
      ih (item.numberFrom n).2]

mutual

theorem TypeRef.localNamesOf_numberFrom : ∀ (type : TypeRef) (n : Nat),
    localNamesOf (type.numberFrom n).1.parts = localNamesOf type.parts
  | .named _, _ => rfl
  | .anonymous definition, n => definition.localNamesOf_numberFrom n

/-- Numbering changes no name of an attribute. -/
theorem TypeDef.localNamesOf_numberFrom : ∀ (definition : TypeDef) (n : Nat),
    localNamesOf (definition.numberFrom n).1.parts = localNamesOf definition.parts
  | .simple _, _ => rfl
  | .complex type, n => type.localNamesOf_numberFrom n

theorem ComplexType.localNamesOf_numberFrom : ∀ (type : ComplexType) (n : Nat),
    localNamesOf (type.numberFrom n).1.parts = localNamesOf type.parts
  | ⟨_, _, content, attributes, _, _⟩, n =>
    congrArg₂ (· ++ ·) (localNames_numberItems attributes (content.numberFrom n).2)
      (content.localNamesOf_numberFrom n)

theorem Content.localNamesOf_numberFrom : ∀ (content : Content) (n : Nat),
    localNamesOf (content.numberFrom n).1.parts = localNamesOf content.parts
  | .empty, _ => rfl
  | .simple _, _ => rfl
  | .elements particle, n => particle.localNamesOf_numberFrom n
  | .mixed particle, n => particle.localNamesOf_numberFrom n

theorem ElementDecl.localNamesOf_numberFrom : ∀ (decl : ElementDecl) (n : Nat),
    localNamesOf (decl.numberFrom n).1.parts = localNamesOf decl.parts
  | ⟨_, _, type, _, _, _⟩, n => type.localNamesOf_numberFrom (n + 1)

theorem Particle.localNamesOf_numberFrom : ∀ (p : Particle) (n : Nat),
    localNamesOf (p.numberFrom n).1.parts = localNamesOf p.parts
  | ⟨_, .any _⟩, _ => rfl
  | ⟨_, .elementRef _⟩, _ => rfl
  | ⟨_, .groupRef _⟩, _ => rfl
  | ⟨_, .element decl⟩, n => decl.localNamesOf_numberFrom (n + 1)
  | ⟨_, .group group⟩, n => group.localNamesOf_numberFrom (n + 1)

theorem ModelGroup.localNamesOf_numberFrom : ∀ (group : ModelGroup) (n : Nat),
    localNamesOf (group.numberFrom n).1.parts = localNamesOf group.parts
  | ⟨_, particles⟩, n => localNamesOf_numberParticles particles n

theorem localNamesOf_numberParticles : ∀ (particles : List Particle) (n : Nat),
    localNamesOf (partsOfAll (numberParticles particles n).1) = localNamesOf (partsOfAll particles)
  | [], _ => rfl
  | p :: rest, n => by
    rw [numberParticles, partsOfAll, partsOfAll, localNamesOf_append, localNamesOf_append,
      p.localNamesOf_numberFrom n, localNamesOf_numberParticles rest (p.numberFrom n).2]

end

/-! ## Reading

The recursion is that of the readers. Simple types declare no attributes, so it passes them by.
-/

section

open DocumentSetting

variable (s : DocumentSetting)

theorem DocumentSetting.isProper_localName (form : Form) (name : String) :
    (s.localName form name).IsProper := by
  cases form with
  | qualified => exact QName.isProper_make s.target name
  | unqualified => exact nofun

/-- An attribute that is used has a proper name, if it is declared in place. -/
theorem gives_readUse (node : SchemaNode) :
    Gives (readUse s node) fun use => AreProper (localNames [.use use]) := by
  obtain ⟨tag, children⟩ := node
  rw [readUse]
  refine .bind_of_forall fun mode => .bind_of_forall fun constraint => ?_
  split
  · exact .bind_of_forall fun name => .ok .nil
  · refine .bind_of_forall fun name => .bind_of_forall fun type => .ok fun declared h => ?_
    obtain rfl := List.mem_singleton.mp h
    exact s.isProper_localName _ name

theorem gives_readAttributes (nodes : List SchemaNode) :
    Gives (readAttributes s nodes) fun attributes => AreProper (localNames attributes.1) := by
  induction nodes with
  | nil => exact .ok .nil
  | cons node rest ih =>
    rw [readAttributes]
    split
    · refine (gives_readUse s node).bind fun use huse => ih.bind fun attributes h => ?_
      obtain ⟨items, wildcard⟩ := attributes
      refine .ok ?_
      rw [localNames_cons]
      exact huse.append h
    · split
      · exact .bind_of_forall fun name => ih.bind fun attributes h => .ok h
      · split
        · exact .bind_of_forall fun own => ih.bind fun attributes h => .ok h
        · exact ih

/-- The attributes and the content that a type is read with declare attributes properly. -/
def DocumentSetting.Body.IsProper (body : DocumentSetting.Body) : Prop :=
  AreProper (localNames body.attributes.1) ∧ AreProper (localNamesOf body.content.parts)

theorem DocumentSetting.Body.IsProper.type {body : DocumentSetting.Body} (h : body.IsProper)
    (tag : SchemaTag) : AreProper (localNamesOf (body.type tag).parts) :=
  h.1.append h.2

theorem DocumentSetting.gives_body {isMixed : Bool} {derivation : Option Derivation}
    {groups : Except Error (List Particle)} {attributes : Except Error Attributes}
    (hg : Gives groups fun particles => AreProper (localNamesOf (partsOfAll particles)))
    (ha : Gives attributes fun attributes => AreProper (localNames attributes.1)) :
    Gives (body isMixed derivation groups attributes) Body.IsProper := by
  unfold body
  refine hg.bind fun particles hparticles => ha.bind fun attributes hattributes => .ok ?_
  refine ⟨hattributes, ?_⟩
  cases hlast : particles.getLast? with
  | none => exact .nil
  | some particle =>
    have hproper : AreProper (localNamesOf particle.parts) :=
      hparticles.subset (parts_subset_partsOfAll (List.mem_of_getLast? hlast))
    cases isMixed <;> exact hproper

theorem DocumentSetting.gives_simpleBody {derivation : Derivation} {children : List SchemaNode}
    {inline : Except Error (Option TypeRef)} {attributes : Except Error Attributes}
    (ha : Gives attributes fun attributes => AreProper (localNames attributes.1)) :
    Gives (s.simpleBody derivation children inline attributes) Body.IsProper := by
  unfold simpleBody
  refine ha.bind fun attributes hattributes => ?_
  split
  · exact .ok ⟨hattributes, .nil⟩
  · exact .bind_of_forall fun base => .bind_of_forall fun type => .ok ⟨hattributes, .nil⟩

theorem gives_readSimpleContent (owner : SchemaTag) (nodes : List SchemaNode) :
    Gives (readSimpleContent s owner nodes) Body.IsProper := by
  induction nodes with
  | nil => exact .error _
  | cons node rest ih =>
    obtain ⟨tag, children⟩ := node
    rw [readSimpleContent]
    split
    · exact ih
    · exact .bind_of_forall fun base => s.gives_simpleBody (gives_readAttributes s children)

theorem DocumentSetting.gives_typeOr {tag : SchemaTag} {name : String}
    {inline : Except Error (Option TypeRef)}
    (h : Gives inline fun type => AreProper (localNamesOf (type.getD .anyType).parts)) :
    Gives (s.typeOr tag name inline) fun type =>
      AreProper (localNamesOf (type.getD .anyType).parts) := by
  unfold typeOr
  split
  · exact .bind_of_forall fun name => .ok .nil
  · exact h

mutual

theorem gives_readComplexType : ∀ node : SchemaNode,
    Gives (readComplexType s node) fun type => AreProper (localNamesOf type.parts)
  | ⟨tag, children⟩ => by
    rw [readComplexType]
    refine (gives_readDerived _ children).bind fun derived hderived => ?_
    cases derived with
    | some body => exact .ok ((hderived body rfl).type tag)
    | none =>
      exact (gives_body (gives_readGroups children) (gives_readAttributes s children)).bind
        fun body hbody => .ok (hbody.type tag)

theorem gives_readDerived (isMixed : Bool) : ∀ nodes : List SchemaNode,
    Gives (readDerived s isMixed nodes) fun derived => ∀ body, derived = some body → body.IsProper
  | [] => .ok nofun
  | ⟨tag, children⟩ :: rest => by
    rw [readDerived]
    split
    · exact (gives_readSimpleContent s tag children).map fun body h _ heq => Option.some.inj heq ▸ h
    · split
      · exact (gives_readComplexContent tag _ children).map
          fun body h _ heq => Option.some.inj heq ▸ h
      · exact gives_readDerived isMixed rest

theorem gives_readComplexContent (owner : SchemaTag) (isMixed : Bool) : ∀ nodes : List SchemaNode,
    Gives (readComplexContent s owner isMixed nodes) Body.IsProper
  | [] => .error _
  | ⟨tag, children⟩ :: rest => by
    rw [readComplexContent]
    split
    · exact gives_readComplexContent owner isMixed rest
    · exact .bind_of_forall fun base =>
        gives_body (gives_readGroups children) (gives_readAttributes s children)

theorem gives_readGroups : ∀ nodes : List SchemaNode,
    Gives (readGroups s nodes) fun particles => AreProper (localNamesOf (partsOfAll particles))
  | [] => .ok .nil
  | node :: rest => by
    rw [readGroups]
    split
    · exact (gives_readGroup node).bind fun particle h => (gives_readGroups rest).bind
        fun particles hrest => .ok (h.cons hrest)
    · exact gives_readGroups rest

theorem gives_readGroup : ∀ node : SchemaNode,
    Gives (readGroup s node) fun particle => AreProper (localNamesOf particle.parts)
  | ⟨tag, children⟩ => by
    rw [readGroup]
    refine .bind_of_forall fun occurs => ?_
    split
    · exact (gives_readParticles children).bind fun particles h => .ok h
    · exact .bind_of_forall fun name => .ok .nil

theorem gives_readParticles : ∀ nodes : List SchemaNode,
    Gives (readParticles s nodes) fun particles => AreProper (localNamesOf (partsOfAll particles))
  | [] => .ok .nil
  | node :: rest => by
    rw [readParticles]
    split
    · exact (gives_readElement node).bind fun particle h => (gives_readParticles rest).bind
        fun particles hrest => .ok (h.cons hrest)
    · split
      · exact .bind_of_forall fun occurs => .bind_of_forall fun wildcard =>
          (gives_readParticles rest).bind fun particles h => .ok h
      · split
        · exact (gives_readGroup node).bind fun particle h => (gives_readParticles rest).bind
            fun particles hrest => .ok (h.cons hrest)
        · exact gives_readParticles rest

theorem gives_readElement : ∀ node : SchemaNode,
    Gives (readElement s node) fun particle => AreProper (localNamesOf particle.parts)
  | ⟨tag, children⟩ => by
    rw [readElement]
    refine .bind_of_forall fun occurs => ?_
    split
    · exact .bind_of_forall fun name => .ok .nil
    · exact .bind_of_forall fun name =>
        (s.gives_typeOr (gives_readElementType children)).bind fun type h => .ok h

theorem gives_readElementType : ∀ nodes : List SchemaNode,
    Gives (readElementType s nodes) fun type =>
      AreProper (localNamesOf (type.getD .anyType).parts)
  | [] => .ok .nil
  | node :: rest => by
    rw [readElementType]
    split
    · exact (gives_readComplexType node).bind fun type h => .ok h
    · split
      · exact .bind_of_forall fun type => .ok .nil
      · exact gives_readElementType rest

end

end

/-- What a declaration declares has proper names. -/
def Declaration.IsProper : Declaration → Prop
  | .element decl _ => AreProper (localNamesOf decl.parts)
  | .type _ definition => AreProper (localNamesOf definition.parts)
  | .attr decl => decl.name.IsProper
  | .attributeGroup _ declared => AreProper (localNames declared.items)
  | .group _ declared => AreProper (localNamesOf declared.parts)

theorem gives_readGroupDefinition (s : DocumentSetting) (node : SchemaNode) :
    Gives (readGroupDefinition s node) fun group => AreProper (localNamesOf group.parts) := by
  unfold readGroupDefinition
  split
  · exact (gives_readParticles s _).bind fun particles h => .ok h
  · exact .ok .nil

/-- **What is read as a declaration declares attributes under proper names.** -/
theorem gives_readDeclaration_isProper (s : DocumentSetting) (node : SchemaNode) :
    Gives (readDeclaration s node) fun read => ∀ declaration, read = some declaration →
      declaration.IsProper := by
  unfold readDeclaration
  split
  · refine Gives.bind (P := Declaration.IsProper) ?_ fun declaration h => .ok fun _ heq =>
      Option.some.inj heq ▸ h
    unfold readGlobalElement
    exact .bind_of_forall fun name => .bind_of_forall fun head =>
      (s.gives_typeOr (gives_readElementType s _)).bind fun type h => .ok h
  · refine .bind_of_forall fun name => (gives_readComplexType s node).bind fun type h => .ok ?_
    rintro declaration heq
    rw [type.localNamesOf_parts] at h
    exact Option.some.inj heq ▸ h
  · exact .bind_of_forall fun name => .bind_of_forall fun type => .ok fun | _, rfl => .nil
  · refine Gives.bind (P := Declaration.IsProper) ?_ fun declaration h => .ok fun _ heq =>
      Option.some.inj heq ▸ h
    unfold readGlobalAttribute
    exact .bind_of_forall fun name => .bind_of_forall fun type => .bind_of_forall fun constraint =>
      .ok (QName.isProper_make s.target name)
  · exact .bind_of_forall fun name => (gives_readAttributes s _).bind fun attributes h => .ok
      fun | _, rfl => h
  · refine .bind_of_forall fun name => ?_
    exact (gives_readGroupDefinition s node).bind fun group h => .ok fun | _, rfl => h
  · exact .ok nofun

/-! ## Schemas -/

namespace Model

variable {m m' : Model}

/-- The names of attributes are those of the global ones, of those declared in types, and of those
declared in attribute groups. -/
theorem hasProperNames_iff :
    m.HasProperNames ↔ (∀ decl ∈ m.attributes.values, decl.name.IsProper)
      ∧ AreProper (localNamesOf m.parts)
      ∧ ∀ group ∈ m.attributeGroups.values, AreProper (localNames group.items) := by
  have hlocal : AreProper (localNames m.attributeItems) ↔ AreProper (localNamesOf m.parts)
      ∧ ∀ group ∈ m.attributeGroups.values, AreProper (localNames group.items) := by
    rw [attributeItems, localNames_append, localNames_flatMap, localNames_flatMap,
      areProper_append]
    exact and_congr_right fun _ => List.forall_mem_flatMap
  rw [← hlocal]
  constructor
  · intro h
    refine ⟨fun decl hdecl => h decl (List.mem_append_left _ hdecl), fun name hname => ?_⟩
    obtain ⟨decl, hdecl, rfl⟩ := List.mem_map.mp hname
    exact h decl (List.mem_append_right _ hdecl)
  · rintro ⟨hglobal, hlocal⟩ decl hdecl
    rcases List.mem_append.mp hdecl with hdecl | hdecl
    · exact hglobal decl hdecl
    · exact hlocal _ (List.mem_map_of_mem hdecl)

/-- What a schema has is kept by parts that are declared under proper names. -/
theorem HasProperNames.parts (h : m.HasProperNames) {l : List Part}
    (hp : AreProper (localNamesOf l)) (hs : m'.parts ⊆ m.parts ++ l)
    (ha : m'.attributes = m.attributes) (hg : m'.attributeGroups = m.attributeGroups) :
    m'.HasProperNames := by
  obtain ⟨hglobal, hlocal, hgroups⟩ := hasProperNames_iff.mp h
  refine hasProperNames_iff.mpr ⟨ha ▸ hglobal, AreProper.subset ?_ hs, hg ▸ hgroups⟩
  rw [localNamesOf_append]
  exact hlocal.append hp

end Model

/-- **In a schema that is loaded, no name of an attribute spells "no namespace" as an empty URI.** -/
theorem Loading.isKept_hasProperNames : IsKept Model.HasProperNames where
  builtin := by decide +kernel
  target h _ := h
  register {l s node declaration} hread h := by
    have hproper := gives_readDeclaration_isProper s node _ hread declaration rfl
    cases declaration with
    | element decl inheritsType =>
      rw [Declaration.IsProper, ← decl.localNamesOf_numberFrom l.model.next] at hproper
      exact h.parts hproper
        (Model.parts_subset_of_elements (Table.values_insert_subset _ _ _) rfl rfl) rfl rfl
    | type name definition =>
      rw [Declaration.IsProper, ← definition.localNamesOf_numberFrom l.model.next] at hproper
      exact h.parts hproper
        (Model.parts_subset_of_types rfl (Table.values_insert_subset _ _ _) rfl) rfl rfl
    | group name group =>
      rw [Declaration.IsProper, ← group.localNamesOf_numberFrom l.model.next] at hproper
      exact h.parts hproper
        (Model.parts_subset_of_groups rfl rfl (Table.values_insert_subset _ _ _)) rfl rfl
    | attr decl =>
      obtain ⟨hglobal, hlocal, hgroups⟩ := Model.hasProperNames_iff.mp h
      refine Model.hasProperNames_iff.mpr ⟨fun registered hmem => ?_, hlocal, hgroups⟩
      rcases List.mem_cons.mp (Table.values_insert_subset _ _ _ hmem) with rfl | hmem
      · rwa [decl.name_numberFrom]
      · exact hglobal registered hmem
    | attributeGroup name group =>
      obtain ⟨hglobal, hlocal, hgroups⟩ := Model.hasProperNames_iff.mp h
      refine Model.hasProperNames_iff.mpr ⟨hglobal, hlocal, fun registered hmem => ?_⟩
      rcases List.mem_cons.mp (Table.values_insert_subset _ _ _ hmem) with rfl | hmem
      · rw [Declaration.IsProper, ← localNames_numberItems _ l.model.next] at hproper
        exact hproper
      · exact hgroups registered hmem
  inheritType {m} h untyped name := by
    unfold inheritType
    split
    · exact h
    · split
      · exact h
      · rename_i decl hdecl _ type htype
        obtain ⟨other, hother, rfl⟩ := mem_of_headType htype
        refine h.parts (l := ElementDecl.parts { decl with type := other.type }) ?_
          (Model.parts_subset_of_elements (Table.values_insert_subset _ _ _) rfl rfl) rfl rfl
        rw [ElementDecl.localNamesOf_parts]
        exact (Model.hasProperNames_iff.mp h).2.1.subset
          (List.Subset.trans other.parts_type_subset (Model.parts_element_subset hother))

end Specimen

import Specimen.Proofs.Soundness

/-!
# Reading sound components

What is read from a schema document is sound in every detail. Bounds out of order, a union without
members and a type without a base are reported instead, and a name that is looked up or declared is
put together so that an empty URI stands for no namespace.

The recursion follows the readers, as in `Specimen.Proofs.LoadedNames`.
-/

namespace Specimen

open Details

theorem Gives.mapError {α : Type} {answer : Except Error α} {P : α → Prop} (h : Gives answer P)
    (f : Error → Error) : Gives (answer.mapError f) P := by
  cases answer with
  | error e => exact .error _
  | ok a => exact .ok (h a rfl)

theorem Occurs.gives_read (minText maxText : Option String) :
    Gives (read minText maxText) InOrder := by
  have hmax (min : Nat) : Gives (readMax min maxText)
      fun max => ∀ bound, max = some bound → min ≤ bound := by
    unfold readMax
    split
    · split
      · exact .error _
      · next h => exact .ok fun bound hbound => Option.some.inj hbound ▸ Nat.le_of_not_lt h
    · simp only
      split
      · exact .ok nofun
      · split
        · exact .error _
        · split
          · exact .error _
          · next h => exact .ok fun bound hbound => Option.some.inj hbound ▸ Nat.le_of_not_lt h
  unfold read
  exact .bind_of_forall fun min => (hmax min).bind fun max h => .ok h

/-! ## Names and bounds in documents -/

namespace DocumentSetting

variable (s : DocumentSetting) (tag : SchemaTag)

theorem gives_resolve (value : String) : Gives (s.resolve tag value) QName.IsProper := by
  unfold resolve fail
  simp only
  split
  · exact .error _
  · split
    · exact .ok (QName.isProper_make _ _)
    · exact .ok nofun
  · exact .ok (QName.isProper_make _ _)

theorem gives_reference (name : String) : Gives (s.reference tag name) QName.IsProper :=
  .bind_of_forall fun value => s.gives_resolve tag value

theorem gives_occurs : Gives (s.occurs tag) Occurs.InOrder :=
  (Occurs.gives_read _ _).mapError _

end DocumentSetting

/-! ## Simple types -/

theorem TypeRef.uphold_named {name : QName} (h : name.IsProper) :
    Uphold Detail.IsSound (named name).details :=
  Uphold.cons.mpr ⟨h, .nil⟩

theorem QName.isProper_xsd (localName : String) : (QName.xsd localName).IsProper :=
  fun h => absurd (Option.some.inj h) (by decide)

theorem TypeRef.uphold_builtin (localName : String) :
    Uphold Detail.IsSound (builtin localName).details :=
  uphold_named (QName.isProper_xsd localName)

/-- A type that is declared or, if there is none, another one. -/
theorem TypeRef.uphold_getD {type : Option TypeRef} {other : TypeRef}
    (h : ∀ ref, type = some ref → Uphold Detail.IsSound ref.details)
    (hother : Uphold Detail.IsSound other.details) :
    Uphold Detail.IsSound (type.getD other).details := by
  cases type with
  | none => exact hother
  | some ref => exact h ref rfl

theorem uphold_declares {name : QName} {details : List Detail} (hname : name.IsProper)
    (h : Uphold Detail.IsSound details) : Uphold Detail.IsSound (.declares name :: details) :=
  Uphold.cons.mpr ⟨hname, h⟩

namespace SimpleType

/-- A simple type that has a base and is sound in every detail. -/
structure IsDerived (type : SimpleType) : Prop where
  base : type.base.isSome
  sound : Uphold Detail.IsSound type.details

variable {type : SimpleType}

theorem uphold_details_iff : Uphold Detail.IsSound type.details ↔ type.IsSound
    ∧ Uphold Detail.IsSound (nameDetails type.name)
    ∧ Uphold Detail.IsSound (detailsOfBase type.base)
    ∧ Uphold Detail.IsSound type.variety.details := by
  rw [type.details_eq, Uphold.cons, Uphold.append, Uphold.append]
  exact Iff.rfl

/-- A type that is read takes its base, and the types of its items or members, from the document. -/
theorem isDerived_of_base {base : TypeRef} {variety : Variety}
    (hbase : Uphold Detail.IsSound base.details) (hmembers : variety ≠ .union [])
    (hvariety : Uphold Detail.IsSound variety.details) :
    IsDerived ⟨none, some base, variety, .empty⟩ :=
  ⟨rfl, uphold_details_iff.mpr
    ⟨⟨hmembers, FacetSet.isSound_empty, nofun⟩, .nil, hbase, hvariety⟩⟩

theorem isDerived_restriction {base : TypeRef} (hbase : Uphold Detail.IsSound base.details) :
    (restriction base).IsDerived :=
  isDerived_of_base hbase nofun .nil

theorem IsDerived.withFacet (h : type.IsDerived) {facet : Facet} (hf : facet.IsProper) :
    (type.withFacet facet).IsDerived := by
  obtain ⟨hsound, hname, hbase, hvariety⟩ := uphold_details_iff.mp h.sound
  have hnone : (type.withFacet facet).base ≠ none := Option.isSome_iff_ne_none.mp h.base
  exact ⟨h.base, uphold_details_iff.mpr ⟨⟨hsound.members, hsound.facets.push hf,
    fun heq => absurd heq hnone⟩, hname, hbase, hvariety⟩⟩

theorem IsDerived.withName (h : type.IsDerived) {name : QName} (hname : name.IsProper) :
    IsDerived { type with name := some name } := by
  obtain ⟨hsound, -, hbase, hvariety⟩ := uphold_details_iff.mp h.sound
  have hnone : type.base ≠ none := Option.isSome_iff_ne_none.mp h.base
  exact ⟨h.base, uphold_details_iff.mpr ⟨⟨hsound.members, hsound.facets,
    fun heq => absurd heq hnone⟩, Uphold.cons.mpr ⟨hname, .nil⟩, hbase, hvariety⟩⟩

end SimpleType

section

open DocumentSetting

variable (s : DocumentSetting)

namespace DocumentSetting

theorem gives_facets {type : SimpleType} (h : type.IsDerived) (nodes : List SchemaNode) :
    Gives (s.facets type nodes) SimpleType.IsDerived := by
  induction nodes generalizing type with
  | nil => exact .ok h
  | cons node rest ih =>
    rw [facets]
    split
    · exact ih h
    · exact .bind_of_forall fun value =>
        ((gives_readFacet _ _).mapError _).bind fun facet hfacet => ih (h.withFacet hfacet)

theorem gives_typeOr_sound {tag : SchemaTag} {name : String}
    {inline : Except Error (Option TypeRef)}
    (h : Gives inline fun type => ∀ ref, type = some ref → Uphold Detail.IsSound ref.details) :
    Gives (s.typeOr tag name inline) fun type =>
      ∀ ref, type = some ref → Uphold Detail.IsSound ref.details := by
  unfold typeOr
  split
  · exact (s.gives_resolve tag _).bind fun name hname =>
      .ok fun ref heq => Option.some.inj heq ▸ TypeRef.uphold_named hname
  · exact h

theorem gives_baseOr {tag : SchemaTag} {name : String} {inline : Except Error (Option TypeRef)}
    (h : Gives inline fun type => ∀ ref, type = some ref → Uphold Detail.IsSound ref.details) :
    Gives (s.baseOr tag name inline) fun ref => Uphold Detail.IsSound ref.details := by
  unfold baseOr
  refine (s.gives_typeOr_sound h).bind fun type htype => ?_
  split
  · exact .ok (htype _ rfl)
  · exact .error _

theorem gives_unionType {tag : SchemaTag} {inline : Except Error (List TypeRef)}
    (h : Gives inline fun members => ∀ ref ∈ members, Uphold Detail.IsSound ref.details) :
    Gives (s.unionType tag inline) SimpleType.IsDerived := by
  unfold unionType
  refine (Gives.mapM fun value _ => s.gives_resolve tag value).bind fun names hnames => ?_
  refine h.bind fun members hmembers => ?_
  simp only
  split
  · exact .error _
  · next hne =>
    have hall : ∀ ref ∈ names.map TypeRef.named ++ members, Uphold Detail.IsSound ref.details := by
      refine List.forall_mem_append.mpr ⟨fun ref href => ?_, hmembers⟩
      obtain ⟨name, hname, rfl⟩ := List.mem_map.mp href
      exact TypeRef.uphold_named (hnames name hname)
    refine .ok (SimpleType.isDerived_of_base (TypeRef.uphold_builtin _) (fun heq => ?_) ?_)
    · exact hne (List.isEmpty_iff.mpr (Variety.union.inj heq))
    · rw [Variety.details, detailsOfTypes_eq]
      exact Uphold.flatMap.mpr hall

end DocumentSetting

mutual

theorem gives_readSimpleType : ∀ node : SchemaNode,
    Gives (readSimpleType s node) SimpleType.IsDerived
  | ⟨tag, children⟩ => by
    rw [readSimpleType]
    exact gives_readVariety tag children

theorem gives_readVariety (owner : SchemaTag) : ∀ nodes : List SchemaNode,
    Gives (readVariety s owner nodes) SimpleType.IsDerived
  | [] => .error _
  | ⟨tag, children⟩ :: rest => by
    rw [readVariety]
    split
    · exact (s.gives_baseOr (gives_readInline children)).bind fun base hbase =>
        s.gives_facets (SimpleType.isDerived_restriction hbase) children
    · split
      · exact (s.gives_baseOr (gives_readInline children)).bind fun item hitem =>
          .ok (SimpleType.isDerived_of_base (TypeRef.uphold_builtin _) nofun hitem)
      · split
        · exact s.gives_unionType (gives_readMembers children)
        · exact gives_readVariety owner rest

theorem gives_readInline : ∀ nodes : List SchemaNode,
    Gives (readInline s nodes) fun type =>
      ∀ ref, type = some ref → Uphold Detail.IsSound ref.details
  | [] => .ok nofun
  | node :: rest => by
    rw [readInline]
    split
    · exact (gives_readSimpleType node).bind fun type h =>
        .ok fun ref heq => Option.some.inj heq ▸ h.sound
    · exact gives_readInline rest

theorem gives_readMembers : ∀ nodes : List SchemaNode,
    Gives (readMembers s nodes) fun members => ∀ ref ∈ members, Uphold Detail.IsSound ref.details
  | [] => .ok fun _ h => absurd h List.not_mem_nil
  | node :: rest => by
    rw [readMembers]
    split
    · exact (gives_readSimpleType node).bind fun type h => (gives_readMembers rest).bind
        fun members hrest => .ok (List.forall_mem_cons.mpr ⟨h.sound, hrest⟩)
    · exact gives_readMembers rest

end

/-! ## Attributes -/

theorem gives_readUse_sound (node : SchemaNode) :
    Gives (readUse s node) fun use => Uphold Detail.IsSound use.details := by
  obtain ⟨tag, children⟩ := node
  rw [readUse]
  refine .bind_of_forall fun mode => .bind_of_forall fun constraint => ?_
  split
  · exact (s.gives_resolve tag _).bind fun name hname => .ok (Uphold.cons.mpr ⟨hname, .nil⟩)
  · refine .bind_of_forall fun name =>
      (s.gives_typeOr_sound (gives_readInline s children)).bind fun type htype => .ok ?_
    exact uphold_declares (s.isProper_localName _ name)
      (TypeRef.uphold_getD htype (TypeRef.uphold_builtin _))

theorem gives_readAttributes_sound (nodes : List SchemaNode) :
    Gives (readAttributes s nodes)
      fun attributes => Uphold Detail.IsSound (detailsOfItems attributes.1) := by
  induction nodes with
  | nil => exact .ok .nil
  | cons node rest ih =>
    rw [readAttributes]
    split
    · exact (gives_readUse_sound s node).bind fun use huse => ih.bind fun attributes h =>
        .ok (Uphold.append.mpr ⟨huse, h⟩)
    · split
      · exact (s.gives_reference node.tag _).bind fun name hname => ih.bind fun attributes h =>
          .ok (Uphold.cons.mpr ⟨hname, h⟩)
      · split
        · exact .bind_of_forall fun own => ih.bind fun attributes h => .ok h
        · exact ih

/-! ## Complex types and particles -/

/-- What a type is read with is sound in every detail. -/
structure DocumentSetting.Body.IsSound (body : DocumentSetting.Body) : Prop where
  content : Uphold Detail.IsSound body.content.details
  attributes : Uphold Detail.IsSound (detailsOfItems body.attributes.1)
  derivation : Uphold Detail.IsSound (baseDetails body.derivation)

/-- A complex type that has no name yet, or a proper one, and is sound in every other detail. -/
theorem DocumentSetting.Body.IsSound.type {body : DocumentSetting.Body} (h : body.IsSound)
    (tag : SchemaTag) : Uphold Detail.IsSound (body.type tag).details :=
  Uphold.append.mpr ⟨.nil, Uphold.append.mpr
    ⟨h.derivation, Uphold.append.mpr ⟨h.content, h.attributes⟩⟩⟩

theorem ComplexType.uphold_withName {type : ComplexType} (h : Uphold Detail.IsSound type.details)
    {name : QName} (hname : name.IsProper) :
    Uphold Detail.IsSound { type with name := some name }.details := by
  rw [type.details_eq, Uphold.append] at h
  exact uphold_declares hname h.2

theorem uphold_baseDetails {method : DerivationMethod} {base : QName} (h : base.IsProper) :
    Uphold Detail.IsSound (baseDetails (some ⟨method, base⟩)) :=
  Uphold.cons.mpr ⟨h, .nil⟩

namespace DocumentSetting

theorem gives_body_sound {isMixed : Bool} {derivation : Option Derivation}
    {groups : Except Error (List Particle)} {attributes : Except Error Attributes}
    (hd : Uphold Detail.IsSound (baseDetails derivation))
    (hg : Gives groups fun particles => Uphold Detail.IsSound (detailsOfAll particles))
    (ha : Gives attributes
      fun attributes => Uphold Detail.IsSound (detailsOfItems attributes.1)) :
    Gives (body isMixed derivation groups attributes) Body.IsSound := by
  unfold body
  refine hg.bind fun particles hparticles => ha.bind fun attributes hattributes => .ok ?_
  refine ⟨?_, hattributes, hd⟩
  rw [detailsOfAll_eq, Uphold.flatMap] at hparticles
  cases hlast : particles.getLast? with
  | none => exact .nil
  | some particle =>
    have hparticle := hparticles particle (List.mem_of_getLast? hlast)
    cases isMixed <;> exact hparticle

theorem gives_simpleBody_sound {derivation : Derivation} {children : List SchemaNode}
    {inline : Except Error (Option TypeRef)} {attributes : Except Error Attributes}
    (hd : derivation.base.IsProper)
    (hi : Gives inline fun type => ∀ ref, type = some ref → Uphold Detail.IsSound ref.details)
    (ha : Gives attributes
      fun attributes => Uphold Detail.IsSound (detailsOfItems attributes.1)) :
    Gives (s.simpleBody derivation children inline attributes) Body.IsSound := by
  unfold simpleBody
  refine ha.bind fun attributes hattributes => ?_
  split
  · exact .ok ⟨.nil, hattributes, uphold_baseDetails hd⟩
  · refine hi.bind fun inline hinline => ?_
    have hbase := TypeRef.uphold_getD hinline (TypeRef.uphold_named hd)
    exact (s.gives_facets (SimpleType.isDerived_restriction hbase) children).bind
      fun type htype => .ok ⟨htype.sound, hattributes, uphold_baseDetails hd⟩

end DocumentSetting

theorem gives_readSimpleContent_sound (owner : SchemaTag) (nodes : List SchemaNode) :
    Gives (readSimpleContent s owner nodes) Body.IsSound := by
  induction nodes with
  | nil => exact .error _
  | cons node rest ih =>
    obtain ⟨tag, children⟩ := node
    rw [readSimpleContent]
    split
    · exact ih
    · exact (s.gives_reference tag _).bind fun base hbase => s.gives_simpleBody_sound hbase
        (gives_readInline s children) (gives_readAttributes_sound s children)

mutual

theorem gives_readComplexType_sound : ∀ node : SchemaNode,
    Gives (readComplexType s node) fun type => Uphold Detail.IsSound type.details
  | ⟨tag, children⟩ => by
    rw [readComplexType]
    refine (gives_readDerived_sound _ children).bind fun derived hderived => ?_
    cases derived with
    | some body => exact .ok ((hderived body rfl).type tag)
    | none =>
      exact (gives_body_sound .nil (gives_readGroups_sound children)
        (gives_readAttributes_sound s children)).bind fun body hbody => .ok (hbody.type tag)

theorem gives_readDerived_sound (isMixed : Bool) : ∀ nodes : List SchemaNode,
    Gives (readDerived s isMixed nodes) fun derived => ∀ body, derived = some body → body.IsSound
  | [] => .ok nofun
  | ⟨tag, children⟩ :: rest => by
    rw [readDerived]
    split
    · exact (gives_readSimpleContent_sound s tag children).map
        fun body h _ heq => Option.some.inj heq ▸ h
    · split
      · exact (gives_readComplexContent_sound tag _ children).map
          fun body h _ heq => Option.some.inj heq ▸ h
      · exact gives_readDerived_sound isMixed rest

theorem gives_readComplexContent_sound (owner : SchemaTag) (isMixed : Bool) :
    ∀ nodes : List SchemaNode, Gives (readComplexContent s owner isMixed nodes) Body.IsSound
  | [] => .error _
  | ⟨tag, children⟩ :: rest => by
    rw [readComplexContent]
    split
    · exact gives_readComplexContent_sound owner isMixed rest
    · exact (s.gives_reference tag _).bind fun base hbase =>
        gives_body_sound (uphold_baseDetails hbase) (gives_readGroups_sound children)
          (gives_readAttributes_sound s children)

theorem gives_readGroups_sound : ∀ nodes : List SchemaNode,
    Gives (readGroups s nodes) fun particles => Uphold Detail.IsSound (detailsOfAll particles)
  | [] => .ok .nil
  | node :: rest => by
    rw [readGroups]
    split
    · exact (gives_readGroup_sound node).bind fun particle h =>
        (gives_readGroups_sound rest).bind fun particles hrest =>
          .ok (Uphold.append.mpr ⟨h, hrest⟩)
    · exact gives_readGroups_sound rest

theorem gives_readGroup_sound : ∀ node : SchemaNode,
    Gives (readGroup s node) fun particle => Uphold Detail.IsSound particle.details
  | ⟨tag, children⟩ => by
    rw [readGroup]
    refine (s.gives_occurs tag).bind fun occurs hoccurs => ?_
    split
    · exact (gives_readParticles_sound children).bind fun particles h =>
        .ok (Uphold.cons.mpr ⟨hoccurs, h⟩)
    · exact (s.gives_reference tag _).bind fun name hname =>
        .ok (Uphold.cons.mpr ⟨hoccurs, Uphold.cons.mpr ⟨hname, .nil⟩⟩)

theorem gives_readParticles_sound : ∀ nodes : List SchemaNode,
    Gives (readParticles s nodes) fun particles => Uphold Detail.IsSound (detailsOfAll particles)
  | [] => .ok .nil
  | node :: rest => by
    rw [readParticles]
    split
    · exact (gives_readElement_sound node).bind fun particle h =>
        (gives_readParticles_sound rest).bind fun particles hrest =>
          .ok (Uphold.append.mpr ⟨h, hrest⟩)
    · split
      · exact (s.gives_occurs node.tag).bind fun occurs hoccurs => .bind_of_forall fun wildcard =>
          (gives_readParticles_sound rest).bind fun particles hrest =>
            .ok (Uphold.cons.mpr ⟨hoccurs, hrest⟩)
      · split
        · exact (gives_readGroup_sound node).bind fun particle h =>
            (gives_readParticles_sound rest).bind fun particles hrest =>
              .ok (Uphold.append.mpr ⟨h, hrest⟩)
        · exact gives_readParticles_sound rest

theorem gives_readElement_sound : ∀ node : SchemaNode,
    Gives (readElement s node) fun particle => Uphold Detail.IsSound particle.details
  | ⟨tag, children⟩ => by
    rw [readElement]
    refine (s.gives_occurs tag).bind fun occurs hoccurs => ?_
    split
    · exact (s.gives_resolve tag _).bind fun name hname =>
        .ok (Uphold.cons.mpr ⟨hoccurs, Uphold.cons.mpr ⟨hname, .nil⟩⟩)
    · refine .bind_of_forall fun name =>
        (s.gives_typeOr_sound (gives_readElementType_sound children)).bind fun type htype => .ok ?_
      exact Uphold.cons.mpr ⟨hoccurs, uphold_declares (s.isProper_localName _ name)
        (TypeRef.uphold_getD htype (TypeRef.uphold_builtin _))⟩

theorem gives_readElementType_sound : ∀ nodes : List SchemaNode,
    Gives (readElementType s nodes) fun type =>
      ∀ ref, type = some ref → Uphold Detail.IsSound ref.details
  | [] => .ok nofun
  | node :: rest => by
    rw [readElementType]
    split
    · exact (gives_readComplexType_sound node).bind fun type h =>
        .ok fun ref heq => Option.some.inj heq ▸ h
    · split
      · exact (gives_readSimpleType s node).bind fun type h =>
          .ok fun ref heq => Option.some.inj heq ▸ h.sound
      · exact gives_readElementType_sound rest

end

/-! ## Global declarations -/

/-- What is declared is sound in every detail, and a type or an attribute group has the name under
which it is declared. -/
def Declaration.IsSound : Declaration → Prop
  | .element decl _ => Uphold Detail.IsSound decl.details
  | .type name definition =>
    definition.name = some name ∧ Uphold Detail.IsSound definition.details
  | .attr decl => Uphold Detail.IsSound decl.details
  | .attributeGroup name declared =>
    declared.name = some name ∧ Uphold Detail.IsSound declared.details
  | .group name declared => name.IsProper ∧ Uphold Detail.IsSound declared.details

theorem gives_readGlobalElement_sound (node : SchemaNode) :
    Gives (readGlobalElement s node) Declaration.IsSound := by
  unfold readGlobalElement
  refine .bind_of_forall fun name => ?_
  have hhead : Gives ((node.tag.attr? "substitutionGroup").mapM (s.resolve node.tag))
      fun head => Uphold Detail.IsSound (headDetails head) := by
    cases node.tag.attr? "substitutionGroup" with
    | none => exact .ok .nil
    | some value => exact (s.gives_resolve node.tag value).map fun head h =>
        Uphold.cons.mpr ⟨h, .nil⟩
  refine hhead.bind fun head hhead => (s.gives_typeOr_sound
    (gives_readElementType_sound s node.children)).bind fun type htype => .ok ?_
  exact uphold_declares (QName.isProper_make _ _) (Uphold.append.mpr
    ⟨hhead, TypeRef.uphold_getD htype (TypeRef.uphold_builtin _)⟩)

theorem gives_readGlobalAttribute_sound (node : SchemaNode) :
    Gives (readGlobalAttribute s node) Declaration.IsSound := by
  unfold readGlobalAttribute
  refine .bind_of_forall fun name => (s.gives_typeOr_sound
    (gives_readInline s node.children)).bind fun type htype => .bind_of_forall fun _ => .ok ?_
  exact uphold_declares (QName.isProper_make _ _)
    (TypeRef.uphold_getD htype (TypeRef.uphold_builtin _))

theorem gives_readGroupDefinition_sound (node : SchemaNode) :
    Gives (readGroupDefinition s node) fun group => Uphold Detail.IsSound group.details := by
  unfold readGroupDefinition
  split
  · exact (gives_readParticles_sound s _).bind fun particles h => .ok h
  · exact .ok .nil

/-- **What is read as a declaration is sound in every detail.** -/
theorem gives_readDeclaration_sound (node : SchemaNode) :
    Gives (readDeclaration s node) fun read => ∀ declaration, read = some declaration →
      declaration.IsSound := by
  have hproper (name : String) : (s.qname name).IsProper := QName.isProper_make _ _
  unfold readDeclaration
  split
  · exact (gives_readGlobalElement_sound s node).bind fun declaration h =>
      .ok fun _ heq => Option.some.inj heq ▸ h
  · exact .bind_of_forall fun name => (gives_readComplexType_sound s node).bind fun type h =>
      .ok fun | _, rfl => ⟨rfl, ComplexType.uphold_withName h (hproper name)⟩
  · exact .bind_of_forall fun name => (gives_readSimpleType s node).bind fun type h =>
      .ok fun | _, rfl => ⟨rfl, (h.withName (hproper name)).sound⟩
  · exact (gives_readGlobalAttribute_sound s node).bind fun declaration h =>
      .ok fun _ heq => Option.some.inj heq ▸ h
  · exact .bind_of_forall fun name => (gives_readAttributes_sound s node.children).bind
      fun attributes h => .ok fun
        | _, rfl => ⟨rfl, uphold_declares (hproper name) h⟩
  · exact .bind_of_forall fun name => (gives_readGroupDefinition_sound s node).bind
      fun group h => .ok fun | _, rfl => ⟨hproper name, h⟩
  · exact .ok nofun

end

end Specimen

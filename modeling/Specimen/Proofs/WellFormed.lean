import Specimen.Proofs.DeclarationOrder
import Specimen.Proofs.SoundReading

/-!
# Schemas that are well-formed

A schema that is loaded is sound in every detail and keeps each component under its own name. The
built-in types are, and every step of a loading keeps it: a component is registered as it is read,
but for its numbers, and the types of substitutes are those of other elements.

The generator relies on this. In particular, the chain of a simple type ends with the built-in type
that all come from, if it ends, so a built-in type is found on it.
-/

namespace Specimen

open Details

/-! ## Details of a schema -/

namespace Model

variable {m : Model} {P : Detail → Prop}

/-- A schema says what the components in its tables say. -/
theorem uphold_details_iff : Uphold P m.details ↔
    (∀ decl ∈ m.elements.values, Uphold P decl.details)
      ∧ (∀ definition ∈ m.types.values, Uphold P definition.details)
      ∧ (∀ decl ∈ m.attributes.values, Uphold P decl.details)
      ∧ (∀ group ∈ m.groups.values, Uphold P group.details)
      ∧ ∀ group ∈ m.attributeGroups.values, Uphold P group.details := by
  rw [details, Uphold.append, Uphold.append, Uphold.append, Uphold.append, Uphold.flatMap,
    Uphold.flatMap, Uphold.flatMap, Uphold.flatMap, Uphold.flatMap]

/-- A schema as a loading leaves it. -/
structure IsWellFormed (m : Model) : Prop where
  details : Uphold Detail.IsSound m.details
  elements : ∀ entry ∈ m.elements.entries, entry.2.name = entry.1
  types : ∀ entry ∈ m.types.entries, entry.2.name = some entry.1
  attributes : ∀ entry ∈ m.attributes.entries, entry.2.name = entry.1
  groups : ∀ name ∈ m.groups.names, name.IsProper
  attributeGroups : ∀ entry ∈ m.attributeGroups.entries, entry.2.name = some entry.1

end Model

/-- What holds of a new entry and of all entries of a table holds of all when it is entered. -/
theorem Table.forall_insert {α : Type} {P : QName × α → Prop} {t : Table α} {name : QName} {a : α}
    (h : ∀ entry ∈ t.entries, P entry) (hnew : P (name, a)) :
    ∀ entry ∈ (t.insert name a).entries, P entry := by
  intro entry hentry
  rcases mem_insertInto_iff hentry with rfl | hentry
  · exact hnew
  · exact h entry hentry

theorem Table.forall_values_insert {α : Type} {P : α → Prop} {t : Table α} {name : QName} {a : α}
    (h : ∀ b ∈ t.values, P b) (hnew : P a) : ∀ b ∈ (t.insert name a).values, P b := by
  intro b hb
  rcases List.mem_cons.mp (Table.values_insert_subset _ _ _ hb) with rfl | hb
  · exact hnew
  · exact h b hb

/-! ## Registration -/

namespace Model.IsWellFormed

variable {m : Model}

theorem empty : IsWellFormed {} where
  details := .nil
  elements _ h := absurd h List.not_mem_nil
  types _ h := absurd h List.not_mem_nil
  attributes _ h := absurd h List.not_mem_nil
  groups _ h := absurd h List.not_mem_nil
  attributeGroups _ h := absurd h List.not_mem_nil

/-- An element takes the place of the one of its name, if there is one. -/
theorem insertElement (h : m.IsWellFormed) {decl : ElementDecl} (next : Nat)
    (hd : Uphold Detail.IsSound decl.details) :
    ({ m with elements := m.elements.insert decl.name decl, next } : Model).IsWellFormed := by
  obtain ⟨he, hrest⟩ := uphold_details_iff.mp h.details
  exact ⟨uphold_details_iff.mpr ⟨Table.forall_values_insert he hd, hrest⟩,
    Table.forall_insert h.elements rfl, h.types, h.attributes, h.groups, h.attributeGroups⟩

theorem addNamedType (h : m.IsWellFormed) {name : QName} {definition : TypeDef}
    (hname : definition.name = some name) (hd : Uphold Detail.IsSound definition.details) :
    (m.addNamedType name definition).IsWellFormed := by
  obtain ⟨he, ht, hrest⟩ := uphold_details_iff.mp h.details
  have hnumbered := (definition.uphold_numberFrom m.next).mpr hd
  have hown := (definition.name_numberFrom m.next).trans hname
  exact ⟨uphold_details_iff.mpr ⟨he, Table.forall_values_insert ht hnumbered, hrest⟩,
    h.elements, Table.forall_insert h.types hown, h.attributes, h.groups, h.attributeGroups⟩

theorem addAttribute (h : m.IsWellFormed) {decl : AttributeDecl}
    (hd : Uphold Detail.IsSound decl.details) : (m.addAttribute decl).IsWellFormed := by
  obtain ⟨he, ht, ha, hrest⟩ := uphold_details_iff.mp h.details
  have hnumbered := (decl.uphold_numberFrom m.next).mpr hd
  exact ⟨uphold_details_iff.mpr ⟨he, ht, Table.forall_values_insert ha hnumbered, hrest⟩,
    h.elements, h.types, Table.forall_insert h.attributes rfl, h.groups, h.attributeGroups⟩

theorem addGroup (h : m.IsWellFormed) {name : QName} {group : ModelGroup} (hname : name.IsProper)
    (hd : Uphold Detail.IsSound group.details) : (m.addGroup name group).IsWellFormed := by
  obtain ⟨he, ht, ha, hg, hrest⟩ := uphold_details_iff.mp h.details
  have hnumbered := (group.uphold_numberFrom m.next).mpr hd
  refine ⟨uphold_details_iff.mpr ⟨he, ht, ha, Table.forall_values_insert hg hnumbered, hrest⟩,
    h.elements, h.types, h.attributes, fun other hother => ?_, h.attributeGroups⟩
  obtain ⟨entry, hentry, rfl⟩ := List.mem_map.mp hother
  rcases Table.mem_insertInto_iff hentry with rfl | hentry
  · exact hname
  · exact h.groups _ (List.mem_map_of_mem hentry)

theorem addNamedAttributeGroup (h : m.IsWellFormed) {name : QName} {group : AttributeGroup}
    (hname : group.name = some name) (hd : Uphold Detail.IsSound group.details) :
    (m.addNamedAttributeGroup name group).IsWellFormed := by
  obtain ⟨he, ht, ha, hg, hattr⟩ := uphold_details_iff.mp h.details
  have hnumbered := (group.uphold_numberFrom m.next).mpr hd
  exact ⟨uphold_details_iff.mpr ⟨he, ht, ha, hg, Table.forall_values_insert hattr hnumbered⟩,
    h.elements, h.types, h.attributes, h.groups, Table.forall_insert h.attributeGroups hname⟩

/-- What is read and registered keeps a schema well-formed. -/
theorem register {l : Loading} (h : l.model.IsWellFormed) {declaration : Declaration}
    (hd : declaration.IsSound) : (l.register declaration).model.IsWellFormed := by
  cases declaration with
  | element decl inheritsType =>
    exact h.insertElement _ ((decl.uphold_numberFrom l.model.next).mpr hd)
  | type name definition => exact h.addNamedType hd.1 hd.2
  | attr decl => exact h.addAttribute hd
  | attributeGroup name group => exact h.addNamedAttributeGroup hd.1 hd.2
  | group name group => exact h.addGroup hd.1 hd.2

end Model.IsWellFormed

/-! ## Built-in types -/

namespace BuiltinType

/-- The only built-in simple type without a base is the one that all come from. -/
theorem eq_of_base_eq_none :
    ∀ type ∈ all, type.base = none → type = ⟨"anySimpleType", none, none, []⟩ := by
  decide

theorem isProper_facets : ∀ type ∈ all, ∀ facet ∈ type.facets, facet.IsProper := by
  decide

theorem uphold_definition {type : BuiltinType} (h : type ∈ all) :
    Uphold Detail.IsSound (TypeDef.simple type.definition).details := by
  have hfacets : (type.facets.foldl FacetSet.push .empty).IsSound :=
    FacetSet.isSound_empty.pushAll (isProper_facets type h)
  have hbase : type.base.map TypeRef.builtin = none → type.definition = .anySimpleType :=
    fun hnone => eq_of_base_eq_none type h (Option.map_eq_none_iff.mp hnone) ▸ rfl
  have hvariety : type.definition.variety ≠ .union []
      ∧ Uphold Detail.IsSound type.definition.variety.details := by
    unfold definition
    cases type.item with
    | none => exact ⟨nofun, .nil⟩
    | some item => exact ⟨nofun, TypeRef.uphold_builtin item⟩
  refine SimpleType.uphold_details_iff.mpr ⟨⟨hvariety.1, hfacets, hbase⟩, ?_, ?_, hvariety.2⟩
  · exact uphold_declares (QName.isProper_xsd type.name) .nil
  · unfold definition
    cases type.base with
    | none => exact .nil
    | some base => exact TypeRef.uphold_builtin base

end BuiltinType

theorem uphold_anyType : Uphold Detail.IsSound (TypeDef.complex anyType).details := by
  refine uphold_declares (QName.isProper_xsd _) (Uphold.cons.mpr ⟨nofun, .nil⟩)

theorem Model.isWellFormed_builtin : builtin.IsWellFormed := by
  have hsimple (types : List BuiltinType) (h : ∀ type ∈ types, type ∈ BuiltinType.all) (m : Model)
      (hm : m.IsWellFormed) : (types.foldl (fun (m : Model) type =>
        m.addNamedType (QName.xsd type.name) (.simple type.definition)) m).IsWellFormed := by
    induction types generalizing m with
    | nil => exact hm
    | cons type rest ih =>
      obtain ⟨hfirst, hrest⟩ := List.forall_mem_cons.mp h
      exact ih hrest _ (hm.addNamedType rfl (BuiltinType.uphold_definition hfirst))
  exact (hsimple _ (fun _ h => h) _ .empty).addNamedType rfl uphold_anyType

/-! ## Loading -/

theorem Loading.isKept_wellFormed : IsKept Model.IsWellFormed where
  builtin := Model.isWellFormed_builtin
  target h _ := ⟨h.details, h.elements, h.types, h.attributes, h.groups, h.attributeGroups⟩
  register {l s node declaration} hread h :=
    h.register (gives_readDeclaration_sound s node _ hread declaration rfl)
  inheritType {m} h untyped name := by
    unfold inheritType
    split
    · exact h
    · next decl hdecl =>
      split
      · exact h
      · next type htype =>
        obtain ⟨other, hother, rfl⟩ := mem_of_headType htype
        have hdetails (decl : ElementDecl) (hd : decl ∈ m.elements.values) :
            Uphold Detail.IsSound decl.details := h.details.mono (Model.details_of_element hd)
        have hown := hdetails decl (Table.mem_values_of_get? hdecl)
        rw [decl.details_eq, Uphold.cons, Uphold.append] at hown
        have hnew : Uphold Detail.IsSound ({ decl with type := other.type } : ElementDecl).details :=
          Uphold.cons.mpr ⟨hown.1, Uphold.append.mpr
            ⟨hown.2.1, (hdetails other hother).mono other.type_subset⟩⟩
        exact h.insertElement m.next hnew

/-! ## Chains of simple types -/

namespace Model

variable {m : Model}

/-- The last type of a chain has no base. -/
theorem exists_last_of_chain {type : SimpleType} {types : List SimpleType}
    (h : m.chain type = .ok types) : ∃ last ∈ types, last.base = none := by
  have hancestors (steps : Nat) (type : SimpleType) :
      Gives (m.ancestorsWithin steps type) fun rest => ∃ last ∈ type :: rest, last.base = none := by
    induction steps generalizing type with
    | zero =>
      unfold ancestorsWithin
      split
      · exact .ok ⟨type, List.mem_cons_self, ‹_›⟩
      · exact .error _
    | succ steps ih =>
      unfold ancestorsWithin
      split
      · exact .ok ⟨type, List.mem_cons_self, ‹_›⟩
      · refine .bind_of_forall fun next => (ih next).bind fun rest hrest => .ok ?_
        obtain ⟨last, hlast, hbase⟩ := hrest
        exact ⟨last, List.mem_cons_of_mem _ hlast, hbase⟩
  have hchain : Gives (m.chain type) fun types => ∃ last ∈ types, last.base = none :=
    (hancestors chainLimit type).map fun _ hrest => hrest
  exact hchain types h

/-- The chain of a sound type in a sound schema comes to a built-in type, if it ends. -/
theorem IsWellFormed.chain_eq_error (h : m.IsWellFormed) {type : SimpleType}
    (htype : .simple type ∈ m.details) {e : Error} (he : m.builtinAncestor type = .error e) :
    m.chain type = .error e := by
  have hupholds : m.Upholds Detail.IsSound := ⟨h.details, fun max hmax => by cases hmax; decide⟩
  have hsound : Uphold Detail.IsSound type.details := h.details.mono (m.areClosed_details type htype)
  unfold builtinAncestor at he
  cases hchain : m.chain type with
  | error e' =>
    rw [hchain] at he
    exact congrArg Except.error (Except.error.inj he)
  | ok types =>
    obtain ⟨last, hlast, hbase⟩ := exists_last_of_chain hchain
    have hany : last = .anySimpleType :=
      SimpleType.IsSound.base (hupholds.chain hsound types hchain last hlast _ last.mem_details) hbase
    have hfound : (types.find? SimpleType.isBuiltin).isSome :=
      List.find?_isSome.mpr ⟨last, hlast, hany ▸ rfl⟩
    obtain ⟨builtin, hbuiltin⟩ := Option.isSome_iff_exists.mp hfound
    rw [hchain] at he
    simp only [hbuiltin, Bind.bind, Except.bind] at he
    cases he

end Model

/-- **A schema that is loaded, from a text or from files, is well-formed**: sound in every detail,
each component under its own name. So a simple type in it comes from a built-in type if its chain
can be followed at all. -/
theorem Origin.load_isWellFormed {fs : Files} {origin : Origin} {m : Model}
    (h : origin.load fs = .ok m) : m.IsWellFormed ∧ ∀ type, .simple type ∈ m.details → ∀ e,
      m.builtinAncestor type = .error e → m.chain type = .error e := by
  have hm : m.IsWellFormed := by
    cases origin with
    | text content => exact Loading.isKept_wellFormed.gives_ofText fs content m h
    | file address => exact Loading.isKept_wellFormed.gives_ofFile fs address m h
  exact ⟨hm, fun type htype e he => hm.chain_eq_error htype he⟩

/-- A type with a base that is not declared anywhere. -/
def baseless : String :=
  "<x:schema xmlns:x='http://www.w3.org/2001/XMLSchema'><x:simpleType name='a'>"
    ++ "<x:restriction base='b'/></x:simpleType></x:schema>"

/-- Its chain cannot be followed, and this alone is why no built-in type is found. -/
theorem Origin.load_isWellFormed_baseless :
    ∃ m type e, (Origin.text baseless).load {} = .ok m ∧ .simple type ∈ m.details
      ∧ m.builtinAncestor type = .error e ∧ m.IsWellFormed ∧ m.chain type = .error e := by
  have hroot : Xml.readTree baseless = some ⟨0, some "x", "schema",
      [⟨some "xmlns", "x", Namespace.xsd⟩], [.element ⟨53, some "x", "simpleType",
        [⟨none, "name", "a"⟩], [.element ⟨76, some "x", "restriction",
          [⟨none, "base", "b"⟩], []⟩]⟩]⟩ := by
    have hchars : baseless.toList = _ :=
      Xml.toList_append_eq String.toList_ofList String.toList_ofList
    rw [Xml.readTree, hchars]
    decide +kernel
  obtain ⟨document, hread, hlinks, hfound, hnone⟩ : ∃ document,
      SchemaDocument.read none none baseless = .ok document ∧ document.links = []
        ∧ (Opening.mk [] [] baseless document).entered.finish.types.get? (.bare "a")
          = some (.simple ⟨some (.bare "a"), some (.named (.bare "b")), .atomic, .empty⟩)
        ∧ (Opening.mk [] [] baseless document).entered.finish.types.get? (.bare "b") = none := by
    rw [SchemaDocument.read_eq hroot]
    exact ⟨_, rfl, rfl, rfl, rfl⟩
  have hmain : (Origin.text baseless).opening {} = .ok ⟨[], [], baseless, document⟩ := by
    rw [opening, hread]
    rfl
  have hload := load_of_unlinked hmain hlinks
  have hmem := Model.details_of_type (Table.mem_values_of_get? hfound) (SimpleType.mem_details _)
  obtain ⟨hm, hchain⟩ := load_isWellFormed hload
  generalize (Opening.mk [] [] baseless document).entered.finish = m at *
  have hresolve : m.resolveSimple (.named (.bare "b"))
      = .error (.shape (.unknown .type (.bare "b"))) := by
    rw [Model.resolveSimple, Model.chainLimit, Model.resolveSimpleWithin, Model.resolveType, hnone]
    rfl
  have hfails : m.builtinAncestor ⟨some (.bare "a"), some (.named (.bare "b")), .atomic, .empty⟩
      = .error (.shape (.unknown .type (.bare "b"))) := by
    rw [Model.builtinAncestor, Model.chain, Model.chainLimit, Model.ancestorsWithin]
    simp only [hresolve]
    rfl
  exact ⟨m, _, _, hload, hmem, hfails, hm, hchain _ hmem _ hfails⟩

end Specimen

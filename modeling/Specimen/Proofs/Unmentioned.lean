import Specimen.Proofs.Upheld

/-!
# Components that are not mentioned

A schema that differs from another one only in what one symbol stands for answers every question the
same, if neither the question nor the schema refers to the symbol. What is looked up on the way is
found the same, and does not refer to the symbol either (`Specimen.Proofs.Upheld`).

A component that stands by itself, in no substitution group and derived from nothing, is no
substitute for another one; so it may be registered last without a question being answered
differently.
-/

namespace Specimen

open Details

/-- A question that is answered the same may be followed by others that are, for such an answer. -/
theorem Gives.bind_congr {α β : Type} {answer answer' : Except Error α} {P : α → Prop}
    {f f' : α → Except Error β} (hanswer : answer' = answer) (h : Gives answer P)
    (hf : ∀ a, P a → f' a = f a) : (answer' >>= f') = (answer >>= f) := by
  rw [hanswer]
  cases answer with
  | error e => rfl
  | ok a => exact hf a (h a rfl)

theorem mapM_congr_of_mem {α β : Type} {f f' : α → Except Error β} {l : List α}
    (h : ∀ a ∈ l, f' a = f a) : l.mapM f' = l.mapM f := by
  induction l with
  | nil => rfl
  | cons a rest ih =>
    rw [List.mapM_cons, List.mapM_cons, h a List.mem_cons_self,
      ih fun b hb => h b (List.mem_cons_of_mem _ hb)]

theorem findSomeM?_congr_of_mem {α β : Type} {f f' : α → Except Error (Option β)} {l : List α}
    (h : ∀ a ∈ l, f' a = f a) : l.findSomeM? f' = l.findSomeM? f := by
  induction l with
  | nil => rfl
  | cons a rest ih =>
    rw [List.findSomeM?, List.findSomeM?, h a List.mem_cons_self,
      ih fun b hb => h b (List.mem_cons_of_mem _ hb)]

/-- The component that a detail refers to, if it is a reference. -/
def Detail.target? : Detail → Option Symbol
  | .refers symbol => some symbol
  | _ => none

theorem refers_mem_iff {symbol : Symbol} {details : List Detail} :
    symbol ∈ details.filterMap Detail.target? ↔ .refers symbol ∈ details := by
  refine ⟨fun h => ?_, fun h => List.mem_filterMap.mpr ⟨_, h, rfl⟩⟩
  obtain ⟨detail, hdetail, htarget⟩ := List.mem_filterMap.mp h
  cases detail with
  | refers other => exact Option.some.inj htarget ▸ hdetail
  | declares | occurs | simple => cases htarget

/-- Whether a symbol is referred to can be computed. -/
instance (symbol : Symbol) (details : List Detail) : Decidable (.refers symbol ∈ details) :=
  decidable_of_iff _ refers_mem_iff

/-- A detail does not refer to a symbol. -/
def Detail.Omits (symbol : Symbol) (detail : Detail) : Prop := detail ≠ .refers symbol

namespace Model

/-- Every other symbol stands for the same in two schemas, and they have the same substitutes. -/
structure IsBeside (symbol : Symbol) (m m' : Model) : Prop where
  element : ∀ name, ⟨.element, name⟩ ≠ symbol → m'.elements.get? name = m.elements.get? name
  type : ∀ name, ⟨.type, name⟩ ≠ symbol → m'.types.get? name = m.types.get? name
  attr : ∀ name, ⟨.attr, name⟩ ≠ symbol → m'.attributes.get? name = m.attributes.get? name
  attributeGroup : ∀ name, ⟨.attributeGroup, name⟩ ≠ symbol →
    m'.attributeGroups.get? name = m.attributeGroups.get? name
  group : ∀ name, ⟨.group, name⟩ ≠ symbol → m'.groups.get? name = m.groups.get? name
  members : ∀ head, m'.substitutionMembers head = m.substitutionMembers head
  subtypes : ∀ base, m'.concreteSubtypes base = m.concreteSubtypes base
  omits : m.Upholds (Detail.Omits symbol)

namespace IsBeside

variable {symbol : Symbol} {m m' : Model}

/-- A reference that is a detail of something is to another symbol. -/
theorem ne_of_omits {other : Symbol} (h : Detail.Omits symbol (.refers other)) : other ≠ symbol :=
  fun heq => h (congrArg Detail.refers heq)

variable (h : m.IsBeside symbol m')

include h

/-! ## Components -/

theorem resolveType {ref : TypeRef} (href : Uphold (Detail.Omits symbol) ref.details) :
    m'.resolveType ref = m.resolveType ref := by
  cases ref with
  | anonymous definition => rfl
  | named name =>
    rw [Model.resolveType, Model.resolveType, h.type name (ne_of_omits (Uphold.cons.mp href).1)]

theorem resolveElement {name : QName} (hne : ⟨.element, name⟩ ≠ symbol) :
    m'.resolveElement name = m.resolveElement name := by
  rw [Model.resolveElement, Model.resolveElement, h.element name hne]

theorem rootElement {name : QName} (hne : ⟨.element, name⟩ ≠ symbol) :
    m'.rootElement name = m.rootElement name := by
  rw [Model.rootElement, Model.rootElement, h.element name hne]

theorem resolveGroup {name : QName} (hne : ⟨.group, name⟩ ≠ symbol) :
    m'.resolveGroup name = m.resolveGroup name := by
  rw [Model.resolveGroup, Model.resolveGroup, h.group name hne]

theorem resolveAttribute {target : AttributeTarget}
    (ht : Uphold (Detail.Omits symbol) target.details) :
    m'.resolveAttribute target = m.resolveAttribute target := by
  cases target with
  | inline decl => rfl
  | global name =>
    rw [Model.resolveAttribute, Model.resolveAttribute,
      h.attr name (ne_of_omits (Uphold.cons.mp ht).1)]

theorem resolveAttributeGroup {name : QName} (hne : ⟨.attributeGroup, name⟩ ≠ symbol) :
    m'.resolveAttributeGroup name = m.resolveAttributeGroup name := by
  rw [Model.resolveAttributeGroup, Model.resolveAttributeGroup, h.attributeGroup name hne]

/-! ## Content -/

theorem contentWithin (steps : Nat) {type : ComplexType}
    (ht : Uphold (Detail.Omits symbol) type.details) :
    m'.contentWithin steps type = m.contentWithin steps type := by
  induction steps generalizing type with
  | zero =>
    unfold Model.contentWithin
    rfl
  | succ steps ih =>
    unfold Model.contentWithin
    split
    · next base hderivation =>
      have hbase : Uphold (Detail.Omits symbol) (TypeRef.named base).details :=
        Uphold.cons.mpr ⟨ht _ (ComplexType.base_mem hderivation), .nil⟩
      refine Gives.bind_congr (h.resolveType hbase) (h.omits.resolveType hbase)
        fun definition hdefinition => ?_
      cases definition with
      | simple type => rfl
      | complex type => exact congrArg (· >>= _) (ih hdefinition)
    · rfl

theorem contentOf {type : ComplexType} (ht : Uphold (Detail.Omits symbol) type.details) :
    m'.contentOf type = m.contentOf type :=
  h.contentWithin _ ht

/-! ## Attributes -/

theorem flattenItem (steps : Nat) {item : AttributeItem}
    (hi : Uphold (Detail.Omits symbol) item.details) :
    m'.flattenItem steps item = m.flattenItem steps item := by
  have huse {use : AttributeUse} (hu : Uphold (Detail.Omits symbol) use.details) :
      m'.effectiveAttribute use = m.effectiveAttribute use := by
    rw [use.details_eq] at hu
    exact congrArg (· >>= _) (h.resolveAttribute hu)
  induction steps generalizing item with
  | zero =>
    cases item with
    | use use => rw [Model.flattenItem, Model.flattenItem, huse hi]
    | group name => rfl
  | succ steps ih =>
    cases item with
    | use use => rw [Model.flattenItem, Model.flattenItem, huse hi]
    | group name =>
      refine Gives.bind_congr (h.resolveAttributeGroup (ne_of_omits (Uphold.cons.mp hi).1))
        (h.omits.resolveAttributeGroup name) fun group hgroup => ?_
      have hitems := hgroup.mono group.items_subset
      rw [detailsOfItems_eq, Uphold.flatMap] at hitems
      exact congrArg (List.flatten <$> ·) (mapM_congr_of_mem fun item hitem => ih (hitems item hitem))

theorem flattenItems {items : List AttributeItem}
    (hi : Uphold (Detail.Omits symbol) (detailsOfItems items)) :
    m'.flattenItems items = m.flattenItems items := by
  rw [detailsOfItems_eq, Uphold.flatMap] at hi
  exact congrArg (List.flatten <$> ·)
    (mapM_congr_of_mem fun item hitem => h.flattenItem _ (hi item hitem))

theorem attributesWithin (steps : Nat) {type : ComplexType}
    (ht : Uphold (Detail.Omits symbol) type.details) :
    m'.attributesWithin steps type = m.attributesWithin steps type := by
  induction steps generalizing type with
  | zero =>
    unfold Model.attributesWithin
    rw [h.flattenItems (ht.mono type.attributes_subset)]
  | succ steps ih =>
    unfold Model.attributesWithin
    rw [h.flattenItems (ht.mono type.attributes_subset)]
    cases hderivation : type.derivation with
    | none => rfl
    | some derivation =>
      have hbase := h.type derivation.base (ne_of_omits (ht _ (ComplexType.base_mem hderivation)))
      simp only [hbase]
      split
      · next baseType hget => rw [ih (h.omits.complexType hget)]
      · rfl

theorem attributesOf {type : ComplexType} (ht : Uphold (Detail.Omits symbol) type.details) :
    m'.attributesOf type = m.attributesOf type :=
  h.attributesWithin _ ht

theorem itemWildcard (steps : Nat) {item : AttributeItem}
    (hi : Uphold (Detail.Omits symbol) item.details) :
    m'.itemWildcard steps item = m.itemWildcard steps item := by
  induction steps generalizing item with
  | zero => cases item <;> rfl
  | succ steps ih =>
    cases item with
    | use use => rfl
    | group name =>
      refine Gives.bind_congr (h.resolveAttributeGroup (ne_of_omits (Uphold.cons.mp hi).1))
        (h.omits.resolveAttributeGroup name) fun group hgroup => ?_
      have hitems := hgroup.mono group.items_subset
      rw [detailsOfItems_eq, Uphold.flatMap] at hitems
      split
      · rfl
      · exact findSomeM?_congr_of_mem fun item hitem => ih (hitems item hitem)

theorem listWildcard {items : List AttributeItem}
    (hi : Uphold (Detail.Omits symbol) (detailsOfItems items)) :
    m'.listWildcard items = m.listWildcard items := by
  rw [detailsOfItems_eq, Uphold.flatMap] at hi
  exact findSomeM?_congr_of_mem fun item hitem => h.itemWildcard _ (hi item hitem)

theorem wildcardWithin (steps : Nat) {type : ComplexType}
    (ht : Uphold (Detail.Omits symbol) type.details) :
    m'.wildcardWithin steps type = m.wildcardWithin steps type := by
  have hlist := h.listWildcard (ht.mono type.attributes_subset)
  induction steps generalizing type with
  | zero =>
    unfold Model.wildcardWithin
    rw [hlist]
  | succ steps ih =>
    unfold Model.wildcardWithin
    rw [hlist]
    split
    · rfl
    · refine congrArg (m.listWildcard type.attributes >>= ·) (funext fun found => ?_)
      split
      · rfl
      · split
        · next base hderivation =>
          have hbase := h.type base (ne_of_omits (ht _ (ComplexType.base_mem hderivation)))
          simp only [hbase]
          split
          · next baseType hget =>
            have hup := h.omits.complexType hget
            exact ih hup (h.listWildcard (hup.mono baseType.attributes_subset))
          · rfl
        · rfl

theorem wildcardOf {type : ComplexType} (ht : Uphold (Detail.Omits symbol) type.details) :
    m'.wildcardOf type = m.wildcardOf type :=
  h.wildcardWithin _ ht

/-! ## Simple types -/

theorem resolveSimpleWithin (whole : TypeRef) (steps : Nat) {ref : TypeRef}
    (href : Uphold (Detail.Omits symbol) ref.details) :
    m'.resolveSimpleWithin whole steps ref = m.resolveSimpleWithin whole steps ref := by
  induction steps generalizing ref with
  | zero => rfl
  | succ steps ih =>
    refine Gives.bind_congr (h.resolveType href) (h.omits.resolveType href)
      fun definition hdefinition => ?_
    cases definition with
    | simple type => rfl
    | complex type =>
      refine Gives.bind_congr (h.contentOf hdefinition) (h.omits.contentOf hdefinition)
        fun content hcontent => ?_
      cases content with
      | simple ref => exact ih hcontent
      | empty | elements | mixed => rfl

theorem resolveSimple {ref : TypeRef} (href : Uphold (Detail.Omits symbol) ref.details) :
    m'.resolveSimple ref = m.resolveSimple ref :=
  h.resolveSimpleWithin ref _ href

theorem textType {definition : TypeDef} (hd : Uphold (Detail.Omits symbol) definition.details) :
    m'.textType definition = m.textType definition := by
  cases definition with
  | simple type => rfl
  | complex type =>
    refine Gives.bind_congr (h.contentOf hd) (h.omits.contentOf hd) fun content hcontent => ?_
    cases content with
    | simple ref => exact congrArg (some <$> ·) (h.resolveSimple hcontent)
    | empty | elements | mixed => rfl

theorem ancestorsWithin (steps : Nat) {type : SimpleType}
    (ht : Uphold (Detail.Omits symbol) type.details) :
    m'.ancestorsWithin steps type = m.ancestorsWithin steps type := by
  induction steps generalizing type with
  | zero =>
    unfold Model.ancestorsWithin
    rfl
  | succ steps ih =>
    unfold Model.ancestorsWithin
    split
    · rfl
    · next base hbase =>
      have hbase := ht.mono (SimpleType.base_subset hbase)
      exact Gives.bind_congr (h.resolveSimple hbase) (h.omits.resolveSimple hbase)
        fun next hnext => congrArg (· >>= _) (ih hnext)

theorem chain {type : SimpleType} (ht : Uphold (Detail.Omits symbol) type.details) :
    m'.chain type = m.chain type :=
  congrArg ((type :: ·) <$> ·) (h.ancestorsWithin _ ht)

theorem facet {type : SimpleType} (ht : Uphold (Detail.Omits symbol) type.details)
    (kind : FacetKind) : m'.facet type kind = m.facet type kind :=
  congrArg (nearestFacet kind <$> ·) (h.chain ht)

theorem countFacet {type : SimpleType} (ht : Uphold (Detail.Omits symbol) type.details)
    (kind : FacetKind) : m'.countFacet type kind = m.countFacet type kind :=
  congrArg (· >>= _) (h.facet ht kind)

theorem enumeration {type : SimpleType} (ht : Uphold (Detail.Omits symbol) type.details) :
    m'.enumeration type = m.enumeration type :=
  congrArg (· >>= _) (h.facet ht .enumeration)

theorem variety {type : SimpleType} (ht : Uphold (Detail.Omits symbol) type.details) :
    m'.variety type = m.variety type :=
  congrArg (nearestVariety <$> ·) (h.chain ht)

theorem builtinAncestor {type : SimpleType} (ht : Uphold (Detail.Omits symbol) type.details) :
    m'.builtinAncestor type = m.builtinAncestor type :=
  congrArg (· >>= _) (h.chain ht)

theorem numericRange {type : SimpleType} (ht : Uphold (Detail.Omits symbol) type.details) :
    NumericRange.ofType m' type = NumericRange.ofType m type := by
  rw [NumericRange.ofType, NumericRange.ofType, h.chain ht, h.countFacet ht, h.countFacet ht]

end IsBeside

end Model

/-! ## Registering a component last -/

namespace Table

variable {α : Type} {t : Table α} {name : QName}

/-- A new name is entered last. -/
theorem insertInto_of_lookup (a : α) {entries : List (QName × α)} (h : entries.lookup name = none) :
    insertInto name a entries = entries ++ [(name, a)] := by
  induction entries with
  | nil => rfl
  | cons entry rest ih =>
    rw [List.lookup_cons] at h
    split at h
    · cases h
    · next hne =>
      rw [insertInto, if_neg fun heq => beq_eq_false_iff_ne.mp hne heq.symm, ih h, List.cons_append]

theorem values_insert_of_new (h : t.get? name = none) (a : α) :
    (t.insert name a).values = t.values ++ [a] := by
  rw [Table.insert, values, insertInto_of_lookup a h, List.map_append]
  rfl

theorem get?_insert_of_ne {other : QName} (h : other ≠ name) (a : α) :
    (t.insert name a).get? other = t.get? other := by
  rw [get?_insert, if_neg h]

end Table

/-- An element in no substitution group, or a type that is derived from nothing. All other
components stand by themselves anyway. -/
def Declaration.StandsAlone : Declaration → Prop
  | .element decl _ => decl.head = none
  | .type _ definition => ∀ type, definition.asComplex = some type → type.derivation = none
  | .attr _ => True
  | .attributeGroup _ _ => True
  | .group _ _ => True

namespace Model

/-- Registers a component behind all others. -/
def register (m : Model) (declaration : Declaration) : Model :=
  (({ model := m } : Loading).register declaration).model

/-- The symbol stands for nothing. -/
def Lacks (m : Model) (symbol : Symbol) : Prop :=
  match symbol.space with
  | .element => m.elements.get? symbol.name = none
  | .type => m.types.get? symbol.name = none
  | .attr => m.attributes.get? symbol.name = none
  | .attributeGroup => m.attributeGroups.get? symbol.name = none
  | .group => m.groups.get? symbol.name = none

variable {m : Model}

theorem headOf_addElement {decl : ElementDecl} (hnew : m.elements.get? decl.name = none)
    (hhead : decl.head = none) : (m.addElement decl).headOf = m.headOf := by
  have hname : (decl.numberFrom m.next).1.name = decl.name := decl.name_numberFrom m.next
  have hnumbered : (decl.numberFrom m.next).1.head = none := by
    cases decl
    exact hhead
  funext name
  rw [headOf, headOf, addElement]
  simp only [hname, Table.get?_insert]
  split
  · next heq => rw [heq, hnew, Option.bind_some, hnumbered, Option.bind_none]
  · rfl

/-- An element that joins no substitution group is no substitute. -/
theorem substitutionMembers_addElement {decl : ElementDecl}
    (hnew : m.elements.get? decl.name = none) (hhead : decl.head = none) (head : QName) :
    (m.addElement decl).substitutionMembers head = m.substitutionMembers head := by
  have hname : (decl.numberFrom m.next).1.name = decl.name := decl.name_numberFrom m.next
  have hnumbered : (decl.numberFrom m.next).1.head = none := by
    cases decl
    exact hhead
  have hvalues : (m.addElement decl).elements.values
      = m.elements.values ++ [(decl.numberFrom m.next).1] := by
    rw [addElement]
    simp only [hname]
    exact Table.values_insert_of_new hnew _
  rw [substitutionMembers, substitutionMembers, hvalues, List.filter_append,
    headOf_addElement hnew hhead, List.filter_cons_of_neg, List.filter_nil, List.append_nil]
  rw [hnumbered, leadsTo_none, Bool.and_false]
  exact Bool.false_ne_true

theorem derivation_numberFrom {definition : TypeDef}
    (halone : ∀ type, definition.asComplex = some type → type.derivation = none) (n : Nat)
    (type : ComplexType) (h : (definition.numberFrom n).1.asComplex = some type) :
    type.derivation = none := by
  cases definition with
  | simple own => cases h
  | complex own =>
    cases h
    have hown := halone own rfl
    cases own
    exact hown

theorem baseOf_addNamedType {name : QName} {definition : TypeDef}
    (hnew : m.types.get? name = none)
    (halone : ∀ type, definition.asComplex = some type → type.derivation = none) :
    (m.addNamedType name definition).baseOf = m.baseOf := by
  funext other
  rw [baseOf, baseOf, addNamedType]
  simp only [Table.get?_insert]
  by_cases hother : other = name
  · rw [if_pos hother, hother, hnew]
    have hderivation := derivation_numberFrom halone m.next
    cases hnumbered : (definition.numberFrom m.next).1 with
    | simple own => rfl
    | complex own =>
      rw [hnumbered] at hderivation
      simp only [hderivation own rfl, Option.map_none]
  · rw [if_neg hother]

/-- A type that is derived from nothing is no substitute. -/
theorem concreteSubtypes_addNamedType {name : QName} {definition : TypeDef}
    (hnew : m.types.get? name = none)
    (halone : ∀ type, definition.asComplex = some type → type.derivation = none) (base : QName) :
    (m.addNamedType name definition).concreteSubtypes base = m.concreteSubtypes base := by
  have hvalues : (m.addNamedType name definition).types.values
      = m.types.values ++ [(definition.numberFrom m.next).1] := Table.values_insert_of_new hnew _
  have hderivation := derivation_numberFrom halone m.next
  rw [concreteSubtypes, concreteSubtypes, hvalues, List.filterMap_append, List.filter_append,
    baseOf_addNamedType hnew halone]
  cases hnumbered : (definition.numberFrom m.next).1 with
  | simple own => exact List.append_nil _
  | complex own =>
    have hone : [TypeDef.complex own].filterMap TypeDef.asComplex = [own] := rfl
    rw [hnumbered] at hderivation
    rw [hone, List.filter_cons_of_neg, List.filter_nil, List.append_nil]
    rw [hderivation own rfl, Option.map_none, leadsTo_none, Bool.and_false]
    exact Bool.false_ne_true

/-- **A component that stands alone and is not mentioned leaves all other symbols and all
substitutes as they are.** -/
theorem isBeside_register {declaration : Declaration} (halone : declaration.StandsAlone)
    (hnew : m.Lacks declaration.symbol) (homits : .refers declaration.symbol ∉ m.details) :
    m.IsBeside declaration.symbol (m.register declaration) := by
  have hupholds : m.Upholds (Detail.Omits declaration.symbol) :=
    ⟨fun detail hdetail heq => homits (heq ▸ hdetail), nofun⟩
  cases declaration with
  | element decl inheritsType =>
    have hname : (decl.numberFrom m.next).1.name = decl.name := decl.name_numberFrom m.next
    refine ⟨fun name hne => ?_, fun _ _ => rfl, fun _ _ => rfl, fun _ _ => rfl, fun _ _ => rfl,
      substitutionMembers_addElement hnew halone, fun _ => rfl, hupholds⟩
    exact Table.get?_insert_of_ne (fun heq => hne (congrArg (Symbol.mk .element) (heq.trans hname))) _
  | type own definition =>
    refine ⟨fun _ _ => rfl, fun name hne => ?_, fun _ _ => rfl, fun _ _ => rfl, fun _ _ => rfl,
      fun _ => rfl, concreteSubtypes_addNamedType hnew halone, hupholds⟩
    exact Table.get?_insert_of_ne (fun heq => hne (congrArg (Symbol.mk .type) heq)) _
  | attr decl =>
    have hname : (decl.numberFrom m.next).1.name = decl.name := decl.name_numberFrom m.next
    refine ⟨fun _ _ => rfl, fun _ _ => rfl, fun name hne => ?_, fun _ _ => rfl, fun _ _ => rfl,
      fun _ => rfl, fun _ => rfl, hupholds⟩
    exact Table.get?_insert_of_ne (fun heq => hne (congrArg (Symbol.mk .attr) (heq.trans hname))) _
  | attributeGroup own group =>
    refine ⟨fun _ _ => rfl, fun _ _ => rfl, fun _ _ => rfl, fun name hne => ?_, fun _ _ => rfl,
      fun _ => rfl, fun _ => rfl, hupholds⟩
    exact Table.get?_insert_of_ne (fun heq => hne (congrArg (Symbol.mk .attributeGroup) heq)) _
  | group own group =>
    refine ⟨fun _ _ => rfl, fun _ _ => rfl, fun _ _ => rfl, fun _ _ => rfl, fun name hne => ?_,
      fun _ => rfl, fun _ => rfl, hupholds⟩
    exact Table.get?_insert_of_ne (fun heq => hne (congrArg (Symbol.mk .group) heq)) _

end Model

end Specimen

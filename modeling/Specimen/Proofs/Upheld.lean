import Specimen.Proofs.Derivation
import Specimen.Proofs.Details

/-!
# What answers say

An answer about a schema is put together from what the question and the components of the schema
say. So what holds of every detail of both holds of every detail of the answer, whether a name is
looked up, a base is followed or an attribute group is gone through.
-/

namespace Specimen

/-- All of these details are as described. -/
def Details.Uphold (P : Detail → Prop) (details : List Detail) : Prop := ∀ detail ∈ details, P detail

open Details

namespace Details.Uphold

variable {P : Detail → Prop} {details others : List Detail}

theorem mono (h : Uphold P others) (hs : details ⊆ others) : Uphold P details :=
  fun detail hd => h detail (hs hd)

theorem nil : Uphold P [] := fun _ hd => absurd hd List.not_mem_nil

theorem append : Uphold P (details ++ others) ↔ Uphold P details ∧ Uphold P others :=
  List.forall_mem_append

theorem cons {detail : Detail} :
    Uphold P (detail :: details) ↔ P detail ∧ Uphold P details :=
  List.forall_mem_cons

theorem flatMap {α : Type} {f : α → List Detail} {l : List α} :
    Uphold P (l.flatMap f) ↔ ∀ a ∈ l, Uphold P (f a) :=
  List.forall_mem_flatMap

end Details.Uphold

/-- All details of a schema are as described, and so is an occurrence bound that it does not state.
-/
structure Model.Upholds (m : Model) (P : Detail → Prop) : Prop where
  details : Uphold P m.details
  once : P (.occurs .once)

namespace Model.Upholds

variable {m : Model} {P : Detail → Prop} (h : m.Upholds P)

include h

/-! ## Components -/

theorem element {decl : ElementDecl} (hd : decl ∈ m.elements.values) : Uphold P decl.details :=
  h.details.mono (Model.details_of_element hd)

theorem type {definition : TypeDef} (hd : definition ∈ m.types.values) :
    Uphold P definition.details :=
  h.details.mono (Model.details_of_type hd)

theorem complexType {name : QName} {type : ComplexType}
    (hget : m.types.get? name = some (.complex type)) : Uphold P type.details :=
  h.type (Table.mem_values_of_get? hget)

theorem resolveType {ref : TypeRef} (href : Uphold P ref.details) :
    Gives (m.resolveType ref) fun definition => Uphold P definition.details := by
  unfold Model.resolveType
  split
  · exact .ok href
  · split
    · exact .ok (h.type (Table.mem_values_of_get? ‹_›))
    · exact .error _

theorem resolveElement (name : QName) :
    Gives (m.resolveElement name) fun decl => Uphold P decl.details := by
  unfold Model.resolveElement
  split
  · exact .ok (h.element (Table.mem_values_of_get? ‹_›))
  · exact .error _

theorem rootElement (name : QName) :
    Gives (m.rootElement name) fun decl => Uphold P decl.details := by
  unfold Model.rootElement
  split
  · exact .ok (h.element (Table.mem_values_of_get? ‹_›))
  · exact .error _

theorem resolveGroup (name : QName) :
    Gives (m.resolveGroup name) fun group => Uphold P group.details := by
  unfold Model.resolveGroup
  split
  · exact .ok (h.details.mono (Model.details_of_group (Table.mem_values_of_get? ‹_›)))
  · exact .error _

theorem resolveAttribute {target : AttributeTarget} (ht : Uphold P target.details) :
    Gives (m.resolveAttribute target) fun decl => Uphold P decl.details := by
  unfold Model.resolveAttribute
  split
  · exact .ok ht
  · split
    · exact .ok (h.details.mono (Model.details_of_attr (Table.mem_values_of_get? ‹_›)))
    · exact .error _

theorem resolveAttributeGroup (name : QName) :
    Gives (m.resolveAttributeGroup name) fun group => Uphold P group.details := by
  unfold Model.resolveAttributeGroup
  split
  · exact .ok (h.details.mono (Model.details_of_attributeGroup (Table.mem_values_of_get? ‹_›)))
  · exact .error _

theorem substitutionMembers (head : QName) :
    ∀ decl ∈ m.substitutionMembers head, Uphold P decl.details :=
  fun _ hd => h.element (List.mem_of_mem_filter hd)

theorem concreteSubtypes (base : QName) :
    ∀ type ∈ m.concreteSubtypes base, Uphold P type.details := by
  intro type ht
  obtain ⟨definition, hmem, hcomplex⟩ := List.mem_filterMap.mp (List.mem_of_mem_filter ht)
  cases definition with
  | simple type => cases hcomplex
  | complex type =>
    cases hcomplex
    exact h.type hmem

/-! ## Complex types -/

omit h in
theorem particle {content : Content} (hc : Uphold P content.details) {p : Particle}
    (hp : content.particle = some p) : Uphold P p.details :=
  Content.details_of_particle hp ▸ hc

theorem extendContent {base own : Content} (hbase : Uphold P base.details)
    (hown : Uphold P own.details) : Uphold P (extendContent base own).details := by
  have happend {p : Particle} (hp : appendParticle base.particle own.particle = some p) :
      Uphold P p.details := by
    unfold appendParticle at hp
    split at hp
    · next first second hfirst hsecond =>
      cases hp
      have hboth : Uphold P (detailsOfAll [first, second]) :=
        Uphold.append.mpr ⟨particle hbase hfirst, Uphold.append.mpr ⟨particle hown hsecond, .nil⟩⟩
      exact Uphold.cons.mpr ⟨h.once, hboth⟩
    · next first hfirst _ =>
      cases hp
      exact particle hbase hfirst
    · exact particle hown hp
  unfold Model.extendContent
  split
  · next p hp => split <;> exact happend hp
  · split
    · exact hown
    · exact hbase

theorem contentWithin (steps : Nat) {type : ComplexType} (ht : Uphold P type.details) :
    Gives (m.contentWithin steps type) fun content => Uphold P content.details := by
  induction steps generalizing type with
  | zero =>
    unfold Model.contentWithin
    split
    · exact .error _
    · exact .ok (ht.mono type.content_subset)
  | succ steps ih =>
    unfold Model.contentWithin
    split
    · next base hderivation =>
      have hbase : Uphold P (TypeRef.named base).details :=
        Uphold.cons.mpr ⟨ht _ (ComplexType.base_mem hderivation), .nil⟩
      refine (h.resolveType hbase).bind fun definition hdefinition => ?_
      split
      · exact .ok (h.extendContent hbase (ht.mono type.content_subset))
      · exact (ih hdefinition).bind fun inherited hinherited =>
          .ok (h.extendContent hinherited (ht.mono type.content_subset))
    · exact .ok (ht.mono type.content_subset)

theorem contentOf {type : ComplexType} (ht : Uphold P type.details) :
    Gives (m.contentOf type) fun content => Uphold P content.details :=
  h.contentWithin _ ht

/-! ## Attributes -/

theorem effectiveAttribute {use : AttributeUse} (hu : Uphold P use.details) :
    Gives (m.effectiveAttribute use) fun attr => Uphold P attr.decl.details := by
  rw [use.details_eq] at hu
  exact (h.resolveAttribute hu).bind fun _ hdecl => .ok hdecl

theorem flattenItem (steps : Nat) {item : AttributeItem} (hi : Uphold P item.details) :
    Gives (m.flattenItem steps item) fun uses => ∀ use ∈ uses, Uphold P use.2.decl.details := by
  have huse {use : AttributeUse} (hu : Uphold P use.details) : Gives (m.effectiveAttribute use >>=
      fun attr => .ok [(use.mode, attr)]) fun uses => ∀ use ∈ uses, Uphold P use.2.decl.details :=
    (h.effectiveAttribute hu).bind fun attr hattr => .ok (List.forall_mem_singleton.mpr hattr)
  induction steps generalizing item with
  | zero =>
    cases item with
    | use use => exact huse hi
    | group name => exact .error _
  | succ steps ih =>
    cases item with
    | use use => exact huse hi
    | group name =>
      refine (h.resolveAttributeGroup name).bind fun group hgroup => ?_
      have hitems := hgroup.mono group.items_subset
      rw [detailsOfItems_eq, Uphold.flatMap] at hitems
      refine (Gives.mapM fun item hitem => ih (hitems item hitem)).map fun lists hlists => ?_
      exact List.forall_mem_flatten.mpr hlists

theorem flattenItems {items : List AttributeItem} (hi : Uphold P (detailsOfItems items)) :
    Gives (m.flattenItems items) fun uses => ∀ use ∈ uses, Uphold P use.2.decl.details := by
  rw [detailsOfItems_eq, Uphold.flatMap] at hi
  refine (Gives.mapM fun item hitem => h.flattenItem _ (hi item hitem)).map fun lists hlists => ?_
  exact List.forall_mem_flatten.mpr hlists

theorem attributesWithin (steps : Nat) {type : ComplexType} (ht : Uphold P type.details) :
    Gives (m.attributesWithin steps type) fun attrs => ∀ attr ∈ attrs, Uphold P attr.decl.details := by
  have hown {type : ComplexType} (ht : Uphold P type.details) {inherited : List EffectiveAttribute}
      {own : List (UseMode × EffectiveAttribute)} (hitems : m.flattenItems type.attributes = .ok own)
      (hinherited : ∀ attr ∈ inherited, Uphold P attr.decl.details) :
      ∀ attr ∈ own.foldl applyUse inherited, Uphold P attr.decl.details := by
    intro attr hattr
    rcases mem_of_mem_applyUses hattr with hattr | ⟨use, huse, rfl⟩
    · exact hinherited attr hattr
    · exact h.flattenItems (ht.mono type.attributes_subset) own hitems use huse
  have hnone : ∀ attr ∈ ([] : List EffectiveAttribute), Uphold P attr.decl.details :=
    fun _ hattr => absurd hattr List.not_mem_nil
  intro attrs hattrs
  induction steps generalizing type attrs with
  | zero =>
    obtain ⟨_, own, hitems, rfl, ⟨rfl, -⟩ | ⟨n, -, hn, -⟩⟩ := attributesWithin_cases hattrs
    · exact hown ht hitems hnone
    · cases hn
  | succ steps ih =>
    obtain ⟨_, own, hitems, rfl, ⟨rfl, -⟩ | ⟨n, baseType, hn, htype, hbase⟩⟩ :=
      attributesWithin_cases hattrs
    · exact hown ht hitems hnone
    · cases hn
      obtain ⟨name, hget⟩ := exists_get?_of_baseType? htype
      exact hown ht hitems (ih (h.complexType hget) _ hbase)

theorem attributesOf {type : ComplexType} (ht : Uphold P type.details) :
    Gives (m.attributesOf type) fun attrs => ∀ attr ∈ attrs, Uphold P attr.decl.details :=
  h.attributesWithin _ ht

/-! ## Simple types -/

theorem resolveSimpleWithin (whole : TypeRef) (steps : Nat) {ref : TypeRef}
    (href : Uphold P ref.details) :
    Gives (m.resolveSimpleWithin whole steps ref) fun type => Uphold P type.details := by
  induction steps generalizing ref with
  | zero => exact .error _
  | succ steps ih =>
    unfold Model.resolveSimpleWithin
    refine (h.resolveType href).bind fun definition hdefinition => ?_
    split
    · exact .ok hdefinition
    · refine (h.contentOf hdefinition).bind fun content hcontent => ?_
      split
      · exact ih hcontent
      · exact .error _

theorem resolveSimple {ref : TypeRef} (href : Uphold P ref.details) :
    Gives (m.resolveSimple ref) fun type => Uphold P type.details :=
  h.resolveSimpleWithin ref _ href

theorem textType {definition : TypeDef} (hd : Uphold P definition.details) :
    Gives (m.textType definition) fun found => ∀ type, found = some type → Uphold P type.details := by
  unfold Model.textType
  split
  · exact .ok fun _ heq => Option.some.inj heq ▸ hd
  · refine (h.contentOf hd).bind fun content hcontent => ?_
    split
    · exact (h.resolveSimple hcontent).map fun type ht _ heq => Option.some.inj heq ▸ ht
    · exact .ok nofun

theorem ancestorsWithin (steps : Nat) {type : SimpleType} (ht : Uphold P type.details) :
    Gives (m.ancestorsWithin steps type) fun types => ∀ type ∈ types, Uphold P type.details := by
  have hnone : ∀ type ∈ ([] : List SimpleType), Uphold P type.details :=
    fun _ hmem => absurd hmem List.not_mem_nil
  induction steps generalizing type with
  | zero =>
    unfold Model.ancestorsWithin
    split
    · exact .ok hnone
    · exact .error _
  | succ steps ih =>
    unfold Model.ancestorsWithin
    split
    · exact .ok hnone
    · next base hbase =>
      refine (h.resolveSimple (ht.mono (SimpleType.base_subset hbase))).bind fun next hnext => ?_
      exact (ih hnext).bind fun rest hrest => .ok (List.forall_mem_cons.mpr ⟨hnext, hrest⟩)

theorem chain {type : SimpleType} (ht : Uphold P type.details) :
    Gives (m.chain type) fun types => ∀ type ∈ types, Uphold P type.details :=
  (h.ancestorsWithin _ ht).map fun _ hrest => List.forall_mem_cons.mpr ⟨ht, hrest⟩

theorem variety {type : SimpleType} (ht : Uphold P type.details) :
    Gives (m.variety type) fun variety => Uphold P variety.details := by
  refine (h.chain ht).map fun types htypes => ?_
  induction types with
  | nil => exact .nil
  | cons first rest ih =>
    obtain ⟨hfirst, hrest⟩ := List.forall_mem_cons.mp htypes
    rw [nearestVariety]
    split
    · exact ih hrest
    · exact hfirst.mono first.variety_subset

end Model.Upholds

end Specimen

import Mathlib.Data.List.Forall2
import Specimen.Proofs.Agreement
import Specimen.Proofs.Entries
import Specimen.Proofs.Unnumbered
import Specimen.Schema.SimpleType
import Specimen.Schema.Substitution

/-!
# Schemas that answer alike

Every question about a schema is answered from what its names stand for. So two schemas in which
every name stands for the same, but for numbers, give the same answers to every question, but for
numbers: the content, the attributes and the wildcard of a type, and the facets and the variety.
Nor does it matter in which order the components were entered, except for the order in which several
of them are listed.
-/

namespace Specimen

/-! ## Alike but for numbers -/

/-- The same, as far as `f` tells. -/
def SameBy {α β : Type} (f : α → β) (a a' : α) : Prop := f a = f a'

section

variable {α β ε : Type} {f : α → β}

theorem rel_of_map_eq {o o' : Option α} (h : o.map f = o'.map f) :
    Option.Rel (SameBy f) o o' := by
  cases o with
  | none =>
    cases o' with
    | none => exact .none
    | some a' => cases h
  | some a =>
    cases o' with
    | none => cases h
    | some a' => exact .some (Option.some.inj h)

theorem forall₂_of_map_eq {l l' : List α} (h : l.map f = l'.map f) :
    List.Forall₂ (SameBy f) l l' := by
  induction l generalizing l' with
  | nil =>
    cases l' with
    | nil => exact .nil
    | cons a' l' => cases h
  | cons a l ih =>
    cases l' with
    | nil => cases h
    | cons a' l' => exact .cons (List.cons.inj h).1 (ih (List.cons.inj h).2)

theorem map_eq_of_forall₂ {l l' : List α} (h : List.Forall₂ (SameBy f) l l') :
    l.map f = l'.map f := by
  induction h with
  | nil => rfl
  | cons ha _ ih => exact congrArg₂ List.cons ha ih

theorem Agree.map_eq {x y : Except ε α} (h : AnswerAlike (SameBy f) x y) : x.map f = y.map f := by
  cases h with
  | ok h => exact congrArg Except.ok h
  | error h => exact congrArg Except.error h

theorem Agree.eq {x y : Except ε α} (h : AnswerAlike Eq x y) : x = y := by
  cases h with
  | ok h => exact congrArg Except.ok h
  | error h => exact congrArg Except.error h

theorem Agree.findSomeM? {α' γ : Type} {T : α → α' → Prop} {g : γ → γ} {l : List α}
    {l' : List α'} {x : α → Except ε (Option γ)} {y : α' → Except ε (Option γ)}
    (hl : List.Forall₂ T l l')
    (h : ∀ a a', T a a' → AnswerAlike (SameBy (Option.map g)) (x a) (y a')) :
    AnswerAlike (SameBy (Option.map g)) (l.findSomeM? x) (l'.findSomeM? y) := by
  induction hl with
  | nil => exact .ok rfl
  | cons hhead _ ih =>
    rw [List.findSomeM?, List.findSomeM?]
    refine (h _ _ hhead).bind fun found found' hfound => ?_
    cases rel_of_map_eq hfound with
    | none => exact ih
    | some _ => exact .ok hfound

end

/-! ## Components that are alike -/

theorem TypeDef.name_unnumbered (definition : TypeDef) :
    definition.unnumbered.name = definition.name := by
  cases definition with
  | simple type =>
    cases type
    rfl
  | complex type =>
    cases type
    rfl

theorem TypeRef.name_unnumbered (type : TypeRef) : type.unnumbered.name = type.name := by
  cases type with
  | named name => rfl
  | anonymous definition => exact definition.name_unnumbered

theorem TypeRef.name_of_alike {type type' : TypeRef}
    (h : SameBy TypeRef.unnumbered type type') : type.name = type'.name := by
  rw [← type.name_unnumbered, ← type'.name_unnumbered, h]

/-- Two types are alike if they are of the same kind, and alike as such. -/
inductive TypeDef.Alike : TypeDef → TypeDef → Prop
  | simple {type type' : SimpleType} (h : SameBy SimpleType.unnumbered type type') :
    Alike (.simple type) (.simple type')
  | complex {type type' : ComplexType} (h : SameBy ComplexType.unnumbered type type') :
    Alike (.complex type) (.complex type')

theorem TypeDef.alike_of_unnumbered {definition definition' : TypeDef}
    (h : SameBy TypeDef.unnumbered definition definition') : definition.Alike definition' := by
  unfold SameBy at h
  cases definition <;> cases definition' <;> rw [unnumbered, unnumbered] at h <;> injection h
  case simple.simple h => exact .simple h
  case complex.complex h => exact .complex h

/-- What two simple types have in common that are alike. -/
structure SimpleType.Alike (type type' : SimpleType) : Prop where
  name : type.name = type'.name
  base : Option.Rel (SameBy TypeRef.unnumbered) type.base type'.base
  variety : SameBy Variety.unnumbered type.variety type'.variety
  facets : type.facets = type'.facets

theorem SimpleType.alike_of_unnumbered {type type' : SimpleType}
    (h : SameBy SimpleType.unnumbered type type') : type.Alike type' := by
  obtain ⟨name, base, variety, facets⟩ := type
  obtain ⟨name', base', variety', facets'⟩ := type'
  rw [SameBy, unnumbered, unnumbered] at h
  injection h with hname hbase hvariety hfacets
  rw [unnumberedBase_eq_map, unnumberedBase_eq_map] at hbase
  exact ⟨hname, rel_of_map_eq hbase, hvariety, hfacets⟩

/-- What two complex types have in common that are alike. -/
structure ComplexType.Alike (type type' : ComplexType) : Prop where
  name : type.name = type'.name
  isAbstract : type.isAbstract = type'.isAbstract
  content : SameBy Content.unnumbered type.content type'.content
  attributes : List.Forall₂ (SameBy AttributeItem.unnumbered) type.attributes type'.attributes
  wildcard : SameBy (Option.map Wildcard.unnumbered) type.wildcard type'.wildcard
  derivation : type.derivation = type'.derivation

theorem ComplexType.alike_of_unnumbered {type type' : ComplexType}
    (h : SameBy ComplexType.unnumbered type type') : type.Alike type' := by
  obtain ⟨name, isAbstract, content, attributes, wildcard, derivation⟩ := type
  obtain ⟨name', isAbstract', content', attributes', wildcard', derivation'⟩ := type'
  rw [SameBy, unnumbered, unnumbered] at h
  injection h with hname habstract hcontent hattributes hwildcard hderivation
  rw [unnumberedItems_eq_map, unnumberedItems_eq_map] at hattributes
  exact ⟨hname, habstract, hcontent, forall₂_of_map_eq hattributes, hwildcard, hderivation⟩

/-- What two elements have in common that are alike. -/
structure ElementDecl.Alike (decl decl' : ElementDecl) : Prop where
  name : decl.name = decl'.name
  type : SameBy TypeRef.unnumbered decl.type decl'.type
  scope : decl.scope = decl'.scope
  isAbstract : decl.isAbstract = decl'.isAbstract
  head : decl.head = decl'.head

theorem ElementDecl.alike_iff {decl decl' : ElementDecl} :
    SameBy ElementDecl.unnumbered decl decl' ↔ decl.Alike decl' := by
  obtain ⟨id, name, type, scope, isAbstract, head⟩ := decl
  obtain ⟨id', name', type', scope', isAbstract', head'⟩ := decl'
  rw [SameBy, unnumbered, unnumbered]
  constructor
  · intro h
    injection h with _ hname htype hscope habstract hhead
    exact ⟨hname, htype, hscope, habstract, hhead⟩
  · rintro ⟨rfl, htype, rfl, rfl, rfl⟩
    exact congrArg (fun type => ElementDecl.mk 0 name type scope isAbstract head) htype

/-- An attribute that is in effect, without the numbers in its type. -/
def EffectiveAttribute.unnumbered (attr : EffectiveAttribute) : EffectiveAttribute :=
  { attr with decl := attr.decl.unnumbered }

/-- The use of an attribute that is in effect, without numbers. -/
def unnumberedUse (use : UseMode × EffectiveAttribute) : UseMode × EffectiveAttribute :=
  (use.1, use.2.unnumbered)

theorem AttributeDecl.name_unnumbered (decl : AttributeDecl) :
    decl.unnumbered.name = decl.name := by
  cases decl
  rfl

theorem AttributeDecl.constraint_unnumbered (decl : AttributeDecl) :
    decl.unnumbered.constraint = decl.constraint := by
  cases decl
  rfl

/-- Two entries of attribute lists are alike if they are of the same kind, and alike as such. -/
inductive AttributeItem.Alike : AttributeItem → AttributeItem → Prop
  | use {use use' : AttributeUse} (h : SameBy AttributeUse.unnumbered use use') :
    Alike (.use use) (.use use')
  | group (name : QName) : Alike (.group name) (.group name)

theorem AttributeItem.alike_of_unnumbered {item item' : AttributeItem}
    (h : SameBy AttributeItem.unnumbered item item') : item.Alike item' := by
  unfold SameBy at h
  cases item <;> cases item' <;> rw [unnumbered, unnumbered] at h <;> injection h
  case use.use h => exact .use h
  case group.group h => exact h ▸ .group _

theorem AttributeUse.mode_of_alike {use use' : AttributeUse}
    (h : SameBy AttributeUse.unnumbered use use') : use.mode = use'.mode := by
  obtain ⟨mode, constraint, target⟩ := use
  obtain ⟨mode', constraint', target'⟩ := use'
  rw [SameBy, unnumbered, unnumbered] at h
  injection h

theorem AttributeGroup.forall₂_items {group group' : AttributeGroup}
    (h : SameBy AttributeGroup.unnumbered group group') :
    List.Forall₂ (SameBy AttributeItem.unnumbered) group.items group'.items := by
  have hitems := congrArg AttributeGroup.items h
  refine forall₂_of_map_eq ?_
  rw [← unnumberedItems_eq_map, ← unnumberedItems_eq_map]
  exact hitems

theorem AttributeGroup.wildcard_of_alike {group group' : AttributeGroup}
    (h : SameBy AttributeGroup.unnumbered group group') :
    SameBy (Option.map Wildcard.unnumbered) group.wildcard group'.wildcard :=
  congrArg AttributeGroup.wildcard h

/-! ## Steps that do not look at numbers -/

namespace Model

theorem unnumbered_extendContent (base own : Content) :
    (extendContent base own).unnumbered = extendContent base.unnumbered own.unnumbered := by
  cases base <;> cases own <;> rfl

theorem unnumbered_putAttribute (attr : EffectiveAttribute) (attrs : List EffectiveAttribute) :
    (putAttribute attr attrs).map EffectiveAttribute.unnumbered
      = putAttribute attr.unnumbered (attrs.map EffectiveAttribute.unnumbered) := by
  induction attrs with
  | nil => rfl
  | cons earlier rest ih =>
    have hname (attr : EffectiveAttribute) : attr.unnumbered.decl.name = attr.decl.name :=
      attr.decl.name_unnumbered
    rw [List.map_cons, putAttribute, putAttribute, hname, hname]
    split
    · rfl
    · rw [List.map_cons, ih]

theorem unnumbered_dropAttribute (name : QName) (attrs : List EffectiveAttribute) :
    (dropAttribute name attrs).map EffectiveAttribute.unnumbered
      = dropAttribute name (attrs.map EffectiveAttribute.unnumbered) := by
  induction attrs with
  | nil => rfl
  | cons earlier rest ih =>
    have hname : earlier.unnumbered.decl.name = earlier.decl.name := earlier.decl.name_unnumbered
    rw [List.map_cons, dropAttribute, dropAttribute, hname]
    split
    · rfl
    · rw [List.map_cons, ih]

theorem unnumbered_applyUse (attrs : List EffectiveAttribute)
    (use : UseMode × EffectiveAttribute) :
    (applyUse attrs use).map EffectiveAttribute.unnumbered
      = applyUse (attrs.map EffectiveAttribute.unnumbered) (unnumberedUse use) := by
  have hname : use.2.unnumbered.decl.name = use.2.decl.name := use.2.decl.name_unnumbered
  unfold applyUse unnumberedUse
  rw [hname]
  cases use.1 with
  | prohibited => exact unnumbered_dropAttribute _ _
  | optional => exact unnumbered_putAttribute _ _
  | required => exact unnumbered_putAttribute _ _

theorem unnumbered_applyUses (uses : List (UseMode × EffectiveAttribute))
    (attrs : List EffectiveAttribute) :
    (uses.foldl applyUse attrs).map EffectiveAttribute.unnumbered
      = (uses.map unnumberedUse).foldl applyUse (attrs.map EffectiveAttribute.unnumbered) := by
  induction uses generalizing attrs with
  | nil => rfl
  | cons use rest ih =>
    rw [List.foldl_cons, ih, List.map_cons, List.foldl_cons, unnumbered_applyUse]

theorem applyUses_of_alike {uses uses' : List (UseMode × EffectiveAttribute)}
    {attrs attrs' : List EffectiveAttribute} (huses : SameBy (List.map unnumberedUse) uses uses')
    (h : SameBy (List.map EffectiveAttribute.unnumbered) attrs attrs') :
    SameBy (List.map EffectiveAttribute.unnumbered) (uses.foldl applyUse attrs)
      (uses'.foldl applyUse attrs') := by
  rw [SameBy, unnumbered_applyUses, unnumbered_applyUses, huses, h]

theorem flatten_of_forall₂ {uses uses' : List (List (UseMode × EffectiveAttribute))}
    (h : List.Forall₂ (SameBy (List.map unnumberedUse)) uses uses') :
    SameBy (List.map unnumberedUse) uses.flatten uses'.flatten := by
  rw [SameBy, List.map_flatten, List.map_flatten, map_eq_of_forall₂ h]

theorem nearestFacet_of_alike {chain chain' : List SimpleType} (kind : FacetKind)
    (h : List.Forall₂ (SameBy SimpleType.unnumbered) chain chain') :
    nearestFacet kind chain = nearestFacet kind chain' := by
  unfold nearestFacet
  induction h with
  | nil => rfl
  | cons htype _ ih =>
    rw [List.findSome?_cons, List.findSome?_cons, (SimpleType.alike_of_unnumbered htype).facets, ih]

theorem nearestVariety_of_alike {chain chain' : List SimpleType}
    (h : List.Forall₂ (SameBy SimpleType.unnumbered) chain chain') :
    SameBy Variety.unnumbered (nearestVariety chain) (nearestVariety chain') := by
  induction h with
  | nil => rfl
  | @cons type type' _ _ htype _ ih =>
    have hvariety := (SimpleType.alike_of_unnumbered htype).variety
    rw [nearestVariety, nearestVariety]
    generalize type.variety = variety at hvariety
    generalize type'.variety = variety' at hvariety
    cases variety <;> cases variety' <;> first | exact ih | exact hvariety | cases hvariety

end Model

/-! ## Schemas that are alike -/

/-- Every name stands for the same in two schemas, but for numbers. -/
structure Model.IsAlike (m m' : Model) : Prop where
  elements : ∀ name, (m.elements.get? name).map ElementDecl.unnumbered
    = (m'.elements.get? name).map ElementDecl.unnumbered
  types : ∀ name, (m.types.get? name).map TypeDef.unnumbered
    = (m'.types.get? name).map TypeDef.unnumbered
  attributes : ∀ name, (m.attributes.get? name).map AttributeDecl.unnumbered
    = (m'.attributes.get? name).map AttributeDecl.unnumbered
  groups : ∀ name, (m.groups.get? name).map ModelGroup.unnumbered
    = (m'.groups.get? name).map ModelGroup.unnumbered
  attributeGroups : ∀ name, (m.attributeGroups.get? name).map AttributeGroup.unnumbered
    = (m'.attributeGroups.get? name).map AttributeGroup.unnumbered

/-- To an entry of a table there is one in the other table. -/
theorem Table.exists_alike {α : Type} {f : α → α} {t t' : Table α}
    (ht : t.IsDistinct) (halike : ∀ name, (t.get? name).map f = (t'.get? name).map f) {a : α}
    (ha : a ∈ t.values) : ∃ a' ∈ t'.values, SameBy f a a' := by
  obtain ⟨⟨name, a⟩, hentry, rfl⟩ := List.mem_map.mp ha
  have hfound := rel_of_map_eq (halike name)
  rw [ht.get?_of_mem hentry] at hfound
  cases hget : t'.get? name with
  | none =>
    rw [hget] at hfound
    cases hfound
  | some a' =>
    rw [hget] at hfound
    cases hfound with
    | some hsame => exact ⟨a', Table.mem_values_of_get? hget, hsame⟩

namespace Model.IsAlike

variable {m m' : Model} (h : m.IsAlike m')

include h

/-! ### Content -/

theorem resolveType {ref ref' : TypeRef} (href : SameBy TypeRef.unnumbered ref ref') :
    AnswerAlike (SameBy TypeDef.unnumbered) (m.resolveType ref) (m'.resolveType ref') := by
  cases ref with
  | named name =>
    cases ref' with
    | anonymous definition' => cases href
    | named name' =>
      cases href
      have hfound := rel_of_map_eq (h.types name)
      rw [Model.resolveType, Model.resolveType]
      generalize m.types.get? name = found at hfound
      generalize m'.types.get? name = found' at hfound
      cases hfound with
      | none => exact .error rfl
      | some hfound => exact .ok hfound
  | anonymous definition =>
    cases ref' with
    | named name' => cases href
    | anonymous definition' => exact .ok (TypeRef.anonymous.inj href)

theorem contentWithin (steps : Nat) {type type' : ComplexType}
    (htype : SameBy ComplexType.unnumbered type type') :
    AnswerAlike (SameBy Content.unnumbered) (m.contentWithin steps type)
      (m'.contentWithin steps type') := by
  -- By induction on the steps that are left: a base type is looked up with one step less.
  induction steps generalizing type type' with
  | zero =>
    have halike := ComplexType.alike_of_unnumbered htype
    rw [Model.contentWithin, Model.contentWithin, halike.derivation]
    split
    · exact .error rfl
    · exact .ok halike.content
  | succ steps ih =>
    have halike := ComplexType.alike_of_unnumbered htype
    rw [Model.contentWithin, Model.contentWithin, halike.derivation]
    split
    · next base _ =>
      have hextend {inner inner' : Content} (hinner : SameBy Content.unnumbered inner inner') :
          SameBy Content.unnumbered (extendContent inner type.content)
            (extendContent inner' type'.content) := by
        rw [SameBy, unnumbered_extendContent, unnumbered_extendContent, hinner, halike.content]
      have hbase : SameBy TypeRef.unnumbered (.named base) (.named base) := rfl
      refine (h.resolveType hbase).bind fun found found' hfound => ?_
      cases TypeDef.alike_of_unnumbered hfound with
      | simple _ => exact .ok (hextend rfl)
      | complex hbase => exact (ih hbase).bind fun _ _ hinner => .ok (hextend hinner)
    · exact .ok halike.content

theorem contentOf {type type' : ComplexType} (htype : SameBy ComplexType.unnumbered type type') :
    AnswerAlike (SameBy Content.unnumbered) (m.contentOf type) (m'.contentOf type') :=
  h.contentWithin _ htype

/-! ### Attributes -/

theorem resolveAttribute {target target' : AttributeTarget}
    (htarget : SameBy AttributeTarget.unnumbered target target') :
    AnswerAlike (SameBy AttributeDecl.unnumbered) (m.resolveAttribute target)
      (m'.resolveAttribute target') := by
  cases target with
  | global name =>
    cases target' with
    | inline decl' => cases htarget
    | global name' =>
      cases htarget
      have hfound := rel_of_map_eq (h.attributes name)
      rw [Model.resolveAttribute, Model.resolveAttribute]
      generalize m.attributes.get? name = found at hfound
      generalize m'.attributes.get? name = found' at hfound
      cases hfound with
      | none => exact .error rfl
      | some hfound => exact .ok hfound
  | inline decl =>
    cases target' with
    | global name' => cases htarget
    | inline decl' => exact .ok (AttributeTarget.inline.inj htarget)

theorem resolveAttributeGroup (name : QName) :
    AnswerAlike (SameBy AttributeGroup.unnumbered) (m.resolveAttributeGroup name)
      (m'.resolveAttributeGroup name) := by
  have hfound := rel_of_map_eq (h.attributeGroups name)
  rw [Model.resolveAttributeGroup, Model.resolveAttributeGroup]
  generalize m.attributeGroups.get? name = found at hfound
  generalize m'.attributeGroups.get? name = found' at hfound
  cases hfound with
  | none => exact .error rfl
  | some hfound => exact .ok hfound

theorem effectiveAttribute {use use' : AttributeUse}
    (huse : SameBy AttributeUse.unnumbered use use') :
    AnswerAlike (SameBy EffectiveAttribute.unnumbered) (m.effectiveAttribute use)
      (m'.effectiveAttribute use') := by
  obtain ⟨mode, constraint, target⟩ := use
  obtain ⟨mode', constraint', target'⟩ := use'
  rw [SameBy, AttributeUse.unnumbered, AttributeUse.unnumbered] at huse
  injection huse with hmode hconstraint htarget
  subst hmode hconstraint
  refine (h.resolveAttribute htarget).bind fun decl decl' hdecl => .ok ?_
  have hconstraint : decl.constraint = decl'.constraint := by
    rw [← decl.constraint_unnumbered, ← decl'.constraint_unnumbered, hdecl]
  rw [SameBy, EffectiveAttribute.unnumbered, EffectiveAttribute.unnumbered, hconstraint, hdecl]

theorem flattenUse (steps : Nat) {use use' : AttributeUse}
    (huse : SameBy AttributeUse.unnumbered use use') :
    AnswerAlike (SameBy (List.map unnumberedUse)) (m.flattenItem steps (.use use))
      (m'.flattenItem steps (.use use')) := by
  have hmode : use.mode = use'.mode := AttributeUse.mode_of_alike huse
  have hattr := h.effectiveAttribute huse
  cases steps <;>
  · rw [Model.flattenItem, Model.flattenItem, hmode]
    exact hattr.bind fun attr attr' hattr =>
      .ok (congrArg (fun attr => [(use'.mode, attr)]) hattr)

theorem flattenItem (steps : Nat) {item item' : AttributeItem}
    (hitem : SameBy AttributeItem.unnumbered item item') :
    AnswerAlike (SameBy (List.map unnumberedUse)) (m.flattenItem steps item)
      (m'.flattenItem steps item') := by
  induction steps generalizing item item' with
  | zero =>
    cases AttributeItem.alike_of_unnumbered hitem with
    | use huse => exact h.flattenUse 0 huse
    | group name => exact .error rfl
  | succ steps ih =>
    cases AttributeItem.alike_of_unnumbered hitem with
    | use huse => exact h.flattenUse (steps + 1) huse
    | group name =>
      rw [Model.flattenItem, Model.flattenItem]
      refine (h.resolveAttributeGroup name).bind fun group group' hgroup => ?_
      exact (Agree.mapM (AttributeGroup.forall₂_items hgroup) fun _ _ => ih).map
        fun _ _ huses => flatten_of_forall₂ huses

theorem flattenItems {items items' : List AttributeItem}
    (hitems : List.Forall₂ (SameBy AttributeItem.unnumbered) items items') :
    AnswerAlike (SameBy (List.map unnumberedUse)) (m.flattenItems items)
      (m'.flattenItems items') :=
  (Agree.mapM hitems fun _ _ => h.flattenItem (chainLimit + 1)).map
    fun _ _ huses => flatten_of_forall₂ huses

/-- What a type does with the attributes that it inherits. -/
theorem applyOwn {type type' : ComplexType} (htype : type.Alike type')
    {inherited inherited' : List EffectiveAttribute}
    (hinherited : SameBy (List.map EffectiveAttribute.unnumbered) inherited inherited') :
    AnswerAlike (SameBy (List.map EffectiveAttribute.unnumbered))
      (do return (← m.flattenItems type.attributes).foldl applyUse inherited)
      (do return (← m'.flattenItems type'.attributes).foldl applyUse inherited') :=
  (h.flattenItems htype.attributes).bind fun _ _ huses => .ok (applyUses_of_alike huses hinherited)

theorem attributesWithin (steps : Nat) {type type' : ComplexType}
    (htype : SameBy ComplexType.unnumbered type type') :
    AnswerAlike (SameBy (List.map EffectiveAttribute.unnumbered)) (m.attributesWithin steps type)
      (m'.attributesWithin steps type') := by
  -- By the steps that are left, of which only the step to the base takes one.
  induction steps using Nat.strongRecOn generalizing type type' with
  | ind steps ih =>
    have halike := ComplexType.alike_of_unnumbered htype
    unfold Model.attributesWithin
    rw [halike.derivation]
    cases type'.derivation with
    | none => exact h.applyOwn halike rfl
    | some derivation =>
      cases steps with
      | zero => exact .error rfl
      | succ steps =>
        have hbase := rel_of_map_eq (h.types derivation.base)
        dsimp only
        generalize m.types.get? derivation.base = base at hbase
        generalize m'.types.get? derivation.base = base' at hbase
        cases hbase with
        | none => exact h.applyOwn halike rfl
        | some hbase =>
          cases TypeDef.alike_of_unnumbered hbase with
          | simple _ => exact h.applyOwn halike rfl
          | complex hinner =>
            exact (ih steps steps.lt_succ_self hinner).bind fun _ _ => h.applyOwn halike

theorem attributesOf {type type' : ComplexType}
    (htype : SameBy ComplexType.unnumbered type type') :
    AnswerAlike (SameBy (List.map EffectiveAttribute.unnumbered)) (m.attributesOf type)
      (m'.attributesOf type') :=
  h.attributesWithin _ htype

/-! ### Attribute wildcards -/

theorem itemWildcard (steps : Nat) {item item' : AttributeItem}
    (hitem : SameBy AttributeItem.unnumbered item item') :
    AnswerAlike (SameBy (Option.map Wildcard.unnumbered)) (m.itemWildcard steps item)
      (m'.itemWildcard steps item') := by
  induction steps generalizing item item' with
  | zero =>
    cases AttributeItem.alike_of_unnumbered hitem with
    | use _ => exact .ok rfl
    | group name => exact .error rfl
  | succ steps ih =>
    cases AttributeItem.alike_of_unnumbered hitem with
    | use _ => exact .ok rfl
    | group name =>
      rw [Model.itemWildcard, Model.itemWildcard]
      refine (h.resolveAttributeGroup name).bind fun group group' hgroup => ?_
      have hown := rel_of_map_eq (AttributeGroup.wildcard_of_alike hgroup)
      generalize group.wildcard = own at hown
      generalize group'.wildcard = own' at hown
      cases hown with
      | none => exact Agree.findSomeM? (AttributeGroup.forall₂_items hgroup) fun _ _ => ih
      | some hown => exact .ok (congrArg some hown)

theorem listWildcard {items items' : List AttributeItem}
    (hitems : List.Forall₂ (SameBy AttributeItem.unnumbered) items items') :
    AnswerAlike (SameBy (Option.map Wildcard.unnumbered)) (m.listWildcard items)
      (m'.listWildcard items') :=
  Agree.findSomeM? hitems fun _ _ => h.itemWildcard (chainLimit + 1)

theorem wildcardWithin (steps : Nat) {type type' : ComplexType}
    (htype : SameBy ComplexType.unnumbered type type') :
    AnswerAlike (SameBy (Option.map Wildcard.unnumbered)) (m.wildcardWithin steps type)
      (m'.wildcardWithin steps type') := by
  -- By the steps that are left, of which only the step to the base takes one.
  induction steps using Nat.strongRecOn generalizing type type' with
  | ind steps ih =>
    have halike := ComplexType.alike_of_unnumbered htype
    have hown := rel_of_map_eq halike.wildcard
    unfold Model.wildcardWithin
    rw [halike.derivation]
    generalize type.wildcard = own at hown
    generalize type'.wildcard = own' at hown
    cases hown with
    | some hown => exact .ok (congrArg some hown)
    | none =>
      refine (h.listWildcard halike.attributes).bind fun found found' hfound => ?_
      cases rel_of_map_eq hfound with
      | some _ => exact .ok hfound
      | none =>
        dsimp only
        split
        · next base _ =>
          cases steps with
          | zero => exact .error rfl
          | succ steps =>
            have hbase := rel_of_map_eq (h.types base)
            dsimp only
            generalize m.types.get? base = found at hbase
            generalize m'.types.get? base = found' at hbase
            cases hbase with
            | none => exact .ok rfl
            | some hbase =>
              cases TypeDef.alike_of_unnumbered hbase with
              | simple _ => exact .ok rfl
              | complex hinner => exact ih steps steps.lt_succ_self hinner
        · exact .ok rfl

theorem wildcardOf {type type' : ComplexType}
    (htype : SameBy ComplexType.unnumbered type type') :
    AnswerAlike (SameBy (Option.map Wildcard.unnumbered)) (m.wildcardOf type)
      (m'.wildcardOf type') :=
  h.wildcardWithin _ htype

/-! ### Simple types -/

theorem resolveSimpleWithin {whole whole' : TypeRef}
    (hwhole : SameBy TypeRef.unnumbered whole whole') (steps : Nat) {ref ref' : TypeRef}
    (href : SameBy TypeRef.unnumbered ref ref') :
    AnswerAlike (SameBy SimpleType.unnumbered) (m.resolveSimpleWithin whole steps ref)
      (m'.resolveSimpleWithin whole' steps ref') := by
  induction steps generalizing ref ref' with
  | zero =>
    rw [Model.resolveSimpleWithin, Model.resolveSimpleWithin, TypeRef.name_of_alike hwhole]
    exact .error rfl
  | succ steps ih =>
    rw [Model.resolveSimpleWithin, Model.resolveSimpleWithin]
    refine (h.resolveType href).bind fun found found' hfound => ?_
    cases TypeDef.alike_of_unnumbered hfound with
    | simple htype => exact .ok htype
    | @complex type type' htype =>
      refine (h.contentOf htype).bind fun content content' hcontent => ?_
      have hname := (ComplexType.alike_of_unnumbered htype).name
      cases content <;> cases content' <;> try cases hcontent
      case simple.simple inner inner' => exact ih (Content.simple.inj hcontent)
      all_goals
        dsimp only
        rw [hname]
        exact .error rfl

theorem resolveSimple {ref ref' : TypeRef} (href : SameBy TypeRef.unnumbered ref ref') :
    AnswerAlike (SameBy SimpleType.unnumbered) (m.resolveSimple ref) (m'.resolveSimple ref') :=
  h.resolveSimpleWithin href _ href

theorem ancestorsWithin (steps : Nat) {type type' : SimpleType}
    (htype : SameBy SimpleType.unnumbered type type') :
    AnswerAlike (List.Forall₂ (SameBy SimpleType.unnumbered)) (m.ancestorsWithin steps type)
      (m'.ancestorsWithin steps type') := by
  induction steps using Nat.strongRecOn generalizing type type' with
  | ind steps ih =>
    have hbase := (SimpleType.alike_of_unnumbered htype).base
    unfold Model.ancestorsWithin
    generalize type.base = base at hbase
    generalize type'.base = base' at hbase
    cases hbase with
    | none => exact .ok .nil
    | some hbase =>
      cases steps with
      | zero =>
        dsimp only
        rw [TypeRef.name_of_alike hbase]
        exact .error rfl
      | succ steps =>
        exact (h.resolveSimple hbase).bind fun _ _ hnext =>
          (ih steps steps.lt_succ_self hnext).bind fun _ _ hrest => .ok (.cons hnext hrest)

theorem chain {type type' : SimpleType} (htype : SameBy SimpleType.unnumbered type type') :
    AnswerAlike (List.Forall₂ (SameBy SimpleType.unnumbered)) (m.chain type) (m'.chain type') :=
  (h.ancestorsWithin _ htype).map fun _ _ hrest => .cons htype hrest

theorem facet {type type' : SimpleType} (htype : SameBy SimpleType.unnumbered type type')
    (kind : FacetKind) : AnswerAlike Eq (m.facet type kind) (m'.facet type' kind) :=
  (h.chain htype).map fun _ _ hchain => nearestFacet_of_alike kind hchain

theorem variety {type type' : SimpleType} (htype : SameBy SimpleType.unnumbered type type') :
    AnswerAlike (SameBy Variety.unnumbered) (m.variety type) (m'.variety type') :=
  (h.chain htype).map fun _ _ hchain => nearestVariety_of_alike hchain

/-! ### Substitutes -/

theorem symm : m'.IsAlike m :=
  ⟨fun name => (h.elements name).symm, fun name => (h.types name).symm,
    fun name => (h.attributes name).symm, fun name => (h.groups name).symm,
    fun name => (h.attributeGroups name).symm⟩

theorem headOf : m.headOf = m'.headOf := by
  funext name
  have hfound := rel_of_map_eq (h.elements name)
  unfold Model.headOf
  generalize m.elements.get? name = found at hfound
  generalize m'.elements.get? name = found' at hfound
  cases hfound with
  | none => rfl
  | some hdecl => exact (ElementDecl.alike_iff.mp hdecl).head

theorem baseOf : m.baseOf = m'.baseOf := by
  funext name
  have hfound := rel_of_map_eq (h.types name)
  unfold Model.baseOf
  generalize m.types.get? name = found at hfound
  generalize m'.types.get? name = found' at hfound
  cases hfound with
  | none => rfl
  | some hfound =>
    cases TypeDef.alike_of_unnumbered hfound with
    | simple _ => rfl
    | complex htype =>
      exact congrArg (Option.map _) (ComplexType.alike_of_unnumbered htype).derivation

theorem subset_substitutionMembers (hdistinct : m.elements.IsDistinct) (head : QName) :
    (m.substitutionMembers head).map ElementDecl.unnumbered
      ⊆ (m'.substitutionMembers head).map ElementDecl.unnumbered := by
  intro found hfound
  obtain ⟨decl, hdecl, rfl⟩ := List.mem_map.mp hfound
  obtain ⟨hdecl, hstands⟩ := List.mem_filter.mp hdecl
  obtain ⟨decl', hdecl', hsame⟩ := Table.exists_alike hdistinct h.elements hdecl
  have halike := ElementDecl.alike_iff.mp hsame
  rw [halike.isAbstract, halike.name, halike.head, h.headOf] at hstands
  exact hsame ▸ List.mem_map_of_mem (List.mem_filter.mpr ⟨hdecl', hstands⟩)

theorem subset_concreteSubtypes (hdistinct : m.types.IsDistinct) (base : QName) :
    (m.concreteSubtypes base).map ComplexType.unnumbered
      ⊆ (m'.concreteSubtypes base).map ComplexType.unnumbered := by
  intro found hfound
  obtain ⟨type, htype, rfl⟩ := List.mem_map.mp hfound
  obtain ⟨htype, hstands⟩ := List.mem_filter.mp htype
  obtain ⟨definition, hmem, hcomplex⟩ := List.mem_filterMap.mp htype
  obtain ⟨definition', hmem', hsame⟩ := Table.exists_alike hdistinct h.types hmem
  cases TypeDef.alike_of_unnumbered hsame with
  | simple _ => cases hcomplex
  | @complex own own' hown =>
    cases hcomplex
    have halike := ComplexType.alike_of_unnumbered hown
    rw [halike.isAbstract, halike.name, halike.derivation, h.baseOf] at hstands
    have hown' : own' ∈ m'.types.values.filterMap TypeDef.asComplex :=
      List.mem_filterMap.mpr ⟨_, hmem', rfl⟩
    rw [hown]
    exact List.mem_map_of_mem (List.mem_filter.mpr ⟨hown', hstands⟩)

end Model.IsAlike

/-! ## Answers -/

/-- Two schemas give the same answers to all questions, but for numbers and for the order in which
substitutes are listed: what a name stands for, what a complex type effectively holds, what a simple
type effectively is, and what may stand for an element or a type. -/
structure Model.AnswersAlike (m m' : Model) : Prop where
  lookups : m.IsAlike m'
  content : ∀ type type', SameBy ComplexType.unnumbered type type' →
    (m.contentOf type).map Content.unnumbered = (m'.contentOf type').map Content.unnumbered
  attributes : ∀ type type', SameBy ComplexType.unnumbered type type' →
    (m.attributesOf type).map (List.map EffectiveAttribute.unnumbered)
      = (m'.attributesOf type').map (List.map EffectiveAttribute.unnumbered)
  wildcard : ∀ type type', SameBy ComplexType.unnumbered type type' →
    (m.wildcardOf type).map (Option.map Wildcard.unnumbered)
      = (m'.wildcardOf type').map (Option.map Wildcard.unnumbered)
  facet : ∀ type type', SameBy SimpleType.unnumbered type type' → ∀ kind,
    m.facet type kind = m'.facet type' kind
  variety : ∀ type type', SameBy SimpleType.unnumbered type type' →
    (m.variety type).map Variety.unnumbered = (m'.variety type').map Variety.unnumbered
  substitutes : ∀ head decl,
    decl ∈ (m.substitutionMembers head).map ElementDecl.unnumbered
      ↔ decl ∈ (m'.substitutionMembers head).map ElementDecl.unnumbered
  subtypes : ∀ base type,
    type ∈ (m.concreteSubtypes base).map ComplexType.unnumbered
      ↔ type ∈ (m'.concreteSubtypes base).map ComplexType.unnumbered

/-- **Schemas in which every name stands for the same give the same answers.** -/
theorem Model.IsAlike.answersAlike {m m' : Model} (h : m.IsAlike m')
    (helements : m.elements.IsDistinct) (helements' : m'.elements.IsDistinct)
    (htypes : m.types.IsDistinct) (htypes' : m'.types.IsDistinct) : m.AnswersAlike m' where
  lookups := h
  content _ _ htype := (h.contentOf htype).map_eq
  attributes _ _ htype := (h.attributesOf htype).map_eq
  wildcard _ _ htype := (h.wildcardOf htype).map_eq
  facet _ _ htype kind := (h.facet htype kind).eq
  variety _ _ htype := (h.variety htype).map_eq
  substitutes head _ := ⟨fun hmem => h.subset_substitutionMembers helements head hmem,
    fun hmem => h.symm.subset_substitutionMembers helements' head hmem⟩
  subtypes base _ := ⟨fun hmem => h.subset_concreteSubtypes htypes base hmem,
    fun hmem => h.symm.subset_concreteSubtypes htypes' base hmem⟩

end Specimen

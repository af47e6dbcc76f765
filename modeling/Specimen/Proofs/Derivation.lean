import Specimen.Proofs.Contents

/-!
# Types and attributes that a schema declares

Which type may stand for an abstract one, in terms of the derivations that a schema declares, and
which attributes its declarations can bring into a tag.
-/

namespace Specimen

namespace Model

variable {m : Model}

/-! ## Derivation -/

/-- The type is derived from the one with this name, directly or through other types. -/
inductive DerivesFrom (m : Model) (base : QName) : ComplexType → Prop
  | direct {type : ComplexType} {derivation : Derivation} (h : type.derivation = some derivation)
      (hb : derivation.base = base) : DerivesFrom m base type
  | through {type via : ComplexType} {derivation : Derivation}
      (h : type.derivation = some derivation)
      (hv : m.types.get? derivation.base = some (.complex via)) (hd : DerivesFrom m base via) :
      DerivesFrom m base type

theorem leadsTo_none (follow : QName → Option QName) (goal : QName) (steps : Nat) :
    leadsTo follow goal steps none = false := by
  cases steps <;> rfl

/-- **A chain of bases that is followed to a name is a derivation from it.** -/
theorem derivesFrom_of_leadsTo {base : QName} {steps : Nat} {type : ComplexType}
    (h : leadsTo m.baseOf base steps (type.derivation.map (·.base)) = true) :
    m.DerivesFrom base type := by
  induction steps generalizing type with
  | zero => cases h
  | succ steps ih =>
    cases hd : type.derivation with
    | none =>
      rw [hd, Option.map_none, leadsTo_none] at h
      cases h
    | some derivation =>
      rw [hd, Option.map_some, leadsTo, Bool.or_eq_true, beq_iff_eq] at h
      rcases h with hbase | hmore
      · exact .direct hd hbase
      · -- The chain goes on only from a complex type that is registered.
        unfold baseOf at hmore
        split at hmore
        · rename_i via hvia
          exact .through hd hvia (ih hmore)
        · rw [leadsTo_none] at hmore
          cases hmore

/-- A type with this name that is registered, is not abstract, and is derived from the declared
one. -/
inductive IsSubtype (m : Model) : TypeDef → TypeDef → QName → Prop
  | subtype {base sub : ComplexType} {baseName name : QName} (hb : base.name = some baseName)
      (hr : .complex sub ∈ m.types.values) (hn : sub.name = some name)
      (ha : sub.isAbstract = false) (hd : m.DerivesFrom baseName sub) :
      IsSubtype m (.complex base) (.complex sub) name

/-- **What is generated for an abstract type is a type derived from it.** -/
theorem Generates.isSubtype {declared : TypeDef} {type : ComplexType} {name : QName}
    (h : m.Generates declared (.complex type)) (ha : declared.IsAbstract)
    (hn : type.name = some name) : m.IsSubtype declared (.complex type) name := by
  obtain ⟨base, rfl, habstract⟩ := ha
  cases h with
  | own hown =>
    rw [hown base rfl] at habstract
    cases habstract
  | subtype hd _ hb hs ht =>
    cases hd
    cases ht
    obtain ⟨hmem, hsub⟩ := List.mem_filter.mp hs
    simp only [Bool.and_eq_true, Bool.not_eq_true'] at hsub
    obtain ⟨definition, hdefinition, hcomplex⟩ := List.mem_filterMap.mp hmem
    cases definition with
    | simple => cases hcomplex
    | complex _ =>
      cases hcomplex
      exact .subtype hb hdefinition hn hsub.1.1 (derivesFrom_of_leadsTo hsub.2)

end Model

/-! ## Attributes -/

/-- The entries in the attribute list of a type. -/
def Part.attributes : Part → List AttributeItem
  | .type complex => complex.attributes
  | _ => []

/-- The attribute that is declared in place, if the entry is a use of one. -/
def AttributeItem.decl? : AttributeItem → Option AttributeDecl
  | .use ⟨_, _, .inline decl⟩ => some decl
  | _ => none

namespace Model

variable {m : Model}

/-- All entries in the attribute lists of a schema. -/
def attributeItems (m : Model) : List AttributeItem :=
  m.parts.flatMap Part.attributes ++ m.attributeGroups.values.flatMap AttributeGroup.items

/-- The attribute declarations of a schema, global and local ones. -/
def attributeDecls (m : Model) : List AttributeDecl :=
  m.attributes.values ++ m.attributeItems.filterMap AttributeItem.decl?

/-! ### Attributes in effect -/

/-- All of these uses are of attributes that the schema declares. -/
def AreDeclared (m : Model) (uses : List (UseMode × EffectiveAttribute)) : Prop :=
  ∀ use ∈ uses, use.2.decl ∈ m.attributeDecls

theorem gives_resolveAttribute {use : AttributeUse} (hu : .use use ∈ m.attributeItems) :
    Gives (m.resolveAttribute use.target) fun decl => decl ∈ m.attributeDecls := by
  obtain ⟨mode, constraint, target⟩ := use
  cases target with
  | inline decl => exact .ok (List.mem_append_right _ (List.mem_filterMap.mpr ⟨_, hu, rfl⟩))
  | global name =>
    simp only [resolveAttribute]
    split
    · exact .ok (List.mem_append_left _ (Table.mem_values_of_get? ‹_›))
    · exact .error _

theorem gives_resolveAttributeGroup (name : QName) :
    Gives (m.resolveAttributeGroup name) fun group => group.items ⊆ m.attributeItems :=
  fun _ hgroup _ hitem => List.mem_append_right _
    (List.mem_flatMap.mpr ⟨_, mem_of_resolveAttributeGroup hgroup, hitem⟩)

theorem areDeclared_flatten {lists : List (List (UseMode × EffectiveAttribute))}
    (h : ∀ uses ∈ lists, m.AreDeclared uses) : m.AreDeclared lists.flatten := by
  intro use huse
  obtain ⟨uses, huses, huse⟩ := List.mem_flatten.mp huse
  exact h uses huses use huse

/-- What an entry stands for is declared, also where it refers to a group. -/
theorem gives_flattenItem (steps : Nat) {item : AttributeItem} (hi : item ∈ m.attributeItems) :
    Gives (m.flattenItem steps item) m.AreDeclared := by
  have huse {use : AttributeUse} (hu : .use use ∈ m.attributeItems) :
      Gives (m.effectiveAttribute use) fun attr => attr.decl ∈ m.attributeDecls :=
    (gives_resolveAttribute hu).bind fun _ hdecl => .ok hdecl
  induction steps generalizing item with
  | zero =>
    cases item with
    | use use => exact (huse hi).bind fun _ hattr => .ok (List.forall_mem_singleton.mpr hattr)
    | group name => exact .error _
  | succ steps ih =>
    cases item with
    | use use => exact (huse hi).bind fun _ hattr => .ok (List.forall_mem_singleton.mpr hattr)
    | group name =>
      refine (gives_resolveAttributeGroup name).bind fun group hgroup => ?_
      exact (Gives.mapM fun item hitem => ih (hgroup hitem)).map fun _ => areDeclared_flatten

theorem gives_flattenItems {items : List AttributeItem} (hi : items ⊆ m.attributeItems) :
    Gives (m.flattenItems items) m.AreDeclared :=
  (Gives.mapM fun _ hitem => gives_flattenItem _ (hi hitem)).map fun _ => areDeclared_flatten

theorem mem_of_mem_putAttribute {attr other : EffectiveAttribute} {attrs : List EffectiveAttribute}
    (h : other ∈ putAttribute attr attrs) : other = attr ∨ other ∈ attrs := by
  induction attrs with
  | nil => exact .inl (List.mem_singleton.mp h)
  | cons earlier rest ih =>
    rw [putAttribute] at h
    split at h
    · rcases List.mem_cons.mp h with h | h
      · exact .inl h
      · exact .inr (List.mem_cons_of_mem _ h)
    · rcases List.mem_cons.mp h with rfl | h
      · exact .inr List.mem_cons_self
      · exact (ih h).imp_right (List.mem_cons_of_mem _)

theorem dropAttribute_subset (name : QName) (attrs : List EffectiveAttribute) :
    dropAttribute name attrs ⊆ attrs := by
  induction attrs with
  | nil => exact List.Subset.refl _
  | cons earlier rest ih =>
    rw [dropAttribute]
    split
    · exact List.subset_cons_self _ _
    · exact List.cons_subset_cons _ ih

/-- What uses make of some attributes are these or their own. -/
theorem mem_of_mem_applyUses {uses : List (UseMode × EffectiveAttribute)}
    {attrs : List EffectiveAttribute} {attr : EffectiveAttribute}
    (h : attr ∈ uses.foldl applyUse attrs) : attr ∈ attrs ∨ ∃ use ∈ uses, use.2 = attr := by
  induction uses generalizing attrs with
  | nil => exact .inl h
  | cons use rest ih =>
    rcases ih h with happly | ⟨other, hmem, hother⟩
    · unfold applyUse at happly
      split at happly
      · exact .inl (dropAttribute_subset _ _ happly)
      · rcases mem_of_mem_putAttribute happly with heq | hattr
        · exact .inr ⟨use, List.mem_cons_self, heq.symm⟩
        · exact .inl hattr
    · exact .inr ⟨other, List.mem_cons_of_mem _ hmem, hother⟩

/-- The complex type that a type is derived from, if that is registered. -/
def baseType? (m : Model) (type : ComplexType) : Option ComplexType :=
  type.derivation.bind fun derivation => (m.types.get? derivation.base).bind TypeDef.asComplex

theorem exists_get?_of_baseType? {type base : ComplexType} (h : m.baseType? type = some base) :
    ∃ name, m.types.get? name = some (.complex base) := by
  obtain ⟨derivation, -, hbase⟩ := Option.bind_eq_some_iff.mp h
  obtain ⟨definition, hget, hcomplex⟩ := Option.bind_eq_some_iff.mp hbase
  cases definition with
  | simple type => cases hcomplex
  | complex type =>
    cases hcomplex
    exact ⟨_, hget⟩

/-- The attributes of a type are made by its uses from those of its base, or from none. -/
theorem attributesWithin_cases {steps : Nat} {type : ComplexType} {attrs : List EffectiveAttribute}
    (h : m.attributesWithin steps type = .ok attrs) :
    ∃ inherited own, m.flattenItems type.attributes = .ok own
      ∧ attrs = own.foldl applyUse inherited
      ∧ (inherited = [] ∧ m.baseType? type = none ∨ ∃ n baseType, steps = n + 1
        ∧ m.baseType? type = some baseType ∧ m.attributesWithin n baseType = .ok inherited) := by
  have hown {inherited : Except Error (List EffectiveAttribute)}
      (h : (do
        let attrs ← inherited
        let own ← m.flattenItems type.attributes
        return own.foldl applyUse attrs) = .ok attrs) :
      ∃ before own, inherited = .ok before ∧ m.flattenItems type.attributes = .ok own
        ∧ attrs = own.foldl applyUse before := by
    obtain ⟨before, hbefore, h⟩ := exists_of_bind_eq_ok h
    obtain ⟨own, hitems, h⟩ := exists_of_bind_eq_ok h
    exact ⟨before, own, hbefore, hitems, (Except.ok.inj h).symm⟩
  unfold attributesWithin at h
  simp only at h
  split at h
  · rename_i hnone
    obtain ⟨before, own, hbefore, hitems, rfl⟩ := hown h
    cases hbefore
    exact ⟨[], own, hitems, rfl, .inl ⟨rfl, by rw [baseType?, hnone]; rfl⟩⟩
  · rename_i base hderivation
    cases steps with
    | zero => cases h
    | succ n =>
      simp only at h
      split at h
      · rename_i baseType hbase
        obtain ⟨before, own, hbefore, hitems, rfl⟩ := hown h
        refine ⟨before, own, hitems, rfl, .inr ⟨n, baseType, rfl, ?_, hbefore⟩⟩
        simp [baseType?, hderivation, hbase, TypeDef.asComplex]
      · rename_i hother
        obtain ⟨before, own, hbefore, hitems, rfl⟩ := hown h
        cases hbefore
        refine ⟨[], own, hitems, rfl, .inl ⟨rfl, ?_⟩⟩
        rw [baseType?, hderivation, Option.bind_some, Option.bind_eq_none_iff]
        intro definition hget
        cases definition with
        | simple type => rfl
        | complex type => exact absurd hget (hother type)

/-- The attributes of a type and its bases are declared. -/
theorem gives_attributesWithin (steps : Nat) {type : ComplexType} (ht : .type type ∈ m.parts) :
    Gives (m.attributesWithin steps type)
      fun attrs => ∀ attr ∈ attrs, attr.decl ∈ m.attributeDecls := by
  have hown {type : ComplexType} (ht : .type type ∈ m.parts) {inherited : List EffectiveAttribute}
      {own : List (UseMode × EffectiveAttribute)} (h : m.flattenItems type.attributes = .ok own)
      (hinherited : ∀ attr ∈ inherited, attr.decl ∈ m.attributeDecls) :
      ∀ attr ∈ own.foldl applyUse inherited, attr.decl ∈ m.attributeDecls := by
    have hitems : type.attributes ⊆ m.attributeItems := fun _ hitem =>
      List.mem_append_left _ (List.mem_flatMap.mpr ⟨.type type, ht, hitem⟩)
    intro attr hattr
    rcases mem_of_mem_applyUses hattr with hattr | ⟨use, huse, rfl⟩
    · exact hinherited attr hattr
    · exact gives_flattenItems hitems own h use huse
  have hnone : ∀ attr ∈ ([] : List EffectiveAttribute), attr.decl ∈ m.attributeDecls :=
    fun _ hattr => absurd hattr List.not_mem_nil
  intro attrs h
  induction steps generalizing type attrs with
  | zero =>
    obtain ⟨_, own, hitems, rfl, ⟨rfl, -⟩ | ⟨n, -, hn, -⟩⟩ := attributesWithin_cases h
    · exact hown ht hitems hnone
    · cases hn
  | succ steps ih =>
    obtain ⟨_, own, hitems, rfl, ⟨rfl, -⟩ | ⟨n, baseType, hn, htype, hbase⟩⟩ :=
      attributesWithin_cases h
    · exact hown ht hitems hnone
    · cases hn
      obtain ⟨name, hget⟩ := exists_get?_of_baseType? htype
      have hcovers := covers_of_get?_types hget
      rw [TypeDef.parts] at hcovers
      exact hown ht hitems (ih hcovers.type _ hbase)

/-- **Every attribute of a type is one that the schema declares.** -/
theorem mem_attributeDecls_of_attributesOf {type : ComplexType} {attrs : List EffectiveAttribute}
    (h : m.attributesOf type = .ok attrs) (ht : .type type ∈ m.parts) :
    ∀ attr ∈ attrs, attr.decl ∈ m.attributeDecls :=
  gives_attributesWithin _ ht attrs h

/-- No attribute is declared in the namespace of markers. -/
def DeclaresNoMarker (m : Model) : Prop :=
  ∀ decl ∈ m.attributeDecls, decl.name.namespaceUri ≠ Namespace.xsi

instance (m : Model) : Decidable m.DeclaresNoMarker :=
  inferInstanceAs (Decidable (∀ decl ∈ m.attributeDecls, _))

end Model

end Specimen

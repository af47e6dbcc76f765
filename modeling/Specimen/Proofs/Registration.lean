import Specimen.Proofs.Numbering

/-!
# Schemas that are built

Every schema comes about by registering components, and a loaded one is finished by giving
substitutes the types of their heads. What holds of the schema without a component and is kept by
each of these steps holds of every schema.

Here this is used for wildcards: no wildcard in a content is taken for an attribute wildcard.
-/

namespace Specimen

/-! ## Tables -/

theorem Table.mem_insertInto {α : Type} {name : QName} {a : α} {entries : List (QName × α)}
    {entry : QName × α} (h : entry ∈ Table.insertInto name a entries) :
    entry.2 = a ∨ entry ∈ entries := by
  induction entries with
  | nil =>
    rw [Table.insertInto, List.mem_singleton] at h
    exact .inl (by rw [h])
  | cons first rest ih =>
    rw [Table.insertInto] at h
    split at h
    · rcases List.mem_cons.mp h with rfl | h
      · exact .inl rfl
      · exact .inr (List.mem_cons_of_mem _ h)
    · rcases List.mem_cons.mp h with rfl | h
      · exact .inr List.mem_cons_self
      · exact (ih h).imp_right (List.mem_cons_of_mem _)

/-- What is in a table with one more entry is the new component or was there before. -/
theorem Table.values_insert_subset {α : Type} (t : Table α) (name : QName) (a : α) :
    (t.insert name a).values ⊆ a :: t.values := by
  intro b hb
  obtain ⟨entry, hentry, rfl⟩ := List.mem_map.mp hb
  rcases Table.mem_insertInto hentry with rfl | h
  · exact List.mem_cons_self
  · exact List.mem_cons_of_mem _ (List.mem_map_of_mem h)

/-! ## How schemas are built -/

namespace Model

/-- The schemas that can be built. A loaded schema is finished by the last of these steps, with which
an element takes the type of another one. -/
inductive Built : Model → Prop
  | empty : Built {}
  | target {m : Model} (h : m.Built) (target : Option String) : Built { m with target }
  | element {m : Model} (h : m.Built) (decl : ElementDecl) : Built (m.addElement decl)
  | type {m : Model} (h : m.Built) (name : QName) (definition : TypeDef) :
      Built (m.addNamedType name definition)
  | attr {m : Model} (h : m.Built) (decl : AttributeDecl) : Built (m.addAttribute decl)
  | group {m : Model} (h : m.Built) (name : QName) (group : ModelGroup) :
      Built (m.addGroup name group)
  | attributeGroup {m : Model} (h : m.Built) (name : QName) (group : AttributeGroup) :
      Built (m.addNamedAttributeGroup name group)
  | inherit {m : Model} (h : m.Built) {decl other : ElementDecl}
      (hd : decl ∈ m.elements.values) (ho : other ∈ m.elements.values) :
      Built { m with elements := m.elements.insert decl.name { decl with type := other.type } }

theorem built_builtin : Built builtin := by
  have h : ∀ (types : List BuiltinType) (m : Model), m.Built →
      (types.foldl (fun (m : Model) type =>
        m.addNamedType (QName.xsd type.name) (.simple type.definition)) m).Built := by
    intro types
    induction types with
    | nil => exact fun m hm => hm
    | cons type rest ih => exact fun m hm => ih _ (hm.type _ _)
  unfold builtin
  exact (h BuiltinType.all {} .empty).type _ _

/-! ## Wildcards -/

variable {m m' : Model}

/-- The numbers of all attribute wildcards, those of attribute groups included. -/
def attributeNumbers (m : Model) : List Nat :=
  Specimen.attributeNumbers m.parts
    ++ m.attributeGroups.values.filterMap fun group => group.wildcard.map Wildcard.id

/-- No wildcard in a content has the number of an attribute wildcard, and all numbers are below the
next free one. -/
def Numbered (m : Model) : Prop :=
  Taken 0 m.next (contentNumbers m.parts) m.attributeNumbers

theorem parts_subset_of_elements (he : m'.elements.values ⊆ decl :: m.elements.values)
    (ht : m'.types = m.types) (hg : m'.groups = m.groups) : m'.parts ⊆ m.parts ++ decl.parts := by
  intro part hpart
  simp only [parts, ht, hg, List.mem_append, List.mem_flatMap] at hpart ⊢
  rcases hpart with (⟨d, hd, hpart⟩ | hpart) | hpart
  · rcases List.mem_cons.mp (he hd) with rfl | hd
    · exact .inr hpart
    · exact .inl (.inl (.inl ⟨d, hd, hpart⟩))
  · exact .inl (.inl (.inr hpart))
  · exact .inl (.inr hpart)

theorem parts_subset_of_types {definition : TypeDef} (he : m'.elements = m.elements)
    (ht : m'.types.values ⊆ definition :: m.types.values) (hg : m'.groups = m.groups) :
    m'.parts ⊆ m.parts ++ definition.parts := by
  intro part hpart
  simp only [parts, he, hg, List.mem_append, List.mem_flatMap] at hpart ⊢
  rcases hpart with (hpart | ⟨d, hd, hpart⟩) | hpart
  · exact .inl (.inl (.inl hpart))
  · rcases List.mem_cons.mp (ht hd) with rfl | hd
    · exact .inr hpart
    · exact .inl (.inl (.inr ⟨d, hd, hpart⟩))
  · exact .inl (.inr hpart)

theorem parts_subset_of_groups {group : ModelGroup} (he : m'.elements = m.elements)
    (ht : m'.types = m.types) (hg : m'.groups.values ⊆ group :: m.groups.values) :
    m'.parts ⊆ m.parts ++ group.parts := by
  intro part hpart
  simp only [parts, he, ht, List.mem_append, List.mem_flatMap] at hpart ⊢
  rcases hpart with hpart | ⟨g, hmem, hpart⟩
  · exact .inl (.inl hpart)
  · rcases List.mem_cons.mp (hg hmem) with rfl | hmem
    · exact .inr hpart
    · exact .inl (.inr ⟨g, hmem, hpart⟩)

/-- A component that takes its numbers from the next free one on. -/
theorem Numbered.register {l : List Part} (h : m.Numbered) (hl : TakenBy m.next m'.next l)
    (hp : m'.parts ⊆ m.parts ++ l) (hg : m'.attributeGroups = m.attributeGroups) :
    m'.Numbered := by
  refine (Taken.append h hl).mono ?_ ?_
  · rw [← contentNumbers_append]
    exact List.filterMap_subset _ hp
  · intro i hi
    rw [attributeNumbers, hg] at hi
    rcases List.mem_append.mp hi with hi | hi
    · have := List.filterMap_subset _ hp hi
      rw [← Specimen.attributeNumbers, attributeNumbers_append] at this
      rcases List.mem_append.mp this with hi | hi
      · exact List.mem_append_left _ (List.mem_append_left _ hi)
      · exact List.mem_append_right _ hi
    · exact List.mem_append_left _ (List.mem_append_right _ hi)

/-- **In a schema that is built, wildcards in contents and attribute wildcards have different
numbers.** -/
theorem Built.numbered (h : m.Built) : m.Numbered := by
  induction h with
  | empty => exact Taken.nil (Nat.le_refl 0)
  | target h target ih => exact ih
  | element h decl ih =>
    exact ih.register (decl.taken _)
      (parts_subset_of_elements (Table.values_insert_subset _ _ _) rfl rfl) rfl
  | type h name definition ih =>
    exact ih.register (definition.taken _)
      (parts_subset_of_types rfl (Table.values_insert_subset _ _ _) rfl) rfl
  | attr h decl ih =>
    exact ih.register (l := []) (Taken.nil (decl.le_numberFrom _)) (List.subset_append_left _ _) rfl
  | group h name group ih =>
    exact ih.register (group.taken _)
      (parts_subset_of_groups rfl rfl (Table.values_insert_subset _ _ _)) rfl
  | @attributeGroup m h name group ih =>
    have hi := le_numberItems group.items m.next
    have hw := Taken.wildcard group.wildcard (numberItems group.items m.next).2
    refine (Taken.append ih (hw.skip hi)).mono (by simp [parts, addNamedAttributeGroup]) ?_
    intro i hmem
    rcases List.mem_append.mp hmem with hmem | hmem
    · exact List.mem_append_left _ (List.mem_append_left _ hmem)
    · obtain ⟨g, hg, hi⟩ := List.mem_filterMap.mp hmem
      rcases List.mem_cons.mp (Table.values_insert_subset _ _ _ hg) with rfl | hg
      · exact List.mem_append_right _ (by rw [Option.mem_toList]; exact hi)
      · exact List.mem_append_left _
          (List.mem_append_right _ (List.mem_filterMap.mpr ⟨g, hg, hi⟩))
  | @inherit m h decl other hd ho ih =>
    -- The parts of the type that is taken over are parts of the schema already.
    let changed : ElementDecl := { decl with type := other.type }
    have hp : ({ m with elements := m.elements.insert decl.name changed } : Model).parts
        ⊆ m.parts ++ changed.parts :=
      parts_subset_of_elements (Table.values_insert_subset _ _ _) rfl rfl
    refine ih.register (l := [.element changed]) (Taken.nil (Nat.le_refl _))
      (List.Subset.trans hp ?_) rfl
    refine List.append_subset.mpr ⟨List.subset_append_left _ _, fun part hpart => ?_⟩
    rw [ElementDecl.parts] at hpart
    rcases List.mem_cons.mp hpart with rfl | hpart
    · exact List.mem_append_right _ List.mem_cons_self
    · exact List.mem_append_left _ (parts_element_subset ho (other.parts_type_subset hpart))

/-! ## Attribute wildcards in effect -/

theorem exists_of_findSomeM? {α β : Type} {f : α → Except Error (Option β)} {l : List α} {b : β}
    (h : l.findSomeM? f = .ok (some b)) : ∃ a ∈ l, f a = .ok (some b) := by
  induction l with
  | nil => cases h
  | cons a rest ih =>
    rw [List.findSomeM?_cons] at h
    obtain ⟨found, hf, h⟩ := exists_of_bind_eq_ok h
    cases found with
    | none =>
      obtain ⟨a', ha', hb⟩ := ih h
      exact ⟨a', List.mem_cons_of_mem _ ha', hb⟩
    | some b' => exact ⟨a, List.mem_cons_self, hf.trans h⟩

theorem mem_of_resolveAttributeGroup {name : QName} {group : AttributeGroup}
    (h : m.resolveAttributeGroup name = .ok group) : group ∈ m.attributeGroups.values :=
  Table.mem_values_of_get? (get?_of_resolveAttributeGroup h)

theorem exists_group_of_itemWildcard {steps : Nat} {item : AttributeItem} {own : Wildcard}
    (h : m.itemWildcard steps item = .ok (some own)) :
    ∃ group ∈ m.attributeGroups.values, group.wildcard = some own := by
  induction steps generalizing item with
  | zero => cases item <;> simp [itemWildcard] at h
  | succ steps ih =>
    cases item with
    | use use => simp [itemWildcard] at h
    | group name =>
      rw [itemWildcard] at h
      obtain ⟨group, hg, h⟩ := exists_of_bind_eq_ok h
      split at h
      · rename_i w hw
        cases h
        exact ⟨group, mem_of_resolveAttributeGroup hg, hw⟩
      · obtain ⟨item, -, hitem⟩ := exists_of_findSomeM? h
        exact ih hitem

/-- A type or an attribute group of the schema declares the wildcard for attributes. -/
def DeclaresForAttributes (m : Model) (own : Wildcard) : Prop :=
  (∃ type, .type type ∈ m.parts ∧ type.wildcard = some own)
    ∨ ∃ group ∈ m.attributeGroups.values, group.wildcard = some own

theorem declares_of_listWildcard {items : List AttributeItem} {own : Wildcard}
    (h : m.listWildcard items = .ok (some own)) : m.DeclaresForAttributes own := by
  obtain ⟨item, -, hitem⟩ := exists_of_findSomeM? h
  exact .inr (exists_group_of_itemWildcard hitem)

theorem wildcardWithin_cases {steps : Nat} {type : ComplexType} {own : Wildcard}
    (h : m.wildcardWithin steps type = .ok (some own)) :
    type.wildcard = some own ∨ m.listWildcard type.attributes = .ok (some own)
      ∨ ∃ n base baseType, steps = n + 1 ∧ m.types.get? base = some (.complex baseType)
        ∧ m.wildcardWithin n baseType = .ok (some own) := by
  unfold wildcardWithin at h
  split at h
  · rename_i w hw
    cases h
    exact .inl hw
  · obtain ⟨listed, hlist, h⟩ := exists_of_bind_eq_ok h
    split at h
    · cases h
      exact .inr (.inl hlist)
    · split at h
      · rename_i base _
        cases steps with
        | zero => cases h
        | succ n =>
          simp only at h
          split at h
          · rename_i baseType hbase
            exact .inr (.inr ⟨n, base, baseType, rfl, hbase, h⟩)
          · cases h
      · cases h

/-- The attribute wildcard in effect is one of a type or of an attribute group. -/
theorem declares_of_wildcardWithin {steps : Nat} {type : ComplexType} {own : Wildcard}
    (h : m.wildcardWithin steps type = .ok (some own)) (ht : .type type ∈ m.parts) :
    m.DeclaresForAttributes own := by
  induction steps generalizing type with
  | zero =>
    rcases wildcardWithin_cases h with hown | hlist | ⟨n, -, -, hn, -⟩
    · exact .inl ⟨type, ht, hown⟩
    · exact declares_of_listWildcard hlist
    · cases hn
  | succ steps ih =>
    rcases wildcardWithin_cases h with hown | hlist | ⟨n, base, baseType, hn, hbase, h⟩
    · exact .inl ⟨type, ht, hown⟩
    · exact declares_of_listWildcard hlist
    · cases hn
      have hcov := covers_of_get?_types hbase
      rw [TypeDef.parts] at hcov
      exact ih h hcov.type

theorem DeclaresForAttributes.mem_attributeNumbers {own : Wildcard}
    (h : m.DeclaresForAttributes own) : own.id ∈ m.attributeNumbers := by
  rcases h with ⟨type, ht, hown⟩ | ⟨group, hg, hown⟩
  · refine List.mem_append_left _ (List.mem_filterMap.mpr ⟨.type type, ht, ?_⟩)
    rw [Part.attributeNumber?, hown]
    rfl
  · exact List.mem_append_right _ (List.mem_filterMap.mpr ⟨group, hg, by rw [hown]; rfl⟩)

/-- **A wildcard in a content is not taken for the attribute wildcard of a type.** -/
theorem Numbered.id_ne (hm : m.Numbered) {type : ComplexType} {own w : Wildcard} {occurs : Occurs}
    (hown : m.wildcardOf type = .ok (some own)) (ht : .type type ∈ m.parts)
    (hw : .particle ⟨occurs, .any w⟩ ∈ m.parts) : w.id ≠ own.id := by
  intro heq
  have hc : w.id ∈ contentNumbers m.parts := List.mem_filterMap.mpr ⟨_, hw, rfl⟩
  have ha := (declares_of_wildcardWithin hown ht).mem_attributeNumbers
  rw [← heq] at ha
  exact hm.apart hc ha

end Model

end Specimen

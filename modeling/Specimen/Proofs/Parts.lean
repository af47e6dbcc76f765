import Specimen.Generate.Walk

/-!
# Parts that a walk comes to

A walk goes from a declaration to its type, from there to the content, which may be put together
from the contents of several types, and on to the particles and to what they refer to. Wherever it
comes, it stays among the parts of the schema and the particles that extensions put together.
-/

namespace Specimen

/-! ## Tables -/

theorem Table.mem_of_get? {α : Type} {t : Table α} {name : QName} {a : α}
    (h : t.get? name = some a) : (name, a) ∈ t.entries := by
  obtain ⟨before, rest, ht, -⟩ := List.lookup_eq_some_iff.mp h
  rw [ht]
  simp

theorem Table.mem_values_of_get? {α : Type} {t : Table α} {name : QName} {a : α}
    (h : t.get? name = some a) : a ∈ t.values :=
  List.mem_map_of_mem (f := Prod.snd) (Table.mem_of_get? h)

theorem Table.mem_names_of_get? {α : Type} {t : Table α} {name : QName} {a : α}
    (h : t.get? name = some a) : name ∈ t.names :=
  List.mem_map_of_mem (f := Prod.fst) (Table.mem_of_get? h)

/-! ## One level down -/

theorem ElementDecl.mem_parts (decl : ElementDecl) : .element decl ∈ decl.parts := by
  cases decl
  simp [ElementDecl.parts]

theorem ComplexType.mem_parts (type : ComplexType) : .type type ∈ type.parts := by
  cases type
  simp [ComplexType.parts]

theorem Particle.mem_parts (p : Particle) : .particle p ∈ p.parts := by
  cases p
  simp [Particle.parts]

theorem ElementDecl.parts_type_subset (decl : ElementDecl) : decl.type.parts ⊆ decl.parts := by
  cases decl
  simp [ElementDecl.parts]

theorem ComplexType.parts_content_subset (type : ComplexType) :
    type.content.parts ⊆ type.parts := by
  cases type
  simp [ComplexType.parts]

theorem Content.parts_eq {content : Content} {p : Particle} (h : content.particle = some p) :
    content.parts = p.parts := by
  cases content <;> simp_all [Content.particle, Content.parts]

theorem Particle.parts_eq (p : Particle) : p.parts = .particle p :: p.term.parts := by
  cases p
  rw [Particle.parts]

theorem parts_subset_partsOfAll {p : Particle} :
    ∀ {particles : List Particle}, p ∈ particles → p.parts ⊆ partsOfAll particles
  | q :: rest, h => by
    rw [partsOfAll]
    rcases List.mem_cons.mp h with rfl | h
    · exact List.subset_append_left _ _
    · exact List.Subset.trans (parts_subset_partsOfAll h) (List.subset_append_right _ _)

theorem length_parts_le_partsOfAll {p : Particle} :
    ∀ {particles : List Particle}, p ∈ particles →
      p.parts.length ≤ (partsOfAll particles).length
  | q :: rest, h => by
    rw [partsOfAll, List.length_append]
    rcases List.mem_cons.mp h with rfl | h
    · omega
    · have := length_parts_le_partsOfAll h
      omega

theorem ModelGroup.parts_eq (group : ModelGroup) : group.parts = partsOfAll group.particles := by
  cases group
  rw [ModelGroup.parts]

theorem ModelGroup.parts_subset {group : ModelGroup} {p : Particle} (h : p ∈ group.particles) :
    p.parts ⊆ group.parts := by
  rw [group.parts_eq]
  exact parts_subset_partsOfAll h

theorem ModelGroup.length_parts_le {group : ModelGroup} {p : Particle}
    (h : p ∈ group.particles) : p.parts.length ≤ group.parts.length := by
  rw [group.parts_eq]
  exact length_parts_le_partsOfAll h

namespace Model

variable {m : Model}

/-! ## Parts of a schema -/

theorem parts_element_subset {decl : ElementDecl} (h : decl ∈ m.elements.values) :
    decl.parts ⊆ m.parts := fun _ hp => by
  simp only [parts, List.mem_append, List.mem_flatMap]
  exact .inl (.inl ⟨decl, h, hp⟩)

theorem parts_type_subset {definition : TypeDef} (h : definition ∈ m.types.values) :
    definition.parts ⊆ m.parts := fun _ hp => by
  simp only [parts, List.mem_append, List.mem_flatMap]
  exact .inl (.inr ⟨definition, h, hp⟩)

theorem parts_group_subset {group : ModelGroup} (h : group ∈ m.groups.values) :
    group.parts ⊆ m.parts := fun _ hp => by
  simp only [parts, List.mem_append, List.mem_flatMap]
  exact .inr ⟨group, h, hp⟩

/-- Each of the parts is one of the schema, or a particle that an extension puts together. -/
def Covers (m : Model) (parts : List Part) : Prop :=
  ∀ part ∈ parts, part ∈ m.parts
    ∨ ∃ base own, part = .particle ⟨.once, .group ⟨.sequence, [base, own]⟩⟩

theorem Covers.mono {l l' : List Part} (h : m.Covers l) (hs : l' ⊆ l) : m.Covers l' :=
  fun part hp => h part (hs hp)

theorem covers_of_subset {l : List Part} (h : l ⊆ m.parts) : m.Covers l :=
  fun _ hp => .inl (h hp)

theorem Covers.element {decl : ElementDecl} (h : m.Covers decl.parts) : .element decl ∈ m.parts := by
  rcases h _ decl.mem_parts with h | ⟨base, own, h⟩
  · exact h
  · cases h

theorem Covers.type {type : ComplexType} (h : m.Covers type.parts) : .type type ∈ m.parts := by
  rcases h _ type.mem_parts with h | ⟨base, own, h⟩
  · exact h
  · cases h

/-! ## What is referred to -/

theorem covers_of_rootElement {name : QName} {decl : ElementDecl}
    (h : m.rootElement name = .ok decl) : m.Covers decl.parts := by
  unfold rootElement at h
  split at h
  · cases h
    exact covers_of_subset (parts_element_subset (Table.mem_values_of_get? ‹_›))
  · cases h

theorem covers_of_mem_substitutionMembers {head : QName} {decl : ElementDecl}
    (h : decl ∈ m.substitutionMembers head) : m.Covers decl.parts :=
  covers_of_subset (parts_element_subset (List.mem_filter.mp h).1)

theorem get?_of_resolveElement {name : QName} {decl : ElementDecl}
    (h : m.resolveElement name = .ok decl) : m.elements.get? name = some decl := by
  unfold resolveElement at h
  split at h
  · cases h
    assumption
  · cases h

theorem covers_of_resolveElement {name : QName} {decl : ElementDecl}
    (h : m.resolveElement name = .ok decl) : m.Covers decl.parts :=
  covers_of_subset (parts_element_subset (Table.mem_values_of_get? (get?_of_resolveElement h)))

theorem get?_of_resolveGroup {name : QName} {group : ModelGroup}
    (h : m.resolveGroup name = .ok group) : m.groups.get? name = some group := by
  unfold resolveGroup at h
  split at h
  · cases h
    assumption
  · cases h

theorem covers_of_resolveGroup {name : QName} {group : ModelGroup}
    (h : m.resolveGroup name = .ok group) : m.Covers group.parts :=
  covers_of_subset (parts_group_subset (Table.mem_values_of_get? (get?_of_resolveGroup h)))

theorem get?_of_resolveAttributeGroup {name : QName} {group : AttributeGroup}
    (h : m.resolveAttributeGroup name = .ok group) : m.attributeGroups.get? name = some group := by
  unfold resolveAttributeGroup at h
  split at h
  · cases h
    assumption
  · cases h

theorem covers_of_get?_types {name : QName} {definition : TypeDef}
    (h : m.types.get? name = some definition) : m.Covers definition.parts :=
  covers_of_subset (parts_type_subset (Table.mem_values_of_get? h))

theorem covers_of_resolveType {ref : TypeRef} {definition : TypeDef}
    (h : m.resolveType ref = .ok definition) (hr : m.Covers ref.parts) :
    m.Covers definition.parts := by
  cases ref with
  | anonymous d =>
    cases h
    rwa [TypeRef.parts] at hr
  | named name =>
    simp only [resolveType] at h
    split at h
    · cases h
      exact covers_of_get?_types ‹_›
    · cases h

theorem covers_of_mem_concreteSubtypes {base : QName} {type : ComplexType}
    (h : type ∈ m.concreteSubtypes base) : m.Covers type.parts := by
  obtain ⟨definition, hd, ht⟩ := List.mem_filterMap.mp (List.mem_filter.mp h).1
  cases definition with
  | simple => cases ht
  | complex type' =>
    cases ht
    have h := covers_of_subset (parts_type_subset hd)
    rwa [TypeDef.parts] at h

/-! ## Contents -/

theorem appendParticle_cases {base own : Option Particle} {p : Particle}
    (h : appendParticle base own = some p) :
    base = some p ∨ own = some p
      ∨ ∃ b o, base = some b ∧ own = some o ∧ p = ⟨.once, .group ⟨.sequence, [b, o]⟩⟩ := by
  cases base with
  | none => exact .inr (.inl h)
  | some b =>
    cases own with
    | none => exact .inl h
    | some o => exact .inr (.inr ⟨b, o, rfl, rfl, (Option.some.inj h).symm⟩)

theorem particle_extendContent (base own : Content) :
    (extendContent base own).particle = appendParticle base.particle own.particle := by
  unfold extendContent
  cases h : appendParticle base.particle own.particle with
  | some p =>
    simp only
    split <;> rfl
  | none =>
    cases base <;> cases own <;> simp_all [Content.particle, appendParticle]

/-- The content of a type is its own, or it is put behind the content of the base that the type
extends. -/
theorem contentWithin_cases {steps : Nat} {type : ComplexType} {content : Content}
    (h : m.contentWithin steps type = .ok content) :
    (content = type.content ∧ ∀ name, type.derivation ≠ some ⟨.extension, name⟩)
      ∨ (∃ name simpleType, content = extendContent (.simple (.named name)) type.content
        ∧ type.derivation = some ⟨.extension, name⟩
        ∧ m.types.get? name = some (.simple simpleType))
      ∨ ∃ n name baseType baseContent, steps = n + 1
        ∧ type.derivation = some ⟨.extension, name⟩
        ∧ m.types.get? name = some (.complex baseType)
        ∧ m.contentWithin n baseType = .ok baseContent
        ∧ content = extendContent baseContent type.content := by
  unfold contentWithin at h
  split at h
  · rename_i name hderivation
    cases steps with
    | zero => cases h
    | succ n =>
      cases hget : m.types.get? name with
      | none => simp [resolveType, hget, bind, Except.bind] at h
      | some definition =>
        cases definition with
        | simple type' =>
          simp only [resolveType, hget, bind, Except.bind, pure, Except.pure] at h
          cases h
          exact .inr (.inl ⟨name, type', rfl, hderivation, hget⟩)
        | complex baseType =>
          simp only [resolveType, hget, bind, Except.bind, pure, Except.pure] at h
          split at h
          · cases h
          · rename_i baseContent hbase
            cases h
            exact .inr (.inr ⟨n, name, baseType, baseContent, rfl, hderivation, hget, hbase, rfl⟩)
  · rename_i hother
    cases h
    exact .inl ⟨rfl, hother⟩

/-- The particle of a content is the own one of the type, or it comes from the base, and the own one
is put behind it if there is one. -/
theorem particle_contentWithin_cases {steps : Nat} {type : ComplexType} {content : Content}
    {p : Particle} (h : m.contentWithin steps type = .ok content)
    (hp : content.particle = some p) :
    type.content.particle = some p
      ∨ ∃ n baseType baseContent b, steps = n + 1 ∧ m.Covers baseType.parts
        ∧ m.contentWithin n baseType = .ok baseContent ∧ baseContent.particle = some b
        ∧ (p = b ∨ ∃ own, type.content.particle = some own
          ∧ p = ⟨.once, .group ⟨.sequence, [b, own]⟩⟩) := by
  rcases contentWithin_cases h with
    ⟨rfl, -⟩ | ⟨_, _, rfl, -⟩ | ⟨n, _, baseType, _, hn, -, hget, hbase, rfl⟩
  · exact .inl hp
  · rw [particle_extendContent] at hp
    exact .inl hp
  · have hbt : m.Covers baseType.parts := by
      have := covers_of_get?_types hget
      rwa [TypeDef.parts] at this
    rw [particle_extendContent] at hp
    rcases appendParticle_cases hp with hb | ho | ⟨b, o, hb, ho, rfl⟩
    · exact .inr ⟨n, baseType, _, p, hn, hbt, hbase, hb, .inl rfl⟩
    · exact .inl ho
    · exact .inr ⟨n, baseType, _, b, hn, hbt, hbase, hb, .inr ⟨o, ho, rfl⟩⟩

theorem covers_contentWithin {steps : Nat} {type : ComplexType} {content : Content} {p : Particle}
    (h : m.contentWithin steps type = .ok content) (hp : content.particle = some p)
    (ht : m.Covers type.parts) : m.Covers p.parts := by
  have hown : ∀ {type : ComplexType} {o : Particle}, m.Covers type.parts →
      type.content.particle = some o → m.Covers o.parts := by
    intro type o ht ho
    rw [← Content.parts_eq ho]
    exact ht.mono type.parts_content_subset
  -- By the steps that are left, as the content of the base is found with one step less.
  induction steps using Nat.strongRecOn generalizing type content p with
  | ind steps ih =>
    rcases particle_contentWithin_cases h hp with
      ho | ⟨n, _, _, b, rfl, hbt, hbase, hb, rfl | ⟨o, ho, rfl⟩⟩
    · exact hown ht ho
    · exact ih n n.lt_succ_self hbase hb hbt
    · intro part hpart
      rw [Particle.parts_eq] at hpart
      simp only [Term.parts, ModelGroup.parts, partsOfAll, List.append_nil, List.mem_cons,
        List.mem_append] at hpart
      rcases hpart with rfl | hpart | hpart
      · exact .inr ⟨b, o, rfl⟩
      · exact ih n n.lt_succ_self hbase hb hbt part hpart
      · exact hown ht ho part hpart

/-- **The particles of a content are parts of the schema**, but for those that put two contents
together. -/
theorem covers_of_contentOf {type : ComplexType} {content : Content} {p : Particle}
    (h : m.contentOf type = .ok content) (hp : content.particle = some p)
    (ht : m.Covers type.parts) : m.Covers p.parts :=
  covers_contentWithin h hp ht

end Model

end Specimen

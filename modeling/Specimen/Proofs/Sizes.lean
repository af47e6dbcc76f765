import Specimen.Proofs.Parts

/-!
# How large components are

The size of a component is the number of its parts. No part of a schema is larger than the schema,
and the content of a type is at most as large as the schema once for each type that it is put
together from.
-/

namespace Specimen

/-! ## Parts of parts -/

/-- The parts of a part, itself included. -/
def Part.parts : Part → List Part
  | element decl => decl.parts
  | type t => t.parts
  | particle p => p.parts

mutual

theorem TypeRef.sublist_parts : ∀ (type : TypeRef) {part : Part}, part ∈ type.parts →
    part.parts.Sublist type.parts
  | .named _, _, h => absurd h List.not_mem_nil
  | .anonymous definition, _, h => definition.sublist_parts h

theorem TypeDef.sublist_parts : ∀ (definition : TypeDef) {part : Part},
    part ∈ definition.parts → part.parts.Sublist definition.parts
  | .simple _, _, h => absurd h List.not_mem_nil
  | .complex type, _, h => type.sublist_parts h

theorem ComplexType.sublist_parts : ∀ (type : ComplexType) {part : Part}, part ∈ type.parts →
    part.parts.Sublist type.parts
  | ⟨_, _, content, _, _, _⟩, part, h => by
    rw [ComplexType.parts] at h
    rcases List.mem_cons.mp h with rfl | h
    · exact List.Sublist.refl _
    · rw [ComplexType.parts]
      exact (content.sublist_parts h).cons _

theorem Content.sublist_parts : ∀ (content : Content) {part : Part}, part ∈ content.parts →
    part.parts.Sublist content.parts
  | .empty, _, h => absurd h List.not_mem_nil
  | .simple _, _, h => absurd h List.not_mem_nil
  | .elements p, _, h => p.sublist_parts h
  | .mixed p, _, h => p.sublist_parts h

theorem ElementDecl.sublist_parts : ∀ (decl : ElementDecl) {part : Part}, part ∈ decl.parts →
    part.parts.Sublist decl.parts
  | ⟨_, _, type, _, _, _⟩, part, h => by
    rw [ElementDecl.parts] at h
    rcases List.mem_cons.mp h with rfl | h
    · exact List.Sublist.refl _
    · rw [ElementDecl.parts]
      exact (type.sublist_parts h).cons _

theorem Particle.sublist_parts : ∀ (p : Particle) {part : Part}, part ∈ p.parts →
    part.parts.Sublist p.parts
  | ⟨_, term⟩, part, h => by
    rw [Particle.parts] at h
    rcases List.mem_cons.mp h with rfl | h
    · exact List.Sublist.refl _
    · rw [Particle.parts]
      exact (term.sublist_parts h).cons _

theorem Term.sublist_parts : ∀ (term : Term) {part : Part}, part ∈ term.parts →
    part.parts.Sublist term.parts
  | .elementRef _, _, h => absurd h List.not_mem_nil
  | .element decl, _, h => decl.sublist_parts h
  | .group group, _, h => group.sublist_parts h
  | .groupRef _, _, h => absurd h List.not_mem_nil
  | .any _, _, h => absurd h List.not_mem_nil

theorem ModelGroup.sublist_parts : ∀ (group : ModelGroup) {part : Part}, part ∈ group.parts →
    part.parts.Sublist group.parts
  | ⟨_, particles⟩, _, h => sublist_partsOfAll particles h

theorem sublist_partsOfAll : ∀ (particles : List Particle) {part : Part},
    part ∈ partsOfAll particles → part.parts.Sublist (partsOfAll particles)
  | [], _, h => absurd h List.not_mem_nil
  | p :: rest, part, h => by
    rw [partsOfAll] at h ⊢
    rcases List.mem_append.mp h with h | h
    · exact (p.sublist_parts h).trans (List.sublist_append_left _ _)
    · exact (sublist_partsOfAll rest h).trans (List.sublist_append_right _ _)

end

/-! ## Parts of a schema -/

namespace Model

variable {m : Model}

theorem sublist_parts {part : Part} (h : part ∈ m.parts) : part.parts.Sublist m.parts := by
  have hflat : ∀ {α : Type} {parts : α → List Part} {l : List α},
      (∀ a ∈ l, part ∈ parts a → part.parts.Sublist (parts a)) → part ∈ l.flatMap parts →
        part.parts.Sublist (l.flatMap parts) := by
    intro α parts l hl hpart
    obtain ⟨a, ha, hpart⟩ := List.mem_flatMap.mp hpart
    exact (hl a ha hpart).trans (List.sublist_flatten_of_mem (List.mem_map_of_mem ha))
  unfold parts at h ⊢
  rcases List.mem_append.mp h with h | h
  · refine List.Sublist.trans ?_ (List.sublist_append_left _ _)
    rcases List.mem_append.mp h with h | h
    · exact (hflat (fun decl _ => decl.sublist_parts) h).trans (List.sublist_append_left _ _)
    · exact (hflat (fun type _ => type.sublist_parts) h).trans (List.sublist_append_right _ _)
  · exact (hflat (fun group _ => group.sublist_parts) h).trans (List.sublist_append_right _ _)

/-- A part of a schema has no more parts than the schema. -/
theorem length_parts_le {part : Part} (h : part ∈ m.parts) :
    part.parts.length ≤ m.parts.length :=
  (sublist_parts h).length_le

/-- With a type, its parts are parts of the schema. -/
theorem covers_of_mem_parts {type : ComplexType} (h : .type type ∈ m.parts) :
    m.Covers type.parts :=
  covers_of_subset (sublist_parts h).subset

theorem length_parts_group_le {group : ModelGroup} (h : group ∈ m.groups.values) :
    group.parts.length ≤ m.parts.length := by
  refine List.Sublist.length_le ?_
  refine List.Sublist.trans ?_ (List.sublist_append_right _ _)
  exact List.sublist_flatten_of_mem (List.mem_map_of_mem h)

theorem length_parts_own_le {type : ComplexType} {p : Particle} (ht : m.Covers type.parts)
    (hp : type.content.particle = some p) : p.parts.length + 1 ≤ m.parts.length := by
  have h := length_parts_le ht.type
  cases type
  simp only [Part.parts, ComplexType.parts, List.length_cons, Content.parts_eq hp] at h
  exact h

/-- The parts of a content that is put together from those of several types. -/
theorem length_parts_contentWithin {steps : Nat} {type : ComplexType} {content : Content}
    {p : Particle} (h : m.contentWithin steps type = .ok content)
    (hp : content.particle = some p) (ht : m.Covers type.parts) :
    p.parts.length ≤ (steps + 1) * (m.parts.length + 1) := by
  induction steps using Nat.strongRecOn generalizing type content p with
  | ind steps ih =>
    have hmul : (steps + 1) * (m.parts.length + 1)
        = steps * (m.parts.length + 1) + (m.parts.length + 1) := Nat.succ_mul _ _
    rcases particle_contentWithin_cases h hp with
      ho | ⟨n, _, _, b, rfl, hbt, hbase, hb, rfl | ⟨o, ho, rfl⟩⟩
    · have := length_parts_own_le ht ho
      omega
    · have := ih n n.lt_succ_self hbase hb hbt
      omega
    · have := ih n n.lt_succ_self hbase hb hbt
      have := length_parts_own_le ht ho
      simp only [Particle.parts, Term.parts, ModelGroup.parts, partsOfAll, List.length_cons,
        List.length_append, List.length_nil]
      omega

end Model

end Specimen

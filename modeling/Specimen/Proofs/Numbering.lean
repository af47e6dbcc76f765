import Mathlib.Data.List.Basic
import Specimen.Proofs.Parts
import Specimen.Schema.Loading

/-!
# Numbers of wildcards

A wildcard in a content and the attribute wildcard of a type are told apart by their numbers alone.
In a schema that is built by registering components the numbers of the two kinds never meet: each
component takes its numbers from the first free one on, and no number is taken twice.
-/

namespace Specimen

/-! ## The numbers in a component -/

/-- The number of a wildcard in a content. -/
def Part.contentNumber? : Part → Option Nat
  | particle ⟨_, .any w⟩ => some w.id
  | _ => none

/-- The number of the attribute wildcard of a type. -/
def Part.attributeNumber? : Part → Option Nat
  | type t => t.wildcard.map Wildcard.id
  | _ => none

/-- The numbers of the wildcards in contents. -/
def contentNumbers (parts : List Part) : List Nat := parts.filterMap Part.contentNumber?

/-- The numbers of the attribute wildcards of types. -/
def attributeNumbers (parts : List Part) : List Nat := parts.filterMap Part.attributeNumber?

@[simp] theorem contentNumbers_append (l l' : List Part) :
    contentNumbers (l ++ l') = contentNumbers l ++ contentNumbers l' :=
  List.filterMap_append

@[simp] theorem attributeNumbers_append (l l' : List Part) :
    attributeNumbers (l ++ l') = attributeNumbers l ++ attributeNumbers l' :=
  List.filterMap_append

/-- Numbers of wildcards in contents and of attribute wildcards that are taken from `n` on and below
`next`, and none of them for both. -/
structure Taken (n next : Nat) (contents attributes : List Nat) : Prop where
  le : n ≤ next
  contents_mem : ∀ i ∈ contents, n ≤ i ∧ i < next
  attributes_mem : ∀ i ∈ attributes, n ≤ i ∧ i < next
  apart : contents.Disjoint attributes

namespace Taken

variable {n next next' : Nat} {cs cs' as as' : List Nat}

theorem nil (h : n ≤ next) : Taken n next [] [] :=
  ⟨h, by simp, by simp, by simp⟩

/-- Numbers up to `next` and numbers from `next` on are numbers of the whole range. -/
theorem within_append {is is' : List Nat} (hle : n ≤ next) (hle' : next ≤ next')
    (h : ∀ i ∈ is, n ≤ i ∧ i < next) (h' : ∀ i ∈ is', next ≤ i ∧ i < next') :
    ∀ i ∈ is ++ is', n ≤ i ∧ i < next' := by
  intro i hi
  rcases List.mem_append.mp hi with hi | hi
  · have := h i hi
    omega
  · have := h' i hi
    omega

theorem append (h : Taken n next cs as) (h' : Taken next next' cs' as') :
    Taken n next' (cs ++ cs') (as ++ as') where
  le := Nat.le_trans h.le h'.le
  contents_mem := within_append h.le h'.le h.contents_mem h'.contents_mem
  attributes_mem := within_append h.le h'.le h.attributes_mem h'.attributes_mem
  apart i hc ha := by
    -- A number of the first part is below `next`, and one of the second is not.
    rcases List.mem_append.mp hc with hc | hc <;> rcases List.mem_append.mp ha with ha | ha
    · exact h.apart hc ha
    · have := h.contents_mem i hc
      have := h'.attributes_mem i ha
      omega
    · have := h'.contents_mem i hc
      have := h.attributes_mem i ha
      omega
    · exact h'.apart hc ha

theorem mono (h : Taken n next cs as) (hc : cs' ⊆ cs) (ha : as' ⊆ as) : Taken n next cs' as' where
  le := h.le
  contents_mem i hi := h.contents_mem i (hc hi)
  attributes_mem i hi := h.attributes_mem i (ha hi)
  apart _ hi hj := h.apart (hc hi) (ha hj)

/-- Numbers that are left out. -/
theorem skip (h : Taken next next' cs as) (hle : n ≤ next) : Taken n next' cs as :=
  (Taken.nil hle).append h

theorem content (n : Nat) : Taken n (n + 1) [n] [] :=
  ⟨by omega, by simp, by simp, by simp⟩

theorem wildcard (w : Option Wildcard) (n : Nat) :
    Taken n (numberWildcard w n).2 [] ((numberWildcard w n).1.map Wildcard.id).toList := by
  cases w with
  | none => exact nil (Nat.le_refl n)
  | some w => exact ⟨by simp [numberWildcard], by simp, by simp [numberWildcard], by simp⟩

end Taken

/-! ## Numbers go up -/

mutual

theorem TypeRef.le_numberFrom : ∀ (type : TypeRef) (n : Nat), n ≤ (type.numberFrom n).2
  | .named _, n => Nat.le_refl n
  | .anonymous definition, n => definition.le_numberFrom n

theorem TypeDef.le_numberFrom : ∀ (definition : TypeDef) (n : Nat),
    n ≤ (definition.numberFrom n).2
  | .simple type, n => type.le_numberFrom n
  | .complex type, n => type.le_numberFrom n

theorem SimpleType.le_numberFrom : ∀ (type : SimpleType) (n : Nat), n ≤ (type.numberFrom n).2
  | ⟨_, base, variety, _⟩, n =>
    Nat.le_trans (le_numberBase base n) (variety.le_numberFrom (numberBase base n).2)

theorem le_numberBase : ∀ (base : Option TypeRef) (n : Nat), n ≤ (numberBase base n).2
  | none, n => Nat.le_refl n
  | some type, n => type.le_numberFrom n

theorem Variety.le_numberFrom : ∀ (variety : Variety) (n : Nat), n ≤ (variety.numberFrom n).2
  | .atomic, n => Nat.le_refl n
  | .list item, n => item.le_numberFrom n
  | .union members, n => le_numberTypes members n

theorem le_numberTypes : ∀ (types : List TypeRef) (n : Nat), n ≤ (numberTypes types n).2
  | [], n => Nat.le_refl n
  | type :: rest, n =>
    Nat.le_trans (type.le_numberFrom n) (le_numberTypes rest (type.numberFrom n).2)

theorem ComplexType.le_numberFrom : ∀ (type : ComplexType) (n : Nat), n ≤ (type.numberFrom n).2
  | ⟨_, _, content, attributes, wildcard, _⟩, n =>
    Nat.le_trans
      (Nat.le_trans (content.le_numberFrom n) (le_numberItems attributes (content.numberFrom n).2))
      (Taken.wildcard wildcard (numberItems attributes (content.numberFrom n).2).2).le

theorem Content.le_numberFrom : ∀ (content : Content) (n : Nat), n ≤ (content.numberFrom n).2
  | .empty, n => Nat.le_refl n
  | .simple type, n => type.le_numberFrom n
  | .elements particle, n => particle.le_numberFrom n
  | .mixed particle, n => particle.le_numberFrom n

theorem le_numberItems : ∀ (items : List AttributeItem) (n : Nat), n ≤ (numberItems items n).2
  | [], n => Nat.le_refl n
  | item :: rest, n =>
    Nat.le_trans (item.le_numberFrom n) (le_numberItems rest (item.numberFrom n).2)

theorem AttributeItem.le_numberFrom : ∀ (item : AttributeItem) (n : Nat),
    n ≤ (item.numberFrom n).2
  | .group _, n => Nat.le_refl n
  | .use use, n => use.le_numberFrom n

theorem AttributeUse.le_numberFrom : ∀ (use : AttributeUse) (n : Nat), n ≤ (use.numberFrom n).2
  | ⟨_, _, target⟩, n => target.le_numberFrom n

theorem AttributeTarget.le_numberFrom : ∀ (target : AttributeTarget) (n : Nat),
    n ≤ (target.numberFrom n).2
  | .global _, n => Nat.le_refl n
  | .inline decl, n => decl.le_numberFrom n

theorem AttributeDecl.le_numberFrom : ∀ (decl : AttributeDecl) (n : Nat),
    n ≤ (decl.numberFrom n).2
  | ⟨_, type, _⟩, n => type.le_numberFrom n

theorem ElementDecl.le_numberFrom : ∀ (decl : ElementDecl) (n : Nat), n ≤ (decl.numberFrom n).2
  | ⟨_, _, type, _, _, _⟩, n => Nat.le_trans (Nat.le_succ n) (type.le_numberFrom (n + 1))

theorem Particle.le_numberFrom : ∀ (p : Particle) (n : Nat), n ≤ (p.numberFrom n).2
  | ⟨_, term⟩, n => Nat.le_trans (Nat.le_succ n) (term.le_numberFrom (n + 1))

theorem Term.le_numberFrom : ∀ (term : Term) (n : Nat), n ≤ (term.numberFrom n).2
  | .elementRef _, n => Nat.le_refl n
  | .element decl, n => decl.le_numberFrom n
  | .group group, n => group.le_numberFrom n
  | .groupRef _, n => Nat.le_refl n
  | .any _, n => Nat.le_succ n

theorem ModelGroup.le_numberFrom : ∀ (group : ModelGroup) (n : Nat), n ≤ (group.numberFrom n).2
  | ⟨_, particles⟩, n => le_numberParticles particles n

theorem le_numberParticles : ∀ (particles : List Particle) (n : Nat),
    n ≤ (numberParticles particles n).2
  | [], n => Nat.le_refl n
  | p :: rest, n =>
    Nat.le_trans (p.le_numberFrom n) (le_numberParticles rest (p.numberFrom n).2)

end

/-! ## The numbers that a component takes -/

/-- The numbers of the wildcards in some parts are taken from `n` on and below `next`. -/
abbrev TakenBy (n next : Nat) (parts : List Part) : Prop :=
  Taken n next (contentNumbers parts) (attributeNumbers parts)

theorem TakenBy.append {n next next' : Nat} {l l' : List Part} (h : TakenBy n next l)
    (h' : TakenBy next next' l') : TakenBy n next' (l ++ l') := by
  have := Taken.append h h'
  rwa [← contentNumbers_append, ← attributeNumbers_append] at this

mutual

theorem TypeRef.taken : ∀ (type : TypeRef) (n : Nat),
    TakenBy n (type.numberFrom n).2 (type.numberFrom n).1.parts
  | .named _, n => Taken.nil (Nat.le_refl n)
  | .anonymous definition, n => definition.taken n

theorem TypeDef.taken : ∀ (definition : TypeDef) (n : Nat),
    TakenBy n (definition.numberFrom n).2 (definition.numberFrom n).1.parts
  | .simple type, n => Taken.nil (type.le_numberFrom n)
  | .complex type, n => type.taken n

theorem ComplexType.taken : ∀ (type : ComplexType) (n : Nat),
    TakenBy n (type.numberFrom n).2 (type.numberFrom n).1.parts
  | ⟨name, isAbstract, content, attributes, wildcard, derivation⟩, n => by
    have hc := content.taken n
    have hi := le_numberItems attributes (content.numberFrom n).2
    have hw := Taken.wildcard wildcard (numberItems attributes (content.numberFrom n).2).2
    -- The part of the type itself stands first, but its wildcard is numbered last.
    refine (Taken.append hc (hw.skip hi)).mono ?_ ?_
    · intro i hmem
      simpa [ComplexType.numberFrom, ComplexType.parts, contentNumbers, Part.contentNumber?]
        using hmem
    · intro i hmem
      rcases hnum : (numberWildcard wildcard (numberItems attributes (content.numberFrom n).2).2).1
        with - | own
      · simpa [ComplexType.numberFrom, ComplexType.parts, attributeNumbers,
          Part.attributeNumber?, hnum] using hmem
      · have : i = own.id ∨ i ∈ attributeNumbers (content.numberFrom n).1.parts := by
          simpa [ComplexType.numberFrom, ComplexType.parts, attributeNumbers,
            Part.attributeNumber?, hnum] using hmem
        simpa [or_comm] using this

theorem Content.taken : ∀ (content : Content) (n : Nat),
    TakenBy n (content.numberFrom n).2 (content.numberFrom n).1.parts
  | .empty, n => Taken.nil (Nat.le_refl n)
  | .simple type, n => Taken.nil (type.le_numberFrom n)
  | .elements particle, n => particle.taken n
  | .mixed particle, n => particle.taken n

theorem ElementDecl.taken : ∀ (decl : ElementDecl) (n : Nat),
    TakenBy n (decl.numberFrom n).2 (decl.numberFrom n).1.parts
  | ⟨_, _, type, _, _, _⟩, n => (type.taken (n + 1)).skip (Nat.le_succ n)

theorem Particle.taken : ∀ (p : Particle) (n : Nat),
    TakenBy n (p.numberFrom n).2 (p.numberFrom n).1.parts
  | ⟨_, .any _⟩, n => (Taken.content (n + 1)).skip (Nat.le_succ n)
  | ⟨_, .elementRef _⟩, n => Taken.nil (Nat.le_succ n)
  | ⟨_, .groupRef _⟩, n => Taken.nil (Nat.le_succ n)
  | ⟨_, .element decl⟩, n => (decl.taken (n + 1)).skip (Nat.le_succ n)
  | ⟨_, .group group⟩, n => (group.taken (n + 1)).skip (Nat.le_succ n)

theorem ModelGroup.taken : ∀ (group : ModelGroup) (n : Nat),
    TakenBy n (group.numberFrom n).2 (group.numberFrom n).1.parts
  | ⟨_, particles⟩, n => taken_numberParticles particles n

theorem taken_numberParticles : ∀ (particles : List Particle) (n : Nat),
    TakenBy n (numberParticles particles n).2 (partsOfAll (numberParticles particles n).1)
  | [], n => Taken.nil (Nat.le_refl n)
  | p :: rest, n => (p.taken n).append (taken_numberParticles rest (p.numberFrom n).2)

end

end Specimen

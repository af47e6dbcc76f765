import Mathlib.Logic.Relation
import Specimen.Proofs.Steps

/-!
# Particles and the groups they open

A particle opens a model group if it is one, or if it refers to one by a name that the schema knows.
The particles of that group stand right below it. So there is a tree below every particle, which has
no end where named groups refer to each other in a circle.

The content model of a particle follows this tree. At each particle it goes one of four ways, which
are told apart here once and for all.
-/

namespace Specimen

/-- The name of the element that a term is or refers to. -/
def Term.elementName? : Term → Option QName
  | .elementRef name => some name
  | .element decl => some decl.name
  | _ => none

namespace Model

variable {m : Model} {p q : Particle} {t : Term} {group : ModelGroup}

/-! ## The tree below a particle -/

/-- The term is a model group, or refers to one. -/
inductive Opens (m : Model) : Term → ModelGroup → Prop
  | inPlace (group : ModelGroup) : m.Opens (.group group) group
  | named {name : QName} {group : ModelGroup} (h : m.resolveGroup name = .ok group) :
      m.Opens (.groupRef name) group

/-- The term refers to a group that the schema does not know. -/
def Dangles (m : Model) (t : Term) : Prop := ∃ name, t = .groupRef name ∧ m.groups.get? name = none

/-- The second particle stands right below the first one, in the group that this one opens. -/
def Holds (m : Model) (p q : Particle) : Prop := ∃ group, m.Opens p.term group ∧ q ∈ group.particles

/-- The second particle is the first one or stands somewhere below it. -/
def Unfolds (m : Model) : Particle → Particle → Prop := Relation.ReflTransGen m.Holds

/-- Some groups that are open inside each other, from the one that a term opens inwards. -/
inductive Nests (m : Model) : Term → List ModelGroup → Prop
  | innermost {t : Term} {group : ModelGroup} (h : m.Opens t group) : m.Nests t [group]
  | around {t : Term} {group : ModelGroup} {q : Particle} {rest : List ModelGroup}
      (h : m.Opens t group) (hq : q ∈ group.particles) (hrest : m.Nests q.term rest) :
      m.Nests t (group :: rest)

/-- A term opens at most one group. -/
theorem Opens.unique {group' : ModelGroup} (h : m.Opens t group) (h' : m.Opens t group') :
    group' = group := by
  cases h with
  | inPlace => cases h'; rfl
  | named h =>
    cases h' with
    | named h' => exact Except.ok.inj (h'.symm.trans h)

theorem Dangles.not_opens (h : m.Dangles t) : ¬m.Opens t group := by
  obtain ⟨name, rfl, hnone⟩ := h
  intro hopens
  cases hopens with
  | named h => rw [resolveGroup, hnone] at h; cases h

/-- **What a term may be**: an element, a wildcard, an open group, or a reference to none. -/
theorem term_cases (m : Model) (t : Term) :
    (∃ name, t.elementName? = some name) ∨ (∃ wildcard, t = .any wildcard)
      ∨ (∃ group, m.Opens t group) ∨ m.Dangles t := by
  cases t with
  | elementRef name => exact .inl ⟨name, rfl⟩
  | element decl => exact .inl ⟨decl.name, rfl⟩
  | any wildcard => exact .inr (.inl ⟨wildcard, rfl⟩)
  | group group => exact .inr (.inr (.inl ⟨group, .inPlace group⟩))
  | groupRef name =>
    cases hget : m.groups.get? name with
    | none => exact .inr (.inr (.inr ⟨name, rfl, hget⟩))
    | some group =>
      exact .inr (.inr (.inl ⟨group, .named (by rw [resolveGroup, hget])⟩))

theorem not_opens_of_elementName {name : QName} (h : t.elementName? = some name) :
    ¬m.Opens t group := by
  intro hopens
  cases hopens <;> cases h

theorem not_opens_any {wildcard : Wildcard} : ¬m.Opens (.any wildcard) group := nofun

/-- Where a term opens a group, what stands right below are the particles of this group. -/
theorem holds_iff_of_opens (h : m.Opens p.term group) : m.Holds p q ↔ q ∈ group.particles := by
  constructor
  · rintro ⟨group', h', hq⟩
    rwa [h.unique h'] at hq
  · exact fun hq => ⟨group, h, hq⟩

/-- What holds somewhere in the tree holds at its root, or somewhere below a particle right below
the root. -/
theorem exists_unfolds_iff {P : Particle → Prop} : (∃ q, m.Unfolds p q ∧ P q)
    ↔ P p ∨ ∃ first, m.Holds p first ∧ ∃ q, m.Unfolds first q ∧ P q := by
  constructor
  · rintro ⟨q, hq, hP⟩
    rcases Relation.ReflTransGen.cases_head hq with rfl | ⟨first, hfirst, hrest⟩
    · exact .inl hP
    · exact .inr ⟨first, hfirst, q, hrest, hP⟩
  · rintro (hP | ⟨first, hfirst, q, hrest, hP⟩)
    · exact ⟨p, .refl, hP⟩
    · exact ⟨q, .head hfirst hrest, hP⟩

end Model

/-! ## Rendering follows the tree -/

namespace ContentModel

open Walk

variable {σ : Type} {m : Model} {render : ModelGroup → Walk σ String} {t : Term}

theorem renderTerm_of_elementName {name : QName} (h : t.elementName? = some name) :
    renderTerm m render t = renderName name := by
  cases t <;> cases h <;> rfl

theorem renderTerm_of_opens {group : ModelGroup} (h : m.Opens t group) :
    renderTerm m render t = render group := by
  cases h with
  | inPlace => rfl
  | named h => rw [renderTerm, h]; rfl

theorem renderTerm_of_dangles (render : ModelGroup → Walk σ String) (h : m.Dangles t) :
    ∃ name, renderTerm m render t = Walk.fail (.shape (.unknown .group name)) := by
  obtain ⟨name, rfl, hnone⟩ := h
  exact ⟨name, by rw [renderTerm, Model.resolveGroup, hnone]; rfl⟩

end ContentModel

end Specimen

import Specimen.Proofs.Decisions

/-!
# Rows of elements that a content model allows

The meaning of particles in XML Schema: which rows of elements a particle allows, stated without
regard to how a row is generated. A row is a list of the elements directly inside an element.

* A particle allows its term as often as its bounds say, one after another.
* An element declaration allows an element of its own or, if it is abstract, one of a member of its
  substitution group; a wildcard allows an element in a namespace that it admits.
* A sequence allows what its particles allow, in their order; an `all` group in some order; a choice
  what one of its particles allows. A reference to a group stands for the group.
-/

namespace Specimen

/-- The element of a declaration. -/
def Child.ofDecl (decl : ElementDecl) : Child :=
  ⟨some decl, decl.name.namespaceUri, decl.name.localName⟩

namespace Model

mutual

/-- A particle allows a row. -/
inductive Accepts (m : Model) : Particle → List Child → Prop
  | repeated {p : Particle} {n : Nat} {row : List Child} (hn : p.occurs.contains n = true)
      (h : Repeats m p.term n row) : Accepts m p row

/-- A term that occurs so many times allows a row. -/
inductive Repeats (m : Model) : Term → Nat → List Child → Prop
  | zero {t : Term} : Repeats m t 0 []
  | succ {t : Term} {n : Nat} {row row' : List Child} (h : Once m t row)
      (h' : Repeats m t n row') : Repeats m t (n + 1) (row ++ row')

/-- A term that occurs once allows a row. -/
inductive Once (m : Model) : Term → List Child → Prop
  | element {decl other : ElementDecl} (h : m.StandsFor decl other) :
      Once m (.element decl) [.ofDecl other]
  | elementRef {name : QName} {decl other : ElementDecl} (hd : m.elements.get? name = some decl)
      (h : m.StandsFor decl other) : Once m (.elementRef name) [.ofDecl other]
  | any {w : Wildcard} {uri name : String} (h : w.namespaces.Admits uri) :
      Once m (.any w) [⟨none, uri, name⟩]
  | group {group : ModelGroup} {row : List Child} (h : Grouped m group row) :
      Once m (.group group) row
  | groupRef {name : QName} {group : ModelGroup} {row : List Child}
      (hg : m.groups.get? name = some group) (h : Grouped m group row) :
      Once m (.groupRef name) row

/-- A model group that occurs once allows a row. -/
inductive Grouped (m : Model) : ModelGroup → List Child → Prop
  | sequence {particles : List Particle} {row : List Child} (h : Arranged m particles row) :
      Grouped m ⟨.sequence, particles⟩ row
  | all {particles order : List Particle} {row : List Child} (ho : order.Perm particles)
      (h : Arranged m order row) : Grouped m ⟨.all, particles⟩ row
  | choice {particles : List Particle} {p : Particle} {row : List Child} (hp : p ∈ particles)
      (h : Accepts m p row) : Grouped m ⟨.choice, particles⟩ row

/-- Particles one after another allow a row. -/
inductive Arranged (m : Model) : List Particle → List Child → Prop
  | nil : Arranged m [] []
  | cons {p : Particle} {rest : List Particle} {row row' : List Child} (h : Accepts m p row)
      (h' : Arranged m rest row') : Arranged m (p :: rest) (row ++ row')

end

/-! ## Schemas whose bounds can be met -/

/-- The number of branches, if a term is a choice or refers to one. -/
def branches? (m : Model) : Term → Option Nat
  | .group ⟨.choice, particles⟩ => some particles.length
  | .groupRef name =>
    match m.groups.get? name with
    | some ⟨.choice, particles⟩ => some particles.length
    | _ => none
  | _ => none

/-- If the part is a particle, its bounds are in order, and if it is a choice, it has as many branches
as it has to occur. -/
def MeetsBounds (m : Model) : Part → Prop
  | .particle p => p.occurs.InOrder ∧ ∀ n ∈ m.branches? p.term, p.occurs.min ≤ n
  | _ => True

instance (m : Model) : DecidablePred m.MeetsBounds
  | .particle p => inferInstanceAs (Decidable (p.occurs.InOrder ∧ _))
  | .element _ => isTrue trivial
  | .type _ => isTrue trivial

/-- The bounds of every particle are in order, and a choice has as many branches as it has to occur.
-/
def BoundsMet (m : Model) : Prop := ∀ part ∈ m.parts, m.MeetsBounds part

instance (m : Model) : Decidable m.BoundsMet := inferInstanceAs (Decidable (∀ part ∈ m.parts, _))

end Model

end Specimen

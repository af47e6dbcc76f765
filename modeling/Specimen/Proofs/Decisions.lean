import Specimen.Proofs.Draws
import Specimen.Proofs.Outline

/-!
# Elements and types that are chosen

Which element stands for a declared one, and for which type it is generated, as relations on the
schema that do not say how the choice is made. What is chosen is always among what they allow.
-/

namespace Specimen

namespace Model

/-- An element of `other` may stand where `decl` is declared. -/
inductive StandsFor (m : Model) (decl other : ElementDecl) : Prop where
  | own (h : decl.isAbstract = false) (ho : other = decl)
  | member (h : decl.isAbstract = true) (ho : other ∈ m.substitutionMembers decl.name)

/-- An element of a declared type may be generated for `type`: the declared type itself or, if it is
abstract, a type derived from it that is not. -/
inductive Generates (m : Model) (declared type : TypeDef) : Prop where
  | own (h : ∀ c, declared = .complex c → c.isAbstract = false) (ht : type = declared)
  | subtype {base sub : ComplexType} {name : QName} (hd : declared = .complex base)
      (h : base.isAbstract = true) (hn : base.name = some name)
      (hs : sub ∈ m.concreteSubtypes name) (ht : type = .complex sub)

variable {m : Model}

theorem StandsFor.covers {decl other : ElementDecl} (h : m.StandsFor decl other)
    (hd : m.Covers decl.parts) : m.Covers other.parts := by
  cases h with
  | own h ho => rwa [ho]
  | member h ho => exact covers_of_mem_substitutionMembers ho

theorem Generates.covers {declared type : TypeDef} (h : m.Generates declared type)
    (hd : m.Covers declared.parts) : m.Covers type.parts := by
  cases h with
  | own h ht => rwa [ht]
  | subtype _ _ _ hs ht =>
    rw [ht, TypeDef.parts]
    exact covers_of_mem_concreteSubtypes hs

end Model

namespace Document

open Walk

variable {σ : Type} [Source σ] {m : Model}

theorem getD_mem {α : Type} (first : α) (others : List α) (i : Nat) :
    (first :: others).getD i first ∈ first :: others := by
  rw [List.getD_eq_getElem?_getD]
  cases h : (first :: others)[i]? with
  | none => exact List.mem_cons_self
  | some a => exact List.mem_of_getElem? h

theorem decides_chooseSubstitute (decl : ElementDecl) :
    Decides (chooseSubstitute m decl : Walk σ ElementDecl)
      fun member => member ∈ m.substitutionMembers decl.name := by
  unfold chooseSubstitute
  split
  · exact .fail (.shape _)
  · rename_i first others hmembers
    refine Decides.bind (.draw (P := fun _ => True) fun _ => trivial) fun i _ => .pure ?_
    rw [hmembers]
    exact getD_mem first others i

theorem decides_chooseSubtype (type : ComplexType) :
    Decides (chooseSubtype m type : Walk σ ComplexType)
      fun sub => ∃ name, type.name = some name ∧ sub ∈ m.concreteSubtypes name := by
  unfold chooseSubtype
  split
  · exact .fail (.shape _)
  · rename_i name hname
    split
    · exact .fail (.shape _)
    · rename_i first others hsubtypes
      refine Decides.bind (.draw (P := fun _ => True) fun _ => trivial) fun i _ => .pure ?_
      refine ⟨name, hname, ?_⟩
      rw [hsubtypes]
      exact getD_mem first others i

theorem decides_effectiveType (declared : TypeDef) :
    Decides (effectiveType m declared : Walk σ (TypeDef × Bool))
      fun chosen => m.Generates declared chosen.1 := by
  unfold effectiveType
  cases declared with
  | simple type => exact .pure (.own (fun c hc => nomatch hc) rfl)
  | complex type =>
    simp only
    split
    · rename_i ha
      refine (decides_chooseSubtype type).bind fun sub hsub => .pure ?_
      obtain ⟨name, hname, hmem⟩ := hsub
      exact .subtype rfl ha hname hmem rfl
    · rename_i ha
      refine .pure (.own (fun c hc => ?_) rfl)
      cases hc
      simpa using ha

theorem decides_order (group : ModelGroup) :
    Decides (order group : Walk σ (List Particle)) fun particles =>
      if group.compositor = .all then particles.Perm group.particles
      else particles = group.particles := by
  unfold order
  split
  · exact .draw fun s => Draw.shuffle_perm group.particles s
  · exact .pure rfl

end Document

end Specimen

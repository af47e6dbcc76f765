import Mathlib.Logic.Basic
import Specimen.Generate.Leaf

/-!
# Which way a leaf is filled

A simple type without an enumeration, and that is neither a list nor a union, is filled by the
built-in type that it comes from. What its text is made of then depends on the local name of that
type, and this module says how for the families of built-in types that other modules are about.
-/

namespace Specimen

section

variable {κ α β : Type} {run : ExceptT Error (StateM κ) α} {s s' : κ}

theorem bind_apply_of_ok {a : α} (h : run s = (.ok a, s')) (f : α → ExceptT Error (StateM κ) β) :
    (run >>= f) s = f a s' := by
  simp only [bind, ExceptT.bind, ExceptT.mk, ExceptT.bindCont, StateT.bind, h]

/-- The state stays as it is when something fails. -/
theorem bind_apply_of_error {e : Error} (h : run s = (.error e, s'))
    (f : α → ExceptT Error (StateM κ) β) : (run >>= f) s = (.error e, s') := by
  simp only [bind, ExceptT.bind, ExceptT.mk, ExceptT.bindCont, StateT.bind, h]
  rfl

end

namespace Filling

variable {σ α β : Type}

@[simp] theorem ask_ok_bind (a : α) (f : α → Filling σ β) : ask (.ok a) >>= f = f a := rfl

theorem countUse_bind_apply (hint : String) (f : Nat → Filling σ β) (s : Supply σ) :
    (countUse hint >>= f) s
      = f (s.counters.get hint + 1) { s with counters := (s.counters.next hint).2 } := rfl

end Filling

namespace Leaf

open Filling

variable {σ : Type} [Source σ] {w : Setting} {type : SimpleType} {name : String}

/-- A type is filled by the built-in type that it comes from, whose local name is `name`. -/
structure ComesFrom (m : Model) (type : SimpleType) (name : String) : Prop where
  enumeration : m.enumeration type = .ok none
  variety : m.variety type = .ok .atomic ∨ m.variety type = .ok (.union [])
  builtin : ∃ builtin, m.builtinAncestor type = .ok builtin
    ∧ builtin.name.map QName.localName = some name

/-- It does not matter how many lists and unions there are around the leaf. -/
theorem valueWithin_of_comesFrom (h : ComesFrom w.model type name) (hint : String) (steps : Nat) :
    (valueWithin w hint (steps + 1) type : Filling σ String) = atomicValue w type hint := by
  unfold valueWithin
  rw [h.enumeration, ask_ok_bind]
  rcases h.variety with hv | hv <;> rw [hv, ask_ok_bind]

/-- Where the built-in type has no values of its own, the text is made up from the hint. -/
theorem atomicValue_eq_hinted {builtin : SimpleType}
    (hbuiltin : w.model.builtinAncestor type = .ok builtin)
    (hkind : BuiltinKind.ofName (builtin.name.elim "" QName.localName) = .other) (hint : String) :
    (atomicValue w type hint : Filling σ String) = (do
      let minLength ← ask (w.model.countFacet type .minLength)
      let maxLength ← ask (w.model.countFacet type .maxLength)
      let n ← countUse hint
      return Hint.value hint n minLength maxLength) := by
  unfold atomicValue
  rw [hbuiltin, ask_ok_bind]
  cases hname : builtin.name with
  | none => rfl
  | some name =>
    rw [hname, Option.elim_some] at hkind
    simp only [hkind]

/-- The text for a type that comes from no built-in type with values of its own. -/
theorem atomicValue_of_other (h : ComesFrom w.model type name)
    (hother : BuiltinKind.ofName name = .other) {minLength maxLength : Option Nat}
    (hmin : w.model.countFacet type .minLength = .ok minLength)
    (hmax : w.model.countFacet type .maxLength = .ok maxLength) (hint : String) (s : Supply σ) :
    atomicValue w type hint s
      = (.ok (Hint.value hint (s.counters.get hint + 1) minLength maxLength),
          { s with counters := (s.counters.next hint).2 }) := by
  obtain ⟨builtin, hbuiltin, hname⟩ := h.builtin
  obtain ⟨qname, hqname, rfl⟩ := Option.map_eq_some_iff.mp hname
  have hkind : BuiltinKind.ofName (builtin.name.elim "" QName.localName) = .other := by
    rw [hqname]
    exact hother
  rw [atomicValue_eq_hinted hbuiltin hkind, hmin, ask_ok_bind, hmax, ask_ok_bind,
    countUse_bind_apply]
  rfl

end Leaf

end Specimen

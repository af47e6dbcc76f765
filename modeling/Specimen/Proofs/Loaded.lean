import Specimen.Proofs.Failures
import Specimen.Proofs.Following
import Specimen.Proofs.Registration

/-!
# Schemas that are loaded

Loading a schema reads its documents, registers what they declare and fills in the types of
substitutes. What holds of the schema of the built-in types and is kept by each of these steps holds
of every schema that is loaded, from a text or from files.

Here this is used twice: a schema that is loaded is built by registering components, and its types
have names.
-/

namespace Specimen

/-! ## What documents declare -/

namespace SchemaDocument

/-- Every declaration of the document has been read from an element. -/
def IsRead (document : SchemaDocument) : Prop :=
  ∀ declaration ∈ document.declarations, ∃ s node,
    readDeclaration s node = .ok (some declaration)

theorem gives_readAll (s : DocumentSetting) (nodes : List SchemaNode) :
    Gives (readAll s nodes) fun declarations => ∀ declaration ∈ declarations, ∃ node,
      readDeclaration s node = .ok (some declaration) := by
  induction nodes with
  | nil => exact .ok fun _ h => absurd h List.not_mem_nil
  | cons node rest ih =>
    refine Gives.bind (P := fun found => readDeclaration s node = .ok found) (fun _ h => h)
      fun found hfound => ih.bind fun others hothers => .ok fun declaration h => ?_
    rcases List.mem_append.mp h with h | h
    · exact ⟨node, by rw [hfound, Option.mem_toList.mp h]⟩
    · exact hothers declaration h

theorem gives_read (address : Option Address) (offered : Option String) (text : String) :
    Gives (read address offered text) IsRead := by
  unfold read
  split
  · exact .error _
  · unfold ofTree
    split
    · exact .error _
    · split
      · exact .error _
      · exact (gives_readAll _ _).bind fun _ h => .ok fun declaration hd => ⟨_, h declaration hd⟩

end SchemaDocument

/-! ## Loading -/

namespace Loading

/-- What the schema of the built-in types has, and every step of a loading keeps. -/
structure IsKept (P : Model → Prop) : Prop where
  builtin : P .builtin
  target : ∀ {m : Model}, P m → ∀ target, P { m with target }
  register : ∀ {l : Loading} {s : DocumentSetting} {node : SchemaNode} {declaration : Declaration},
    readDeclaration s node = .ok (some declaration) → P l.model → P (l.register declaration).model
  inheritType : ∀ {m : Model}, P m → ∀ untyped name, P (inheritType untyped m name)

namespace IsKept

variable {P : Model → Prop} {l l' : Loading} {fs : Files}

theorem enter (hP : IsKept P) {document : SchemaDocument} (hread : document.IsRead)
    (h : P l.model) : P (l.enter document).model := by
  unfold SchemaDocument.IsRead at hread
  unfold Loading.enter
  generalize document.declarations = declarations at hread
  induction declarations generalizing l with
  | nil => exact h
  | cons declaration rest ih =>
    obtain ⟨s, node, hnode⟩ := hread _ List.mem_cons_self
    rw [List.foldl_cons]
    exact ih (hP.register hnode h) fun other hother => hread other (List.mem_cons_of_mem _ hother)

theorem follow (hP : IsKept P) {links : List Link} (h : P l.model)
    (hl : Loading.follow fs l links = .ok l') : P l'.model := by
  induction l, links using follow_induction fs with
  | nil l =>
    rw [follow_nil] at hl
    cases hl
    exact h
  | unreadable l link rest fault hfault =>
    rw [follow_unreadable hfault] at hl
    cases hl
  | known l link rest name text hfound hknown ih =>
    rw [follow_known hfound hknown] at hl
    exact ih h hl
  | rejected l link rest name text e hfound hnew hrejected =>
    rw [follow_rejected hfound hnew hrejected] at hl
    cases hl
  | taken l link rest name text document hfound hnew haccepted ih =>
    rw [follow_taken hfound hnew haccepted] at hl
    exact ih (hP.enter (l := { l with read := l.read ++ [name] })
      (SchemaDocument.gives_read _ _ _ _ haccepted) h) hl

theorem finish (hP : IsKept P) (h : P l.model) : P l.finish := by
  unfold Loading.finish
  generalize l.untyped = untyped
  suffices ∀ (names : List QName) (m : Model), P m →
      P (names.foldl (Loading.inheritType untyped) m) from this _ _ h
  intro names
  induction names with
  | nil => exact fun m hm => hm
  | cons name rest ih => exact fun m hm => ih _ (hP.inheritType hm untyped name)

theorem gives_main (hP : IsKept P) {document : SchemaDocument} (hread : document.IsRead)
    (known : List FileName) : Gives (Loading.main fs known document) fun l => P l.model := by
  intro l h
  have hentered := hP.enter (l := { read := known }) hread hP.builtin
  unfold Loading.main at h
  exact hP.follow (l := { Loading.enter { read := known } document with model := _ })
    (hP.target hentered document.target) h

/-- **What is kept by the steps of a loading holds of a schema that is loaded from a text.** -/
theorem gives_ofText (hP : IsKept P) (fs : Files) (text : String) :
    Gives (Model.ofText fs text) P :=
  (SchemaDocument.gives_read _ _ _).bind fun _ hread =>
    (hP.gives_main hread _).bind fun _ h => .ok (hP.finish h)

/-- **What is kept by the steps of a loading holds of a schema that is loaded from a file.** -/
theorem gives_ofFile (hP : IsKept P) (fs : Files) (address : Address) :
    Gives (Model.ofFile fs address) P := by
  unfold Model.ofFile
  split
  · exact .error _
  · exact (SchemaDocument.gives_read _ _ _).bind fun _ hread =>
      (hP.gives_main hread _).bind fun _ h => .ok (hP.finish h)

end IsKept

/-! ## Registration -/

theorem mem_of_headType {m : Model} {untyped : List QName} {steps : Nat} {head : Option QName}
    {type : TypeRef} (h : headType m untyped steps head = some type) :
    ∃ other ∈ m.elements.values, other.type = type := by
  induction steps generalizing head with
  | zero => cases h
  | succ steps ih =>
    obtain ⟨name, rfl, h⟩ := Option.bind_eq_some_iff.mp h
    obtain ⟨decl, hdecl, h⟩ := Option.bind_eq_some_iff.mp h
    split at h
    · exact ih h
    · cases h
      exact ⟨decl, Table.mem_values_of_get? hdecl, rfl⟩

theorem built_inheritType {m : Model} (h : m.Built) (untyped : List QName) (name : QName) :
    (inheritType untyped m name).Built := by
  unfold inheritType
  split
  · exact h
  · rename_i decl hdecl
    split
    · exact h
    · rename_i type htype
      obtain ⟨other, hother, rfl⟩ := mem_of_headType htype
      exact h.inherit (Table.mem_values_of_get? hdecl) hother

/-- **A schema that is loaded is built by registering components.** -/
theorem isKept_built : IsKept Model.Built where
  builtin := Model.built_builtin
  target h target := h.target target
  register {l s node declaration} _ h := by
    cases declaration with
    | element decl inheritsType => exact h.element decl
    | type name definition => exact h.type name definition
    | attr decl => exact h.attr decl
    | attributeGroup name group => exact h.attributeGroup name group
    | group name group => exact h.group name group
  inheritType h untyped name := built_inheritType h untyped name

end Loading

/-! ## Names of types -/

/-- A type takes the name under which it is declared. -/
theorem gives_readDeclaration (s : DocumentSetting) (node : SchemaNode) :
    Gives (readDeclaration s node) fun read => ∀ name definition,
      read = some (.type name definition) → definition.name = some name := by
  unfold readDeclaration
  split
  · unfold readGlobalElement
    refine Gives.bind (P := fun declaration => ∀ name type, declaration ≠ .type name type) ?_
      fun declaration hne => .ok fun name type h => absurd (Option.some.inj h) (hne _ _)
    exact .bind_of_forall fun _ => .bind_of_forall fun _ => .bind_of_forall fun _ => .ok nofun
  · exact .bind_of_forall fun _ => .bind_of_forall fun _ => .ok fun | _, _, rfl => rfl
  · exact .bind_of_forall fun _ => .bind_of_forall fun _ => .ok fun | _, _, rfl => rfl
  · unfold readGlobalAttribute
    refine Gives.bind (P := fun declaration => ∀ name type, declaration ≠ .type name type) ?_
      fun declaration hne => .ok fun name type h => absurd (Option.some.inj h) (hne _ _)
    exact .bind_of_forall fun _ => .bind_of_forall fun _ => .bind_of_forall fun _ => .ok nofun
  · exact .bind_of_forall fun _ => .bind_of_forall fun _ => .ok nofun
  · exact .bind_of_forall fun _ => .bind_of_forall fun _ => .ok nofun
  · exact .ok nofun

theorem TypeDef.name_numberFrom (definition : TypeDef) (n : Nat) :
    (definition.numberFrom n).1.name = definition.name := by
  cases definition with
  | simple type =>
    cases type
    rfl
  | complex type =>
    cases type
    rfl

namespace Model

/-- All types that are registered have names. -/
def NamesTypes (m : Model) : Prop := ∀ definition ∈ m.types.values, definition.name.isSome

instance (m : Model) : Decidable m.NamesTypes :=
  inferInstanceAs (Decidable (∀ definition ∈ m.types.values, _))

variable {m : Model}

theorem NamesTypes.addNamedType (h : m.NamesTypes) (name : QName) {definition : TypeDef}
    (hname : definition.name.isSome) : (m.addNamedType name definition).NamesTypes := by
  intro registered hmem
  rcases List.mem_cons.mp (Table.values_insert_subset _ _ _ hmem) with rfl | hmem
  · rwa [TypeDef.name_numberFrom]
  · exact h registered hmem

theorem NamesTypes.of_mem_concreteSubtypes (h : m.NamesTypes) {base : QName} {type : ComplexType}
    (ht : type ∈ m.concreteSubtypes base) : type.name.isSome := by
  obtain ⟨definition, hmem, hcomplex⟩ := List.mem_filterMap.mp (List.mem_of_mem_filter ht)
  cases definition with
  | simple own => cases hcomplex
  | complex own =>
    cases hcomplex
    exact h _ hmem

end Model

/-- **The types of a schema that is loaded have names.** -/
theorem Loading.isKept_namesTypes : IsKept Model.NamesTypes where
  builtin := by decide +kernel
  target h _ := h
  register {l s node declaration} hread h := by
    cases declaration with
    | type name definition =>
      refine h.addNamedType name ?_
      rw [gives_readDeclaration s node _ hread name definition rfl]
      rfl
    | element | attr | attributeGroup | group => exact h
  inheritType {m} h untyped name := by
    unfold inheritType
    split
    · exact h
    · split <;> exact h

end Specimen

import Specimen.Proofs.AlikeModels
import Specimen.Proofs.Following
import Specimen.Proofs.LoadedNames

/-!
# Entering declarations

A declaration that is registered is what its name stands for from then on, in its own kind; what
other names stand for it leaves as it was. So declarations with different names may be registered in
any order. The types of substitutes are filled in at the end: an element that takes the type of its
head reads the heads and the types of others, and of these only types which are not filled in. So
the order does not matter here either.
-/

namespace Specimen

/-! ## Symbols -/

/-- The kinds of global components. Names of one kind are distinct from those of another. -/
inductive SymbolSpace where
  | element
  | type
  | attr
  | attributeGroup
  | group
deriving DecidableEq, Repr

/-- A name in one of the kinds. -/
structure Symbol where
  space : SymbolSpace
  name : QName
deriving DecidableEq, Repr

/-- A global component. -/
inductive Component where
  | element (decl : ElementDecl)
  | type (definition : TypeDef)
  | attr (decl : AttributeDecl)
  | attributeGroup (group : AttributeGroup)
  | group (group : ModelGroup)

namespace Declaration

/-- What a declaration declares. -/
def symbol : Declaration → Symbol
  | .element decl _ => ⟨.element, decl.name⟩
  | .type name _ => ⟨.type, name⟩
  | .attr decl => ⟨.attr, decl.name⟩
  | .attributeGroup name _ => ⟨.attributeGroup, name⟩
  | .group name _ => ⟨.group, name⟩

/-- What it is declared as, without numbers. -/
def component : Declaration → Component
  | .element decl _ => .element decl.unnumbered
  | .type _ definition => .type definition.unnumbered
  | .attr decl => .attr decl.unnumbered
  | .attributeGroup _ definition => .attributeGroup definition.unnumbered
  | .group _ definition => .group definition.unnumbered

/-- The name of an element that takes the type of its head. -/
def untypedName? : Declaration → Option QName
  | .element decl true => some decl.name
  | _ => none

end Declaration

namespace Model

/-- What a symbol stands for, without numbers. -/
def component? (m : Model) : Symbol → Option Component
  | ⟨.element, name⟩ => (m.elements.get? name).map fun decl => .element decl.unnumbered
  | ⟨.type, name⟩ => (m.types.get? name).map fun definition => .type definition.unnumbered
  | ⟨.attr, name⟩ => (m.attributes.get? name).map fun decl => .attr decl.unnumbered
  | ⟨.attributeGroup, name⟩ =>
    (m.attributeGroups.get? name).map fun group => .attributeGroup group.unnumbered
  | ⟨.group, name⟩ => (m.groups.get? name).map fun group => .group group.unnumbered

theorem map_eq_of_map_map {α β γ : Type} {f : α → β} {g : β → γ} (hg : ∀ b b', g b = g b' → b = b')
    {o o' : Option α} (h : o.map (fun a => g (f a)) = o'.map fun a => g (f a)) :
    o.map f = o'.map f := by
  cases o with
  | none =>
    cases o' with
    | none => rfl
    | some a' => cases h
  | some a =>
    cases o' with
    | none => cases h
    | some a' => exact congrArg some (hg _ _ (Option.some.inj h))

theorem isAlike_of_component? {m m' : Model}
    (h : ∀ symbol, m.component? symbol = m'.component? symbol) : m.IsAlike m' where
  elements name := map_eq_of_map_map (fun _ _ => Component.element.inj) (h ⟨.element, name⟩)
  types name := map_eq_of_map_map (fun _ _ => Component.type.inj) (h ⟨.type, name⟩)
  attributes name := map_eq_of_map_map (fun _ _ => Component.attr.inj) (h ⟨.attr, name⟩)
  groups name := map_eq_of_map_map (fun _ _ => Component.group.inj) (h ⟨.group, name⟩)
  attributeGroups name :=
    map_eq_of_map_map (fun _ _ => Component.attributeGroup.inj) (h ⟨.attributeGroup, name⟩)

end Model

/-! ## Registering -/

namespace Loading

theorem map_get?_insert {α β : Type} (t : Table α) (key name : QName) (a : α) (f : α → β) :
    ((t.insert key a).get? name).map f
      = if name = key then some (f a) else (t.get? name).map f := by
  rw [Table.get?_insert]
  split <;> rfl

theorem symbol_eq_iff {space : SymbolSpace} {name key : QName} :
    Symbol.mk space name = Symbol.mk space key ↔ name = key :=
  ⟨congrArg Symbol.name, congrArg (Symbol.mk space)⟩

/-- To register a declaration changes what its own symbol stands for, and nothing else. -/
theorem component?_register (l : Loading) (declaration : Declaration) (symbol : Symbol) :
    (l.register declaration).model.component? symbol
      = if symbol = declaration.symbol then some declaration.component
        else l.model.component? symbol := by
  obtain ⟨space, name⟩ := symbol
  -- Each kind has a table of its own, so a symbol of another kind is not touched.
  cases declaration with
  | element decl inheritsType =>
    cases space with
    | element =>
      refine (map_get?_insert _ _ _ _ _).trans ?_
      rw [decl.name_numberFrom, decl.unnumbered_numberFrom]
      exact (if_congr symbol_eq_iff rfl rfl).symm
    | type | attr | attributeGroup | group => exact (if_neg nofun).symm
  | type key definition =>
    cases space with
    | type =>
      refine (map_get?_insert _ _ _ _ _).trans ?_
      rw [definition.unnumbered_numberFrom]
      exact (if_congr symbol_eq_iff rfl rfl).symm
    | element | attr | attributeGroup | group => exact (if_neg nofun).symm
  | attr decl =>
    cases space with
    | attr =>
      refine (map_get?_insert _ _ _ _ _).trans ?_
      rw [decl.name_numberFrom, decl.unnumbered_numberFrom]
      exact (if_congr symbol_eq_iff rfl rfl).symm
    | element | type | attributeGroup | group => exact (if_neg nofun).symm
  | attributeGroup key definition =>
    cases space with
    | attributeGroup =>
      change ((l.model.attributeGroups.insert key (definition.numberFrom l.model.next).1).get?
        name).map _ = _
      rw [map_get?_insert, definition.unnumbered_numberFrom]
      exact (if_congr symbol_eq_iff rfl rfl).symm
    | element | type | attr | group => exact (if_neg nofun).symm
  | group key definition =>
    cases space with
    | group =>
      refine (map_get?_insert _ _ _ _ _).trans ?_
      rw [definition.unnumbered_numberFrom]
      exact (if_congr symbol_eq_iff rfl rfl).symm
    | element | type | attr | attributeGroup => exact (if_neg nofun).symm

theorem untyped_register (l : Loading) (declaration : Declaration) :
    (l.register declaration).untyped = l.untyped ++ declaration.untypedName?.toList := by
  cases declaration with
  | element decl inheritsType => cases inheritsType <;> simp [register, Declaration.untypedName?]
  | type | attr | attributeGroup | group => exact (List.append_nil _).symm

/-- Every symbol stands for the same in two loadings, but for numbers, and the same elements take
the types of their heads. -/
structure IsAlike (l l' : Loading) : Prop where
  components : ∀ symbol, l.model.component? symbol = l'.model.component? symbol
  untyped : ∀ name, name ∈ l.untyped ↔ name ∈ l'.untyped
  read : l.read = l'.read

variable {l l' : Loading} {declarations declarations' : List Declaration} {fs : Files}

theorem IsAlike.register (h : l.IsAlike l') (declaration : Declaration) :
    (l.register declaration).IsAlike (l'.register declaration) where
  components symbol := by
    rw [component?_register, component?_register, h.components]
  untyped name := by
    rw [untyped_register, untyped_register, List.mem_append, List.mem_append, h.untyped]
  read := by rw [read_register, read_register, h.read]

theorem IsAlike.enter (h : l.IsAlike l') (document : SchemaDocument) :
    (l.enter document).IsAlike (l'.enter document) := by
  unfold Loading.enter
  induction document.declarations generalizing l l' with
  | nil => exact h
  | cons declaration rest ih => exact ih (h.register declaration)

theorem mem_untyped_foldl {name : QName} :
    name ∈ (declarations.foldl register l).untyped
      ↔ name ∈ l.untyped ∨ name ∈ declarations.filterMap Declaration.untypedName? := by
  induction declarations generalizing l with
  | nil => exact (or_iff_left List.not_mem_nil).symm
  | cons declaration rest ih =>
    rw [List.foldl_cons, ih, untyped_register, List.mem_append, List.filterMap_cons, or_assoc]
    refine or_congr_right ?_
    cases declaration.untypedName? with
    | none => exact or_iff_right List.not_mem_nil
    | some untyped =>
      rw [Option.toList_some, List.mem_singleton]
      exact List.mem_cons.symm

/-- Declarations leave what is not their own. -/
theorem component?_foldl_of_not_mem {symbol : Symbol}
    (h : symbol ∉ declarations.map Declaration.symbol) :
    (declarations.foldl register l).model.component? symbol = l.model.component? symbol := by
  induction declarations generalizing l with
  | nil => rfl
  | cons declaration rest ih =>
    rw [List.map_cons] at h
    rw [List.foldl_cons, ih (List.not_mem_of_not_mem_cons h), component?_register,
      if_neg (List.ne_of_not_mem_cons h)]

/-- Of declarations with different symbols, each is what its symbol stands for. -/
theorem component?_foldl_of_mem (h : (declarations.map Declaration.symbol).Nodup)
    {declaration : Declaration} (hmem : declaration ∈ declarations) :
    (declarations.foldl register l).model.component? declaration.symbol
      = some declaration.component := by
  induction declarations generalizing l with
  | nil => exact absurd hmem List.not_mem_nil
  | cons first rest ih =>
    obtain ⟨hfirst, hrest⟩ := List.nodup_cons.mp h
    rw [List.foldl_cons]
    rcases List.mem_cons.mp hmem with rfl | hmem
    · rw [component?_foldl_of_not_mem hfirst, component?_register, if_pos rfl]
    · exact ih hrest hmem

/-- **Declarations with different symbols may be registered in any order.** -/
theorem IsAlike.foldl_perm (h : l.IsAlike l')
    (hdistinct : (declarations.map Declaration.symbol).Nodup)
    (hperm : declarations.Perm declarations') :
    (declarations.foldl Loading.register l).IsAlike (declarations'.foldl Loading.register l') where
  components symbol := by
    have hsymbols := hperm.map Declaration.symbol
    have hdistinct' := hsymbols.nodup_iff.mp hdistinct
    by_cases hmem : symbol ∈ declarations.map Declaration.symbol
    · obtain ⟨declaration, hdeclared, rfl⟩ := List.mem_map.mp hmem
      rw [component?_foldl_of_mem hdistinct hdeclared,
        component?_foldl_of_mem hdistinct' (hperm.mem_iff.mp hdeclared)]
    · rw [component?_foldl_of_not_mem hmem,
        component?_foldl_of_not_mem fun hmem' => hmem (hsymbols.mem_iff.mpr hmem'), h.components]
  untyped name := by
    rw [mem_untyped_foldl, mem_untyped_foldl, h.untyped,
      (hperm.filterMap Declaration.untypedName?).mem_iff]
  read := by
    have hread (l : Loading) (declarations : List Declaration) :
        (declarations.foldl Loading.register l).read = l.read :=
      read_enter l ⟨none, declarations, []⟩
    rw [hread, hread, h.read]

/-! ## Following references -/

/-- **Loadings that are alike go on alike.** -/
theorem IsAlike.follow (h : l.IsAlike l') (links : List Link) :
    AnswerAlike IsAlike (follow fs l links) (follow fs l' links) := by
  -- By the turns of the loading. Both loadings have read the same files, so both take the same
  -- turn.
  induction l, links using follow_induction fs generalizing l' with
  | nil l =>
    rw [follow_nil, follow_nil]
    exact .ok h
  | unreadable l link rest fault hfault =>
    rw [follow_unreadable hfault, follow_unreadable hfault]
    exact .error rfl
  | known l link rest name text hfound hknown ih =>
    rw [follow_known hfound hknown, follow_known hfound (h.read ▸ hknown)]
    exact ih h
  | rejected l link rest name text e hfound hnew hrejected =>
    rw [follow_rejected hfound hnew hrejected, follow_rejected hfound (h.read ▸ hnew) hrejected]
    exact .error rfl
  | taken l link rest name text document hfound hnew haccepted ih =>
    rw [follow_taken hfound hnew haccepted, follow_taken hfound (h.read ▸ hnew) haccepted]
    have hmore : IsAlike { l with read := l.read ++ [name] }
        { l' with read := l'.read ++ [name] } :=
      ⟨h.components, h.untyped, congrArg (· ++ [name]) h.read⟩
    exact ih (hmore.enter document)

/-! ## Filling in types -/

/-- The element with another type. -/
def withType (decl : ElementDecl) (type : TypeRef) : ElementDecl := { decl with type }

section

variable {m m' : Model} {untyped untyped' : List QName}

/-- What becomes of an element when the types of the elements with these names are filled in. -/
def filled (m : Model) (untyped done : List QName) (decl : ElementDecl) : ElementDecl :=
  if decl.name ∈ done then
    match headType m untyped chainLimit decl.head with
    | none => decl
    | some type => withType decl type
  else decl

/-- Of the elements that take the type of their head, those with the names in `done` have got it.
Nothing else has changed. -/
structure Fills (m : Model) (untyped done : List QName) (m' : Model) : Prop where
  elements : ∀ name, m'.elements.get? name = (m.elements.get? name).map (filled m untyped done)
  types : m'.types = m.types
  attributes : m'.attributes = m.attributes
  groups : m'.groups = m.groups
  attributeGroups : m'.attributeGroups = m.attributeGroups

theorem name_filled (m : Model) (untyped done : List QName) (decl : ElementDecl) :
    (filled m untyped done decl).name = decl.name := by
  unfold filled
  split
  · split <;> rfl
  · rfl

theorem head_filled (m : Model) (untyped done : List QName) (decl : ElementDecl) :
    (filled m untyped done decl).head = decl.head := by
  unfold filled
  split
  · split <;> rfl
  · rfl

/-- The types that have been filled in are not looked at. -/
theorem Fills.headType_eq {done : List QName} (h : Fills m untyped done m')
    (hdone : ∀ name ∈ done, name ∈ untyped) (steps : Nat) (head : Option QName) :
    headType m' untyped steps head = headType m untyped steps head := by
  induction steps generalizing head with
  | zero => rfl
  | succ steps ih =>
    cases head with
    | none => rfl
    | some name =>
      rw [headType, headType, Option.bind_eq_bind, Option.bind_some, Option.bind_eq_bind,
        Option.bind_some, h.elements]
      cases m.elements.get? name with
      | none => rfl
      | some decl =>
        change (if untyped.contains (filled m untyped done decl).name then _ else _) = _
        rw [name_filled, head_filled, ih]
        change _ = if untyped.contains decl.name then _ else _
        split
        · rfl
        -- The type of a head is taken over only if it is the head's own.
        · next huntyped =>
          have hnot : decl.name ∉ done := fun hmem =>
            huntyped (List.contains_iff_mem.mpr (hdone _ hmem))
          rw [filled, if_neg hnot]

theorem filled_append_of_ne {decl : ElementDecl} {name : QName} (h : decl.name ≠ name)
    (done : List QName) : filled m untyped (done ++ [name]) decl = filled m untyped done decl := by
  have hmem : decl.name ∈ done ++ [name] ↔ decl.name ∈ done := by
    rw [List.mem_append, List.mem_singleton]
    exact or_iff_left h
  unfold filled
  rw [if_congr hmem rfl rfl]

theorem filled_of_none {decl : ElementDecl}
    (h : headType m untyped chainLimit decl.head = none) (done : List QName) :
    filled m untyped done decl = decl := by
  rw [filled, h]
  exact ite_self decl

theorem filled_of_some {decl : ElementDecl} {type : TypeRef} {done : List QName}
    (h : headType m untyped chainLimit decl.head = some type) (hmem : decl.name ∈ done) :
    filled m untyped done decl = withType decl type := by
  rw [filled, if_pos hmem, h]

theorem withType_filled (m : Model) (untyped done : List QName) (decl : ElementDecl)
    (type : TypeRef) : withType (filled m untyped done decl) type = withType decl type := by
  unfold filled
  split
  · split <;> rfl
  · rfl

theorem Fills.inheritType {done : List QName} {name : QName} (hnames : m.NamesElements)
    (h : Fills m untyped done m') (hdone : ∀ name ∈ done, name ∈ untyped) :
    Fills m untyped (done ++ [name]) (inheritType untyped m' name) := by
  -- Only the element that is filled changes.
  have hother {other : QName} (hne : other ≠ name) :
      m'.elements.get? other = (m.elements.get? other).map (filled m untyped (done ++ [name])) := by
    rw [h.elements]
    refine Option.map_congr fun decl hdecl => (filled_append_of_ne ?_ done).symm
    rwa [hnames.name_of_get? hdecl]
  unfold Loading.inheritType
  rw [h.elements]
  cases hget : m.elements.get? name with
  | none =>
    change Fills m untyped (done ++ [name]) m'
    refine ⟨fun other => ?_, h.types, h.attributes, h.groups, h.attributeGroups⟩
    by_cases hname : other = name
    · rw [hname, h.elements, hget]
      rfl
    · exact hother hname
  | some decl =>
    have hname : decl.name = name := hnames.name_of_get? hget
    dsimp only [Option.map_some]
    have hhead : headType m' untyped chainLimit (filled m untyped done decl).head
        = headType m untyped chainLimit decl.head := by
      rw [h.headType_eq hdone, head_filled]
    rw [hhead]
    cases htype : headType m untyped chainLimit decl.head with
    | none =>
      refine ⟨fun other => ?_, h.types, h.attributes, h.groups, h.attributeGroups⟩
      by_cases hsame : other = name
      · rw [hsame, h.elements, hget, Option.map_some, Option.map_some, filled_of_none htype,
          filled_of_none htype]
      · exact hother hsame
    | some type =>
      refine ⟨fun other => ?_, h.types, h.attributes, h.groups, h.attributeGroups⟩
      change (m'.elements.insert (filled m untyped done decl).name
        (withType (filled m untyped done decl) type)).get? other = _
      rw [Table.get?_insert, name_filled, hname, withType_filled]
      split
      · next hsame =>
        rw [hsame, hget, Option.map_some, filled_of_some htype]
        exact hname ▸ List.mem_append_right _ List.mem_cons_self
      · next hsame => exact hother hsame

/-- **The types that are filled in are those of the heads**, whatever the order. -/
theorem fills_finish {l : Loading} (hnames : l.model.NamesElements) :
    Fills l.model l.untyped l.untyped l.finish := by
  -- Those in `done` come before `names`, and all of them are to be filled in.
  have hfold (names done : List QName) (m : Model) (hnames' : ∀ name ∈ names, name ∈ l.untyped)
      (hdone : ∀ name ∈ done, name ∈ l.untyped) (h : Fills l.model l.untyped done m) :
      Fills l.model l.untyped (done ++ names)
        (names.foldl (Loading.inheritType l.untyped) m) := by
    induction names generalizing done m with
    | nil => rwa [List.append_nil]
    | cons name rest ih =>
      obtain ⟨hname, hrest⟩ := List.forall_mem_cons.mp hnames'
      have hstep : Fills l.model l.untyped (done ++ [name])
          (Loading.inheritType l.untyped m name) := h.inheritType hnames hdone
      have hmore := ih (done ++ [name]) _ hrest
        (List.forall_mem_append.mpr ⟨hdone, List.forall_mem_singleton.mpr hname⟩) hstep
      rwa [List.append_assoc, List.singleton_append] at hmore
  refine hfold l.untyped [] l.model (fun _ h => h) nofun ⟨fun name => ?_, rfl, rfl, rfl, rfl⟩
  cases l.model.elements.get? name <;> rfl

end

/-! ## Finishing -/

variable (h : l.IsAlike l')

include h

theorem IsAlike.model : l.model.IsAlike l'.model := Model.isAlike_of_component? h.components

theorem IsAlike.contains (name : QName) : l.untyped.contains name = l'.untyped.contains name := by
  rw [Bool.eq_iff_iff, List.contains_iff_mem, List.contains_iff_mem]
  exact h.untyped name

theorem IsAlike.headType (steps : Nat) (head : Option QName) :
    SameBy (Option.map TypeRef.unnumbered) (headType l.model l.untyped steps head)
      (headType l'.model l'.untyped steps head) := by
  induction steps generalizing head with
  | zero => rfl
  | succ steps ih =>
    cases head with
    | none => rfl
    | some name =>
      have hfound := rel_of_map_eq (h.model.elements name)
      rw [Loading.headType, Loading.headType, Option.bind_eq_bind, Option.bind_some,
        Option.bind_eq_bind, Option.bind_some]
      generalize l.model.elements.get? name = found at hfound
      generalize l'.model.elements.get? name = found' at hfound
      cases hfound with
      | none => rfl
      | @some decl decl' hdecl =>
        have halike := ElementDecl.alike_iff.mp hdecl
        change SameBy _ (if l.untyped.contains decl.name then _ else _)
          (if l'.untyped.contains decl'.name then _ else _)
        rw [halike.name, halike.head, h.contains]
        split
        · exact ih decl'.head
        · exact congrArg some halike.type

theorem IsAlike.filled {decl decl' : ElementDecl}
    (hdecl : SameBy ElementDecl.unnumbered decl decl') :
    SameBy ElementDecl.unnumbered (filled l.model l.untyped l.untyped decl)
      (filled l'.model l'.untyped l'.untyped decl') := by
  have halike := ElementDecl.alike_iff.mp hdecl
  unfold Loading.filled
  rw [halike.name, if_congr (h.untyped _) rfl rfl, halike.head]
  split
  · have htype := rel_of_map_eq (h.headType chainLimit decl'.head)
    generalize Loading.headType l.model l.untyped chainLimit decl'.head = type at htype
    generalize Loading.headType l'.model l'.untyped chainLimit decl'.head = type' at htype
    cases htype with
    | none => exact hdecl
    | some htype =>
      exact ElementDecl.alike_iff.mpr
        ⟨halike.name, htype, halike.scope, halike.isAbstract, halike.head⟩
  · exact hdecl

/-- **Loadings that are alike give schemas that are alike.** -/
theorem IsAlike.finish (hnames : l.model.NamesElements) (hnames' : l'.model.NamesElements) :
    l.finish.IsAlike l'.finish := by
  have hfills := fills_finish hnames
  have hfills' := fills_finish hnames'
  refine ⟨fun name => ?_, fun name => ?_, fun name => ?_, fun name => ?_, fun name => ?_⟩
  · have hfound := rel_of_map_eq (h.model.elements name)
    rw [hfills.elements, hfills'.elements]
    generalize l.model.elements.get? name = found at hfound
    generalize l'.model.elements.get? name = found' at hfound
    cases hfound with
    | none => simp only [Option.map_none]
    | some hdecl => exact congrArg some (h.filled hdecl)
  · rw [hfills.types, hfills'.types, h.model.types]
  · rw [hfills.attributes, hfills'.attributes, h.model.attributes]
  · rw [hfills.groups, hfills'.groups, h.model.groups]
  · rw [hfills.attributeGroups, hfills'.attributeGroups, h.model.attributeGroups]

end Loading

end Specimen

import Specimen.Generate.Walk

/-!
# Answers and failures

A question about a schema and the filling of a leaf may fail for many reasons, but all of them lie
in the shape of the schema. They never fail because a walk has come to the end of its bound:
`Error.endless` stands for this alone.
-/

namespace Specimen

variable {α β : Type}

/-! ## What an answer may be -/

/-- If there is an answer, it is as described. -/
def Gives (answer : Except Error α) (P : α → Prop) : Prop := ∀ a, answer = .ok a → P a

namespace Gives

variable {answer : Except Error α} {P : α → Prop} {Q : β → Prop}

theorem ok {a : α} (h : P a) : Gives (.ok a) P := fun _ ha => Except.ok.inj ha ▸ h

theorem error (e : Error) : Gives (.error e : Except Error α) P := nofun

theorem bind {f : α → Except Error β} (h : Gives answer P) (hf : ∀ a, P a → Gives (f a) Q) :
    Gives (answer >>= f) Q := by
  cases answer with
  | error e => exact .error e
  | ok a => exact hf a (h a rfl)

/-- What comes behind a question may not depend on the answer. -/
theorem bind_of_forall {f : α → Except Error β} (hf : ∀ a, Gives (f a) Q) :
    Gives (answer >>= f) Q := by
  cases answer with
  | error e => exact .error e
  | ok a => exact hf a

theorem map {f : α → β} (h : Gives answer P) (hf : ∀ a, P a → Q (f a)) :
    Gives (f <$> answer) Q := by
  cases answer with
  | error e => exact .error e
  | ok a => exact .ok (hf a (h a rfl))

theorem mapM {f : α → Except Error β} {l : List α} (h : ∀ a ∈ l, Gives (f a) Q) :
    Gives (l.mapM f) fun bs => ∀ b ∈ bs, Q b := by
  induction l with
  | nil => exact .ok fun _ hb => absurd hb List.not_mem_nil
  | cons a rest ih =>
    rw [List.mapM_cons]
    refine (h a List.mem_cons_self).bind fun b hb => ?_
    refine (ih fun a' ha' => h a' (List.mem_cons_of_mem _ ha')).bind fun bs hbs => ?_
    exact .ok (List.forall_mem_cons.mpr ⟨hb, hbs⟩)

end Gives

/-- Not the failure of a walk that has come to the end of its bound. -/
def NotEndless (answer : Except Error α) : Prop := answer ≠ .error .endless

namespace NotEndless

theorem ok (a : α) : NotEndless (.ok a) := nofun

theorem shape (fault : ShapeFault) : NotEndless (.error (.shape fault) : Except Error α) := nofun

theorem invariant (fault : InvariantFault) :
    NotEndless (.error (.invariant fault) : Except Error α) := nofun

end NotEndless

/-- If this fails, the shape of the schema is at fault. -/
def FailsByShape (answer : Except Error α) : Prop :=
  ∀ e, answer = .error e → ∃ fault, e = .shape fault

namespace FailsByShape

theorem notEndless {answer : Except Error α} (h : FailsByShape answer) : NotEndless answer := by
  intro he
  obtain ⟨fault, hfault⟩ := h _ he
  cases hfault

theorem ok (a : α) : FailsByShape (.ok a) := nofun

theorem shape (fault : ShapeFault) : FailsByShape (.error (.shape fault) : Except Error α) :=
  fun _ he => ⟨fault, (Except.error.inj he).symm⟩

theorem bind {answer : Except Error α} {f : α → Except Error β} (h : FailsByShape answer)
    (hf : ∀ a, FailsByShape (f a)) : FailsByShape (answer >>= f) := by
  cases answer with
  | error e => exact fun e' he => h e' (congrArg Except.error (Except.error.inj he))
  | ok a => exact hf a

theorem map {answer : Except Error α} {f : α → β} (h : FailsByShape answer) :
    FailsByShape (f <$> answer) := by
  cases answer with
  | error e => exact fun e' he => h e' (congrArg Except.error (Except.error.inj he))
  | ok a => exact ok (f a)

theorem mapM {f : α → Except Error β} (h : ∀ a, FailsByShape (f a)) (l : List α) :
    FailsByShape (l.mapM f) := by
  induction l with
  | nil => exact ok []
  | cons a rest ih =>
    rw [List.mapM_cons]
    exact (h a).bind fun b => ih.bind fun rest' => ok (b :: rest')

theorem findSomeM? {f : α → Except Error (Option β)} (h : ∀ a, FailsByShape (f a)) (l : List α) :
    FailsByShape (l.findSomeM? f) := by
  induction l with
  | nil => exact ok none
  | cons a rest ih =>
    rw [List.findSomeM?_cons]
    refine (h a).bind fun found => ?_
    split
    · exact ok _
    · exact ih

end FailsByShape

/-! ## Questions about a schema -/

namespace Model

variable (m : Model)

theorem error_of_rootElement {name : QName} {e : Error} (he : m.rootElement name = .error e) :
    e = .rootNotFound name := by
  unfold rootElement at he
  split at he
  · cases he
  · exact (Except.error.inj he).symm

theorem notEndless_rootElement (name : QName) : NotEndless (m.rootElement name) :=
  fun he => nomatch m.error_of_rootElement he

theorem failsByShape_resolveType (ref : TypeRef) : FailsByShape (m.resolveType ref) := by
  unfold resolveType
  split
  · exact .ok _
  · split
    · exact .ok _
    · exact .shape _

theorem failsByShape_resolveElement (name : QName) : FailsByShape (m.resolveElement name) := by
  unfold resolveElement
  split
  · exact .ok _
  · exact .shape _

theorem failsByShape_resolveGroup (name : QName) : FailsByShape (m.resolveGroup name) := by
  unfold resolveGroup
  split
  · exact .ok _
  · exact .shape _

theorem failsByShape_resolveAttribute (target : AttributeTarget) :
    FailsByShape (m.resolveAttribute target) := by
  unfold resolveAttribute
  split
  · exact .ok _
  · split
    · exact .ok _
    · exact .shape _

theorem failsByShape_resolveAttributeGroup (name : QName) :
    FailsByShape (m.resolveAttributeGroup name) := by
  unfold resolveAttributeGroup
  split
  · exact .ok _
  · exact .shape _

theorem failsByShape_contentWithin (steps : Nat) (type : ComplexType) :
    FailsByShape (m.contentWithin steps type) := by
  induction steps generalizing type with
  | zero =>
    unfold contentWithin
    split
    · exact .shape _
    · exact .ok _
  | succ steps ih =>
    unfold contentWithin
    split
    · refine (m.failsByShape_resolveType _).bind fun base => ?_
      split
      · exact .ok _
      · exact (ih _).bind fun _ => .ok _
    · exact .ok _

theorem failsByShape_contentOf (type : ComplexType) : FailsByShape (m.contentOf type) :=
  m.failsByShape_contentWithin _ type

theorem failsByShape_flattenItem (steps : Nat) (item : AttributeItem) :
    FailsByShape (m.flattenItem steps item) := by
  have huse : ∀ use : AttributeUse, FailsByShape (m.effectiveAttribute use) := fun use =>
    (m.failsByShape_resolveAttribute use.target).bind fun _ => .ok _
  induction steps generalizing item with
  | zero =>
    cases item with
    | use use => exact (huse use).bind fun _ => .ok _
    | group name => exact .shape _
  | succ steps ih =>
    cases item with
    | use use => exact (huse use).bind fun _ => .ok _
    | group name =>
      refine (m.failsByShape_resolveAttributeGroup name).bind fun group => ?_
      exact (FailsByShape.mapM ih _).map

theorem failsByShape_attributesWithin (steps : Nat) (type : ComplexType) :
    FailsByShape (m.attributesWithin steps type) := by
  have hown : ∀ inherited items, FailsByShape do
      let own ← m.flattenItems items
      return own.foldl applyUse inherited := fun inherited items =>
    (FailsByShape.map (.mapM (m.failsByShape_flattenItem _) items)).bind fun _ => .ok _
  induction steps generalizing type with
  | zero =>
    unfold attributesWithin
    simp only
    split
    · exact (FailsByShape.ok _).bind fun _ => hown _ _
    · exact (FailsByShape.shape _).bind fun _ => hown _ _
  | succ steps ih =>
    unfold attributesWithin
    simp only
    split
    · exact (FailsByShape.ok _).bind fun _ => hown _ _
    · split
      · exact (ih _).bind fun _ => hown _ _
      · exact (FailsByShape.ok _).bind fun _ => hown _ _

theorem failsByShape_attributesOf (type : ComplexType) : FailsByShape (m.attributesOf type) :=
  m.failsByShape_attributesWithin _ type

theorem failsByShape_itemWildcard (steps : Nat) (item : AttributeItem) :
    FailsByShape (m.itemWildcard steps item) := by
  induction steps generalizing item with
  | zero =>
    cases item with
    | use use => exact .ok _
    | group name => exact .shape _
  | succ steps ih =>
    cases item with
    | use use => exact .ok _
    | group name =>
      refine (m.failsByShape_resolveAttributeGroup name).bind fun group => ?_
      split
      · exact .ok _
      · exact .findSomeM? ih _

theorem failsByShape_wildcardWithin (steps : Nat) (type : ComplexType) :
    FailsByShape (m.wildcardWithin steps type) := by
  have hlist : ∀ items, FailsByShape (m.listWildcard items) := fun items =>
    .findSomeM? (m.failsByShape_itemWildcard _) items
  induction steps using Nat.strongRecOn generalizing type with
  | ind steps ih =>
    unfold wildcardWithin
    split
    · exact .ok _
    · refine (hlist _).bind fun listed => ?_
      split
      · exact .ok _
      · split
        · -- Only the step to the base needs one more step.
          cases steps with
          | zero => exact .shape _
          | succ steps =>
            simp only
            split
            · exact ih steps steps.lt_succ_self _
            · exact .ok _
        · exact .ok _

theorem failsByShape_wildcardOf (type : ComplexType) : FailsByShape (m.wildcardOf type) :=
  m.failsByShape_wildcardWithin _ type

/-! ## Simple types -/

theorem failsByShape_resolveSimpleWithin (whole : TypeRef) (steps : Nat) (ref : TypeRef) :
    FailsByShape (m.resolveSimpleWithin whole steps ref) := by
  induction steps generalizing ref with
  | zero => exact .shape _
  | succ steps ih =>
    unfold resolveSimpleWithin
    refine (m.failsByShape_resolveType ref).bind fun definition => ?_
    split
    · exact .ok _
    · refine (m.failsByShape_contentOf _).bind fun content => ?_
      split
      · exact ih _
      · exact .shape _

theorem failsByShape_resolveSimple (ref : TypeRef) : FailsByShape (m.resolveSimple ref) :=
  m.failsByShape_resolveSimpleWithin ref _ ref

theorem failsByShape_textType (definition : TypeDef) : FailsByShape (m.textType definition) := by
  unfold textType
  split
  · exact .ok _
  · refine (m.failsByShape_contentOf _).bind fun content => ?_
    split
    · exact (m.failsByShape_resolveSimple _).map
    · exact .ok _

theorem failsByShape_ancestorsWithin (steps : Nat) (type : SimpleType) :
    FailsByShape (m.ancestorsWithin steps type) := by
  induction steps generalizing type with
  | zero =>
    unfold ancestorsWithin
    split
    · exact .ok _
    · exact .shape _
  | succ steps ih =>
    unfold ancestorsWithin
    split
    · exact .ok _
    · exact (m.failsByShape_resolveSimple _).bind fun next => (ih next).bind fun _ => .ok _

theorem failsByShape_chain (type : SimpleType) : FailsByShape (m.chain type) :=
  (m.failsByShape_ancestorsWithin _ type).map

theorem failsByShape_facet (type : SimpleType) (kind : FacetKind) :
    FailsByShape (m.facet type kind) :=
  (m.failsByShape_chain type).map

theorem failsByShape_countFacet (type : SimpleType) (kind : FacetKind) :
    FailsByShape (m.countFacet type kind) := by
  refine (m.failsByShape_facet type kind).bind fun facet => ?_
  split <;> exact .ok _

theorem failsByShape_enumeration (type : SimpleType) : FailsByShape (m.enumeration type) := by
  refine (m.failsByShape_facet type .enumeration).bind fun facet => ?_
  split <;> exact .ok _

theorem failsByShape_variety (type : SimpleType) : FailsByShape (m.variety type) :=
  (m.failsByShape_chain type).map

theorem failsByShape_builtinAncestor (type : SimpleType) :
    FailsByShape (m.builtinAncestor type) := by
  refine (m.failsByShape_chain type).bind fun chain => ?_
  split
  · exact .ok _
  · exact .shape _

end Model

theorem NumericRange.failsByShape_nearestBound (inclusive exclusive : FacetKind)
    (chain : List SimpleType) : FailsByShape (nearestBound inclusive exclusive chain) := by
  unfold nearestBound
  split
  · refine FailsByShape.map ?_
    unfold readBound
    split
    · exact .ok _
    · exact .shape _
  · exact .ok _

theorem NumericRange.failsByShape_ofType (m : Model) (type : SimpleType) :
    FailsByShape (ofType m type) := by
  refine (m.failsByShape_chain type).bind fun chain => ?_
  refine (failsByShape_nearestBound _ _ chain).bind fun min => ?_
  refine (failsByShape_nearestBound _ _ chain).bind fun max => ?_
  refine (m.failsByShape_countFacet _ _).bind fun _ => ?_
  exact (m.failsByShape_countFacet _ _).bind fun _ => .ok _

/-! ## Leaves -/

/-- If the filling fails, the shape of the schema is at fault, whatever the supply. -/
def Filling.FailsByShape {σ : Type} (filling : Filling σ α) : Prop :=
  ∀ supply, Specimen.FailsByShape (filling supply).1

namespace Filling.FailsByShape

variable {σ : Type} {filling : Filling σ α}

theorem pure (a : α) : FailsByShape (Pure.pure a : Filling σ α) := fun _ => .ok a

theorem ask {answer : Except Error α} (h : Specimen.FailsByShape answer) :
    FailsByShape (ask answer : Filling σ α) := fun _ => h

theorem draw (f : σ → α × σ) : FailsByShape (draw f) := fun _ => .ok _

theorem countUse (hint : String) : FailsByShape (countUse hint : Filling σ Nat) := fun _ => .ok _

theorem bind {f : α → Filling σ β} (h : filling.FailsByShape) (hf : ∀ a, (f a).FailsByShape) :
    (filling >>= f).FailsByShape := by
  intro supply
  have hsupply := h supply
  rcases hr : filling supply with ⟨e | a, supply'⟩
  · have hbind : (filling >>= f) supply = (.error e, supply') := by
      simp only [Bind.bind, ExceptT.bind, ExceptT.mk, ExceptT.bindCont, StateT.bind, hr]
      rfl
    rw [hr] at hsupply
    rw [hbind]
    exact fun e' he => hsupply e' (congrArg Except.error (Except.error.inj he))
  · have hbind : (filling >>= f) supply = f a supply' := by
      simp only [Bind.bind, ExceptT.bind, ExceptT.mk, ExceptT.bindCont, StateT.bind, hr]
    rw [hbind]
    exact hf a supply'

theorem map {f : α → β} (h : filling.FailsByShape) : (f <$> filling).FailsByShape := by
  rw [map_eq_pure_bind]
  exact h.bind fun a => pure (f a)

theorem times (n : Nat) (h : filling.FailsByShape) : (times n filling).FailsByShape := by
  induction n with
  | zero => exact pure []
  | succ n ih => exact h.bind fun _ => ih.bind fun _ => pure _

end Filling.FailsByShape

namespace Leaf

open Filling

variable {σ : Type} [Source σ] (w : Setting)

theorem failsByShape_atomicValue (type : SimpleType) (hint : String) :
    (atomicValue w type hint : Filling σ String).FailsByShape := by
  refine (FailsByShape.ask (w.model.failsByShape_builtinAncestor type)).bind fun builtin => ?_
  extract_lets name
  split
  · exact (FailsByShape.draw _).bind fun _ => .pure _
  · refine (FailsByShape.ask (NumericRange.failsByShape_ofType _ _)).bind fun range => ?_
    split
    · exact .draw _
    · exact .draw _
  · exact .pure _
  · exact .pure _
  · exact .pure _
  · refine (FailsByShape.ask (w.model.failsByShape_countFacet _ _)).bind fun _ => ?_
    refine (FailsByShape.ask (w.model.failsByShape_countFacet _ _)).bind fun _ => ?_
    exact (FailsByShape.countUse _).bind fun _ => .pure _

theorem failsByShape_listLength (type : SimpleType) :
    (listLength w type : Filling σ Nat).FailsByShape := by
  refine (FailsByShape.ask (w.model.failsByShape_countFacet _ _)).bind fun _ => ?_
  refine (FailsByShape.ask (w.model.failsByShape_countFacet _ _)).bind fun _ => ?_
  exact (FailsByShape.ask (w.model.failsByShape_countFacet _ _)).bind fun _ => .draw _

theorem failsByShape_valueWithin (hint : String) (steps : Nat) (type : SimpleType) :
    (valueWithin w hint steps type : Filling σ String).FailsByShape := by
  induction steps generalizing type with
  | zero => exact .ask (.shape _)
  | succ steps ih =>
    unfold valueWithin
    refine (FailsByShape.ask (w.model.failsByShape_enumeration type)).bind fun values => ?_
    split
    · exact (FailsByShape.draw _).bind fun _ => .pure _
    · refine (FailsByShape.ask (w.model.failsByShape_variety type)).bind fun variety => ?_
      split
      · refine (FailsByShape.ask (w.model.failsByShape_resolveSimple _)).bind fun itemType => ?_
        refine (failsByShape_listLength w type).bind fun n => ?_
        refine (FailsByShape.ask (w.model.failsByShape_enumeration _)).bind fun values => ?_
        split
        · exact (FailsByShape.draw _).bind fun _ => .pure _
        · exact (FailsByShape.times n (ih _)).map
      · refine (FailsByShape.draw _).bind fun i => ?_
        exact (FailsByShape.ask (w.model.failsByShape_resolveSimple _)).bind fun member => ih member
      · exact failsByShape_atomicValue w type hint

/-- **If a leaf cannot be filled, the shape of the schema is at fault.** -/
theorem failsByShape_value (type : SimpleType) (hint : String) :
    (value w type hint : Filling σ String).FailsByShape :=
  failsByShape_valueWithin w hint _ type

end Leaf

end Specimen

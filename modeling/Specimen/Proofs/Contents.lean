import Specimen.Proofs.Order
import Specimen.Proofs.Places
import Specimen.Writer.Markup

/-!
# What stands in an element

What the steps of a run are between the start of an element and its end, in terms of the type that
the element is generated for: the announcement of the type, its attributes, its attribute wildcard,
then its content or its text.

This is said of all elements of a schema, also where bounds cannot be met, every branch of a choice
is asked for, or an element is left out. So the content is not always one that is valid, but it is
always made up from the particles of the type.
-/

namespace Specimen

variable {σ : Type} [Source σ]

/-! ## Start tags -/

/-- The type is complex and abstract. -/
def TypeDef.IsAbstract (declared : TypeDef) : Prop :=
  ∃ type, declared = .complex type ∧ type.isAbstract = true

/-- The value may be filled in for the type. -/
def Leaf.Fills (σ : Type) [Source σ] (w : Leaf.Setting) (type : SimpleType) (hint value : String) :
    Prop :=
  ∃ s s' : Supply σ, Leaf.value w type hint s = (.ok value, s')

namespace Document

/-- What an attribute is written with, or that it is left out. -/
inductive AttributeText (σ : Type) [Source σ] (w : Leaf.Setting) (attr : EffectiveAttribute) :
    Option String → Prop
  | fixed {value : String} (h : attr.constraint = .fixed value) : AttributeText σ w attr (some value)
  | default {value : String} (h : attr.constraint = .default value) :
      AttributeText σ w attr (some value)
  | filled {type : SimpleType} {value : String} (h : attr.constraint = .free)
      (ht : w.model.resolveSimple attr.decl.type = .ok type)
      (hv : Leaf.Fills σ w type attr.decl.name.localName value) : AttributeText σ w attr (some value)
  | blank (h : attr.constraint = .free) (ho : attr.isRequired = false) :
      AttributeText σ w attr (some "")
  | omitted (h : attr.constraint = .free → attr.isRequired = false) : AttributeText σ w attr none

/-- The attributes are written in their order, each once or not at all. -/
inductive AttributeRow (σ : Type) [Source σ] (w : Leaf.Setting) :
    List EffectiveAttribute → List Event → Prop
  | nil : AttributeRow σ w [] []
  | omitted {attr : EffectiveAttribute} {attrs : List EffectiveAttribute} {l : List Event}
      (h : AttributeText σ w attr none) (hl : AttributeRow σ w attrs l) :
      AttributeRow σ w (attr :: attrs) l
  | written {attr : EffectiveAttribute} {attrs : List EffectiveAttribute} {l : List Event}
      {value : String} (h : AttributeText σ w attr (some value)) (hl : AttributeRow σ w attrs l) :
      AttributeRow σ w (attr :: attrs)
        (.attribute attr.decl.name.namespaceUri attr.decl.name.localName value :: l)

/-- An attribute wildcard is written as one attribute in a namespace that it admits. -/
inductive WildcardAttribute : Option Wildcard → List Event → Prop
  | none : WildcardAttribute none []
  | some {own : Wildcard} {uri : String} (h : own.namespaces.Admits uri) :
      WildcardAttribute (some own) [.attribute uri wildcardAttribute wildcardValue]

/-- A type that stands for an abstract one is announced with its name. -/
inductive Announces (declared : TypeDef) (type : ComplexType) : List Event → Prop
  | own (h : ¬declared.IsAbstract) : Announces declared type []
  | subtype {name : QName} (h : declared.IsAbstract) (hn : type.name = some name) (pfx : String) :
      Announces declared type [.declarePrefix name.namespaceUri pfx,
        .attribute Namespace.xsi "type" (Markup.qualify pfx name.localName)]

/-- What stands in the start tag of an element of a declared type that is generated for `type`. -/
inductive TagOf (σ : Type) [Source σ] (w : Leaf.Setting) (declared : TypeDef) :
    TypeDef → List Event → Prop
  | simple {type : SimpleType} : TagOf σ w declared (.simple type) []
  | complex {type : ComplexType} {own : Option Wildcard} {attrs : List EffectiveAttribute}
      {announcement attributes wildcard : List Event} (ha : Announces declared type announcement)
      (hattrs : w.model.attributesOf type = .ok attrs) (hrow : AttributeRow σ w attrs attributes)
      (hown : w.model.wildcardOf type = .ok own) (hw : WildcardAttribute own wildcard) :
      TagOf σ w declared (.complex type) (announcement ++ (attributes ++ wildcard))

/-! ## Contents -/

/-- What stands for an element of a declaration: nothing if it is left out, or the element with the
remarks before it. -/
inductive Occurrence (decl : ElementDecl) : List (Step (Supply σ)) → Prop
  | leftOut : Occurrence decl [.noted (.leftOut decl)]
  | whole {remarks inner : List (Step (Supply σ))} {type : TypeDef} {s s' : Supply σ}
      {answer answer' : String} (hr : ∀ step ∈ remarks, step.IsPlain)
      (he : Event.IsElement (eventsOf (remarks ++ .noted (.element decl type)
        :: .made (.startElement decl.name.namespaceUri decl.name.localName) s answer
        :: (inner ++ [.made .endElement s' answer'])))) :
      Occurrence decl (remarks ++ .noted (.element decl type)
        :: .made (.startElement decl.name.namespaceUri decl.name.localName) s answer
        :: (inner ++ [.made .endElement s' answer']))

/-- The group that a term is or refers to. -/
inductive GroupOf (m : Model) : Term → ModelGroup → Prop
  | group (group : ModelGroup) : GroupOf m (.group group) group
  | groupRef {name : QName} {group : ModelGroup} (h : m.groups.get? name = some group) :
      GroupOf m (.groupRef name) group

mutual

/-- The steps may stand for a particle. Of a choice, some branches are visited, or all, in any
order.
-/
inductive Yields (w : Leaf.Setting) : Particle → List (Step (Supply σ)) → Prop
  | repeated {p : Particle} {n : Nat} {st : List (Step (Supply σ))}
      (hn : p.occurs.InOrder → p.occurs.contains n = true) (h : YieldsTimes w p.term n st) :
      Yields w p st
  | choice {occurs : Occurs} {t : Term} {branches order : List Particle}
      {st : List (Step (Supply σ))} (ht : GroupOf w.model t ⟨.choice, branches⟩)
      (ho : order.Perm branches)
      (h : YieldsAll w (order.take (branchCount w.policy occurs branches.length)) st) :
      Yields w ⟨occurs, t⟩ st

/-- The steps may stand for a term that occurs so many times. -/
inductive YieldsTimes (w : Leaf.Setting) : Term → Nat → List (Step (Supply σ)) → Prop
  | zero {t : Term} : YieldsTimes w t 0 []
  | succ {t : Term} {n : Nat} {st st' : List (Step (Supply σ))} (h : YieldsOnce w t st)
      (h' : YieldsTimes w t n st') : YieldsTimes w t (n + 1) (st ++ st')

/-- The steps may stand for a term that occurs once. -/
inductive YieldsOnce (w : Leaf.Setting) : Term → List (Step (Supply σ)) → Prop
  | element {decl other : ElementDecl} {st : List (Step (Supply σ))}
      (h : w.model.StandsFor decl other) (hst : Occurrence other st) :
      YieldsOnce w (.element decl) st
  | elementRef {name : QName} {decl other : ElementDecl} {st : List (Step (Supply σ))}
      (hd : w.model.elements.get? name = some decl) (h : w.model.StandsFor decl other)
      (hst : Occurrence other st) : YieldsOnce w (.elementRef name) st
  | any {own : Wildcard} {uri : String} {s s' : Supply σ} {answer answer' : String}
      (h : own.namespaces.Admits uri) :
      YieldsOnce w (.any own)
        [.made (.startElement uri wildcardElement) s answer, .made .endElement s' answer']
  | group {t : Term} {group : ModelGroup} {order : List Particle} {st : List (Step (Supply σ))}
      (ht : GroupOf w.model t group) (hc : group.compositor ≠ .choice)
      (ho : if group.compositor = .all then order.Perm group.particles else order = group.particles)
      (h : YieldsAll w order st) : YieldsOnce w t st

/-- The steps may stand for particles one after another. -/
inductive YieldsAll (w : Leaf.Setting) : List Particle → List (Step (Supply σ)) → Prop
  | nil : YieldsAll w [] []
  | cons {p : Particle} {rest : List Particle} {st st' : List (Step (Supply σ))}
      (h : Yields w p st) (h' : YieldsAll w rest st') : YieldsAll w (p :: rest) (st ++ st')

end

/-- What stands for the content of a type. -/
inductive ContentOf (w : Leaf.Setting) : TypeDef → List (Step (Supply σ)) → Prop
  | simple {type : SimpleType} : ContentOf w (.simple type) []
  | noElements {type : ComplexType} {content : Content} (hc : w.model.contentOf type = .ok content)
      (hp : content.particle = none) : ContentOf w (.complex type) []
  | elements {type : ComplexType} {content : Content} {p : Particle} {st : List (Step (Supply σ))}
      (hc : w.model.contentOf type = .ok content) (hp : content.particle = some p)
      (h : Yields w p st) : ContentOf w (.complex type) st

/-- What stands for the text of an element, if its type allows only text. -/
inductive TextOf (w : Leaf.Setting) (decl : ElementDecl) (type : TypeDef) :
    List (Step (Supply σ)) → Prop
  | none (h : w.model.textType type = .ok none) : TextOf w decl type []
  | filled {textType : SimpleType} {value answer : String} {s : Supply σ}
      (h : w.model.textType type = .ok (some textType))
      (hv : Leaf.Fills σ w textType decl.name.localName value) :
      TextOf w decl type [.made (.text value) s answer]

/-! ## Elements -/

/-- The parts of an element of the declaration that is written for the type. The type is one of the
schema, and between the tags stand elements or a text, but not both. -/
structure IsMadeOf (w : Leaf.Setting) (decl : ElementDecl) (declared type : TypeDef)
    (tag content text : List (Step (Supply σ))) : Prop where
  resolveType : w.model.resolveType decl.type = .ok declared
  generates : w.model.Generates declared type
  mem_parts : ∀ complex, type = .complex complex → .type complex ∈ w.model.parts
  tagOf : TagOf σ w declared type (eventsOf tag)
  contentOf : ContentOf w type content
  textOf : TextOf w decl type text
  isInside : Event.IsInside (eventsOf (content ++ text))

/-- The start of an element, with the steps before it and behind it. The element is one of a
declaration, written for a type, and behind its start stand the parts of its tag, its content, its
text and its end. Or it stands for a wildcard, and is ended at once. -/
inductive Begun (w : Leaf.Setting) : List (Step (Supply σ)) → String → String →
    List (Step (Supply σ)) → Prop
  | declared {decl : ElementDecl} {declared type : TypeDef} {s : Supply σ} {answer : String}
      {before tag content text rest : List (Step (Supply σ))}
      (h : IsMadeOf w decl declared type tag content text) :
      Begun w (before ++ [.noted (.element decl type)]) decl.name.namespaceUri decl.name.localName
        (tag ++ (content ++ (text ++ .made .endElement s answer :: rest)))
  | wildcard {before rest : List (Step (Supply σ))} {uri name : String} {s : Supply σ}
      {answer : String} (hn : name = wildcardElement) :
      Begun w before uri name (.made .endElement s answer :: rest)

/-- Every element that is begun in the steps is written for its type, or for a wildcard. -/
def EachWritten (w : Leaf.Setting) (st : List (Step (Supply σ))) : Prop :=
  ∀ before uri name s answer after, st = before ++ .made (.startElement uri name) s answer :: after →
    Begun w before uri name after

variable {w : Leaf.Setting} {uri name : String} {s : Supply σ} {answer : String}
  {st st' before after : List (Step (Supply σ))}

/-- More steps may stand around an element. -/
theorem Begun.append (h : Begun w before uri name after) (outer more : List (Step (Supply σ))) :
    Begun w (outer ++ before) uri name (after ++ more) := by
  cases h with
  | declared h =>
    simp only [← List.append_assoc outer, List.append_assoc _ _ more, List.cons_append]
    exact .declared h
  | wildcard hn => exact .wildcard hn

/-- What is said of the start of an element, as a law of places. -/
def beginLaw (w : Leaf.Setting) : PlaceLaw (Step (Supply σ)) := fun before step after =>
  ∀ uri name s answer, step = .made (.startElement uri name) s answer → Begun w before uri name after

theorem isLocal_beginLaw : (beginLaw (σ := σ) w).IsLocal :=
  fun _ _ _ h outer more uri name s answer heq => (h uri name s answer heq).append outer more

theorem eachWritten_iff : EachWritten w st ↔ EachPlace (beginLaw w) st :=
  ⟨fun h before _ after heq uri name s answer hstep => h before uri name s answer after (hstep ▸ heq),
    fun h before uri name s answer after heq => h before _ after heq uri name s answer rfl⟩

namespace EachWritten

theorem append (h : EachWritten w st) (h' : EachWritten w st') : EachWritten w (st ++ st') :=
  eachWritten_iff.mpr
    (.append isLocal_beginLaw (eachWritten_iff.mp h) (eachWritten_iff.mp h'))

/-- Where no element is begun, there is nothing to say. -/
theorem of_forall (h : ∀ step ∈ st, ∀ uri name s answer,
    step ≠ .made (.startElement uri name) s answer) : EachWritten w st := by
  intro before uri name s answer after heq
  have hmem : .made (.startElement uri name) s answer ∈ st := by
    rw [heq]
    exact List.mem_append_right _ List.mem_cons_self
  exact absurd rfl (h _ hmem uri name s answer)

theorem of_isPlain (h : ∀ step ∈ st, step.IsPlain) : EachWritten w st := by
  refine of_forall fun step hmem uri name s answer heq => ?_
  have hplain := h _ hmem
  rw [heq] at hplain
  cases hplain

theorem nil : EachWritten w ([] : List (Step (Supply σ))) :=
  of_forall fun _ hmem => absurd hmem List.not_mem_nil

theorem noted (n : Note) : EachWritten w [(.noted n : Step (Supply σ))] :=
  of_forall fun step hmem uri name s answer heq => by
    rw [heq] at hmem
    cases List.mem_singleton.mp hmem

theorem made {c : Call} (h : ∀ uri name, c ≠ .startElement uri name) (s : Supply σ)
    (answer : String) : EachWritten w [.made c s answer] :=
  of_forall fun step hmem uri name s' answer' heq => by
    rw [heq] at hmem
    cases List.mem_singleton.mp hmem
    exact absurd rfl (h uri name)

/-- An element is begun, and so are those behind its start. -/
theorem start (h : Begun w before uri name st) (hbefore : EachWritten w before)
    (hst : EachWritten w st) :
    EachWritten w (before ++ .made (.startElement uri name) s answer :: st) := by
  refine eachWritten_iff.mpr
    (.around isLocal_beginLaw ?_ (eachWritten_iff.mp hbefore) (eachWritten_iff.mp hst))
  rintro _ _ _ _ ⟨⟩
  exact h

/-- An element that stands for a wildcard. -/
theorem empty (uri : String) (s s' : Supply σ) (answer answer' : String) :
    EachWritten w
      [.made (.startElement uri wildcardElement) s answer, .made .endElement s' answer'] := by
  have hend : EachWritten w [.made .endElement s' answer'] := made (by simp) s' answer'
  exact start (.wildcard rfl) nil hend

end EachWritten

end Document

end Specimen

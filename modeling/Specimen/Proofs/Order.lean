import Specimen.Proofs.Stream
import Specimen.Proofs.Validity

/-!
# The order of what is reported

Each part of a walk is described by the stretch of the event stream that it reports: an annotation
stands before a start tag, what a type asks for before its content belongs into the start tag, and a
particle reports elements, unless it is the attribute wildcard of the type around it. A part that
fails has reported the beginning of such a stretch. The walk through a particle is defined from the
walk through the particles inside it, so the whole is an induction on how many particles may stand
inside each other.
-/

namespace Specimen

/-! ## Walks that report a stretch -/

namespace Walk

open Stretch

variable {σ α β : Type} {walk : Walk σ α} {R S : Stretch}

/-- Whatever is answered to its calls, the walk reports a stretch of this kind, or the beginning of
one if it fails. -/
def Forms (walk : Walk σ α) (R : Stretch) : Prop :=
  ∀ s st r s', walk.Runs s st r s' →
    R.Begins (eventsOf st) ∧ ∀ a, r = .ok a → R (eventsOf st)

namespace Forms

theorem imp (h : Forms walk R) (hRS : ∀ l, R l → S l) : Forms walk S := by
  intro s st r s' hr
  obtain ⟨hbegins, hok⟩ := h _ _ _ _ hr
  exact ⟨hbegins.imp hRS, fun a ha => hRS _ (hok a ha)⟩

theorem of_isSilent (h : walk.IsSilent) (hR : R []) : Forms walk R := by
  intro s st r s' hr
  obtain rfl := h _ _ _ _ hr
  exact ⟨.of_all hR, fun _ _ => hR⟩

theorem note {n : Note} (hR : R []) : Forms (Walk.note n : Walk σ Unit) R := by
  intro s st r s' hr
  obtain ⟨rfl, -⟩ := runs_note hr
  exact ⟨.of_all hR, fun _ _ => hR⟩

theorem pure {a : α} (hR : R []) : Forms (Pure.pure a : Walk σ α) R := of_isSilent (.pure a) hR

theorem fail {e : Error} (hR : ∃ l, R l) : Forms (fail e : Walk σ α) R := by
  intro s st r s' hr
  obtain ⟨rfl, rfl, -⟩ := runs_fail hr
  exact ⟨hR, fun a ha => nomatch ha⟩

theorem call {c : Call} (h : ∀ answer, R [c.event answer]) : Forms (call c : Walk σ String) R := by
  intro s st r s' hr
  obtain ⟨-, ⟨answer, rfl, rfl⟩ | ⟨e, rfl, rfl⟩⟩ := runs_call hr
  · exact ⟨.of_all (h answer), fun _ _ => h answer⟩
  · exact ⟨⟨_, h ""⟩, fun a ha => nomatch ha⟩

theorem tell {c : Call} (h : ∀ answer, R [c.event answer]) : Forms (tell c : Walk σ Unit) R := by
  intro s st r s' hr
  obtain ⟨-, ⟨answer, rfl, rfl⟩ | ⟨e, rfl, rfl⟩⟩ := runs_tell hr
  · exact ⟨.of_all (h answer), fun _ _ => h answer⟩
  · exact ⟨⟨_, h ""⟩, fun a ha => nomatch ha⟩

theorem just {c : Call} {e : Event} (h : ∀ answer, c.event answer = e) :
    Forms (Walk.tell c : Walk σ Unit) (Stretch.just e) :=
  .tell fun answer => by rw [h answer, Stretch.just]

/-- A walk and what follows it. If the first part fails, a stretch of the second kind is needed to
complete what it has begun. -/
theorem andThen {f : α → Walk σ β} (h : Forms walk R) (hf : ∀ a, Forms (f a) S) (hS : ∃ l, S l) :
    Forms (walk >>= f) (R.andThen S) := by
  intro s st r s' hr
  rcases runs_bind hr with ⟨e, rfl, hr₁⟩ | ⟨a, s₁, st₁, st₂, hr₁, hr₂, rfl⟩
  · obtain ⟨⟨more, hmore⟩, -⟩ := h _ _ _ _ hr₁
    obtain ⟨l, hl⟩ := hS
    exact ⟨⟨more ++ l, _, l, (List.append_assoc _ _ _).symm, hmore, hl⟩, fun b hb => nomatch hb⟩
  · have hfirst := (h _ _ _ _ hr₁).2 a rfl
    obtain ⟨⟨more, hmore⟩, hok⟩ := hf a _ _ _ _ hr₂
    rw [eventsOf_append]
    exact ⟨⟨more, _, _, List.append_assoc _ _ _, hfirst, hmore⟩,
      fun b hb => ⟨_, _, rfl, hfirst, hok b hb⟩⟩

/-- A walk that reports nothing before another one. -/
theorem silent_bind {f : α → Walk σ β} (h : walk.IsSilent) (hf : ∀ a, Forms (f a) R)
    (hR : ∃ l, R l) : Forms (walk >>= f) R := by
  have hnil : Forms walk fun l => l = [] := of_isSilent h rfl
  refine (hnil.andThen hf hR).imp ?_
  rintro _ ⟨_, l, rfl, rfl, hl⟩
  exact hl

/-- A note before a walk. -/
theorem note_bind {n : Note} {f : Unit → Walk σ β} (hf : ∀ u, Forms (f u) R) (hR : ∃ l, R l) :
    Forms (Walk.note n >>= f) R := by
  have hnil : Forms (Walk.note n : Walk σ Unit) fun l => l = [] := note rfl
  refine (hnil.andThen hf hR).imp ?_
  rintro _ ⟨_, l, rfl, rfl, hl⟩
  exact hl

/-- A question about the schema before a walk. -/
theorem ask_bind {answer : Except Error α} {f : α → Walk σ β}
    (hf : ∀ a, answer = .ok a → Forms (f a) R) (hR : ∃ l, R l) : Forms (ask answer >>= f) R := by
  intro s st r s' hr
  rcases runs_bind hr with ⟨e, rfl, hr₁⟩ | ⟨a, s₁, st₁, st₂, hr₁, hr₂, rfl⟩
  · obtain ⟨rfl, -⟩ := runs_ask hr₁
    exact ⟨hR, fun b hb => nomatch hb⟩
  · obtain ⟨rfl, ha, -⟩ := runs_ask hr₁
    exact hf a ha.symm _ _ _ _ hr₂

/-- Two parts of the same row. -/
theorem bind {f : α → Walk σ β} (hR : R.IsRow) (h : Forms walk R) (hf : ∀ a, Forms (f a) R) :
    Forms (walk >>= f) R := by
  refine (h.andThen hf ⟨[], hR.nil⟩).imp ?_
  rintro _ ⟨l₁, l₂, rfl, h₁, h₂⟩
  exact hR.append h₁ h₂

theorem each {walk : β → Walk σ Unit} {l : List β} (hR : R.IsRow)
    (h : ∀ b ∈ l, Forms (walk b) R) : Forms (each l walk) R := by
  induction l with
  | nil => exact pure hR.nil
  | cons b rest ih =>
    exact bind hR (h b List.mem_cons_self) fun _ => ih fun c hc => h c (List.mem_cons_of_mem _ hc)

theorem times {walk : Walk σ Unit} (n : Nat) (hR : R.IsRow) (h : Forms walk R) :
    Forms (times n walk) R := by
  induction n with
  | zero => exact pure hR.nil
  | succ n ih => exact bind hR h fun _ => ih

end Forms

/-! ### Requests for prefixes -/

/-- The walk asks for prefixes and does nothing else: it makes no other call and leaves the supply
as it is. -/
def OnlyAsks (walk : Walk σ α) : Prop :=
  ∀ s st r s', walk.Runs s st r s' → s' = s ∧ ∀ step ∈ st, ∃ uri,
    (∃ answer, step = .made (.declarePrefix uri) s answer)
      ∨ ∃ e, step = .refused (.declarePrefix uri) s e

namespace OnlyAsks

theorem pure (a : α) : OnlyAsks (Pure.pure a : Walk σ α) := by
  intro s st r s' hr
  obtain ⟨rfl, -, rfl⟩ := runs_pure hr
  exact ⟨rfl, fun _ h => absurd h List.not_mem_nil⟩

theorem fail (e : Error) : OnlyAsks (fail e : Walk σ α) := by
  intro s st r s' hr
  obtain ⟨rfl, -, rfl⟩ := runs_fail hr
  exact ⟨rfl, fun _ h => absurd h List.not_mem_nil⟩

theorem ask (answer : Except Error α) : OnlyAsks (ask answer : Walk σ α) := by
  intro s st r s' hr
  obtain ⟨rfl, -, rfl⟩ := runs_ask hr
  exact ⟨rfl, fun _ h => absurd h List.not_mem_nil⟩

theorem call (uri : String) : OnlyAsks (call (.declarePrefix uri) : Walk σ String) := by
  intro s st r s' hr
  obtain ⟨rfl, ⟨answer, rfl, -⟩ | ⟨e, rfl, -⟩⟩ := runs_call hr
  · exact ⟨rfl, fun step h => ⟨uri, .inl ⟨answer, List.mem_singleton.mp h⟩⟩⟩
  · exact ⟨rfl, fun step h => ⟨uri, .inr ⟨e, List.mem_singleton.mp h⟩⟩⟩

theorem bind {f : α → Walk σ β} (h : walk.OnlyAsks) (hf : ∀ a, (f a).OnlyAsks) :
    (walk >>= f).OnlyAsks := by
  intro s st r s' hr
  rcases runs_bind hr with ⟨e, rfl, hr₁⟩ | ⟨a, s₁, st₁, st₂, hr₁, hr₂, rfl⟩
  · exact h _ _ _ _ hr₁
  · obtain ⟨rfl, hst₁⟩ := h _ _ _ _ hr₁
    obtain ⟨rfl, hst₂⟩ := hf a _ _ _ _ hr₂
    exact ⟨rfl, List.forall_mem_append.mpr ⟨hst₁, hst₂⟩⟩

theorem forms (h : walk.OnlyAsks) : Forms walk fun l => ∀ e ∈ l, e.isRequest = true := by
  intro s st r s' hr
  obtain ⟨-, hst⟩ := h _ _ _ _ hr
  have hall : ∀ e ∈ eventsOf st, e.isRequest = true := by
    intro e he
    obtain ⟨step, hmem, hstep⟩ := List.mem_filterMap.mp he
    obtain ⟨uri, ⟨answer, rfl⟩ | ⟨_, rfl⟩⟩ := hst step hmem
    · cases hstep
      rfl
    · cases hstep
  exact ⟨.of_all hall, fun _ _ => hall⟩

end OnlyAsks

end Walk

/-! ## Content models -/

namespace ContentModel

open Walk

variable {σ : Type} {m : Model}

theorem onlyAsks_renderName (name : QName) : (renderName name : Walk σ String).OnlyAsks := by
  unfold renderName
  split
  · exact .pure _
  · exact (OnlyAsks.call _).bind fun _ => .pure _

theorem onlyAsks_renderAll {render : Particle → Walk σ String} {particles : List Particle}
    (h : ∀ p, (render p).OnlyAsks) : (renderAll render particles).OnlyAsks := by
  induction particles with
  | nil => exact .pure _
  | cons p rest ih => exact (h p).bind fun _ => ih.bind fun _ => .pure _

theorem onlyAsks_renderParticle {render : ModelGroup → Walk σ String}
    (h : ∀ group, (render group).OnlyAsks) (p : Particle) : (renderParticle m render p).OnlyAsks := by
  refine OnlyAsks.bind ?_ fun _ => .pure _
  cases p.term with
  | elementRef name => exact onlyAsks_renderName _
  | element decl => exact onlyAsks_renderName _
  | group group => exact h group
  | groupRef name => exact (OnlyAsks.ask _).bind h
  | any wildcard => exact .pure _

theorem onlyAsks_renderWithin (m : Model) (steps : Nat) (p : Particle) :
    (renderWithin m steps p : Walk σ String).OnlyAsks := by
  induction steps generalizing p with
  | zero => exact onlyAsks_renderParticle (fun _ => .fail _) p
  | succ steps ih =>
    exact onlyAsks_renderParticle (fun _ => (onlyAsks_renderAll ih).bind fun _ => .pure _) p

theorem onlyAsks_render (m : Model) (p : Particle) : (render m p : Walk σ String).OnlyAsks :=
  onlyAsks_renderWithin m _ p

end ContentModel

/-! ## Parts of a document -/

namespace Document

open Walk Stretch

variable {σ : Type} {w : Leaf.Setting} {visit : Visit σ} {path : Path}

/-- An annotation stands before a start tag. -/
theorem forms_annotate (declared : TypeDef) :
    Forms (annotate w declared : Walk σ Unit) Event.IsLead := by
  have hnil : Event.IsLead [] := .requests (isRow_all _).nil
  unfold annotate
  split
  · exact .pure hnil
  · split
    · refine Forms.ask_bind (fun content _ => ?_) ⟨[], hnil⟩
      split
      · exact .pure hnil
      · refine ((ContentModel.onlyAsks_render _ _).forms.andThen
          (S := fun l => l = [] ∨ ∃ value, l = [.comment value]) (fun model => ?_)
          ⟨[], .inl rfl⟩).imp ?_
        · unfold comment
          split
          · exact .tell fun _ => .inr ⟨model, rfl⟩
          · exact .pure (.inl rfl)
        · rintro _ ⟨l₁, l₂, rfl, hl, rfl | ⟨value, rfl⟩⟩
          · rw [List.append_nil]
            exact .requests hl
          · exact .comment hl value
    · exact .pure hnil

theorem forms_announce (type : ComplexType) (isSubstitute : Bool) :
    Forms (announce type isSubstitute : Walk σ Unit) tagParts := by
  unfold announce announceType
  split
  · split
    · exact .fail ⟨[], isRow_tagParts.nil⟩
    · exact .bind isRow_tagParts (.call fun _ => by simp [tagParts, Call.event, Event.isTagPart])
        fun _ => .tell fun _ => by simp [tagParts, Call.event, Event.isTagPart]
  · exact .pure isRow_tagParts.nil

/-- The type allows only text in its elements. -/
def HasText (m : Model) (type : TypeDef) : Prop := ∃ textType, m.textType type = .ok (some textType)

theorem particle_of_hasText {m : Model} {type : ComplexType} {content : Content}
    (h : HasText m (.complex type)) (hc : m.contentOf type = .ok content) :
    content.particle = none := by
  obtain ⟨textType, h⟩ := h
  simp only [Model.textType, hc, bind, Except.bind] at h
  cases content with
  | empty => rfl
  | simple type => rfl
  | elements p => cases h
  | mixed p => cases h

/-- What is written for the particle of a content is parts of the start tag, where it is taken for
an attribute wildcard, and elements otherwise. -/
def VisitsInOrder (visit : Visit σ) : Prop :=
  ∀ path p, (IsInContent path p.term → Forms (visit path p) Event.AreElements)
    ∧ (¬IsInContent path p.term → Forms (visit path p) tagParts)

/-- Elements, of which there are none if the type allows only text. -/
def elementsOf (m : Model) (type : TypeDef) : Stretch :=
  fun l => Event.AreElements l ∧ (HasText m type → l = [])

theorem elementsOf_nil (m : Model) (type : TypeDef) : elementsOf m type [] := ⟨.nil, fun _ => rfl⟩

/-- The parts of a start tag that are still to come, then elements. -/
def tagAndElements (m : Model) (type : TypeDef) : Stretch := tagParts.andThen (elementsOf m type)

theorem tagAndElements_nil (m : Model) (type : TypeDef) : tagAndElements m type [] :=
  ⟨[], [], rfl, isRow_tagParts.nil, elementsOf_nil m type⟩

theorem tagAndElements_append {m : Model} {type : TypeDef} {l l' : List Event} (h : tagParts l)
    (h' : tagAndElements m type l') : tagAndElements m type (l ++ l') := by
  obtain ⟨l₁, l₂, rfl, h₁, h₂⟩ := h'
  exact ⟨l ++ l₁, l₂, (List.append_assoc _ _ _).symm, isRow_tagParts.append h h₁, h₂⟩

theorem forms_tagParts_bind {α : Type} {m : Model} {type : TypeDef} {walk : Walk σ α}
    {f : α → Walk σ Unit} (h : Forms walk tagParts) (hf : ∀ a, Forms (f a) (tagAndElements m type)) :
    Forms (walk >>= f) (tagAndElements m type) := by
  refine (h.andThen hf ⟨[], tagAndElements_nil m type⟩).imp ?_
  rintro _ ⟨l₁, l₂, rfl, h₁, h₂⟩
  exact tagAndElements_append h₁ h₂

/-- What is written for the particle of a content is elements, unless the particle is taken for an
attribute wildcard. -/
theorem forms_contentParticle (hv : VisitsInOrder visit) {type : ComplexType} {content : Content}
    {p : Particle} (hc : w.model.contentOf type = .ok content) (hp : content.particle = some p)
    (hin : IsInContent path p.term) :
    Forms (visit path p) (elementsOf w.model (.complex type)) := by
  refine ((hv path p).1 hin).imp fun l hl => ⟨hl, fun htext => ?_⟩
  rw [particle_of_hasText htext hc] at hp
  cases hp

theorem forms_content (hv : VisitsInOrder visit) (type : ComplexType) :
    Forms (content w visit path type) (tagAndElements w.model (.complex type)) := by
  refine Forms.ask_bind (fun content hc => ?_) ⟨[], tagAndElements_nil _ _⟩
  cases hp : content.particle with
  | none => exact .pure (tagAndElements_nil _ _)
  | some p =>
    by_cases hin : IsInContent path p.term
    · exact (forms_contentParticle hv hc hp hin).imp fun l hl => ⟨[], l, rfl, isRow_tagParts.nil, hl⟩
    · exact ((hv path p).2 hin).imp fun l hl =>
        ⟨l, [], (List.append_nil l).symm, hl, elementsOf_nil _ _⟩

variable [Source σ]

theorem isSilent_attributeValue (attr : EffectiveAttribute) :
    (attributeValue w attr : Walk σ (Option String)).IsSilent := by
  unfold attributeValue
  split
  · exact (IsSilent.draw _).bind fun _ => .pure _
  · exact (IsSilent.draw _).bind fun _ => .pure _
  · unfold freeValue isFilled
    refine IsSilent.bind ?_ fun filled => ?_
    · split
      · exact .pure _
      · exact .draw _
    · split
      · exact (IsSilent.ask _).bind fun _ => (IsSilent.fill _).bind fun _ => .pure _
      · exact (IsSilent.draw _).bind fun _ => .pure _

theorem forms_writeAttribute (attr : EffectiveAttribute) :
    Forms (writeAttribute w attr : Walk σ Unit) tagParts := by
  refine Forms.silent_bind (isSilent_attributeValue attr) (fun value => ?_) ⟨[], isRow_tagParts.nil⟩
  split
  · exact .tell fun _ => by simp [tagParts, Call.event, Event.isTagPart]
  · exact .pure isRow_tagParts.nil

theorem forms_wildcard {own : Wildcard} :
    (IsInContent path (.any own) → Forms (wildcard path own : Walk σ Unit) Event.AreElements)
      ∧ (¬IsInContent path (.any own) → Forms (wildcard path own : Walk σ Unit) tagParts) := by
  have hchoose := IsSilent.of_decides (decides_chooseNamespace (σ := σ) own.namespaces)
  constructor
  · intro hin
    refine Forms.silent_bind hchoose (fun uri => ?_) ⟨[], .nil⟩
    rw [if_neg (by rw [hin own rfl]; simp)]
    refine (Forms.andThen (.just (e := .startElement uri wildcardElement) fun _ => rfl)
      (fun _ => .just (e := .endElement) fun _ => rfl) (exists_just _)).imp ?_
    rintro _ ⟨_, _, rfl, rfl, rfl⟩
    have hpair : Event.IsElement
        ([] ++ .startElement uri wildcardElement :: ([] ++ ([] ++ [.endElement]))) :=
      .element (.requests (isRow_all _).nil) (isRow_all _).nil (.elements .nil)
    exact .single hpair
  · intro hin
    refine Forms.silent_bind hchoose (fun uri => ?_) ⟨[], isRow_tagParts.nil⟩
    -- A wildcard that is not in a content is taken as that of attributes.
    have htaken : (path.push (.wildcard own)).isAttributeWildcard = true := by
      by_contra hnot
      exact hin fun other hother => by cases hother; simpa using hnot
    rw [if_pos htaken]
    exact .tell fun _ => by simp [tagParts, Call.event, Event.isTagPart]

/-- The attribute wildcard of a type is written into the start tag. -/
theorem forms_attributeWildcard (type : ComplexType) (own : Option Wildcard) :
    Forms (attributeWildcard (path.push (.complexType type own)) own : Walk σ Unit) tagParts := by
  cases own with
  | none => exact .pure isRow_tagParts.nil
  | some own =>
    refine forms_wildcard.2 fun hin => ?_
    have hnot := hin own rfl
    simp [Path.isAttributeWildcard, Path.current, Path.parent, Path.push] at hnot

theorem forms_structured (hv : VisitsInOrder visit) (type : TypeDef) (isSubstitute : Bool) :
    Forms (structured w visit path type isSubstitute) (tagAndElements w.model type) := by
  have hnil : ∃ l, tagAndElements w.model type l := ⟨[], tagAndElements_nil _ _⟩
  cases type with
  | simple type => exact .pure (tagAndElements_nil _ _)
  | complex type =>
    simp only [structured, complexType]
    split
    · exact .fail hnil
    · refine forms_tagParts_bind (forms_announce type isSubstitute) fun _ => ?_
      refine Forms.ask_bind (fun own _ => Forms.ask_bind (fun attrs _ => ?_) hnil) hnil
      refine forms_tagParts_bind
        (Forms.each isRow_tagParts fun attr _ => forms_writeAttribute attr) fun _ => ?_
      refine forms_tagParts_bind (forms_attributeWildcard type own) fun _ => ?_
      exact forms_content hv type

/-- What stands behind the elements in an element: nothing, or a text if the type allows only
text. -/
def textOf (m : Model) (type : TypeDef) : Stretch :=
  fun l => l = [] ∨ HasText m type ∧ ∃ value, l = [.text value]

theorem forms_text (decl : ElementDecl) (type : TypeDef) :
    Forms (text w decl type : Walk σ Unit) (textOf w.model type) := by
  refine Forms.ask_bind (fun textType htext => ?_) ⟨[], .inl rfl⟩
  cases textType with
  | none => exact .pure (.inl rfl)
  | some textType =>
    exact Forms.silent_bind (.fill _)
      (fun value => .tell fun _ => .inr ⟨⟨textType, htext⟩, value, rfl⟩) ⟨[], .inl rfl⟩

/-- Between the tags of an element stand elements or a text, but not both. -/
theorem isInside_append {m : Model} {type : TypeDef} {l l' : List Event} (h : elementsOf m type l)
    (h' : textOf m type l') : Event.IsInside (l ++ l') := by
  rcases h' with rfl | ⟨htext, value, rfl⟩
  · rw [List.append_nil]
    exact .elements h.1
  · rw [h.2 htext]
    exact .text value

omit [Source σ] in
theorem exists_isElement : ∃ l, Event.IsElement l :=
  ⟨[] ++ .startElement "" "" :: ([] ++ ([] ++ [.endElement])),
    .element (.requests (isRow_all _).nil) (isRow_all _).nil (.elements .nil)⟩

theorem forms_wholeElement (hv : VisitsInOrder visit) (decl : ElementDecl) :
    Forms (wholeElement w visit path decl) Event.IsElement := by
  refine Forms.ask_bind (fun declared _ => ?_) exists_isElement
  refine Forms.silent_bind (.of_decides (decides_effectiveType declared)) (fun chosen => ?_)
    exists_isElement
  obtain ⟨type, isSubstitute⟩ := chosen
  have hstart : Forms
      (tell (.startElement decl.name.namespaceUri decl.name.localName) : Walk σ Unit)
      (just (.startElement decl.name.namespaceUri decl.name.localName)) := .just fun _ => rfl
  have hend : Forms (tell .endElement : Walk σ Unit) (just .endElement) := .just fun _ => rfl
  have hstructured : Forms (structured w visit (path.push (.element decl)) type isSubstitute)
      (tagAndElements w.model type) := forms_structured hv type isSubstitute
  -- What is needed to complete an element that has been begun.
  have hlast := exists_andThen ⟨[], show textOf w.model type [] from .inl rfl⟩
    (exists_just .endElement)
  have hinner := exists_andThen ⟨[], tagAndElements_nil w.model type⟩ hlast
  have hrest := exists_andThen
    (exists_just (.startElement decl.name.namespaceUri decl.name.localName)) hinner
  refine ((forms_annotate declared).andThen (fun _ => Forms.note_bind (fun _ =>
    hstart.andThen (fun _ => hstructured.andThen (fun _ =>
      (forms_text decl type).andThen (fun _ => hend) (exists_just _)) hlast) hinner) hrest)
    hrest).imp ?_
  rintro _ ⟨lead, _, rfl, hlead, _, _, rfl, rfl, _, _, rfl, ⟨tag, elements, rfl, htag, helements⟩,
    text, _, rfl, htext, rfl⟩
  have hwhole : Event.IsElement
      (lead ++ .startElement decl.name.namespaceUri decl.name.localName
        :: (tag ++ ((elements ++ text) ++ [.endElement]))) :=
    .element hlead htag (isInside_append helements htext)
  simpa using hwhole

/-- At the root, no element is left out. -/
theorem forms_concreteElement_empty (hv : VisitsInOrder visit) (decl : ElementDecl) :
    Forms (concreteElement w visit .empty decl) Event.IsElement :=
  forms_wholeElement hv decl

theorem forms_concreteElement (hv : VisitsInOrder visit) (decl : ElementDecl) :
    Forms (concreteElement w visit path decl) Event.AreElements := by
  unfold concreteElement
  split
  · exact .note .nil
  · exact (forms_wholeElement hv decl).imp fun l hl => .single hl

/-- An element, or one that stands for it, is what its declaration is. -/
theorem forms_element {R : Stretch} {decl : ElementDecl} (hR : ∃ l, R l)
    (h : ∀ other, Forms (concreteElement w visit path other) R) :
    Forms (element w visit path decl) R := by
  unfold element
  split
  · exact Forms.silent_bind (.of_decides (decides_chooseSubstitute decl)) h hR
  · exact h decl

theorem forms_repeated {R : Stretch} {occurs : Occurs} {walk : Walk σ Unit} (hR : R.IsRow)
    (h : Forms walk R) : Forms (repeated w occurs walk) R :=
  Forms.silent_bind (.draw _) (fun n => .times n hR h) ⟨[], hR.nil⟩

theorem forms_modelGroup (hv : VisitsInOrder visit) (group : ModelGroup) (occurs : Occurs) :
    Forms (modelGroup w visit path group occurs) Event.AreElements := by
  have heach (c : Compositor) (particles : List Particle) :
      Forms (each particles (visit (path.push (.group c)))) Event.AreElements :=
    .each isRow_areElements fun p _ => (hv _ p).1 fun own _ => rfl
  unfold modelGroup
  split
  · exact Forms.silent_bind (.draw _) (fun _ => heach _ _) ⟨[], .nil⟩
  · refine forms_repeated isRow_areElements ?_
    exact Forms.silent_bind (.of_decides (decides_order group)) (fun _ => heach _ _) ⟨[], .nil⟩

/-- Particles are written in order if the particles inside them are. -/
theorem visitsInOrder_particle (hv : VisitsInOrder visit) : VisitsInOrder (particle w visit) := by
  rintro path ⟨occurs, term⟩
  have helement (decl : ElementDecl) : Forms (element w visit path decl) Event.AreElements :=
    forms_element ⟨[], .nil⟩ fun other => forms_concreteElement hv other
  cases term with
  | any own =>
    exact ⟨fun hin => forms_repeated isRow_areElements (forms_wildcard.1 hin),
      fun hin => forms_repeated isRow_tagParts (forms_wildcard.2 hin)⟩
  | element decl =>
    refine ⟨fun _ => forms_repeated isRow_areElements (helement decl), fun hin => ?_⟩
    exact absurd (fun own h => nomatch h) hin
  | elementRef name =>
    refine ⟨fun _ => forms_repeated isRow_areElements ?_, fun hin => ?_⟩
    · exact Forms.ask_bind (fun decl _ => helement decl) ⟨[], .nil⟩
    · exact absurd (fun own h => nomatch h) hin
  | group group =>
    refine ⟨fun _ => forms_modelGroup hv group occurs, fun hin => ?_⟩
    exact absurd (fun own h => nomatch h) hin
  | groupRef name =>
    refine ⟨fun _ => ?_, fun hin => absurd (fun own h => nomatch h) hin⟩
    exact Forms.ask_bind (fun group _ => forms_modelGroup hv group occurs) ⟨[], .nil⟩

theorem visitsInOrder_visit (steps : Nat) : VisitsInOrder (Document.visit w steps : Visit σ) := by
  induction steps with
  | zero => exact fun path p => ⟨fun _ => .fail ⟨[], .nil⟩, fun _ => .fail ⟨[], isRow_tagParts.nil⟩⟩
  | succ steps ih => exact visitsInOrder_particle ih

/-! ## Documents -/

/-- The request for the prefix of a namespace. -/
def request (uri : String) : Stretch := fun l => ∃ pfx, l = [.declarePrefix uri pfx]

/-- The request for the prefix of the root element, if it is in a namespace. -/
def rootRequest (root : QName) : Stretch := fun l =>
  root.namespaceUri = "" ∧ l = [] ∨ root.namespaceUri ≠ "" ∧ request root.namespaceUri l

omit [Source σ] in
theorem forms_declareRoot (root : QName) :
    Forms (declareRoot root : Walk σ Unit) (rootRequest root) := by
  unfold declareRoot
  split
  · rename_i h
    exact .tell fun answer => .inr ⟨h, answer, rfl⟩
  · rename_i h
    exact .pure (.inl ⟨by simpa using h, rfl⟩)

theorem exists_rootRequest (root : QName) : ∃ l, rootRequest root l := by
  by_cases h : root.namespaceUri = ""
  · exact ⟨[], .inl ⟨h, rfl⟩⟩
  · exact ⟨_, .inr ⟨h, "", rfl⟩⟩

/-- **A walk reports a document**, or the beginning of one if it fails. -/
theorem forms_walk (w : Leaf.Setting) (root : QName) :
    Forms (walk w root : Walk σ Unit) (Event.IsDocument root) := by
  have hstart : Forms (tell .startDocument : Walk σ Unit) (just .startDocument) := .just fun _ => rfl
  have hend : Forms (tell .endDocument : Walk σ Unit) (just .endDocument) := .just fun _ => rfl
  have hxsi : Forms (tell (.declarePrefix Namespace.xsi) : Walk σ Unit) (request Namespace.xsi) :=
    .tell fun answer => ⟨answer, rfl⟩
  have helement (decl : ElementDecl) :
      Forms (element w (visit w (depthBound w.model)) .empty decl : Walk σ Unit) Event.IsElement :=
    forms_element exists_isElement fun other =>
      forms_concreteElement_empty (visitsInOrder_visit _) other
  -- What is needed to complete a document that has been begun.
  have hlast := exists_andThen exists_isElement (exists_just .endDocument)
  have hroot := exists_andThen (exists_rootRequest root) hlast
  have hall := exists_andThen ⟨_, show request Namespace.xsi _ from ⟨"", rfl⟩⟩ hroot
  have himp : ∀ l, (just .startDocument).andThen ((request Namespace.xsi).andThen
      ((rootRequest root).andThen (Stretch.andThen Event.IsElement (just .endDocument)))) l →
        Event.IsDocument root l := by
    rintro _ ⟨_, _, rfl, rfl, _, _, rfl, ⟨pfx, rfl⟩, _, _, rfl, hrequest, l, _, rfl, hl, rfl⟩
    rcases hrequest with ⟨hnone, rfl⟩ | ⟨hsome, pfx', rfl⟩
    · exact .document (.bare hnone pfx) hl
    · exact .document (.qualified hsome pfx pfx') hl
  refine Forms.imp (Forms.ask_bind (fun decl _ => ?_) (exists_andThen (exists_just _) hall)) himp
  exact hstart.andThen (fun _ => hxsi.andThen (fun _ => (forms_declareRoot root).andThen (fun _ =>
    (helement decl).andThen (fun _ => hend) (exists_just _)) hlast) hroot) hall

/-- A list of events keeps those of the run. -/
theorem events_generate (w : Leaf.Setting) (root : QName) (source : σ) :
    (generate w root source ({} : Recorder)).writer.events.toList
      = eventsOf (steps w root source ({} : Recorder)) :=
  Script.run_recorder (walk w root { source }) ({} : Recorder)

end Document

end Specimen

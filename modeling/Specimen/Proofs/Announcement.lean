import Specimen.Proofs.Derivation
import Specimen.Proofs.TagScopes
import Specimen.Proofs.Written

/-!
# The announcement of types

An element whose declared type is abstract is generated for a type that is derived from it, and the
name of this type stands in the marker attribute of its tag. What the prefix of this name stands for
is read from the events, where it is the last request with this prefix that counts, or from the text
of the document, where it is the declarations on the tag and around it.

The names of complex types have to be local names without a colon. In a text, so have all names, and
what would be taken for a declaration may not be written as an attribute.
-/

namespace Specimen

open Markup

/-! ## Runs and calls -/

namespace Script

variable {σ α ω : Type} [Writer ω]

/-- In a run that succeeds, the writer takes all calls. -/
theorem performAll_steps (script : Script σ α) {w : ω} {a : α} (h : (script.run w).1.1 = .ok a) :
    performAll ((eventsOf (script.steps w)).map Event.call) w = (.ok (), (script.run w).2) := by
  induction script generalizing w with
  | stop r s => rfl
  | note n next ih => exact ih h
  | call c s next ih =>
    rcases hc : Writer.perform c w with ⟨e | answer, w'⟩
    · simp only [run, hc] at h
      cases h
    · simp only [run, hc] at h
      simpa [steps, run, performAll, hc] using ih answer h

/-- **What is answered in a run** is what the writer answers behind the calls that come before. -/
theorem perform_of_eventsOf {script : Script σ α} {w : ω} {before after : List Event} {e : Event}
    (h : eventsOf (script.steps w) = before ++ e :: after) :
    ∃ w₁ w₂ answer, performAll (before.map Event.call) w = (.ok (), w₁)
      ∧ Writer.perform e.call w₁ = (.ok answer, w₂) ∧ e.call.event answer = e := by
  induction script generalizing w before with
  | stop r s => simp [steps] at h
  | note n next ih => exact ih h
  | call c s next ih =>
    rcases hc : Writer.perform c w with ⟨e' | answer, w'⟩
    · simp [steps, hc] at h
    · rw [steps, hc, eventsOf_made] at h
      -- The first call is the one that is looked for, or it is one of those before it.
      cases before with
      | nil =>
        obtain ⟨rfl, -⟩ := List.cons.inj h
        refine ⟨w, w', answer, rfl, ?_, ?_⟩ <;> rw [Call.call_event]
        exact hc
      | cons first before =>
        obtain ⟨rfl, hrest⟩ := List.cons.inj h
        obtain ⟨w₁, w₂, answer', hbefore, hanswer⟩ := ih answer hrest
        refine ⟨w₁, w₂, answer', ?_, hanswer⟩
        rw [List.map_cons, Call.call_event, performAll, hc]
        exact hbefore

end Script

/-! ## Markers in a tag -/

/-- The local names of the complex types that are registered have no colon. -/
def Model.HasPlainTypeNames (m : Model) : Prop :=
  ∀ type ∈ m.types.values.filterMap TypeDef.asComplex, ∀ name ∈ type.name,
    ':' ∉ name.localName.toList

instance (m : Model) : Decidable m.HasPlainTypeNames :=
  inferInstanceAs (Decidable (∀ type ∈ m.types.values.filterMap TypeDef.asComplex, _))

namespace Document

variable {σ : Type} [Source σ] {w : Leaf.Setting}

theorem AttributeRow.mem {attrs : List EffectiveAttribute} {l : List Event} {e : Event}
    (h : AttributeRow σ w attrs l) (he : e ∈ l) : ∃ attr ∈ attrs, ∃ value,
      e = .attribute attr.decl.name.namespaceUri attr.decl.name.localName value := by
  induction h with
  | nil => exact absurd he List.not_mem_nil
  | omitted _ _ ih =>
    obtain ⟨attr, hattr, hrest⟩ := ih he
    exact ⟨attr, List.mem_cons_of_mem _ hattr, hrest⟩
  | written _ _ ih =>
    rcases List.mem_cons.mp he with rfl | he
    · exact ⟨_, List.mem_cons_self, _, rfl⟩
    · obtain ⟨attr, hattr, hrest⟩ := ih he
      exact ⟨attr, List.mem_cons_of_mem _ hattr, hrest⟩

theorem WildcardAttribute.mem {own : Option Wildcard} {l : List Event} {e : Event}
    (h : WildcardAttribute own l) (he : e ∈ l) :
    ∃ uri, e = .attribute uri wildcardAttribute wildcardValue := by
  cases h with
  | none => exact absurd he List.not_mem_nil
  | some h => exact ⟨_, List.mem_singleton.mp he⟩

/-- What stands in a tag are attributes and requests. -/
theorem TagOf.isTagPart {declared type : TypeDef} {l : List Event} (h : TagOf σ w declared type l) :
    ∀ e ∈ l, e.isTagPart = true := by
  intro e he
  cases h with
  | simple => exact absurd he List.not_mem_nil
  | complex ha _ hrow _ hw =>
    rcases List.mem_append.mp he with he | he
    · cases ha with
      | own _ => exact absurd he List.not_mem_nil
      | subtype _ _ pfx =>
        rcases List.mem_cons.mp he with rfl | he
        · rfl
        · rw [List.mem_singleton.mp he]
          rfl
    · rcases List.mem_append.mp he with he | he
      · obtain ⟨attr, -, value, rfl⟩ := hrow.mem he
        rfl
      · obtain ⟨uri, rfl⟩ := hw.mem he
        rfl

variable {decl : ElementDecl} {declared type : TypeDef} {tag content text : List (Step (Supply σ))}

/-- The marker attribute, with the name of a type as its value. -/
def marker (value : String) : Event := .attribute Namespace.xsi "type" value

/-- No attribute of a type is the marker, nor is the one for a wildcard. -/
theorem marker_notMem {type : ComplexType} {own : Option Wildcard} {attrs : List EffectiveAttribute}
    {l l' : List Event} (hx : w.model.DeclaresNoMarker) (hp : .type type ∈ w.model.parts)
    (hattrs : w.model.attributesOf type = .ok attrs) (hrow : AttributeRow σ w attrs l)
    (hw : WildcardAttribute own l') (value : String) : marker value ∉ l ++ l' := by
  intro hmem
  rcases List.mem_append.mp hmem with hmem | hmem
  · obtain ⟨attr, hattr, value', heq⟩ := hrow.mem hmem
    have huri : Namespace.xsi = attr.decl.name.namespaceUri := (Event.attribute.inj heq).1
    exact hx _ (Model.mem_attributeDecls_of_attributesOf hattrs hp attr hattr) huri.symm
  · obtain ⟨uri, heq⟩ := hw.mem hmem
    have hname : "type" = wildcardAttribute := (Event.attribute.inj heq).2.1
    exact absurd hname (by decide)

/-- **An element is marked if its declared type is abstract.** The marker comes first in its tag,
with the name of the type that is generated, behind the request for the prefix of this name. -/
theorem IsMadeOf.marked (hx : w.model.DeclaresNoMarker)
    (h : IsMadeOf w decl declared type tag content text) :
    (¬declared.IsAbstract ∧ ∀ value, marker value ∉ eventsOf tag)
      ∨ declared.IsAbstract ∧ ∃ name pfx rest, w.model.IsSubtype declared type name
        ∧ eventsOf tag = .declarePrefix name.namespaceUri pfx
          :: marker (qualify pfx name.localName) :: rest
        ∧ ∀ value, marker value ∉ rest := by
  have htag := h.tagOf
  have hgenerates := h.generates
  have hparts := h.mem_parts
  generalize eventsOf tag = l at htag ⊢
  -- A simple type is never generated in the place of an abstract one, and gets no attributes.
  cases htag with
  | simple =>
    refine .inl ⟨?_, fun _ => List.not_mem_nil⟩
    rintro ⟨base, rfl, -⟩
    cases hgenerates with
    | own _ ht => cases ht
    | subtype _ _ _ _ ht => cases ht
  | complex ha hattrs hrow hown hw =>
    -- No attribute in effect is taken for a marker, so the announcement alone decides.
    have hnot := marker_notMem hx (hparts _ rfl) hattrs hrow hw
    cases ha with
    | own habstract => exact .inl ⟨habstract, hnot⟩
    | subtype habstract hn pfx =>
      exact .inr ⟨habstract, _, pfx, _, hgenerates.isSubtype habstract hn, rfl, hnot⟩

/-! ## Elements whose type is announced -/

/-- The start of an element, with the steps before it and behind it. If the element is one of a
declaration, its tag has a marker exactly if its declared type is abstract. The value of the marker
is the name of a type that is registered, not abstract, and derived from the declared one, and this
is the type that the attributes, the children and the text are written for. An element that stands
for a wildcard has no attributes.

`Names` says which name a value stands for, by the events before the element and those of its
tag. -/
inductive Announced (w : Leaf.Setting)
    (Names : List Event → List Event → String → String × String → Prop) :
    List (Step (Supply σ)) → String → String → List (Step (Supply σ)) → Prop
  | declared {decl : ElementDecl} {declared type : TypeDef} {s : Supply σ} {answer : String}
      {before tag content text rest : List (Step (Supply σ))}
      (h : IsMadeOf w decl declared type tag content text)
      (hiff : (∃ value, marker value ∈ eventsOf tag) ↔ declared.IsAbstract)
      (hnames : ∀ value, marker value ∈ eventsOf tag → ∃ name, w.model.IsSubtype declared type name
        ∧ Names (eventsOf before)
          (.startElement decl.name.namespaceUri decl.name.localName :: eventsOf tag) value
          (name.namespaceUri, name.localName)) :
      Announced w Names (before ++ [.noted (.element decl type)]) decl.name.namespaceUri
        decl.name.localName (tag ++ (content ++ (text ++ .made .endElement s answer :: rest)))
  | wildcard {before rest : List (Step (Supply σ))} {uri name : String} {s : Supply σ}
      {answer : String} (hn : name = wildcardElement) :
      Announced w Names before uri name (.made .endElement s answer :: rest)

/-- Every element that is begun in the steps is announced. -/
def EachAnnounced (w : Leaf.Setting)
    (Names : List Event → List Event → String → String × String → Prop)
    (st : List (Step (Supply σ))) : Prop :=
  ∀ before uri name s answer after,
    st = before ++ .made (.startElement uri name) s answer :: after →
    Announced w Names before uri name after

/-- Wherever a tag among the events begins with the request for a prefix and a marker with this
prefix, the value of the marker stands for the name in the namespace that was requested. -/
def ResolvesMarkers (Names : List Event → List Event → String → String × String → Prop)
    (events : List Event) : Prop :=
  ∀ before uri name tag inside after typeUri typeName pfx rest,
    events = before ++ .startElement uri name :: (tag ++ (inside ++ .endElement :: after)) →
    (∀ e ∈ tag, e.isTagPart = true) → Event.IsInside inside →
    tag = .declarePrefix typeUri pfx :: marker (qualify pfx typeName) :: rest →
    ':' ∉ typeName.toList →
    Names before (.startElement uri name :: tag) (qualify pfx typeName) (typeUri, typeName)

/-- **What is written is announced**, if markers are resolved. -/
theorem EachWritten.announced {st : List (Step (Supply σ))}
    {Names : List Event → List Event → String → String × String → Prop} (h : EachWritten w st)
    (hx : w.model.DeclaresNoMarker) (hn : w.model.HasPlainTypeNames)
    (hr : ResolvesMarkers Names (eventsOf st)) : EachAnnounced w Names st := by
  intro before uri name s answer after heq
  cases h _ _ _ _ _ _ heq with
  | wildcard hw => exact .wildcard hw
  | @declared decl declared type s' answer' outer tag content text rest hmade =>
    rcases hmade.marked hx with ⟨hnot, hnone⟩ | ⟨habstract, typeName, pfx, more, hsub, htag, hnone⟩
    · refine .declared hmade (iff_of_false (fun ⟨value, hvalue⟩ => hnone value hvalue) hnot) ?_
      exact fun value hvalue => absurd hvalue (hnone value)
    · have hmarker : marker (qualify pfx typeName.localName) ∈ eventsOf tag := by
        rw [htag]
        exact List.mem_cons_of_mem _ List.mem_cons_self
      refine .declared hmade (iff_of_true ⟨_, hmarker⟩ habstract) fun value hvalue => ?_
      -- There is no other marker in the tag.
      obtain rfl : value = qualify pfx typeName.localName := by
        rw [htag] at hvalue
        rcases List.mem_cons.mp hvalue with hfirst | hvalue
        · cases hfirst
        · rcases List.mem_cons.mp hvalue with hsecond | hrest
          · exact (Event.attribute.inj hsecond).2.2
          · exact absurd hrest (hnone value)
      refine ⟨typeName, hsub, ?_⟩
      refine hr _ _ _ _ (eventsOf (content ++ text)) (eventsOf rest) _ _ pfx more ?_
        hmade.tagOf.isTagPart hmade.isInside htag ?_
      · simp [heq, Call.event]
      · cases hsub with
        | subtype _ hregistered hname _ _ =>
          exact hn _ (List.mem_filterMap.mpr ⟨_, hregistered, rfl⟩) _ hname

end Document

/-! ## Names in a list of events -/

open Prefixes

/-- The prefix that was given out with its namespace, if the event is a request. -/
def Event.binding? : Event → Option (String × String)
  | .declarePrefix uri pfx => some (pfx, uri)
  | _ => none

/-- What prefixes stand for behind some events, the last request first. -/
def requestsOf (events : List Event) : Bindings := (events.filterMap Event.binding?).reverse

/-- The value of a marker stands for a name, by the requests that come before the marker. -/
def Recorder.NamesByRequests (before tag : List Event) (value : String) (name : String × String) :
    Prop :=
  ∃ tag₁ tag₂, tag = tag₁ ++ Document.marker value :: tag₂
    ∧ (requestsOf (before ++ tag₁)).name? value = some name

variable {ps : Prefixes} {events : List Event}

theorem mem_requestsOf {d : String × String} :
    d ∈ requestsOf events ↔ .declarePrefix d.2 d.1 ∈ events := by
  rw [requestsOf, List.mem_reverse, List.mem_filterMap]
  constructor
  · rintro ⟨e, he, hd⟩
    cases e with
    | declarePrefix uri pfx =>
      cases hd
      exact he
    | _ => cases hd
  · exact fun he => ⟨_, he, rfl⟩

/-- Where requests are answered with the prefixes of a map, these are the ones that are given
out. -/
theorem requestsOf_eq_scope (h : ∀ uri pfx, .declarePrefix uri pfx ∈ events → pfx = ps.pfx uri) :
    requestsOf events = ps.scope ((requestsOf events).map Prod.snd) := by
  have hsame : ∀ d ∈ requestsOf events, (ps.pfx d.2, d.2) = d := fun d hd =>
    Prod.ext (h _ _ (mem_requestsOf.mp hd)).symm rfl
  rw [Prefixes.scope, List.map_map]
  exact ((List.map_congr_left hsame).trans (List.map_id _)).symm

theorem Step.IsAnswered.declarePrefix {σ : Type} {st : List (Step σ)}
    (h : ∀ step ∈ st, step.IsAnswered ps) {uri pfx : String}
    (hmem : .declarePrefix uri pfx ∈ eventsOf st) : ps.Names uri ∧ pfx = ps.pfx uri := by
  obtain ⟨step, hstep, hevent⟩ := List.mem_filterMap.mp hmem
  have hanswered := h step hstep
  cases step with
  | made c s answer =>
    cases c with
    | declarePrefix uri' =>
      cases hevent
      exact hanswered
    | _ => cases hevent
  | _ => cases hevent

/-- **In a list of events, a marker stands for the name that it was written for.** -/
theorem Recorder.resolvesMarkers (hs : ps.IsSound)
    (h : ∀ uri pfx, .declarePrefix uri pfx ∈ events → ps.Names uri ∧ pfx = ps.pfx uri) :
    Document.ResolvesMarkers Recorder.NamesByRequests events := by
  rintro before uri name tag inside after typeUri typeName pfx rest heq - - rfl hcolon
  refine ⟨[.startElement uri name, .declarePrefix typeUri pfx], rest, rfl, ?_⟩
  have hsub : ∀ e ∈ before ++ [.startElement uri name, .declarePrefix typeUri pfx], e ∈ events := by
    intro e he
    rw [heq]
    simp only [List.mem_append, List.mem_cons, List.not_mem_nil, or_false] at he ⊢
    tauto
  have hrequest : .declarePrefix typeUri pfx
      ∈ before ++ [.startElement uri name, .declarePrefix typeUri pfx] := by simp
  obtain rfl : pfx = ps.pfx typeUri := (h typeUri pfx (hsub _ hrequest)).2
  rw [requestsOf_eq_scope fun uri pfx hmem => (h uri pfx (hsub _ hmem)).2]
  refine Bindings.name?_scope hs ?_ (.inr (.inr ?_)) hcolon
  · intro uri' hmem
    obtain ⟨d, hd, rfl⟩ := List.mem_map.mp hmem
    exact (h _ _ (hsub _ (mem_requestsOf.mp hd))).1
  · exact List.mem_map.mpr ⟨(ps.pfx typeUri, typeUri), mem_requestsOf.mpr hrequest, rfl⟩

/-- A prefix in the value of a marker stands for something only if it has been requested. -/
theorem Recorder.NamesByRequests.exists_request {before tag : List Event}
    {value : String} {name : String × String} (pfx localName : String)
    (h : Recorder.NamesByRequests before tag value name)
    (hvalue : nameParts value = some (pfx, localName)) (hempty : pfx ≠ "") (hxml : pfx ≠ "xml") :
    ∃ uri, .declarePrefix uri pfx ∈ before ++ tag := by
  obtain ⟨tag₁, tag₂, rfl, hname⟩ := h
  rw [Bindings.name?, hvalue] at hname
  obtain ⟨uri, huri, -⟩ := Option.map_eq_some_iff.mp hname
  rw [Bindings.elementUri?, if_neg hempty, Bindings.uri?, if_neg hxml] at huri
  obtain ⟨later, earlier, hsplit, -⟩ := List.lookup_eq_some_iff.mp huri
  have hrequest : .declarePrefix uri pfx ∈ before ++ tag₁ := by
    rw [← mem_requestsOf (d := (pfx, uri)), hsplit]
    exact List.mem_append_right _ List.mem_cons_self
  refine ⟨uri, ?_⟩
  rw [← List.append_assoc]
  exact List.mem_append_left _ hrequest

/-! ## Names in a text -/

/-- Behind the start tag of an element and what belongs into it, there is a call that leaves the
tag. Before it there are only requests and empty texts. -/
theorem Event.IsInside.exists_leavesTag {l : List Event} (h : Event.IsInside l)
    (after : List Event) :
    ∃ inner next rest, l ++ .endElement :: after = inner ++ next :: rest
      ∧ (∀ e ∈ inner, e.call.StaysInTag) ∧ (inner.map Event.call).filterMap Call.attribute? = []
      ∧ next.call.LeavesTag := by
  have hnil : ∀ e ∈ ([] : List Event), e.call.StaysInTag := List.forall_mem_nil _
  have hrequests {requests : List Event} (h : ∀ e ∈ requests, e.isRequest = true) :
      (∀ e ∈ requests, e.call.StaysInTag)
        ∧ (requests.map Event.call).filterMap Call.attribute? = [] := by
    rw [List.filterMap_map, List.filterMap_eq_nil_iff, ← forall₂_and]
    intro e he
    cases e with
    | declarePrefix uri pfx => exact ⟨trivial, rfl⟩
    | _ => cases h _ he
  -- An empty text stays in the tag. Anything else leaves it: a text, the first element or the
  -- comment before it, or else the end of the element.
  cases h with
  | text value =>
    by_cases hempty : value = ""
    · exact ⟨[.text value], .endElement, after, rfl, List.forall_mem_singleton.mpr hempty, rfl,
        trivial⟩
    · exact ⟨[], .text value, _, rfl, hnil, rfl, hempty⟩
  | elements h =>
    cases h with
    | nil => exact ⟨[], .endElement, after, rfl, hnil, rfl, trivial⟩
    | @cons _ others h _ =>
      obtain @⟨lead, tag, inside, uri, name, hlead, -, -⟩ := h
      let rest := tag ++ (inside ++ .endElement :: (others ++ .endElement :: after))
      cases hlead with
      | requests hr =>
        obtain ⟨hstays, hnone⟩ := hrequests hr
        exact ⟨lead, .startElement uri name, rest, by simp [rest], hstays, hnone, trivial⟩
      | @comment requests hr value =>
        obtain ⟨hstays, hnone⟩ := hrequests hr
        exact ⟨requests, .comment value, .startElement uri name :: rest, by simp [rest], hstays,
          hnone, trivial⟩

namespace XmlWriter

/-- The value of a marker stands for a name, by what is in force in the tag of its element. The tag
is read behind the tags of the elements started before, as the start that is reported. -/
def NamesInTag (pieces : List Piece) (before tag : List Event) (value : String)
    (name : String × String) : Prop :=
  ∃ tags scope mark, ({} : Reading).tags pieces = some tags
    ∧ tags[(before.map Event.call).countP Call.isStart]? = some (scope, mark)
    ∧ marksOf (tag.map Event.call) = [mark] ∧ scope.name? value = some name

/-- What is in force in a tag decides what a value stands for. -/
theorem NamesInTag.name?_eq {pieces : List Piece} {before tag : List Event} {value : String}
    {name : String × String} (h : NamesInTag pieces before tag value name) :
    (({} : Reading).tags pieces).bind (fun tags =>
      tags[(before.map Event.call).countP Call.isStart]?.bind fun read => read.1.name? value)
      = some name := by
  obtain ⟨tags, scope, mark, htags, hfound, -, hname⟩ := h
  rw [htags, Option.bind_some, hfound]
  exact hname

theorem staysInTag_of_isTagPart {e : Event} (h : e.isTagPart = true) : e.call.StaysInTag := by
  cases e with
  | declarePrefix uri pfx => trivial
  | «attribute» uri name value => trivial
  | _ => cases h

/-- The answers that the events tell of are those of the writer. -/
def Answers (w : XmlWriter) (events : List Event) : Prop :=
  ∀ before e after, events = before ++ e :: after → ∃ w₁ w₂ answer,
    performAll (before.map Event.call) w = (.ok (), w₁)
      ∧ Writer.perform e.call w₁ = (.ok answer, w₂) ∧ e.call.event answer = e

theorem Answers.declarePrefix {w w₀ : XmlWriter} {before after : List Event} {uri pfx : String}
    (h : w.Answers events) (heq : events = before ++ .declarePrefix uri pfx :: after)
    (hbefore : performAll (before.map Event.call) w = (.ok (), w₀)) :
    (w₀.ensureDeclared uri).1 = pfx := by
  obtain ⟨w₁, w₂, answer, hbefore', hanswer, hevent⟩ := h _ _ _ heq
  rw [hbefore] at hbefore'
  obtain rfl : w₀ = w₁ := congrArg Prod.snd hbefore'
  obtain rfl : answer = pfx := (Event.declarePrefix.inj hevent).2
  exact Except.ok.inj (congrArg Prod.fst hanswer)

/-- **In a text, a marker stands for the name that it was written for.** -/
theorem resolvesMarkers {sink : Sink} {indent : Nat} {w' : XmlWriter}
    (accepted : performAll (events.map Event.call) { sink, indent } = (.ok (), w'))
    (answered : Answers { sink, indent } events)
    (plain : ∀ c ∈ events.map Event.call, c.IsPlain)
    (noDefault : ∀ c ∈ events.map Event.call, ¬c.DeclaresDefault) :
    Document.ResolvesMarkers
      (NamesInTag (piecesOf (events.map Event.call) { sink, indent })) events := by
  intro before uri name tag inside after typeUri typeName pfx rest heq htag hinside hmarked hcolon
  obtain ⟨lead, next, more, hnext, hlead, hnone, hleaves⟩ := hinside.exists_leavesTag after
  let inner := tag.map Event.call ++ lead.map Event.call
  have hcalls : events.map Event.call = before.map Event.call ++ [.startElement uri name] ++ inner
      ++ next.call :: more.map Event.call := by
    rw [heq, hnext]
    simp [inner, Event.call]
  rw [hcalls] at accepted plain noDefault ⊢
  obtain ⟨plain, plainRest⟩ := List.forall_mem_append.mp plain
  obtain ⟨noDefault, noDefaultRest⟩ := List.forall_mem_append.mp noDefault
  obtain ⟨plain, plainInner⟩ := List.forall_mem_append.mp plain
  obtain ⟨noDefault, noDefaultInner⟩ := List.forall_mem_append.mp noDefault
  obtain ⟨w₂, hinner, hrest⟩ := performAll_append_ok accepted
  obtain ⟨w₁, hstart, hinner⟩ := performAll_append_ok hinner
  have tagStays : ∀ c ∈ tag.map Event.call, c.StaysInTag :=
    List.forall_mem_map.mpr fun e he => staysInTag_of_isTagPart (htag e he)
  have stays : ∀ c ∈ inner, c.StaysInTag :=
    List.forall_mem_append.mpr ⟨tagStays, List.forall_mem_map.mpr hlead⟩
  have fits : ∀ c ∈ inner, c.FitsInTag := fun c hmem =>
    ⟨stays c hmem, plainInner c hmem, noDefaultInner c hmem⟩
  obtain ⟨hs, tags, htags, hfound⟩ := exists_tag hstart hinner plain noDefault fits hrest hleaves
    plainRest noDefaultRest
  refine ⟨tags, _, _, htags, hfound, ?_, ?_⟩
  · rw [List.filterMap_append, hnone, List.append_nil]
    exact marksOf_tag tagStays
  · -- The prefix of the marker is the answer to the request at the beginning of the tag.
    have hasked : inner = [] ++ .declarePrefix typeUri
        :: ((Document.marker (qualify pfx typeName) :: rest ++ lead).map Event.call) := by
      simp [inner, hmarked, Event.call]
    obtain ⟨w₀, hbefore, hpfx, hvisible⟩ :=
      isVisible_of_asked hstart hinner plain noDefault fits hasked
    have hevents : events = before ++ [.startElement uri name] ++ .declarePrefix typeUri pfx ::
        (Document.marker (qualify pfx typeName) :: rest ++ (inside ++ .endElement :: after)) := by
      rw [heq, hmarked]
      simp
    rw [← answered.declarePrefix hevents (by simpa [Event.call] using hbefore), hpfx]
    exact Bindings.name?_scope hs.prefixes hs.declares.names hvisible hcolon

/-- At the end of a document no tag is held back. -/
theorem held_endDocument {w w' : XmlWriter} {calls : List Call}
    (h : performAll (calls ++ [.endDocument]) w = (.ok (), w')) : w'.held = none := by
  obtain ⟨w₁, -, hlast⟩ := performAll_append_ok h
  obtain ⟨w₂, htake, -, hnil⟩ := performAll_cons_ok hlast
  cases hnil
  obtain ⟨w₃, sink, hclose, -, rfl, -⟩ := endDocument_ok htake
  rcases closeHeld_ok hclose with ⟨hheld, rfl⟩ | ⟨tag, sink', -, rfl, -⟩
  · exact hheld
  · rfl

end XmlWriter

/-! ## What a marker in a list of events says -/

/-- A call that was made is found where its event is. -/
theorem exists_made_of_eventsOf {σ : Type} {st : List (Step σ)} {before after : List Event}
    {e : Event} (h : eventsOf st = before ++ e :: after) :
    ∃ st₁ c s answer st₂, st = st₁ ++ .made c s answer :: st₂ ∧ eventsOf st₁ = before
      ∧ c.event answer = e ∧ eventsOf st₂ = after := by
  obtain ⟨st₁, rest, rfl, hbefore, hrest⟩ := List.filterMap_eq_append_iff.mp h
  obtain ⟨skipped, step, st₂, rfl, hskipped, hstep, hafter⟩ := List.filterMap_eq_cons_iff.mp hrest
  cases step with
  | made c s answer =>
    refine ⟨st₁ ++ skipped, c, s, answer, st₂, by simp, ?_, Option.some.inj hstep, hafter⟩
    rw [eventsOf_append, eventsOf, eventsOf, hbefore, List.filterMap_eq_nil_iff.mpr hskipped,
      List.append_nil]
  | refused c s e => cases hstep
  | noted n => cases hstep

/-- Behind a tag there is no marker before the first call that leaves the tag. -/
theorem Event.IsInside.ne_marker {inside after rest : List Event} {value : String}
    (h : Event.IsInside inside) (lead : List Event) (hlead : ∀ e ∈ lead, e.call.StaysInTag) :
    inside ++ .endElement :: after ≠ lead ++ Document.marker value :: rest := by
  intro heq
  obtain ⟨inner, next, more, hnext, -, hnone, hleaves⟩ := h.exists_leavesTag after
  have hinner : Document.marker value ∉ inner := by
    intro hmem
    have hattribute : (Namespace.xsi, "type", value)
        ∈ (inner.map Event.call).filterMap Call.attribute? :=
      List.mem_filterMap.mpr ⟨_, List.mem_map_of_mem hmem, rfl⟩
    rw [hnone] at hattribute
    exact absurd hattribute List.not_mem_nil
  have hmarker : next ≠ Document.marker value := by
    rintro rfl
    exact hleaves.elim
  -- The marker would come behind the call that leaves the tag, or be it, or come before it.
  rw [hnext] at heq
  rcases List.append_eq_append_iff.mp heq with ⟨between, rfl, hrest⟩ | ⟨between, rfl, hrest⟩
  · cases between with
    | nil => exact hmarker (List.cons.inj hrest).1
    | cons first between =>
      obtain ⟨rfl, -⟩ := List.cons.inj hrest
      exact hleaves.not_staysInTag (hlead _ (by simp))
  · cases between with
    | nil => exact hmarker (List.cons.inj hrest).1.symm
    | cons first between =>
      obtain ⟨rfl, -⟩ := List.cons.inj hrest
      exact hinner (by simp)

/-- A marker belongs to a tag if nothing before it leaves the tag. -/
theorem Event.IsInside.exists_tag {tag inside after lead rest : List Event} {value : String}
    (h : Event.IsInside inside)
    (heq : tag ++ (inside ++ .endElement :: after) = lead ++ Document.marker value :: rest)
    (hlead : ∀ e ∈ lead, e.call.StaysInTag) :
    ∃ more, more <+: rest ∧ tag = lead ++ Document.marker value :: more := by
  rcases List.append_eq_append_iff.mp heq with ⟨between, rfl, hrest⟩ | ⟨between, rfl, hrest⟩
  · exact absurd hrest (h.ne_marker _ fun e he => hlead e (List.mem_append_right _ he))
  · cases between with
    | nil => exact absurd hrest.symm (h.ne_marker [] (List.forall_mem_nil _))
    | cons first more =>
      obtain ⟨rfl, rfl⟩ := List.cons.inj hrest
      exact ⟨more, List.prefix_append _ _, rfl⟩

namespace Document

variable {σ : Type} [Source σ] {w : Leaf.Setting}
  {Names : List Event → List Event → String → String × String → Prop}

/-- **A marker names a type.** Where elements are announced, the value of a marker in the tag of an
element stands for the name of a type that is registered and derived from another one. -/
theorem EachAnnounced.exists_subtype {st : List (Step (Supply σ))}
    {before lead rest : List Event} {uri name value : String} (h : EachAnnounced w Names st)
    (heq : eventsOf st = before ++ .startElement uri name :: (lead ++ marker value :: rest))
    (hlead : ∀ e ∈ lead, e.call.StaysInTag) (hname : name ≠ wildcardElement) :
    ∃ declared type typeName more, w.model.IsSubtype declared type typeName ∧ more <+: rest
      ∧ Names before (.startElement uri name :: (lead ++ marker value :: more)) value
        (typeName.namespaceUri, typeName.localName) := by
  obtain ⟨st₁, c, s, answer, st₂, rfl, hbefore, hevent, hafter⟩ := exists_made_of_eventsOf heq
  obtain rfl : c = .startElement uri name := by rw [← Call.call_event c answer, hevent, Event.call]
  have hannounced := h _ _ _ _ _ _ rfl
  cases hannounced with
  | wildcard hwildcard => exact absurd hwildcard hname
  | @declared decl declared type s' answer' outer tag content text behind hmade _ hnames =>
    -- The marker stands behind requests only, so it belongs to the tag of the element.
    have hsplit : eventsOf tag ++ (eventsOf (content ++ text) ++ .endElement :: eventsOf behind)
        = lead ++ marker value :: rest := by
      rw [← hafter]
      simp [Call.event]
    obtain ⟨more, hmore, htag⟩ := hmade.isInside.exists_tag hsplit hlead
    obtain ⟨typeName, hsub, hname⟩ := hnames value (by simp [htag])
    rw [eventsOf_append, eventsOf_noted, eventsOf_nil, List.append_nil] at hbefore
    rw [hbefore, htag] at hname
    exact ⟨declared, type, typeName, more, hsub, hmore, hname⟩

end Document

/-! ## Documents -/

namespace Document

variable {σ : Type} [Source σ]

theorem eachAnnounced_steps {ω : Type} [Writer ω] {w : Leaf.Setting} {root : QName} {source : σ}
    {writer : ω} {Names : List Event → List Event → String → String × String → Prop}
    (hm : w.model.Built) (hx : w.model.DeclaresNoMarker) (hn : w.model.HasPlainTypeNames)
    (hok : (generate w root source writer).result = .ok ())
    (hr : ResolvesMarkers Names (eventsOf (steps w root source writer))) :
    EachAnnounced w Names (steps w root source writer) := by
  have hruns := Script.runs_steps (walk w root { source }) writer
  rw [show ((walk w root { source }).run writer).1.1 = .ok () from hok] at hruns
  exact (leads_walk hm.numbered root _ _ _ hruns).2.announced hx hn hr

/-- A schema in which an element of an abstract type stands inside another element. The only type
derived from the abstract one is called `name`; it has one attribute, whose local name is `attr`. -/
def announcing (name : QName) (attr : String) : Leaf.Setting :=
  let baseName := QName.qualified "urn:t" "Base"
  let base : ComplexType := ⟨some baseName, true, .empty, [], none, none⟩
  let use : AttributeUse :=
    ⟨.required, .fixed "urn:other", .inline ⟨.bare attr, .builtin "string", .free⟩⟩
  let sub : ComplexType := ⟨some name, false, .empty, [.use use], none, some ⟨.extension, baseName⟩⟩
  let inner : ElementDecl := ⟨0, .bare "b", .named baseName, .local, false, none⟩
  let content : Content := .elements ⟨.once, .element inner⟩
  let outer : ElementDecl := ⟨0, .qualified "urn:t" "a",
    .anonymous (.complex ⟨none, false, content, [], none, none⟩), .global, false, none⟩
  { model := ((Model.builtin.addNamedType baseName (.complex base)).addNamedType name
      (.complex sub)).addElement outer
    policy := { fixedAttributes := .always }
    now := default }

theorem built_announcing (name : QName) (attr : String) : (announcing name attr).model.Built := by
  dsimp only [announcing]
  exact ((Model.built_builtin.type _ _).type _ _).element _

end Document

end Specimen

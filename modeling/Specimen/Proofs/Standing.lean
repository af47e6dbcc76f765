import Specimen.Proofs.Declaring
import Specimen.Proofs.Pieces
import Specimen.Proofs.Stream

/-!
# Runs of which nothing is refused

A writer whose sink has room refuses three things: an end without a start, an attribute where no
start tag can be added to, and the end of a document in which an element is open. None of them
happens where the events are in the order of a document, so a run that keeps to this order is never
stopped by its writer, be it one of event lists or one of XML.

The prefixes that such a run is answered are those that the writer stands by to the end.
-/

namespace Specimen

/-! ## Calls in order -/

/-- Where a document stands: how many elements are open, and whether there is a start tag that can
be added to. -/
structure Standing where
  depth : Nat := 0
  inTag : Bool := false
deriving DecidableEq, Repr

namespace Standing

variable {p p' : Standing}

/-- Where a call leads, if it is in order. -/
def take (p : Standing) : Call → Option Standing
  | .startElement _ _ => some ⟨p.depth + 1, true⟩
  | .attribute _ _ _ => if p.inTag then some p else none
  | .text _ => some ⟨p.depth, false⟩
  | .comment _ => some ⟨p.depth, false⟩
  | .endElement =>
    match p.depth with
    | 0 => none
    | depth + 1 => some ⟨depth, false⟩
  | .endDocument => if p.depth = 0 then some ⟨0, false⟩ else none
  | .startDocument => some p
  | .declarePrefix _ => some p

/-- Where calls lead one after another, if they are in order. -/
def takeAll (p : Standing) (calls : List Call) : Option Standing := calls.foldlM take p

@[simp] theorem takeAll_nil (p : Standing) : p.takeAll [] = some p := rfl

@[simp] theorem takeAll_cons (p : Standing) (c : Call) (calls : List Call) :
    p.takeAll (c :: calls) = (p.take c).bind fun p' => p'.takeAll calls := rfl

theorem takeAll_append (p : Standing) (calls calls' : List Call) :
    p.takeAll (calls ++ calls') = (p.takeAll calls).bind fun p' => p'.takeAll calls' :=
  List.foldlM_append

end Standing

/-! ## Documents are in order -/

/-- The call that an event is kept of. -/
def Event.call : Event → Call
  | .startDocument => .startDocument
  | .declarePrefix uri _ => .declarePrefix uri
  | .startElement uri name => .startElement uri name
  | .attribute uri name value => .attribute uri name value
  | .text value => .text value
  | .comment value => .comment value
  | .endElement => .endElement
  | .endDocument => .endDocument

@[simp] theorem Call.call_event (c : Call) (answer : String) : (c.event answer).call = c := by
  cases c <;> rfl

/-- Where events lead one after another, if their calls are in order. -/
def Standing.after (p : Standing) (events : List Event) : Option Standing :=
  p.takeAll (events.map Event.call)

namespace Standing

variable {p : Standing} {l l' : List Event}

@[simp] theorem after_nil (p : Standing) : p.after [] = some p := rfl

@[simp] theorem after_cons (p : Standing) (e : Event) (l : List Event) :
    p.after (e :: l) = (p.take e.call).bind fun p' => p'.after l := rfl

@[simp] theorem after_append (p : Standing) (l l' : List Event) :
    p.after (l ++ l') = (p.after l).bind fun p' => p'.after l' := by
  rw [after, List.map_append, takeAll_append]
  rfl

theorem after_of_forall (h : ∀ e ∈ l, p.take e.call = some p) : p.after l = some p := by
  induction l with
  | nil => rfl
  | cons e l ih =>
    rw [after_cons, h e List.mem_cons_self, Option.bind_some]
    exact ih fun e' he' => h e' (List.mem_cons_of_mem _ he')

theorem after_requests (h : ∀ e ∈ l, e.isRequest = true) : p.after l = some p := by
  refine after_of_forall fun e he => ?_
  cases e with
  | declarePrefix uri pfx => rfl
  | _ => cases h _ he

theorem after_tagParts (h : ∀ e ∈ l, e.isTagPart = true) (hp : p.inTag = true) :
    p.after l = some p := by
  refine after_of_forall fun e he => ?_
  cases e with
  | declarePrefix uri pfx => rfl
  | «attribute» uri name value => exact if_pos hp
  | _ => cases h _ he

/-- Before a start tag no element is started and none is ended. -/
theorem after_lead (h : Event.IsLead l) (p : Standing) : ∃ t, p.after l = some ⟨p.depth, t⟩ := by
  cases h with
  | requests h => exact ⟨p.inTag, after_requests h⟩
  | comment h value =>
    refine ⟨false, ?_⟩
    rw [after_append, after_requests h]
    rfl

mutual

/-- **An element is ended as often as it is started.** -/
theorem after_element {l : List Event} :
    Event.IsElement l → ∀ p : Standing, p.after l = some ⟨p.depth, false⟩
  | .element hl ht hi, p => by
    obtain ⟨t, hlead⟩ := after_lead hl p
    obtain ⟨t', hinside⟩ := after_inside hi ⟨p.depth + 1, true⟩
    rw [after_append, hlead, Option.bind_some, after_cons]
    show (Standing.after ⟨p.depth + 1, true⟩ _) = _
    rw [after_append, after_tagParts ht rfl, Option.bind_some, after_append, hinside]
    rfl

theorem after_inside {l : List Event} :
    Event.IsInside l → ∀ p : Standing, ∃ t, p.after l = some ⟨p.depth, t⟩
  | .text _, _ => ⟨false, rfl⟩
  | .elements h, p => after_elements h p

theorem after_elements {l : List Event} :
    Event.AreElements l → ∀ p : Standing, ∃ t, p.after l = some ⟨p.depth, t⟩
  | .nil, p => ⟨p.inTag, rfl⟩
  | .cons h h', p => by
    obtain ⟨t, hrest⟩ := after_elements h' ⟨p.depth, false⟩
    exact ⟨t, by rw [after_append, after_element h p, Option.bind_some, hrest]⟩

end

/-- **A document is in order**, and at its end no element is open. -/
theorem after_document {root : QName} (h : Event.IsDocument root l) :
    Standing.after {} l = some {} := by
  obtain ⟨hd, he⟩ := h
  rename_i declarations element
  have hrequests : ∀ e ∈ declarations, e.isRequest = true := by
    cases hd <;> simp [Event.isRequest]
  rw [after_cons]
  show (Standing.after {} _) = _
  rw [after_append, after_requests hrequests, Option.bind_some, after_append, after_element he]
  rfl

/-- The beginning of what is in order is in order. -/
theorem isSome_after_of_append (h : (p.after (l ++ l')).isSome) : (p.after l).isSome := by
  rw [after_append] at h
  cases hl : p.after l with
  | none =>
    rw [hl] at h
    cases h
  | some p' => rfl

end Standing

/-! ## Writers that take what is in order -/

/-- The prefix that was answered is the one that these prefixes give, and no call was refused. -/
def Step.IsAnswered {σ : Type} (ps : Prefixes) : Step σ → Prop
  | made (.declarePrefix uri) _ answer => ps.Names uri ∧ answer = ps.pfx uri
  | made _ _ _ => True
  | refused _ _ _ => False
  | noted _ => True

theorem Step.IsAnswered.mono {σ : Type} {ps ps' : Prefixes} (hext : ps'.Extends ps)
    {step : Step σ} (h : step.IsAnswered ps) : step.IsAnswered ps' := by
  cases step with
  | noted n => trivial
  | refused c s e => exact h
  | made c s answer =>
    cases c with
    | declarePrefix uri =>
      obtain ⟨hnames, rfl⟩ := h
      refine ⟨hnames.imp_right fun hsome => ?_, (hext.pfx_eq hnames).symm⟩
      obtain ⟨pfx, hget⟩ := Option.isSome_iff_exists.mp hsome
      rw [hext uri pfx hget]
      rfl
    | _ => trivial

/-- A writer that stands as described where a document does: it takes every call that is in order,
unless it fails for another reason, and keeps to the prefixes that it has given out. -/
structure TakesInOrder (ω : Type) [Writer ω] (Stands : Standing → ω → Prop) (Fails : ω → Prop)
    (prefixes : ω → Prefixes) : Prop where
  perform {p p' : Standing} {w : ω} {c : Call} : Stands p w → p.take c = some p' →
    (∃ answer w', Writer.perform c w = (.ok answer, w') ∧ Stands p' w'
        ∧ (prefixes w').Extends (prefixes w)
        ∧ (Step.made c () answer).IsAnswered (prefixes w'))
      ∨ ∃ e w', Writer.perform c w = (.error e, w') ∧ Fails w'

namespace Script

variable {σ α ω : Type} [Writer ω]

/-- From here on, the calls that are taken are in order, whatever is answered. -/
def IsInOrder (script : Script σ α) (p : Standing) : Prop :=
  ∀ st r s', script.Runs st r s' → (p.after (eventsOf st)).isSome

theorem IsInOrder.note {n : Note} {next : Script σ α} {p : Standing}
    (h : (note n next).IsInOrder p) : next.IsInOrder p :=
  fun st r s' hr => h (.noted n :: st) r s' (.noted hr)

/-- A call that comes first is in order, and what follows is in order behind it. -/
theorem IsInOrder.call {c : Call} {s : σ} {next : String → Script σ α} {p : Standing}
    (h : (call c s next).IsInOrder p) :
    ∃ p', p.take c = some p' ∧ ∀ answer, (next answer).IsInOrder p' := by
  have hmade (answer : String) {st : List (Step σ)} {r : Except Error α} {s' : σ}
      (hr : (next answer).Runs st r s') :
      ((p.take c).bind fun p' => p'.after (eventsOf st)).isSome := by
    have := h _ _ _ (.made hr)
    rwa [eventsOf_made, Standing.after_cons, Call.call_event] at this
  cases hc : p.take c with
  | none =>
    have := hmade "" (runs_steps (next "") ({} : Recorder))
    rw [hc] at this
    cases this
  | some p' =>
    refine ⟨p', rfl, fun answer st r s' hr => ?_⟩
    have := hmade answer hr
    rwa [hc, Option.bind_some] at this

/-- **No call of a run in order is refused**, unless the writer fails for another reason, and all
prefixes that are answered are those that the writer has at the end. -/
theorem isAnswered_steps {Stands : Standing → ω → Prop} {Fails : ω → Prop} {prefixes : ω → Prefixes}
    (hω : TakesInOrder ω Stands Fails prefixes) (script : Script σ α) {p : Standing} {w : ω}
    (ho : script.IsInOrder p) (hw : Stands p w) (hok : ¬Fails (script.run w).2) :
    (∃ p', Stands p' (script.run w).2) ∧ (prefixes (script.run w).2).Extends (prefixes w)
      ∧ ∀ step ∈ script.steps w, step.IsAnswered (prefixes (script.run w).2) := by
  induction script generalizing w p with
  | stop r s => exact ⟨⟨p, hw⟩, .refl _, fun _ h => absurd h List.not_mem_nil⟩
  | note n next ih =>
    obtain ⟨hstands, hext, hst⟩ := ih ho.note hw hok
    exact ⟨hstands, hext, List.forall_mem_cons.mpr ⟨trivial, hst⟩⟩
  | call c s next ih =>
    obtain ⟨p', hp', hnext⟩ := ho.call
    rcases hω.perform hw hp' with ⟨answer, w', hc, hw', hext, hanswer⟩ | ⟨e, w', hc, hfails⟩
    · simp only [run, steps, hc] at hok ⊢
      obtain ⟨hstands, hext', hst⟩ := ih answer (hnext answer) hw' hok
      refine ⟨hstands, hext'.trans hext, List.forall_mem_cons.mpr ⟨?_, hst⟩⟩
      exact Step.IsAnswered.mono hext' (by cases c <;> exact hanswer)
    · simp only [run, hc] at hok
      exact absurd hfails hok

end Script

/-! ## Event lists -/

namespace Recorder

/-- The elements that are open are counted. -/
structure Stands (p : Standing) (r : Recorder) : Prop where
  isSound : r.prefixes.IsSound
  depth_eq : r.depth = p.depth

theorem stands_empty : Stands {} {} := ⟨Prefixes.isSound_empty, rfl⟩

/-- **An event list refuses nothing that is in order.** -/
theorem takesInOrder : TakesInOrder Recorder Stands (fun _ => False) prefixes where
  perform {p p' r c} h hp := by
    refine .inl ?_
    cases c with
    | startDocument => cases hp; exact ⟨_, _, rfl, ⟨h.isSound, h.depth_eq⟩, .refl _, trivial⟩
    | text value => cases hp; exact ⟨_, _, rfl, ⟨h.isSound, h.depth_eq⟩, .refl _, trivial⟩
    | comment value => cases hp; exact ⟨_, _, rfl, ⟨h.isSound, h.depth_eq⟩, .refl _, trivial⟩
    | startElement uri name =>
      cases hp
      exact ⟨_, _, rfl, ⟨h.isSound, congrArg (· + 1) h.depth_eq⟩, .refl _, trivial⟩
    | «attribute» uri name value =>
      obtain ⟨-, hp⟩ := Option.ite_none_right_eq_some.mp hp
      cases hp
      exact ⟨_, _, rfl, ⟨h.isSound, h.depth_eq⟩, .refl _, trivial⟩
    | endDocument =>
      obtain ⟨hdepth, hp⟩ := Option.ite_none_right_eq_some.mp hp
      cases hp
      exact ⟨_, _, rfl, ⟨h.isSound, h.depth_eq.trans hdepth⟩, .refl _, trivial⟩
    | endElement =>
      obtain ⟨_ | depth, inTag⟩ := p
      · cases hp
      · cases hp
        have hdepth : r.depth = depth + 1 := h.depth_eq
        simp only [Writer.perform, perform, hdepth]
        exact ⟨_, _, rfl, ⟨h.isSound, rfl⟩, .refl _, trivial⟩
    | declarePrefix uri =>
      cases hp
      simp only [Writer.perform, perform]
      split
      · rename_i hempty
        exact ⟨_, _, rfl, ⟨h.isSound, h.depth_eq⟩, .refl _, .inl hempty, by simp [hempty]⟩
      · rename_i hne
        have hget := r.prefixes.get?_bind uri
        refine ⟨_, _, rfl, ⟨h.isSound.bind uri, h.depth_eq⟩, r.prefixes.bind_extends uri, ?_⟩
        exact ⟨.inr (by simp [push, hget]), (Prefixes.pfx_of_get? hne hget).symm⟩

end Recorder

/-! ## XML -/

namespace XmlWriter

/-- A part of a call leads to a state as described, unless the sink has no room. -/
def Proceeds (r : Except Error Unit × XmlWriter) (P : XmlWriter → Prop) : Prop :=
  (∃ w', r = (.ok (), w') ∧ P w') ∨ ∃ e w', r = (.error e, w') ∧ w'.sink.isFull = true

namespace Proceeds

variable {r : Except Error Unit × XmlWriter} {next : XmlWriter → Except Error Unit × XmlWriter}
  {P Q : XmlWriter → Prop} {w : XmlWriter}

theorem ok (h : P w) : Proceeds (.ok (), w) P := .inl ⟨w, rfl, h⟩

theorem andThen (h : Proceeds r P) (h' : ∀ w', P w' → Proceeds (next w') Q) :
    Proceeds (andThen r next) Q := by
  rcases h with ⟨w', rfl, hw'⟩ | ⟨e, w', rfl, hfull⟩
  · exact h' w' hw'
  · exact .inr ⟨e, w', rfl, hfull⟩

theorem imp (h : Proceeds r P) (hPQ : ∀ w', P w' → Q w') : Proceeds r Q := by
  rcases h with ⟨w', rfl, hw'⟩ | h
  · exact .inl ⟨w', rfl, hPQ w' hw'⟩
  · exact .inr h

end Proceeds

/-- Where a sink has no room, it says so from then on. -/
theorem isFull_put {s : Sink} {text : String} (h : (s.put text).1 = false) :
    (s.put text).2.isFull = true := by
  rw [Sink.put] at h ⊢
  split
  · rename_i hroom
    rw [if_pos hroom] at h
    cases h
  · rfl

variable {w w' : XmlWriter} {p p' : Standing}

theorem proceeds_put (w : XmlWriter) (state : Bool × Sink → XmlWriter)
    (hstate : ∀ r, (state r).sink = r.2) (text : String) (e : Error) :
    Proceeds (if (w.sink.put text).1 then .ok () else .error e, state (w.sink.put text))
      fun w' => w' = state (w.sink.put text) := by
  cases hput : (w.sink.put text).1 with
  | true => exact .ok rfl
  | false => exact .inr ⟨e, _, rfl, by rw [hstate, isFull_put hput]⟩

theorem proceeds_putMarkup (w : XmlWriter) (markup : String) :
    Proceeds (w.putMarkup markup) fun w' => ∃ sink, w' = { w with sink, breaksLine := true } := by
  refine (proceeds_put w (fun r => { w with sink := r.2, breaksLine := true }) (fun _ => rfl)
    (w.lead ++ markup) (.xml Sink.refusal)).imp ?_
  rintro w' rfl
  exact ⟨_, rfl⟩

theorem proceeds_putText (w : XmlWriter) (text : String) :
    Proceeds (w.putText text) fun w' => ∃ sink, w' = { w with sink, breaksLine := false } := by
  refine (proceeds_put w (fun r => { w with sink := r.2, breaksLine := false }) (fun _ => rfl)
    (Markup.escape text) (.xml Sink.refusal)).imp ?_
  rintro w' rfl
  exact ⟨_, rfl⟩

/-! ### Prefixes that are asked for -/

/-- Prefixes have been given out, and no element has been opened or closed. -/
structure Keeps (w w' : XmlWriter) : Prop where
  isSound : w.prefixes.IsSound → w'.prefixes.IsSound
  extends_prefixes : w'.prefixes.Extends w.prefixes
  opened_eq : w'.opened = w.opened
  isSome_held : w'.held.isSome = w.held.isSome

theorem Keeps.refl (w : XmlWriter) : w.Keeps w := ⟨id, .refl _, rfl, rfl⟩

theorem Keeps.trans {w'' : XmlWriter} (h : w.Keeps w') (h' : w'.Keeps w'') : w.Keeps w'' :=
  ⟨h'.isSound ∘ h.isSound, h'.extends_prefixes.trans h.extends_prefixes,
    h'.opened_eq.trans h.opened_eq, h'.isSome_held.trans h.isSome_held⟩

theorem keeps_ensureDeclared (w : XmlWriter) (uri : String) :
    w.Keeps (w.ensureDeclared uri).2 ∧ (w.ensureDeclared uri).2.prefixes.Names uri := by
  have hasks := w.ensureDeclared_asks uri
  have hext := w.prefixes.bind_extends uri
  have hbind (hs : w.prefixes.IsSound) := hs.bind uri
  have hnames : (w.prefixes.bind uri).2.Names uri := .inr (by rw [Prefixes.get?_bind]; rfl)
  generalize w.ensureDeclared uri = result at hasks ⊢
  cases hasks with
  | none hempty => exact ⟨.refl w, .inl hempty⟩
  | declared _ _ => exact ⟨⟨hbind, hext, rfl, rfl⟩, hnames⟩
  | added _ _ hheld => exact ⟨⟨hbind, hext, rfl, by rw [hheld]; rfl⟩, hnames⟩
  | awaited _ hheld _ => exact ⟨⟨hbind, hext, rfl, rfl⟩, hnames⟩

theorem keeps_declareAwaited (w : XmlWriter) : w.Keeps w.declareAwaited := by
  have hfold : ∀ (uris : List String) (w : XmlWriter),
      w.Keeps (uris.foldl (fun w uri => (w.ensureDeclared uri).2) w) := by
    intro uris
    induction uris with
    | nil => exact fun w => .refl w
    | cons uri uris ih => exact fun w => (w.keeps_ensureDeclared uri).1.trans (ih _)
  have h := hfold w.awaited { w with awaited := [] }
  exact ⟨h.isSound, h.extends_prefixes, h.opened_eq, h.isSome_held⟩

/-! ### Where a document stands -/

/-- The elements that are open are those whose start tag has been put and the one whose start tag is
held back, if there is one. -/
def depth (w : XmlWriter) : Nat := w.opened.length + if w.held.isSome then 1 else 0

structure Stands (p : Standing) (w : XmlWriter) : Prop where
  isSound : w.prefixes.IsSound
  depth_eq : w.depth = p.depth
  isSome_held : p.inTag = true → w.held.isSome = true

/-- Where no tag can be added to, there need not be one. -/
theorem stands_outside {n : Nat} (hs : w.prefixes.IsSound) (hdepth : w.depth = n) :
    w.Stands ⟨n, false⟩ :=
  ⟨hs, hdepth, fun hin => absurd hin Bool.false_ne_true⟩

theorem stands_empty (sink : Sink) (indent : Nat) : Stands {} { sink, indent } :=
  stands_outside Prefixes.isSound_empty rfl

theorem Keeps.stands (h : w.Keeps w') (hs : w.Stands p) : w'.Stands p where
  isSound := h.isSound hs.isSound
  depth_eq := by rw [depth, h.opened_eq, h.isSome_held]; exact hs.depth_eq
  isSome_held := by rw [h.isSome_held]; exact hs.isSome_held

/-- What the tag that is held back is does not matter. -/
theorem Stands.mapHeld (h : w.Stands p) (f : HeldTag → HeldTag) :
    Stands p { w with held := w.held.map f } where
  isSound := h.isSound
  depth_eq := by rw [← h.depth_eq, depth, depth, Option.isSome_map]
  isSome_held := by rw [Option.isSome_map]; exact h.isSome_held

theorem proceeds_openHeld (w : XmlWriter) :
    Proceeds w.openHeld fun w' =>
      w'.held = none ∧ w'.opened.length = w.depth ∧ w'.prefixes = w.prefixes := by
  rw [openHeld, depth]
  cases hheld : w.held with
  | none => exact .ok ⟨hheld, rfl, rfl⟩
  | some tag =>
    rcases proceeds_putMarkup { w with held := none } (Markup.startTag tag.name tag.attributes) with
      ⟨w', hput, sink, rfl⟩ | ⟨e, w', hput, hfull⟩
    · simp only [hput]
      exact .ok ⟨rfl, rfl, rfl⟩
    · simp only [hput]
      exact .inr ⟨e, w', rfl, hfull⟩

theorem proceeds_closeHeld (w : XmlWriter) :
    Proceeds w.closeHeld fun w' =>
      w'.held = none ∧ w'.opened = w.opened ∧ w'.prefixes = w.prefixes := by
  rw [closeHeld]
  cases hheld : w.held with
  | none => exact .ok ⟨hheld, rfl, rfl⟩
  | some tag =>
    refine (proceeds_putMarkup { w with held := none } _).imp ?_
    rintro w' ⟨sink, rfl⟩
    exact ⟨rfl, rfl, rfl⟩

/-- A start is held back behind the tag before it, which is put. -/
theorem proceeds_startElement (h : w.Stands p) (uri name : String) :
    Proceeds (w.take (.startElement uri name)) fun w' =>
      w'.Stands ⟨p.depth + 1, true⟩ ∧ w'.prefixes.Extends w.prefixes := by
  refine w.proceeds_openHeld.andThen fun w₁ hw₁ => .ok ?_
  obtain ⟨hheld, hopened, hprefixes⟩ := hw₁
  have hheldBack : Stands ⟨p.depth + 1, true⟩ { w₁ with held := some ⟨"", [], []⟩ } :=
    ⟨hprefixes ▸ h.isSound, by simp [depth, hopened, ← h.depth_eq], fun _ => rfl⟩
  have hkeeps := (keeps_declareAwaited { w₁ with held := some ⟨"", [], []⟩ }).trans
    (keeps_ensureDeclared _ uri).1
  exact ⟨(hkeeps.stands hheldBack).mapHeld _, hprefixes ▸ hkeeps.extends_prefixes⟩

/-- An end closes the tag that is held back, or else the element that is open. -/
theorem proceeds_endElement {n : Nat} {inTag : Bool} (h : w.Stands ⟨n + 1, inTag⟩) :
    Proceeds (w.take .endElement) fun w' =>
      w'.Stands ⟨n, false⟩ ∧ w'.prefixes.Extends w.prefixes := by
  have hdepth : w.depth = n + 1 := h.depth_eq
  simp only [take, endElement]
  split
  · rename_i hheld
    refine w.proceeds_closeHeld.imp ?_
    rintro w' ⟨hheld', hopened, hprefixes⟩
    rw [depth, if_pos hheld] at hdepth
    refine ⟨stands_outside (hprefixes ▸ h.isSound) ?_, hprefixes ▸ .refl _⟩
    simp [depth, hheld', hopened]
    omega
  · rename_i hheld
    rw [depth, if_neg hheld] at hdepth
    split
    · rename_i hnone
      rw [hnone] at hdepth
      cases hdepth
    · rename_i element outer hopened
      rw [hopened] at hdepth
      refine (proceeds_putMarkup _ _).imp ?_
      rintro w' ⟨sink, rfl⟩
      refine ⟨stands_outside h.isSound ?_, .refl _⟩
      simpa [depth, hheld] using hdepth

/-- A document ends where no element is open. -/
theorem proceeds_endDocument {inTag : Bool} (h : w.Stands ⟨0, inTag⟩) :
    Proceeds (w.take .endDocument) fun w' =>
      w'.Stands ⟨0, false⟩ ∧ w'.prefixes.Extends w.prefixes := by
  have hzero : w.depth = 0 := h.depth_eq
  have hopened : w.opened = [] := List.eq_nil_of_length_eq_zero (by rw [depth] at hzero; omega)
  refine w.proceeds_closeHeld.andThen ?_
  rintro w₁ ⟨hheld, hsame, hprefixes⟩
  rw [hopened] at hsame
  have hput := proceeds_put w₁ (fun r => { w₁ with sink := r.2 }) (fun _ => rfl) "\n"
    (.sink Sink.refusal)
  split
  · rename_i element outer hcons
    rw [hsame] at hcons
    cases hcons
  · refine hput.imp ?_
    rintro w' rfl
    exact ⟨stands_outside (hprefixes ▸ h.isSound) (by simp [depth, hheld, hsame]),
      hprefixes ▸ .refl _⟩

/-- **The writer of XML takes what is in order**, if the sink has room for it. -/
theorem proceeds_take {c : Call} (h : w.Stands p) (hp : p.take c = some p') :
    Proceeds (w.take c) fun w' => w'.Stands p' ∧ w'.prefixes.Extends w.prefixes := by
  -- The depth and the held tag of the writer follow the point of the call, one case for each.
  cases c with
  | startDocument =>
    cases hp
    refine (w.proceeds_putMarkup _).imp ?_
    rintro w' ⟨sink, rfl⟩
    exact ⟨⟨h.isSound, h.depth_eq, h.isSome_held⟩, .refl _⟩
  | declarePrefix uri =>
    cases hp
    have hkeeps := (w.keeps_ensureDeclared uri).1
    exact .ok ⟨hkeeps.stands h, hkeeps.extends_prefixes⟩
  | startElement uri name =>
    cases hp
    exact proceeds_startElement h uri name
  | «attribute» uri name value =>
    obtain ⟨hin, hp⟩ := Option.ite_none_right_eq_some.mp hp
    cases hp
    have hkeeps := (w.keeps_ensureDeclared uri).1
    have hsome : ¬w.held.isNone = true := by
      rw [Option.isNone_iff_eq_none, ← ne_eq, Option.ne_none_iff_isSome]
      exact h.isSome_held hin
    simp only [take, addAttribute, if_neg hsome]
    exact .ok ⟨(hkeeps.stands h).mapHeld _, hkeeps.extends_prefixes⟩
  | text value =>
    cases hp
    simp only [take, addText]
    split
    · exact .ok ⟨stands_outside h.isSound h.depth_eq, .refl _⟩
    · refine w.proceeds_openHeld.andThen ?_
      rintro w₁ ⟨hheld, hopened, hprefixes⟩
      refine (w₁.proceeds_putText value).imp ?_
      rintro w' ⟨sink, rfl⟩
      exact ⟨stands_outside (hprefixes ▸ h.isSound)
        (by simp [depth, hheld, hopened, ← h.depth_eq]), hprefixes ▸ .refl _⟩
  | comment value =>
    cases hp
    refine w.proceeds_openHeld.andThen ?_
    rintro w₁ ⟨hheld, hopened, hprefixes⟩
    refine (w₁.proceeds_putMarkup _).imp ?_
    rintro w' ⟨sink, rfl⟩
    exact ⟨stands_outside (hprefixes ▸ h.isSound) (by simp [depth, hheld, hopened, ← h.depth_eq]),
      hprefixes ▸ .refl _⟩
  | endElement =>
    obtain ⟨_ | n, inTag⟩ := p
    · cases hp
    · cases hp
      exact proceeds_endElement h
  | endDocument =>
    obtain ⟨depth, inTag⟩ := p
    obtain ⟨rfl, hp⟩ := Option.ite_none_right_eq_some.mp hp
    cases hp
    exact proceeds_endDocument h

theorem takesInOrder :
    TakesInOrder XmlWriter (fun p w => w.Stands p) (fun w => w.sink.isFull = true) prefixes where
  perform {p p' w c} h hp := by
    have htake := proceeds_take h hp
    cases c with
    | declarePrefix uri =>
      obtain ⟨hkeeps, hnames⟩ := w.keeps_ensureDeclared uri
      cases hp
      exact .inl ⟨_, _, rfl, hkeeps.stands h, hkeeps.extends_prefixes, hnames,
        w.ensureDeclared_fst uri⟩
    | _ =>
      rcases htake with ⟨w', hw', hstands, hext⟩ | ⟨e, w', hw', hfull⟩
      · exact .inl ⟨"", w', by simp [Writer.perform, perform, hw', Except.map], hstands, hext, trivial⟩
      · exact .inr ⟨e, w', by simp [Writer.perform, perform, hw', Except.map], hfull⟩

end XmlWriter

end Specimen

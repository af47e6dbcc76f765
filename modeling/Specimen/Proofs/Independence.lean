import Specimen.Proofs.Beside

/-!
# What a document does not depend on

A document is the same for every writer, and the same with comments on its content models as without
them. What may differ is the prefixes that stand in the names of announced types and in comments,
because each writer gives them out in its own order.
-/

namespace Specimen

/-! ## Steps and events -/

/-- Where nothing is refused, the calls are those that events are kept of. -/
theorem map_call_eventsOf {σ : Type} {ps : Prefixes} {st : List (Step σ)}
    (h : ∀ step ∈ st, step.IsAnswered ps) :
    (eventsOf st).map Event.call = (callsOf st).map Prod.fst := by
  induction st with
  | nil => rfl
  | cons step st ih =>
    have ih := ih fun step' hmem => h step' (List.mem_cons_of_mem _ hmem)
    cases step with
    | made c s answer =>
      rw [eventsOf_made, List.map_cons, Call.call_event, ih]
      rfl
    | refused c s e => exact (h _ List.mem_cons_self).elim
    | noted n => exact ih

/-- The calls of the two events are the same, up to the prefixes in the name of an announced type
and in the text of a comment. -/
def Event.Alike (ps ps' : Prefixes) (e e' : Event) : Prop := e.call.Alike ps ps' e'.call

/-- The events that are no requests for prefixes and no comments. -/
def withoutRemarks (events : List Event) : List Event :=
  events.filter fun e => ¬e.call.IsRemark

theorem Call.Alike.kind_eq {ps ps' : Prefixes} {c c' : Call} (h : c.Alike ps ps' c') :
    c.kind = c'.kind := by
  cases h <;> rfl

theorem Call.Alike.symm {ps ps' : Prefixes} {c c' : Call} (h : c.Alike ps ps' c') :
    c'.Alike ps' ps c := by
  cases h with
  | same => exact .same c
  | type name => exact .type name
  | comment h =>
    obtain ⟨words, h, h'⟩ := h
    exact .comment ⟨words, h', h⟩

/-- Where two runs go along with each other, the right one keeps the events of the left one but for
remarks, and writes no comment. -/
theorem Alongside.events {τ : Type} {ps ps' : Prefixes} {l l' : List (Call × τ)}
    (h : Alongside True ps ps' l l') {events events' : List Event}
    (hl : events.map Event.call = l.map Prod.fst) (hl' : events'.map Event.call = l'.map Prod.fst) :
    (∀ e ∈ events', e.call.kind ≠ .comment)
      ∧ List.SublistForall₂ (Event.Alike ps' ps) events' events
      ∧ List.Forall₂ (Event.Alike ps' ps) (withoutRemarks events') (withoutRemarks events) := by
  induction h generalizing events events' with
  | nil =>
    obtain rfl := List.map_eq_nil_iff.mp hl
    obtain rfl := List.map_eq_nil_iff.mp hl'
    exact ⟨nofun, .nil, .nil⟩
  | both h hc _ ih =>
    obtain ⟨e, events, rfl, rfl, hrest⟩ := List.map_eq_cons_iff.mp hl
    obtain ⟨e', events', rfl, rfl, hrest'⟩ := List.map_eq_cons_iff.mp hl'
    obtain ⟨hcomment, hsub, hkept⟩ := ih hrest hrest'
    have hremark : e.call.IsRemark ↔ e'.call.IsRemark := by
      rw [Call.IsRemark, Call.IsRemark, h.kind_eq]
    refine ⟨List.forall_mem_cons.mpr ⟨hc trivial, hcomment⟩, .cons h.symm hsub, ?_⟩
    by_cases hr : e.call.IsRemark
    · simpa [withoutRemarks, hr, hremark.mp hr] using hkept
    · have hr' : ¬e'.call.IsRemark := mt hremark.mpr hr
      have hkeep (e : Event) (he : ¬e.call.IsRemark) (l : List Event) :
          withoutRemarks (e :: l) = e :: withoutRemarks l := by
        simp [withoutRemarks, he]
      rw [hkeep e hr, hkeep e' hr']
      exact .cons h.symm hkept
  | remark _ hc _ ih =>
    obtain ⟨e, events, rfl, rfl, hrest⟩ := List.map_eq_cons_iff.mp hl
    obtain ⟨hcomment, hsub, hkept⟩ := ih hrest hl'
    have hdrop : withoutRemarks (e :: events) = withoutRemarks events := by
      simp [withoutRemarks, hc]
    exact ⟨hcomment, .cons_right hsub, hdrop ▸ hkept⟩

namespace Document

variable {σ ω : Type} [Source σ] [Writer ω]

/-- The run for a document keeps to the order of a document. -/
theorem isInOrder_walk (w : Leaf.Setting) (root : QName) (source : σ) :
    (walk w root { source }).IsInOrder {} := by
  intro st r s' hr
  obtain ⟨⟨more, hmore⟩, -⟩ := forms_walk w root _ _ _ _ hr
  have hwhole : (Standing.after {} (eventsOf st ++ more)).isSome := by
    rw [Standing.after_document hmore]
    rfl
  exact Standing.isSome_after_of_append hwhole

/-- In a run with a list of events, every request is answered with the prefix that the list has at
the end. -/
theorem isAnswered_recorder (w : Leaf.Setting) (root : QName) (source : σ) :
    (generate w root source ({} : Recorder)).writer.prefixes.IsSound
      ∧ ∀ step ∈ steps w root source ({} : Recorder),
        step.IsAnswered (generate w root source ({} : Recorder)).writer.prefixes := by
  obtain ⟨⟨p, hstands⟩, -, hst⟩ := Script.isAnswered_steps Recorder.takesInOrder _
    (isInOrder_walk w root source) Recorder.stands_empty not_false
  exact ⟨hstands.isSound, hst⟩

/-- A run with the writer of XML is answered in the same way, if its sink has had room for
everything. -/
theorem isAnswered_xml (w : Leaf.Setting) (root : QName) (source : σ) (sink : Sink) (indent : Nat)
    (hroom : (generate w root source ({ sink, indent } : XmlWriter)).writer.sink.isFull = false) :
    (generate w root source ({ sink, indent } : XmlWriter)).writer.prefixes.IsSound
      ∧ ∀ step ∈ steps w root source ({ sink, indent } : XmlWriter),
        step.IsAnswered (generate w root source ({ sink, indent } : XmlWriter)).writer.prefixes := by
  obtain ⟨⟨p, hstands⟩, -, hst⟩ := Script.isAnswered_steps XmlWriter.takesInOrder _
    (isInOrder_walk w root source) (XmlWriter.stands_empty sink indent) fun hfull =>
      Bool.false_ne_true (hroom.symm.trans hfull)
  exact ⟨hstands.isSound, hst⟩

/-! ## Writers -/

/-- **A document does not depend on the writer.** Let a document be written as XML, with any
indentation, and let the sink have refused nothing. Then the writer has refused nothing either, and
the run ends as it does over a list of events, with the same result and the same source. Both runs
make the same calls, each with the source in the same state, up to the prefixes in the names of
announced types and in comments. -/
theorem generate_xml_alike (w : Leaf.Setting) (root : QName) (source : σ) (sink : Sink)
    (indent : Nat)
    (hroom : (generate w root source ({ sink, indent } : XmlWriter)).writer.sink.isFull = false) :
    let xml := generate w root source ({ sink, indent } : XmlWriter)
    let list := generate w root source ({} : Recorder)
    xml.result = list.result ∧ xml.source = list.source
      ∧ (∀ c s e, .refused c s e ∉ steps w root source ({ sink, indent } : XmlWriter))
      ∧ List.Forall₂
        (fun x y => x.1.Alike xml.writer.prefixes list.writer.prefixes y.1 ∧ x.2 = y.2)
        (calls w root source ({ sink, indent } : XmlWriter))
        (calls w root source ({} : Recorder)) := by
  intro xml list
  obtain ⟨hs, hst⟩ := isAnswered_xml w root source sink indent hroom
  obtain ⟨hs', hst'⟩ := isAnswered_recorder w root source
  -- Both runs annotate alike, so the outcome of a run that fails over a remark is ruled out.
  have hmatches : Matches False w w.policy.annotateContentModel := .inl ⟨not_false, rfl⟩
  have hbeside := beside_walk hs hs' hmatches root _ _ _ _ _ _ _
    (Script.runs_steps (walk w root { source }) ({ sink, indent } : XmlWriter))
    (Script.runs_steps (walk w root { source }) ({} : Recorder)) hst hst'
  obtain ⟨hnot, -⟩ | ⟨hsame, hsupply, halong⟩ := hbeside
  · exact hnot.elim
  · refine ⟨?_, congrArg Supply.source hsupply.symm, fun c s e hmem => hst _ hmem, ?_⟩
    · exact SameResult.eq hsame
    · refine List.forall₂_map_left_iff.mpr (List.forall₂_map_right_iff.mpr ?_)
      exact halong.forall₂.imp fun x y h => ⟨h.1, congrArg Supply.source h.2⟩

/-- A document of the schema is written into a sink without bounds, and over a list of events. -/
theorem generate_xml_alike_choiceThenAny :
    (generate choiceThenAny (.bare "a") (⟨[], 0⟩ : Scripted)
        ({ indent := 2 } : XmlWriter)).writer.sink.isFull = false
      ∧ (generate choiceThenAny (.bare "a") (⟨[], 0⟩ : Scripted) ({ indent := 2 } : XmlWriter)).result
        = (generate choiceThenAny (.bare "a") (⟨[], 0⟩ : Scripted) ({} : Recorder)).result := by
  have hroom : (generate choiceThenAny (.bare "a") (⟨[], 0⟩ : Scripted)
      ({ indent := 2 } : XmlWriter)).writer.sink.isFull = false := by
    decide +kernel
  exact ⟨hroom, (generate_xml_alike choiceThenAny (.bare "a") (⟨[], 0⟩ : Scripted) {} 2 hroom).1⟩

/-! ## Comments -/

/-- **Comments on content models do not influence a document.** If the run with comments succeeds,
so does the run without them. It leaves the source in the same state and writes no comment. All its
events are among those of the run with comments, in the same order, and but for comments and
requests for prefixes there are no others. The prefixes in the names of announced types may
differ. -/
theorem generate_uncommented (w : Leaf.Setting) (root : QName) (source : σ)
    (hok : (generate (w.annotating true) root source ({} : Recorder)).result = .ok ()) :
    let noted := generate (w.annotating true) root source ({} : Recorder)
    let plain := generate (w.annotating false) root source ({} : Recorder)
    plain.result = .ok () ∧ plain.source = noted.source
      ∧ (∀ event ∈ plain.writer.events.toList, event.call.kind ≠ .comment)
      ∧ List.SublistForall₂ (Event.Alike plain.writer.prefixes noted.writer.prefixes)
        plain.writer.events.toList noted.writer.events.toList
      ∧ List.Forall₂ (Event.Alike plain.writer.prefixes noted.writer.prefixes)
        (withoutRemarks plain.writer.events.toList) (withoutRemarks noted.writer.events.toList) := by
  intro noted plain
  obtain ⟨hs, hst⟩ := isAnswered_recorder (w.annotating true) root source
  obtain ⟨hs', hst'⟩ := isAnswered_recorder (w.annotating false) root source
  -- Here the left run may write remarks and fail for one, which is what the first outcome says.
  have hmatches : Matches True (w.annotating true) false := .inr ⟨trivial, rfl⟩
  have hbeside := beside_walk hs hs' hmatches root _ _ _ _ _ _ _
    (Script.runs_steps (walk (w.annotating true) root { source }) ({} : Recorder))
    (Script.runs_steps (walk (w.annotating false) root { source }) ({} : Recorder)) hst hst'
  obtain ⟨-, e, he⟩ | ⟨hsame, hsupply, halong⟩ := hbeside
  · exact absurd (hok.symm.trans he) nofun
  · have hevents : noted.writer.events.toList.map Event.call
        = (callsOf (steps (w.annotating true) root source ({} : Recorder))).map Prod.fst := by
      rw [← map_call_eventsOf hst, ← events_generate]
    have hevents' : plain.writer.events.toList.map Event.call
        = (callsOf (steps (w.annotating false) root source ({} : Recorder))).map Prod.fst := by
      rw [← map_call_eventsOf hst', ← events_generate]
    refine ⟨?_, congrArg Supply.source hsupply, halong.events hevents hevents'⟩
    exact (SameResult.eq hsame).symm.trans hok

/-- A choice is annotated, and the document is the same without the comment. -/
theorem generate_uncommented_choiceThenAny :
    (generate (choiceThenAny.annotating true) (.bare "a") (⟨[], 0⟩ : Scripted)
        ({} : Recorder)).result = .ok ()
      ∧ .comment "((b | c)[1,2], any?)" ∈ (generate (choiceThenAny.annotating true) (.bare "a")
        (⟨[], 0⟩ : Scripted) ({} : Recorder)).writer.events.toList
      ∧ (generate (choiceThenAny.annotating false) (.bare "a") (⟨[], 0⟩ : Scripted)
        ({} : Recorder)).result = .ok () := by
  have hok : (generate (choiceThenAny.annotating true) (.bare "a") (⟨[], 0⟩ : Scripted)
      ({} : Recorder)).result = .ok () := by
    decide +kernel
  exact ⟨hok, by decide +kernel,
    (generate_uncommented choiceThenAny (.bare "a") (⟨[], 0⟩ : Scripted) hok).1⟩

end Document

end Specimen

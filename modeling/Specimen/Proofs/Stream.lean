import Specimen.Proofs.Steps
import Specimen.Writer.Recorder

/-!
# The grammar of event streams

What is reported of a document: its beginning, the prefixes of two namespaces, one element, its end.
An element is what stands before its start tag, the tag with what belongs into it, then a text or a
row of elements, and the end tag.

Runs keep to this grammar whatever the schema, the policy and the source, and whatever is answered
to the calls. A run that fails has reported the beginning of such a stream.
-/

namespace Specimen

/-! ## Streams -/

namespace Event

/-- A prefix was asked for. -/
def isRequest : Event → Bool
  | declarePrefix _ _ => true
  | _ => false

/-- An attribute, or a prefix that was asked for: what may be reported between a start tag and what
stands inside the element. -/
def isTagPart : Event → Bool
  | «attribute» _ _ _ => true
  | declarePrefix _ _ => true
  | _ => false

/-- What stands before a start tag: prefixes that are asked for, and at most one comment behind
them. -/
inductive IsLead : List Event → Prop
  | requests {l : List Event} (h : ∀ e ∈ l, e.isRequest = true) : IsLead l
  | comment {l : List Event} (h : ∀ e ∈ l, e.isRequest = true) (value : String) :
      IsLead (l ++ [.comment value])

mutual

/-- One element. -/
inductive IsElement : List Event → Prop
  | element {lead tag inside : List Event} {uri name : String} (hl : IsLead lead)
      (ht : ∀ e ∈ tag, e.isTagPart = true) (hi : IsInside inside) :
      IsElement (lead ++ .startElement uri name :: (tag ++ (inside ++ [.endElement])))

/-- What stands between the tags of an element: a text, or elements, but not both. -/
inductive IsInside : List Event → Prop
  | text (value : String) : IsInside [.text value]
  | elements {l : List Event} (h : AreElements l) : IsInside l

/-- Elements one after another. -/
inductive AreElements : List Event → Prop
  | nil : AreElements []
  | cons {l l' : List Event} (h : IsElement l) (h' : AreElements l') : AreElements (l ++ l')

end

/-- The prefixes that are asked for before the root element, for the namespace of marker attributes
and for that of the root, if it is in one. -/
inductive AreDeclarations (root : QName) : List Event → Prop
  | bare (h : root.namespaceUri = "") (pfx : String) :
      AreDeclarations root [.declarePrefix Namespace.xsi pfx]
  | qualified (h : root.namespaceUri ≠ "") (pfx pfx' : String) :
      AreDeclarations root
        [.declarePrefix Namespace.xsi pfx, .declarePrefix root.namespaceUri pfx']

/-- A document with a root element of this name, or with one that stands for it. -/
inductive IsDocument (root : QName) : List Event → Prop
  | document {declarations element : List Event} (hd : AreDeclarations root declarations)
      (he : IsElement element) :
      IsDocument root (.startDocument :: (declarations ++ (element ++ [.endDocument])))

/-- The end of a document comes last. -/
theorem IsDocument.exists_append {root : QName} {l : List Event} (h : IsDocument root l) :
    ∃ before, l = before ++ [.endDocument] := by
  obtain @⟨declarations, element, -, -⟩ := h
  exact ⟨.startDocument :: (declarations ++ element), by simp⟩

theorem AreElements.append {l l' : List Event} (h : AreElements l) (h' : AreElements l') :
    AreElements (l ++ l') := by
  induction h using AreElements.rec (motive_1 := fun _ _ => True) (motive_2 := fun _ _ => True) with
  | nil => exact h'
  | cons hfirst _ _ ih => rw [List.append_assoc]; exact .cons hfirst ih
  | element => trivial
  | text => trivial
  | elements => trivial

theorem AreElements.single {l : List Event} (h : IsElement l) : AreElements l := by
  simpa using AreElements.cons h .nil

end Event

/-! ## Events of a run -/

/-- The event that is kept of a call with this answer. -/
def Call.event : Call → String → Event
  | .startDocument, _ => .startDocument
  | .declarePrefix uri, answer => .declarePrefix uri answer
  | .startElement uri name, _ => .startElement uri name
  | .attribute uri name value, _ => .attribute uri name value
  | .text value, _ => .text value
  | .comment value, _ => .comment value
  | .endElement, _ => .endElement
  | .endDocument, _ => .endDocument

/-- The event of a step, if it is a call that was taken. -/
def Step.event? {σ : Type} : Step σ → Option Event
  | made c _ answer => some (c.event answer)
  | _ => none

/-- The events of some steps. -/
def eventsOf {σ : Type} (st : List (Step σ)) : List Event := st.filterMap Step.event?

section

variable {σ : Type} {c : Call} {s : σ} {answer : String} {st st' : List (Step σ)}

@[simp] theorem eventsOf_nil : eventsOf ([] : List (Step σ)) = [] := rfl

@[simp] theorem eventsOf_made : eventsOf (.made c s answer :: st) = c.event answer :: eventsOf st :=
  rfl

@[simp] theorem eventsOf_refused {e : Error} : eventsOf (.refused c s e :: st) = eventsOf st := rfl

@[simp] theorem eventsOf_noted {n : Note} : eventsOf (.noted n :: st) = eventsOf st := rfl

@[simp] theorem eventsOf_append : eventsOf (st ++ st') = eventsOf st ++ eventsOf st' :=
  List.filterMap_append

end

namespace Recorder

variable {c : Call} {r r' : Recorder}

theorem perform_ok {answer : String} (h : r.perform c = (.ok answer, r')) :
    r'.events = r.events.push (c.event answer) := by
  cases c with
  | declarePrefix uri =>
    simp only [perform] at h
    split at h <;> (cases h; rfl)
  | endElement =>
    simp only [perform] at h
    split at h
    · cases h
    · cases h
      rfl
  | _ => cases h; rfl

theorem perform_error {e : Error} (h : r.perform c = (.error e, r')) : r' = r := by
  cases c with
  | declarePrefix uri =>
    simp only [perform] at h
    split at h <;> cases h
  | endElement =>
    simp only [perform] at h
    split at h
    · cases h
      rfl
    · cases h
  | _ => cases h

end Recorder

/-- **A recorder keeps the events of a run**, behind those that it has already. -/
theorem Script.run_recorder {σ α : Type} (script : Script σ α) (r : Recorder) :
    (script.run r).2.events.toList = r.events.toList ++ eventsOf (script.steps r) := by
  induction script generalizing r with
  | stop result s => simp [run, steps]
  | note n next ih => simpa [run, steps] using ih r
  | call c s next ih =>
    unfold run steps
    rcases hp : Writer.perform c r with ⟨e | answer, r'⟩
    · simp [Recorder.perform_error hp]
    · simp [ih, Recorder.perform_ok hp]

/-! ## Stretches of a stream -/

/-- A kind of stretches of an event stream. -/
abbrev Stretch := List Event → Prop

namespace Stretch

/-- A stretch of one kind and one of another kind behind it. -/
def andThen (R S : Stretch) : Stretch := fun l => ∃ l₁ l₂, l = l₁ ++ l₂ ∧ R l₁ ∧ S l₂

/-- Nothing but this event. -/
def just (e : Event) : Stretch := fun l => l = [e]

/-- The beginning of a stretch, perhaps all of it. -/
def Begins (R : Stretch) : Stretch := fun l => ∃ more, R (l ++ more)

/-- Stretches that may stand behind each other any number of times. -/
structure IsRow (R : Stretch) : Prop where
  nil : R []
  append {l l' : List Event} : R l → R l' → R (l ++ l')

variable {R S : Stretch}

theorem Begins.of_all {l : List Event} (h : R l) : R.Begins l := ⟨[], by rwa [List.append_nil]⟩

theorem Begins.imp {l : List Event} (h : R.Begins l) (hRS : ∀ l, R l → S l) : S.Begins l := by
  obtain ⟨more, hmore⟩ := h
  exact ⟨more, hRS _ hmore⟩

theorem exists_andThen (hR : ∃ l, R l) (hS : ∃ l, S l) : ∃ l, R.andThen S l := by
  obtain ⟨l, hl⟩ := hR
  obtain ⟨l', hl'⟩ := hS
  exact ⟨l ++ l', l, l', rfl, hl, hl'⟩

theorem exists_just (e : Event) : ∃ l, just e l := ⟨[e], rfl⟩

theorem isRow_all (p : Event → Prop) : IsRow fun l => ∀ e ∈ l, p e where
  nil := fun _ h => absurd h List.not_mem_nil
  append := fun h h' => List.forall_mem_append.mpr ⟨h, h'⟩

theorem isRow_areElements : IsRow Event.AreElements := ⟨.nil, .append⟩

/-- The parts of a start tag. -/
def tagParts : Stretch := fun l => ∀ e ∈ l, e.isTagPart = true

theorem isRow_tagParts : IsRow tagParts := isRow_all _

end Stretch

end Specimen

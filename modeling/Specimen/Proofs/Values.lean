import Specimen.Proofs.Announcement
import Specimen.Proofs.Escaping
import Specimen.Proofs.Places

/-!
# Values in a text

Where a value is reported, its place in the text is known: an attribute stands in the tag that is held
back, behind those that were reported before it, and a text fills an element from its start tag to its
end tag. No indentation comes between, as a line only begins behind a tag or comment. A reader that has
come to this place reads the value as it was reported, but for line breaks and other space.
-/

namespace Specimen

open Markup

/-! ## Places of values -/

namespace Event

/-- The events end within a start tag. -/
def EndInTag (l : List Event) : Prop :=
  ∃ outer uri name tag, l = outer ++ .startElement uri name :: tag
    ∧ ∀ e ∈ tag, e.isTagPart = true

/-- The events begin within a start tag and leave it. -/
def LeaveTag (l : List Event) : Prop :=
  ∃ inner next rest, l = inner ++ next :: rest ∧ (∀ e ∈ inner, e.call.StaysInTag)
    ∧ next.call.LeavesTag

theorem EndInTag.outer {l : List Event} (h : EndInTag l) (outer : List Event) :
    EndInTag (outer ++ l) := by
  obtain ⟨outer', uri, name, tag, rfl, htag⟩ := h
  exact ⟨outer ++ outer', uri, name, tag, (List.append_assoc _ _ _).symm, htag⟩

theorem LeaveTag.more {l : List Event} (h : LeaveTag l) (more : List Event) :
    LeaveTag (l ++ more) := by
  obtain ⟨inner, next, rest, rfl, hinner, hnext⟩ := h
  exact ⟨inner, next, rest ++ more, by simp, hinner, hnext⟩

theorem LeaveTag.inTag {l tag : List Event} (h : LeaveTag l) (htag : ∀ e ∈ tag, e.isTagPart = true) :
    LeaveTag (tag ++ l) := by
  obtain ⟨inner, next, rest, rfl, hinner, hnext⟩ := h
  refine ⟨tag ++ inner, next, rest, by simp, List.forall_mem_append.mpr ⟨fun e he => ?_, hinner⟩, hnext⟩
  exact XmlWriter.staysInTag_of_isTagPart (htag e he)

/-- A value stands in its place: an attribute within a start tag, and a text right behind the start
tag and right before the end of its element. -/
def valueLaw : PlaceLaw Event := fun before e after =>
  match e with
  | .attribute _ _ _ => EndInTag before ∧ LeaveTag after
  | .text _ => EndInTag before ∧ ∃ rest, after = .endElement :: rest
  | _ => True

theorem isLocal_valueLaw : valueLaw.IsLocal := by
  intro before e after h outer more
  cases e with
  | «attribute» uri name value => exact ⟨h.1.outer outer, h.2.more more⟩
  | text value =>
    obtain ⟨hbefore, rest, rfl⟩ := h
    exact ⟨hbefore.outer outer, rest ++ more, rfl⟩
  | _ => trivial

/-- No value stands before a start tag. -/
theorem IsLead.eachPlace {l : List Event} (h : IsLead l) : EachPlace valueLaw l := by
  have hrequest {e : Event} (h : e.isRequest = true) (before after : List Event) :
      valueLaw before e after := by
    cases e with
    | declarePrefix uri pfx => trivial
    | _ => cases h
  cases h with
  | requests h => exact .of_forall fun e he => hrequest (h e he)
  | comment h value =>
    refine .of_forall (List.forall_mem_append.mpr ⟨fun e he => hrequest (h e he), ?_⟩)
    exact List.forall_mem_singleton.mpr fun _ _ => trivial

/-- In a start tag there are attributes, each in its place. -/
theorem eachPlace_tag {lead tag after : List Event} (hlead : IsLead lead) (uri name : String)
    (htag : ∀ e ∈ tag, e.isTagPart = true) (hafter : LeaveTag after) :
    EachPlace (fun before e behind => valueLaw before e (behind ++ after))
      (lead ++ .startElement uri name :: tag) := by
  refine .of_append (fun before e behind heq => ?_) fun before e behind heq => ?_
  · have hplace := isLocal_valueLaw _ _ _ (hlead.eachPlace _ _ _ heq) []
      (.startElement uri name :: tag ++ after)
    simpa using hplace
  · cases before with
    | nil =>
      obtain ⟨rfl, rfl⟩ := List.cons.inj heq
      trivial
    | cons first tag₁ =>
      obtain ⟨rfl, rfl⟩ := List.cons.inj heq
      obtain ⟨htag₁, htag₂⟩ := List.forall_mem_append.mp htag
      obtain ⟨he, hbehind⟩ := List.forall_mem_cons.mp htag₂
      cases e with
      | «attribute» uri' name' value =>
        exact ⟨⟨lead, uri, name, tag₁, rfl, htag₁⟩, hafter.inTag hbehind⟩
      | declarePrefix uri' pfx => trivial
      | _ => cases he

/-- By the grammar of elements: every value is in its place. -/
theorem IsElement.eachPlace {l : List Event} (h : IsElement l) : EachPlace valueLaw l := by
  -- The three motives: an element, what is inside of one behind its tag, and a row of elements.
  induction h using IsElement.rec
    (motive_2 := fun l _ => ∀ outer, EndInTag outer →
      EachPlace (fun before e after => valueLaw (outer ++ before) e (after ++ [.endElement])) l)
    (motive_3 := fun l _ => EachPlace valueLaw l) with
  | @element lead tag inside uri name hlead htag hinside ih =>
    have houter : EndInTag (lead ++ .startElement uri name :: tag) := ⟨lead, uri, name, tag, rfl, htag⟩
    have hafter : LeaveTag (inside ++ [.endElement]) := by
      obtain ⟨inner, next, rest, heq, hinner, -, hnext⟩ := hinside.exists_leavesTag []
      exact ⟨inner, next, rest, heq, hinner, hnext⟩
    rw [← List.cons_append, ← List.append_assoc]
    refine .of_append (eachPlace_tag hlead uri name htag hafter) ?_
    refine EachPlace.of_append (P := fun before e after =>
      valueLaw (lead ++ .startElement uri name :: tag ++ before) e after) (ih _ houter) ?_
    intro before e after heq
    have he : e = .endElement := by
      have hmem : e ∈ [Event.endElement] := by rw [heq]; simp
      exact List.mem_singleton.mp hmem
    subst he
    trivial
  | text value =>
    rename_i outer houter
    intro before e after heq
    cases before with
    | nil =>
      obtain ⟨rfl, rfl⟩ := List.cons.inj heq
      rw [List.append_nil]
      exact ⟨houter, [], rfl⟩
    | cons first before =>
      obtain ⟨-, hnil⟩ := List.cons.inj heq
      exact absurd hnil.symm (by simp)
  | elements _ ih =>
    rename_i outer _
    intro before e after heq
    exact isLocal_valueLaw _ _ _ (ih _ _ _ heq) outer [.endElement]
  | nil => exact .nil
  | cons _ _ ih ih' => exact .append isLocal_valueLaw ih ih'

/-- **In a document every value is in its place.** -/
theorem IsDocument.eachPlace {root : QName} {l : List Event} (h : IsDocument root l) :
    EachPlace valueLaw l := by
  obtain @⟨declarations, element, hdeclarations, helement⟩ := h
  have hlead : EachPlace valueLaw (.startDocument :: declarations) := by
    refine .of_forall (List.forall_mem_cons.mpr ⟨fun _ _ => trivial, ?_⟩)
    cases hdeclarations with
    | bare _ pfx => exact List.forall_mem_singleton.mpr fun _ _ => trivial
    | qualified _ pfx pfx' =>
      exact List.forall_mem_cons.mpr ⟨fun _ _ => trivial,
        List.forall_mem_singleton.mpr fun _ _ => trivial⟩
  have hend : EachPlace valueLaw [.endDocument] :=
    .of_forall (List.forall_mem_singleton.mpr fun _ _ => trivial)
  exact .append isLocal_valueLaw hlead (.append isLocal_valueLaw helement.eachPlace hend)

end Event

/-! ## Attributes that are held back -/

namespace XmlWriter

/-- A tag is held back, and begins with these attributes. -/
def HoldsBack (w : XmlWriter) (attributes : List (String × String)) : Prop :=
  ∃ tag, w.held = some tag ∧ attributes <+: tag.attributes

variable {w w' : XmlWriter} {attributes : List (String × String)}

theorem HoldsBack.ensureDeclared (h : w.HoldsBack attributes) (uri : String) :
    (w.ensureDeclared uri).2.HoldsBack attributes := by
  obtain ⟨tag, hheld, hattributes⟩ := h
  rw [XmlWriter.ensureDeclared]
  split
  · exact ⟨tag, hheld, hattributes⟩
  · dsimp only
    split
    · exact ⟨tag, hheld, hattributes⟩
    · simp only [hheld]
      exact ⟨_, rfl, hattributes.trans (List.prefix_append _ _)⟩

theorem HoldsBack.foldl_ensureDeclared (h : w.HoldsBack attributes) (uris : List String) :
    (uris.foldl (fun w uri => (w.ensureDeclared uri).2) w).HoldsBack attributes := by
  induction uris generalizing w with
  | nil => exact h
  | cons uri uris ih => exact ih (h.ensureDeclared uri)

/-- A tag whose name is changed, or to which an attribute is added. -/
theorem HoldsBack.mapHeld (h : w.HoldsBack attributes) (f : HeldTag → HeldTag)
    {more : List (String × String)} (hf : ∀ tag, (f tag).attributes = tag.attributes ++ more) :
    HoldsBack { w with held := w.held.map f } attributes
      ∧ ∃ earlier, HoldsBack { w with held := w.held.map f } (earlier ++ more) := by
  obtain ⟨tag, hheld, hattributes⟩ := h
  have hmapped : w.held.map f = some (f tag) := by rw [hheld, Option.map_some]
  refine ⟨⟨f tag, hmapped, ?_⟩, tag.attributes, f tag, hmapped, ?_⟩
  · rw [hf]
    exact hattributes.trans (List.prefix_append _ _)
  · simp only [hf, List.prefix_rfl]

theorem holdsBack_startElement {uri name : String}
    (h : w.take (.startElement uri name) = (.ok (), w')) : w'.HoldsBack [] := by
  obtain ⟨w₁, -, hrest⟩ := startElement_ok h
  obtain rfl := hrest _ rfl
  have hnew : HoldsBack { w₁ with held := some ⟨"", [], []⟩, awaited := [] } [] :=
    ⟨_, rfl, List.prefix_rfl⟩
  have hdeclared := (hnew.foldl_ensureDeclared w₁.awaited).ensureDeclared uri
  have hnamed (f : HeldTag → HeldTag) (hf : ∀ tag, (f tag).attributes = tag.attributes ++ []) :=
    (hdeclared.mapHeld f hf).1
  exact hnamed _ fun tag => (List.append_nil _).symm

theorem holdsBack_attribute {uri name value : String} (hw : w.HoldsBack attributes)
    (h : w.take (.attribute uri name value) = (.ok (), w')) :
    w'.HoldsBack attributes
      ∧ ∃ earlier, w'.HoldsBack (earlier ++ [(qualify (w.ensureDeclared uri).1 name, value)]) := by
  obtain ⟨-, rfl⟩ := addAttribute_ok h
  exact (hw.ensureDeclared uri).mapHeld _ fun _ => rfl

/-- **What stays in a tag puts nothing**, and keeps the attributes that are there. -/
theorem holdsBack_inTag {calls : List Call} (hw : w.HoldsBack attributes)
    (hcalls : ∀ c ∈ calls, c.StaysInTag) (h : performAll calls w = (.ok (), w')) :
    w'.HoldsBack attributes ∧ piecesOf calls w = [] := by
  induction calls generalizing w with
  | nil =>
    cases h
    exact ⟨hw, rfl⟩
  | cons c rest ih =>
    obtain ⟨w₁, htake, hperform, hrest⟩ := performAll_cons_ok h
    obtain ⟨hc, hcalls⟩ := List.forall_mem_cons.mp hcalls
    have hone : w₁.HoldsBack attributes ∧ w.pieces c = [] := by
      cases c with
      | declarePrefix uri =>
        obtain rfl := congrArg Prod.snd htake
        exact ⟨hw.ensureDeclared uri, rfl⟩
      | «attribute» uri name value => exact ⟨(holdsBack_attribute hw htake).1, rfl⟩
      | text value =>
        rcases addText_ok htake with ⟨hempty, rfl⟩ | ⟨hne, -⟩
        · exact ⟨hw, if_pos hempty⟩
        · exact absurd hc hne
      | _ => exact hc.elim
    obtain ⟨hw', hpieces⟩ := ih hone.1 hcalls hrest
    rw [piecesOf, hone.2, hperform, hpieces]
    exact ⟨hw', rfl⟩

/-- Where the calls end within a start tag, it is held back. -/
theorem holdsBack_of_endInTag {events : List Event} (hevents : Event.EndInTag events)
    (h : performAll (events.map Event.call) w = (.ok (), w')) : w'.HoldsBack [] := by
  obtain ⟨outer, uri, name, tag, rfl, htag⟩ := hevents
  rw [List.map_append, List.map_cons] at h
  obtain ⟨w₁, -, hrest⟩ := performAll_append_ok h
  obtain ⟨w₂, hstart, -, htagged⟩ := performAll_cons_ok hrest
  have hstays : ∀ c ∈ tag.map Event.call, c.StaysInTag :=
    List.forall_mem_map.mpr fun e he => staysInTag_of_isTagPart (htag e he)
  exact (holdsBack_inTag (holdsBack_startElement hstart) hstays htagged).1

/-! ## Values that are put -/

/-- A line break where a tag or comment begins is nothing but space. -/
theorem isSpace_leadPieces (w : XmlWriter) :
    ∀ c ∈ (textOf w.leadPieces).toList, Xml.isSpace c = true := by
  rw [textOf_leadPieces, lead]
  split
  · have hblanks : ∀ c ∈ List.replicate (w.indent * w.opened.length) ' ', Xml.isSpace c = true :=
      fun c hc => by rw [List.eq_of_mem_replicate hc]; rfl
    rw [String.toList_append]
    refine List.forall_mem_append.mpr ⟨Xml.forall_mem_of_all (by decide), ?_⟩
    rwa [String.toList_ofList]
  · exact List.forall_mem_nil _

/-- Behind `front` stands a start tag, and in it an attribute with this name. A reader of the tag
takes `value` for its value. -/
def HasAttribute (text front name value : String) : Prop :=
  ∃ lead tagName earlier literal rest, (∀ c ∈ lead.toList, Xml.isSpace c = true)
    ∧ text = front ++ lead ++ "<" ++ tagText tagName earlier ++ " " ++ name ++ literal
    ∧ Xml.attributeAt? literal.toList = some (value, rest)

/-- Behind `front` stand a start tag, a text and the end tag of the element. A reader of what is
inside the element takes it for this one text. -/
def HasText (text front value : String) : Prop :=
  ∃ lead tagName attributes inside rest, (∀ c ∈ lead.toList, Xml.isSpace c = true)
    ∧ text = front ++ lead ++ startTag tagName attributes ++ inside
    ∧ Xml.textAt? inside.toList = some ([.text value], (endTag tagName).toList ++ rest)

/-- The text of a tag, split at one of its attributes. -/
theorem tagText_append (name : String) (earlier later : List (String × String))
    (attr : String × String) :
    tagText name (earlier ++ attr :: later)
      = tagText name earlier ++ " " ++ attr.1
        ++ ("=\"" ++ escape attr.2 ++ "\"" ++ String.join (later.map attributeText)) := by
  simp [tagText, attributeText, String.join_append, String.join_cons, String.append_assoc]

/-- An attribute of a tag that is put. -/
theorem hasAttribute_of_tag {text front name value : String} {lead rest : List Piece} {tag : HeldTag}
    {piece : Piece} {earlier : List (String × String)}
    (hlead : ∀ c ∈ (textOf lead).toList, Xml.isSpace c = true) (hpiece : IsPutAs tag piece)
    (hattr : earlier ++ [(name, value)] <+: tag.attributes)
    (hvalue : ∀ c ∈ value.toList, Xml.isChar c = true)
    (htext : text = front ++ textOf (lead ++ piece :: rest)) :
    HasAttribute text front name (Xml.normalizedValue value) := by
  obtain ⟨later, hlater⟩ := hattr
  obtain ⟨close, hclose⟩ : ∃ close, piece.toText = "<" ++ tagText tag.name tag.attributes ++ close := by
    rcases hpiece with rfl | rfl
    · exact ⟨_, rfl⟩
    · exact ⟨_, rfl⟩
  let behind : String := String.join (later.map attributeText) ++ close ++ textOf rest
  refine ⟨textOf lead, tag.name, earlier, "=\"" ++ escape value ++ "\"" ++ behind, behind.toList,
    hlead, ?_, ?_⟩
  · rw [htext, textOf_append, ← List.singleton_append, textOf_append, textOf_singleton, hclose,
      ← hlater, List.append_assoc, List.singleton_append, tagText_append]
    simp only [behind, String.append_assoc]
  · have hread := Xml.attributeAt?_escape hvalue behind.toList
    simpa [String.toList_append] using hread

/-- A text between the tags of its element. -/
theorem hasText_of_tags {text front value tagName : String} {lead rest : List Piece}
    {attributes : List (String × String)}
    (hlead : ∀ c ∈ (textOf lead).toList, Xml.isSpace c = true) (hne : value ≠ "")
    (hvalue : ∀ c ∈ value.toList, Xml.isChar c = true)
    (htext : text = front ++ textOf (lead
      ++ .startTag tagName attributes :: .text value :: .endTag tagName :: rest)) :
    HasText text front (Xml.normalizedText value) := by
  refine ⟨textOf lead, tagName, attributes, escape value ++ (endTag tagName ++ textOf rest),
    (textOf rest).toList, hlead, ?_, ?_⟩
  · have hpieces : textOf (.startTag tagName attributes :: .text value :: .endTag tagName :: rest)
        = startTag tagName attributes ++ (escape value ++ (endTag tagName ++ textOf rest)) := by
      simp [textOf, String.join_cons, Piece.toText]
    rw [htext, textOf_append, hpieces]
    simp only [String.append_assoc]
  · have hread := Xml.textAt?_escape hne hvalue ('/' :: (tagName.toList ++ '>' :: (textOf rest).toList))
    simpa [String.toList_append, endTag] using hread

section

variable {before after : List Event} {value : String}

/-- **An attribute that is reported stands in the tag** that is put next, and is read there. -/
theorem hasAttribute_of_reported {uri name : String} (hbefore : Event.EndInTag before)
    (hafter : Event.LeaveTag after) (hvalue : ∀ c ∈ value.toList, Xml.isChar c = true)
    (h : performAll ((before ++ .attribute uri name value :: after).map Event.call) w
      = (.ok (), w')) :
    ∃ pfx, HasAttribute w'.text (w.text ++ textOf (piecesOf (before.map Event.call) w))
      (qualify pfx name) (Xml.normalizedValue value) := by
  obtain ⟨inner, next, rest, rfl, hinner, hnext⟩ := hafter
  have htext := performAll_text h
  rw [List.map_append, List.map_cons, List.map_append, List.map_cons, Event.call] at h htext
  obtain ⟨w₁, hw₁, htail⟩ := performAll_append_ok h
  obtain ⟨w₂, htake, hperform, htail⟩ := performAll_cons_ok htail
  obtain ⟨w₃, hw₃, hrest⟩ := performAll_append_ok htail
  -- From the attribute on, the tag that is held back begins with it and those before it.
  obtain ⟨-, earlier, hw₂⟩ := holdsBack_attribute (holdsBack_of_endInTag hbefore hw₁) htake
  obtain ⟨⟨tag, hheld, hattributes⟩, hnone⟩ :=
    holdsBack_inTag hw₂ (List.forall_mem_map.mpr hinner) hw₃
  obtain ⟨piece, more, hpieces, hpiece⟩ := pieces_of_leavesTag hnext hheld
  have hput : piecesOf (Call.attribute uri name value
      :: (inner.map Event.call ++ next.call :: rest.map Event.call)) w₁
      = w₃.leadPieces ++ piece :: (more ++ piecesOf (rest.map Event.call) (perform next.call w₃).2) := by
    rw [piecesOf, hperform, piecesOf_append _ hw₃, hnone, piecesOf, hpieces]
    simp [pieces]
  rw [piecesOf_append _ hw₁, hput, textOf_append, ← String.append_assoc] at htext
  exact ⟨_, hasAttribute_of_tag w₃.isSpace_leadPieces hpiece hattributes hvalue htext⟩

/-- **A text that is reported fills its element**, and is read there. -/
theorem hasText_of_reported (hne : value ≠ "") (hbefore : Event.EndInTag before)
    (hvalue : ∀ c ∈ value.toList, Xml.isChar c = true)
    (h : performAll ((before ++ .text value :: .endElement :: after).map Event.call) w
      = (.ok (), w')) :
    HasText w'.text (w.text ++ textOf (piecesOf (before.map Event.call) w))
      (Xml.normalizedText value) := by
  have htext := performAll_text h
  rw [List.map_append, List.map_cons, List.map_cons, Event.call, Event.call] at h htext
  obtain ⟨w₁, hw₁, htail⟩ := performAll_append_ok h
  obtain ⟨w₂, htake, hperform, htail⟩ := performAll_cons_ok htail
  obtain ⟨tag, hheld, -⟩ := holdsBack_of_endInTag hbefore hw₁
  -- The text opens the tag, so that the element is ended by a tag of its own.
  have hopened : w₂.held = none ∧ w₂.breaksLine = false
      ∧ w₂.opened = ⟨tag.name, tag.declared⟩ :: w₁.opened := by
    rcases addText_ok htake with ⟨hempty, -⟩ | ⟨-, w₃, sink, hopen, rfl, -⟩
    · exact absurd hempty hne
    · rcases openHeld_ok hopen with ⟨hnone, -⟩ | ⟨tag', sink', hsome, rfl, -⟩
      · rw [hheld] at hnone
        cases hnone
      · obtain rfl := Option.some.inj (hheld.symm.trans hsome)
        exact ⟨rfl, rfl, rfl⟩
  obtain ⟨hnone, hbreaks, hopened⟩ := hopened
  have hstart : w₁.pieces (.text value)
      = w₁.leadPieces ++ [.startTag tag.name tag.attributes, .text value] := by
    rw [pieces, if_neg hne, startPieces, hheld]
    simp
  have hend : w₂.pieces .endElement = [.endTag tag.name] := by
    simp [pieces, hnone, endPieces, hopened, leadPieces, hbreaks]
  have hput : piecesOf (Call.text value :: Call.endElement :: after.map Event.call) w₁
      = w₁.leadPieces ++ .startTag tag.name tag.attributes :: .text value :: .endTag tag.name
        :: piecesOf (after.map Event.call) (perform .endElement w₂).2 := by
    rw [piecesOf, hstart, hperform, piecesOf, hend]
    simp
  rw [piecesOf_append _ hw₁, hput, textOf_append, ← String.append_assoc] at htext
  exact hasText_of_tags w₁.isSpace_leadPieces hne hvalue htext

end

end XmlWriter

/-! ## Documents -/

namespace Document

variable {σ : Type} [Source σ]

/-- What a writer puts while these steps are made. -/
def putBy (sink : Sink) (indent : Nat) (st : List (Step (Supply σ))) : String :=
  sink.written ++ Markup.textOf (XmlWriter.piecesOf ((eventsOf st).map Event.call) { sink, indent })

/-- **Values are read as they were reported, but for space.** In a run that succeeds, let a value of
characters that a document may hold be reported for an attribute. Behind what had been put before,
the attribute stands in a start tag, and a reader takes for its value the one that was reported, with
a line feed for each line break and then a blank for each kind of space; this is the value itself if
it has no space but blanks. Let such a text be reported that is not empty. It stands between the start
tag and the end tag of an element, and a reader takes for it the one that was reported, with a line
feed for each line break; this is the text itself if it has no carriage return. All this is so at
every indentation. -/
theorem generate_values (w : Leaf.Setting) (root : QName) (source : σ) (sink : Sink) (indent : Nat)
    (hok : (generate w root source ({ sink, indent } : XmlWriter)).result = .ok ()) :
    let text := (generate w root source ({ sink, indent } : XmlWriter)).writer.text
    (∀ before c s answer behind,
      steps w root source ({ sink, indent } : XmlWriter) = before ++ .made c s answer :: behind →
        (∀ uri name value, c = .attribute uri name value →
          (∀ c ∈ value.toList, Xml.isChar c = true) →
          ∃ pfx, XmlWriter.HasAttribute text (putBy sink indent before) (qualify pfx name)
            (Xml.normalizedValue value))
        ∧ ∀ value, c = .text value → value ≠ "" → (∀ c ∈ value.toList, Xml.isChar c = true) →
          XmlWriter.HasText text (putBy sink indent before) (Xml.normalizedText value))
    ∧ ∀ value,
      (Xml.normalizedValue value = value ↔ ∀ c ∈ value.toList, Xml.isSpace c = true → c = ' ')
        ∧ (Xml.normalizedText value = value ↔ '\r' ∉ value.toList) := by
  intro text
  refine ⟨fun before c s answer behind heq => ?_, fun value =>
    ⟨Xml.normalizedValue_eq_self, Xml.normalizedText_eq_self⟩⟩
  have accepted : performAll ((eventsOf (steps w root source ({ sink, indent } : XmlWriter))).map
      Event.call) ({ sink, indent } : XmlWriter)
      = (.ok (), (generate w root source ({ sink, indent } : XmlWriter)).writer) :=
    Script.performAll_steps (walk w root { source }) hok
  have hdocument : Event.IsDocument root (eventsOf (steps w root source
      ({ sink, indent } : XmlWriter))) := (forms_walk w root _ _ _ _
    (Script.runs_steps (walk w root { source }) ({ sink, indent } : XmlWriter))).2 () hok
  have hplace := hdocument.eachPlace
  rw [heq, eventsOf_append, eventsOf_made] at accepted hplace
  have hvalue := hplace _ _ _ rfl
  constructor
  · rintro uri name value rfl hchars
    rw [Call.event] at accepted
    have hread := XmlWriter.hasAttribute_of_reported hvalue.1 hvalue.2 hchars accepted
    exact hread
  · rintro value rfl hne hchars
    obtain ⟨hbefore, rest, hrest⟩ := hvalue
    rw [Call.event, hrest] at accepted
    have hread := XmlWriter.hasText_of_reported hne hbefore hchars accepted
    exact hread

/-- A schema with one element, which has a value in an attribute and as its only text. -/
def holding (value : String) : Leaf.Setting :=
  let type := (SimpleType.restriction (.builtin "string")).withFacet (.enumeration [value])
  let use : AttributeUse :=
    ⟨.required, .fixed value, .inline ⟨.bare "x", .builtin "string", .free⟩⟩
  let content : Content := .simple (.anonymous (.simple type))
  let root : ElementDecl := ⟨0, .bare "a",
    .anonymous (.complex ⟨none, false, content, [.use use], none, none⟩), .global, false, none⟩
  { model := Model.builtin.addElement root
    policy := { fixedAttributes := .always }
    now := default }

/-- What is reported of this element. -/
def holdingEvents (value : String) : List Event :=
  [.startDocument, .declarePrefix Namespace.xsi "xsi", .startElement "" "a", .attribute "" "x" value,
    .text value, .endElement, .endDocument]

/-- The five characters are read again, from the attribute and from the text. -/
theorem generate_values_special :
    let value := "<&>'\" "
    let w := holding value
    let source : Scripted := ⟨[], 0⟩
    let xml := generate w (.bare "a") source ({ indent := 2 } : XmlWriter)
    xml.result = .ok () ∧ (∀ c ∈ value.toList, Xml.isChar c = true)
      ∧ eventsOf (steps w (.bare "a") source ({ indent := 2 } : XmlWriter)) = holdingEvents value
      ∧ xml.writer.text = Markup.declaration
        ++ "\n<a xmlns:xsi=\"http://www.w3.org/2001/XMLSchema-instance\""
        ++ " x=\"&lt;&amp;&gt;&apos;&quot; \">&lt;&amp;&gt;&apos;&quot; </a>\n"
      ∧ (∃ pfx, XmlWriter.HasAttribute xml.writer.text Markup.declaration (qualify pfx "x") value)
      ∧ XmlWriter.HasText xml.writer.text Markup.declaration value := by
  intro value w source xml
  have hok : xml.result = .ok () := by decide +kernel
  have hchars : ∀ c ∈ value.toList, Xml.isChar c = true :=
    Xml.forall_mem_of_all (by decide +kernel)
  let st := steps w (.bare "a") source ({ indent := 2 } : XmlWriter)
  have hevents : eventsOf st = holdingEvents value := by decide +kernel
  obtain ⟨hread, -⟩ := generate_values w (.bare "a") source {} 2 hok
  obtain ⟨hvalue, htext⟩ : Xml.normalizedValue value = value ∧ Xml.normalizedText value = value := by
    decide +kernel
  -- Before the attribute, and before the text, only the declaration has been put.
  have hput (n : Nat) (hn : n ∈ [3, 4]) (before : List (Step (Supply Scripted)))
      (h : eventsOf before = (holdingEvents value).take n) :
      putBy {} 2 before = Markup.declaration := by
    rw [putBy, h]
    clear h
    revert n
    decide +kernel
  have hattribute :
      ∃ pfx, XmlWriter.HasAttribute xml.writer.text Markup.declaration (qualify pfx "x") value := by
    have hsplit : eventsOf st
        = (holdingEvents value).take 3 ++ .attribute "" "x" value :: (holdingEvents value).drop 4 :=
      hevents
    obtain ⟨before, c, s, answer, behind, hst, hbefore, hevent, -⟩ := exists_made_of_eventsOf hsplit
    obtain rfl : c = .attribute "" "x" value := by rw [← Call.call_event c answer, hevent, Event.call]
    have hplace := (hread before _ s answer behind hst).1 "" "x" value rfl hchars
    rwa [hput 3 (by decide) before hbefore, hvalue] at hplace
  have hinside : XmlWriter.HasText xml.writer.text Markup.declaration value := by
    have hsplit : eventsOf st
        = (holdingEvents value).take 4 ++ .text value :: (holdingEvents value).drop 5 := hevents
    obtain ⟨before, c, s, answer, behind, hst, hbefore, hevent, -⟩ := exists_made_of_eventsOf hsplit
    obtain rfl : c = .text value := by rw [← Call.call_event c answer, hevent, Event.call]
    have hplace := (hread before _ s answer behind hst).2 value rfl (by decide) hchars
    rwa [hput 4 (by decide) before hbefore, htext] at hplace
  exact ⟨hok, hchars, hevents, by decide +kernel, hattribute, hinside⟩

/-- **Not all space is read as it was reported.** A tab and a line break in the value of an attribute
are read as blanks, and a carriage return in a text as a line feed. -/
theorem not_read_of_space :
    let value := "a\tb\rc"
    let w := holding value
    let source : Scripted := ⟨[], 0⟩
    let xml := generate w (.bare "a") source ({} : XmlWriter)
    let tag := Markup.declaration ++ "<a xmlns:xsi=\"http://www.w3.org/2001/XMLSchema-instance\" x"
    let inside := "a\tb\rc</a>\n"
    let literal := "=\"a\tb\rc\">" ++ inside
    xml.result = .ok () ∧ (∀ c ∈ value.toList, Xml.isChar c = true)
      ∧ eventsOf (steps w (.bare "a") source ({} : XmlWriter)) = holdingEvents value
      ∧ xml.writer.text = tag ++ literal
      ∧ Xml.attributeAt? literal.toList = some ("a b c", '>' :: inside.toList)
      ∧ Xml.textAt? inside.toList = some ([.text "a\tb\nc"], "</a>\n".toList)
      ∧ value ≠ "a b c" ∧ value ≠ "a\tb\nc" := by
  intro value w source xml tag inside literal
  have hchars : ∀ c ∈ value.toList, Xml.isChar c = true :=
    Xml.forall_mem_of_all (by decide +kernel)
  have htext : Xml.textAt? inside.toList = some ([.text "a\tb\nc"], "</a>\n".toList) := by
    have hinside : inside.toList = (escape value).toList ++ '<' :: "/a>\n".toList := by
      decide +kernel
    have hread : Xml.normalizedText value = "a\tb\nc" := by decide +kernel
    rw [hinside, Xml.textAt?_escape (by decide) hchars, hread]
    rfl
  exact ⟨by decide +kernel, hchars, by decide +kernel, by decide +kernel, by decide +kernel, htext,
    by decide, by decide⟩

end Document

end Specimen

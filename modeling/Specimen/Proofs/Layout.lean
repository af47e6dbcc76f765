import Specimen.Proofs.DocumentReading
import Specimen.Proofs.Independence

/-!
# Documents with and without an indentation

What is generated with an indentation is what is generated without one, laid out on lines
(`Document.generate_indented`). The run is the same. The text differs in line breaks between tags and
comments, and the trees that both texts are read as differ in space between elements.

For the trees this needs that names are made of characters that may stand in names. The writer puts
them as they are, and a bracket in a name ends the tag.
-/

namespace Specimen

open Markup

/-! ## Runs without refusals -/

/-- In a run in which nothing is refused, the writer takes all calls. -/
theorem Script.performAll_steps_of_made {σ α ω : Type} [Writer ω] (script : Script σ α) {w : ω}
    (h : ∀ c s e, .refused c s e ∉ script.steps w) :
    performAll ((eventsOf (script.steps w)).map Event.call) w = (.ok (), (script.run w).2) := by
  induction script generalizing w with
  | stop r s => rfl
  | note n next ih =>
    exact ih fun c s e hmem => h c s e (List.mem_cons_of_mem _ hmem)
  | call c s next ih =>
    rw [steps] at h
    rcases hc : Writer.perform c w with ⟨e | answer, w'⟩
    · rw [hc] at h
      exact absurd List.mem_cons_self (h c s e)
    · rw [hc] at h
      have hnext := ih answer fun c s e hmem => h c s e (List.mem_cons_of_mem _ hmem)
      simpa [steps, run, performAll, hc] using hnext

/-! ## Names that are put -/

namespace Xml

theorem isNameText_append {s s' : String} (h : IsNameText s) (h' : IsNameText s') :
    IsNameText (s ++ s') := by
  intro c hc
  rw [String.toList_append] at hc
  exact (List.mem_append.mp hc).elim (h c) (h' c)

theorem isNameText_colon : IsNameText ":" := forall_mem_of_all (by decide)

theorem isNameText_qualify {pfx name : String} (h : IsNameText pfx) (h' : IsNameText name) :
    IsNameText (qualify pfx name) := by
  rw [qualify]
  split
  · exact h'
  · exact isNameText_append (isNameText_append h isNameText_colon) h'

theorem isNamePart_of_isDigit {c : Char} (h : c.isDigit = true) : isNamePart c = true := by
  have hrange : 0x30 ≤ c.toNat ∧ c.toNat ≤ 0x39 := by
    rw [Char.isDigit, Bool.and_eq_true, decide_eq_true_eq, decide_eq_true_eq] at h
    exact ⟨UInt32.le_iff_toNat_le.mp h.1, UInt32.le_iff_toNat_le.mp h.2⟩
  rw [isNamePart, Bool.or_eq_true]
  refine .inr (List.any_eq_true.mpr ⟨(0x30, 0x39), by decide, ?_⟩)
  simpa using hrange

/-- The prefixes that are given out are made of characters that may stand in names. -/
theorem isNameText_of_isGiven {bound : Nat} {uri pfx : String} (h : Prefixes.IsGiven bound uri pfx) :
    IsNameText pfx := by
  rcases h with ⟨-, rfl⟩ | ⟨-, rfl⟩ | ⟨-, rfl⟩ | ⟨n, -, rfl⟩
  · exact forall_mem_of_all (by decide)
  · exact forall_mem_of_all (by decide)
  · exact forall_mem_of_all (by decide)
  · intro c hc
    rw [Prefixes.toList_numbered] at hc
    rcases List.mem_append.mp hc with hc | hc
    · have hletters : ∀ c ∈ ['n', 's'], isNamePart c = true := forall_mem_of_all (by decide)
      exact hletters c hc
    · exact isNamePart_of_isDigit (Nat.isDigit_of_mem_toDigits (by decide) (by decide) hc)

end Xml

namespace Call

/-- The local name that the call reports, if there is one, is made of characters that may stand in
names. -/
def HasNameText : Call → Prop
  | .startElement _ name => Xml.IsNameText name
  | .attribute _ name _ => Xml.IsNameText name
  | _ => True

instance : (call : Call) → Decidable call.HasNameText
  | .startElement _ name => inferInstanceAs (Decidable (Xml.IsNameText name))
  | .attribute _ name _ => inferInstanceAs (Decidable (Xml.IsNameText name))
  | .startDocument | .declarePrefix _ | .text _ | .comment _ | .endElement | .endDocument =>
    inferInstanceAs (Decidable True)

end Call

namespace XmlWriter

open Xml (IsNameText)

variable {w w' : XmlWriter}

/-- All names that may be put are made of characters that may stand in names. -/
structure IsNamed (w : XmlWriter) : Prop where
  prefixes : w.prefixes.IsSound
  held : ∀ tag ∈ w.held, IsNameText tag.name ∧ ∀ attr ∈ tag.attributes, IsNameText attr.1
  opened : ∀ element ∈ w.opened, IsNameText element.name

namespace IsNamed

theorem empty (sink : Sink) : IsNamed ({ sink } : XmlWriter) :=
  ⟨Prefixes.isSound_empty, nofun, nofun⟩

/-- A prefix may stand in a name. -/
theorem ensureDeclared (h : w.IsNamed) (uri : String) :
    IsNameText (w.ensureDeclared uri).1 ∧ (w.ensureDeclared uri).2.IsNamed := by
  have hasks := w.ensureDeclared_asks uri
  have hbind := h.prefixes.bind uri
  have hpfx : IsNameText (w.prefixes.bind uri).1.1 :=
    Xml.isNameText_of_isGiven (hbind.given (w.prefixes.get?_bind uri))
  generalize w.ensureDeclared uri = result at hasks ⊢
  cases hasks with
  | none _ => exact ⟨nofun, h⟩
  | declared _ _ => exact ⟨hpfx, hbind, h.held, h.opened⟩
  | added _ _ hheld =>
    refine ⟨hpfx, hbind, ?_, h.opened⟩
    rintro _ ⟨⟩
    obtain ⟨hname, hattributes⟩ := h.held _ hheld
    refine ⟨hname, List.forall_mem_append.mpr ⟨hattributes, List.forall_mem_singleton.mpr ?_⟩⟩
    exact Xml.isNameText_append (Xml.forall_mem_of_all (by decide)) hpfx
  | awaited _ _ _ => exact ⟨hpfx, hbind, h.held, h.opened⟩

theorem foldl_ensureDeclared (h : w.IsNamed) (uris : List String) :
    (uris.foldl (fun w uri => (w.ensureDeclared uri).2) w).IsNamed := by
  induction uris generalizing w with
  | nil => exact h
  | cons uri uris ih => exact ih (h.ensureDeclared uri).2

/-- The tag is changed to one with names that may be put. -/
theorem mapHeld (h : w.IsNamed) {f : HeldTag → HeldTag}
    (hf : ∀ tag, IsNameText tag.name ∧ (∀ attr ∈ tag.attributes, IsNameText attr.1) →
      IsNameText (f tag).name ∧ ∀ attr ∈ (f tag).attributes, IsNameText attr.1) :
    IsNamed { w with held := w.held.map f } := by
  refine ⟨h.prefixes, fun tag htag => ?_, h.opened⟩
  obtain ⟨tag', htag', rfl⟩ := Option.map_eq_some_iff.mp htag
  exact hf tag' (h.held tag' htag')

/-- **What a call puts has such names.** -/
theorem pieces (h : w.IsNamed) (call : Call) : ∀ piece ∈ w.pieces call, piece.IsNamed := by
  intro piece hmem
  cases w.mayPut_pieces call piece hmem with
  | lineBreak _ => trivial
  | last _ => trivial
  | startTag hheld => exact h.held _ hheld
  | emptyTag hheld => exact h.held _ hheld
  | endTag hopened => exact h.opened _ hopened
  | own hown =>
    cases call with
    | text value =>
      rw [Call.piece?] at hown
      split at hown <;> cases hown
      trivial
    | _ => cases hown <;> trivial

theorem openHeld (h : w.IsNamed) (hok : w.openHeld = (.ok (), w')) : w'.IsNamed := by
  rcases openHeld_ok hok with ⟨-, rfl⟩ | ⟨tag, sink, hheld, rfl, -⟩
  · exact h
  · exact ⟨h.prefixes, nofun, List.forall_mem_cons.mpr ⟨(h.held tag hheld).1, h.opened⟩⟩

theorem closeHeld (h : w.IsNamed) (hok : w.closeHeld = (.ok (), w')) : w'.IsNamed := by
  rcases closeHeld_ok hok with ⟨-, rfl⟩ | ⟨tag, sink, -, rfl, -⟩
  · exact h
  · exact ⟨h.prefixes, nofun, h.opened⟩

/-- A call that reports such a name, or none, leaves such names. -/
theorem take (h : w.IsNamed) {call : Call} (hcall : call.HasNameText)
    (hok : w.take call = (.ok (), w')) : w'.IsNamed := by
  cases call with
  | startDocument =>
    obtain ⟨sink, rfl, -⟩ := putMarkup_ok .declaration hok
    exact ⟨h.prefixes, h.held, h.opened⟩
  | declarePrefix uri =>
    obtain rfl := congrArg Prod.snd hok
    exact (h.ensureDeclared uri).2
  | startElement uri name =>
    obtain ⟨w₁, hopen, hrest⟩ := startElement_ok hok
    obtain rfl := hrest _ rfl
    have hnew : IsNamed { w₁ with held := some ⟨"", [], []⟩, awaited := [] } :=
      ⟨(h.openHeld hopen).prefixes, by rintro _ ⟨⟩; exact ⟨nofun, nofun⟩, (h.openHeld hopen).opened⟩
    obtain ⟨hpfx, hdeclared⟩ := (hnew.foldl_ensureDeclared w₁.awaited).ensureDeclared uri
    exact hdeclared.mapHeld fun tag htag => ⟨Xml.isNameText_qualify hpfx hcall, htag.2⟩
  | «attribute» uri name value =>
    obtain ⟨-, rfl⟩ := addAttribute_ok hok
    obtain ⟨hpfx, hdeclared⟩ := h.ensureDeclared uri
    refine hdeclared.mapHeld fun tag htag => ⟨htag.1, ?_⟩
    exact List.forall_mem_append.mpr
      ⟨htag.2, List.forall_mem_singleton.mpr (Xml.isNameText_qualify hpfx hcall)⟩
  | text value =>
    rcases addText_ok hok with ⟨-, rfl⟩ | ⟨-, w₁, sink, hopen, rfl, -⟩
    · exact h
    · have hopened := h.openHeld hopen
      exact ⟨hopened.prefixes, hopened.held, hopened.opened⟩
  | comment value =>
    obtain ⟨w₁, sink, hopen, rfl, -⟩ := addComment_ok hok
    have hopened := h.openHeld hopen
    exact ⟨hopened.prefixes, hopened.held, hopened.opened⟩
  | endElement =>
    rcases endElement_ok hok with ⟨-, hclose⟩ | ⟨-, element, outer, sink, hopened, rfl, -⟩
    · exact h.closeHeld hclose
    · refine ⟨h.prefixes, h.held, fun element hmem => h.opened element ?_⟩
      exact hopened ▸ List.mem_cons_of_mem _ hmem
  | endDocument =>
    obtain ⟨w₁, sink, hclose, -, rfl, -⟩ := endDocument_ok hok
    have hclosed := h.closeHeld hclose
    exact ⟨hclosed.prefixes, hclosed.held, hclosed.opened⟩

/-- **What calls put has such names** if those that they report are such. -/
theorem piecesOf (h : w.IsNamed) {calls : List Call} (hcalls : ∀ c ∈ calls, c.HasNameText)
    (hok : performAll calls w = (.ok (), w')) :
    ∀ piece ∈ XmlWriter.piecesOf calls w, piece.IsNamed := by
  induction calls generalizing w with
  | nil => exact List.forall_mem_nil _
  | cons call rest ih =>
    obtain ⟨w₁, htake, hperform, hrest⟩ := performAll_cons_ok hok
    obtain ⟨hcall, hcalls⟩ := List.forall_mem_cons.mp hcalls
    rw [XmlWriter.piecesOf, hperform]
    exact List.forall_mem_append.mpr ⟨h.pieces call, ih (h.take hcall htake) hcalls hrest⟩

end IsNamed

end XmlWriter

/-! ## What is put for what is reported -/

namespace XmlWriter

@[simp]
theorem filter_leadPieces (w : XmlWriter) : w.leadPieces.filter Piece.isReported = [] := by
  rw [leadPieces]
  split <;> rfl

@[simp]
theorem filter_startPieces (w : XmlWriter) : w.startPieces.filter Piece.isReported = [] := by
  rw [startPieces]
  split
  · rfl
  · rw [List.filter_append, filter_leadPieces]
    rfl

@[simp]
theorem filter_emptyPieces (w : XmlWriter) : w.emptyPieces.filter Piece.isReported = [] := by
  rw [emptyPieces]
  split
  · rfl
  · rw [List.filter_append, filter_leadPieces]
    rfl

@[simp]
theorem filter_endPieces (w : XmlWriter) : w.endPieces.filter Piece.isReported = [] := by
  rw [endPieces]
  split
  · rfl
  · rw [List.filter_append, filter_leadPieces]
    rfl

/-- Only a text and a comment put what they report; around it, there may be tags and line breaks. -/
theorem filter_pieces (w : XmlWriter) (call : Call) :
    (w.pieces call).filter Piece.isReported = call.piece?.toList := by
  cases call with
  | text value =>
    rw [pieces, Call.piece?]
    split
    · rfl
    · rw [List.filter_append, filter_startPieces]
      rfl
  | endElement =>
    rw [pieces]
    split
    · exact filter_emptyPieces w
    · exact filter_endPieces w
  | _ => simp [pieces, Call.piece?, Piece.isReported]

/-- **The texts and comments that are put are those that are reported.** -/
theorem filter_piecesOf (w : XmlWriter) (calls : List Call) :
    (piecesOf calls w).filter Piece.isReported = calls.filterMap Call.piece? := by
  induction calls generalizing w with
  | nil => rfl
  | cons call rest ih =>
    rw [piecesOf, List.filter_append, filter_pieces, ih, List.filterMap_cons]
    cases call.piece? <;> rfl

end XmlWriter

/-! ## The beginning and the end of a document -/

namespace Event

/-- The event is the beginning or the end of a document. -/
def isEdge : Event → Bool
  | .startDocument => true
  | .endDocument => true
  | _ => false

/-- A document neither begins nor ends among these events. -/
def AreInner (l : List Event) : Prop := ∀ e ∈ l, e.isEdge = false

namespace AreInner

variable {l l' : List Event}

theorem nil : AreInner [] := List.forall_mem_nil _

theorem append (h : AreInner l) (h' : AreInner l') : AreInner (l ++ l') :=
  List.forall_mem_append.mpr ⟨h, h'⟩

theorem cons {e : Event} (h : e.isEdge = false) (h' : AreInner l) : AreInner (e :: l) :=
  List.forall_mem_cons.mpr ⟨h, h'⟩

theorem tag (h : ∀ e ∈ l, e.isTagPart = true) : AreInner l := by
  intro e he
  have hpart := h e he
  cases e <;> first | rfl | cases hpart

theorem requests (h : ∀ e ∈ l, e.isRequest = true) : AreInner l := by
  intro e he
  have hrequest := h e he
  cases e <;> first | rfl | cases hrequest

theorem lead (h : IsLead l) : AreInner l := by
  cases h with
  | requests h => exact .requests h
  | comment h value => exact (requests h).append (cons rfl nil)

theorem declarations {root : QName} (h : AreDeclarations root l) : AreInner l := by
  cases h with
  | bare _ pfx => exact cons rfl nil
  | qualified _ pfx pfx' => exact cons rfl (cons rfl nil)

theorem element (h : IsElement l) : AreInner l := by
  induction h using IsElement.rec (motive_2 := fun l _ => AreInner l)
    (motive_3 := fun l _ => AreInner l) with
  | element hlead htag _ ih =>
    have hend : AreInner [.endElement] := cons rfl nil
    exact (lead hlead).append (cons rfl ((tag htag).append (ih.append hend)))
  | text value => exact cons rfl nil
  | elements _ ih => exact ih
  | nil => exact nil
  | cons _ _ ih ih' => exact ih.append ih'

end AreInner

/-- The beginning of a document comes first, and its end last. -/
theorem IsDocument.exists_inner {root : QName} {l : List Event} (h : IsDocument root l) :
    ∃ inner, l = .startDocument :: (inner ++ [.endDocument]) ∧ AreInner inner := by
  obtain @⟨declarations, element, hdeclarations, helement⟩ := h
  refine ⟨declarations ++ element, by rw [List.append_assoc], ?_⟩
  exact (AreInner.declarations hdeclarations).append (.element helement)

/-- What has been reported of a document is nothing, or its beginning with what follows, or all. -/
theorem IsDocument.exists_inner_of_append {root : QName} {l more : List Event}
    (h : IsDocument root (l ++ more)) :
    l = [] ∨ ∃ inner last, l = .startDocument :: (inner ++ last) ∧ AreInner inner
      ∧ (last = [] ∨ last = [.endDocument]) := by
  obtain ⟨inner, heq, hinner⟩ := h.exists_inner
  rcases List.append_eq_cons_iff.mp heq with ⟨rfl, -⟩ | ⟨l, rfl, hrest⟩
  · exact .inl rfl
  · refine .inr ?_
    rcases List.append_eq_append_iff.mp hrest.symm with ⟨behind, rfl, -⟩ | ⟨behind, rfl, hend⟩
    · exact ⟨l, [], by rw [List.append_nil], fun e he => hinner e (List.mem_append_left _ he), .inl rfl⟩
    · refine ⟨inner, behind, rfl, hinner, ?_⟩
      rcases List.append_eq_singleton_iff.mp hend.symm with ⟨rfl, -⟩ | ⟨rfl, -⟩
      · exact .inl rfl
      · exact .inr rfl

end Event

/-! ## Layouts -/

namespace Markup

/-- The lines are the row with line breaks in between. Each of them stands directly before a tag or a
comment, and neither first nor behind a text. -/
structure IsLayout (row lines : List Piece) : Prop where
  noBreak : ∀ piece ∈ row, piece.isBreak = false
  filter : lines.filter (fun piece => !piece.isBreak) = row
  due : ∀ before spaces after, lines = before ++ .lineBreak spaces :: after →
    before ≠ [] ∧ (∀ value, before.getLast? ≠ some (.text value))
      ∧ ∃ piece rest, after = piece :: rest ∧ piece.isMarkup = true ∧ piece ≠ .declaration

/-- Nothing is put, or the declaration and then no other. -/
def BeginsDocument (row : List Piece) : Prop :=
  row = [] ∨ ∃ rest, row = .declaration :: rest ∧ .declaration ∉ rest

/-- **What is put on lines of its own is a layout.** -/
theorem isLayout_indented (n : Nat) {row : List Piece} (hnone : ∀ piece ∈ row, piece.isBreak = false)
    (hbegins : BeginsDocument row) : IsLayout row (indented n {} row) := by
  refine ⟨hnone, ?_, fun before spaces after heq => ?_⟩
  · rw [filter_indented fun spaces => rfl]
    exact List.filter_eq_self.mpr fun piece hmem => by rw [hnone piece hmem]; rfl
  · rcases hbegins with rfl | ⟨rest, rfl, hrest⟩
    · exact absurd heq (by simp [indented])
    · have hfirst : indented n {} (.declaration :: rest) = .declaration :: indented n ⟨0, true⟩ rest :=
        rfl
      rw [hfirst] at heq
      rcases List.cons_eq_append_iff.mp heq with ⟨-, hcons⟩ | ⟨before, rfl, hbehind⟩
      · cases hcons
      · obtain ⟨-, htext, piece, more, rfl, hmem, hmarkup⟩ :=
          indented_breaks (List.forall_mem_cons.mp hnone).2 hbehind
        refine ⟨List.cons_ne_nil _ _, fun value hlast => ?_, piece, more, rfl, hmarkup,
          fun hpiece => hrest (hpiece ▸ hmem)⟩
        cases before with
        | nil => cases hlast
        | cons first before =>
          rw [List.getLast?_cons_cons] at hlast
          exact htext value hlast

/-- At the end of a document, there is a line break whatever the indentation. -/
theorem indented_end (n : Nat) (p : Position) (row : List Piece) :
    indented n p (row ++ [.lineBreak 0]) = indented n p row ++ [.lineBreak 0] := by
  rw [indented_append]
  rfl

end Markup

namespace XmlWriter

variable {n : Nat} {w w' w₁ : XmlWriter}

theorem Twins.performAll (h : Twins n w w') (calls : List Call) :
    SameEnd n (performAll calls w) (performAll calls w') := by
  induction calls generalizing w w' with
  | nil => exact ⟨rfl, h⟩
  | cons call rest ih =>
    obtain ⟨hsame, htwins⟩ := h.perform call
    rw [Specimen.performAll, Specimen.performAll]
    rcases hc : Writer.perform call w with ⟨e | answer, w₁⟩ <;>
      rcases hc' : Writer.perform call w' with ⟨e' | answer', w₁'⟩ <;>
      rw [hc, hc'] at hsame htwins
    · obtain rfl := Except.error.inj hsame
      exact ⟨rfl, htwins⟩
    · cases hsame
    · cases hsame
    · exact ih htwins

/-- Inside of a document, no declaration is put. -/
theorem notMem_piecesOf {inner : List Event} (h : Event.AreInner inner) (w : XmlWriter) :
    .declaration ∉ piecesOf (inner.map Event.call) w := by
  intro hmem
  have hreported : Piece.declaration ∈ (inner.map Event.call).filterMap Call.piece? := by
    rw [← filter_piecesOf w]
    exact List.mem_filter.mpr ⟨hmem, rfl⟩
  obtain ⟨call, hcall, hpiece⟩ := List.mem_filterMap.mp hreported
  obtain ⟨e, he, rfl⟩ := List.mem_map.mp hcall
  have hedge := h e he
  cases e with
  | startDocument => cases hedge
  | text value =>
    rw [Event.call, Call.piece?] at hpiece
    split at hpiece <;> cases hpiece
  | _ => cases hpiece

/-- A tag without content is no declaration, and without an indentation it is put alone. -/
theorem emptyPieces_compact (hindent : w.indent = 0) :
    ∀ piece ∈ w.emptyPieces, piece.isBreak = false ∧ piece ≠ .declaration := by
  rw [emptyPieces]
  split
  · exact List.forall_mem_nil _
  · rw [leadPieces_compact hindent]
    exact List.forall_mem_singleton.mpr ⟨rfl, Piece.noConfusion⟩

/-- What has been put of a document without an indentation: a row without line breaks, and one line
break behind it at the end. -/
theorem exists_row {root : QName} {events more : List Event} {sink : Sink}
    (h : Event.IsDocument root (events ++ more)) (hspace : HasSpace ({ sink } : XmlWriter))
    (hok : performAll (events.map Event.call) ({ sink } : XmlWriter) = (.ok (), w₁)) :
    ∃ row last, piecesOf (events.map Event.call) ({ sink } : XmlWriter) = row ++ last
      ∧ (last = [] ∨ last = [.lineBreak 0]) ∧ (∀ piece ∈ row, piece.isBreak = false)
      ∧ BeginsDocument row := by
  have htwins : Twins 0 ({ sink } : XmlWriter) { sink } := ⟨hspace, hspace, rfl, sink, rfl⟩
  rcases h.exists_inner_of_append with rfl | ⟨inner, last, rfl, hinner, hlast⟩
  · exact ⟨[], [], rfl, .inl rfl, List.forall_mem_nil _, .inl rfl⟩
  · rw [List.map_cons, List.map_append] at hok ⊢
    obtain ⟨w₂, htake, hperform, hrest⟩ := performAll_cons_ok hok
    obtain ⟨w₃, hputs, hend⟩ := performAll_append_ok hrest
    have htwins₂ := (htwins.perform .startDocument).2
    have hperform' : (Writer.perform .startDocument ({ sink } : XmlWriter)).2 = w₂ := hperform
    rw [hperform'] at htwins₂
    have htwins₃ := (htwins₂.performAll (inner.map Event.call)).2
    rw [hputs] at htwins₃
    have hcalls : ∀ call ∈ inner.map Event.call, call ≠ .endDocument := by
      refine List.forall_mem_map.mpr fun e he heq => ?_
      have hedge := hinner e he
      cases e <;> cases heq
      cases hedge
    have hrow := htwins₂.noBreak hcalls hputs
    have hnot := notMem_piecesOf hinner w₂
    have hpieces : piecesOf (Event.startDocument.call :: (inner.map Event.call ++ last.map Event.call))
        ({ sink } : XmlWriter) = .declaration
          :: (piecesOf (inner.map Event.call) w₂ ++ piecesOf (last.map Event.call) w₃) := by
      rw [piecesOf, hperform, piecesOf_append _ hputs]
      rfl
    rw [hpieces]
    -- Without an indentation, only the end of the document puts a line break.
    rcases hlast with rfl | rfl
    · exact ⟨.declaration :: piecesOf (inner.map Event.call) w₂, [], rfl, .inl rfl,
        List.forall_mem_cons.mpr ⟨rfl, hrow⟩, .inr ⟨_, rfl, hnot⟩⟩
    · have hempty := emptyPieces_compact htwins₃.indent
      refine ⟨.declaration :: (piecesOf (inner.map Event.call) w₂ ++ w₃.emptyPieces), [.lineBreak 0],
        ?_, .inr rfl, ?_, .inr ⟨_, rfl, ?_⟩⟩
      · rw [List.cons_append, List.append_assoc, List.map_singleton, Event.call, piecesOf_endDocument]
      · exact List.forall_mem_cons.mpr
          ⟨rfl, List.forall_mem_append.mpr ⟨hrow, fun piece hmem => (hempty piece hmem).1⟩⟩
      · rw [List.mem_append, not_or]
        exact ⟨hnot, fun hmem => (hempty _ hmem).2 rfl⟩

/-- **What has been put of a document with an indentation** is a layout of what is put without one:
a row of pieces, with one line break behind it at the end. The texts and comments are those that have
been reported. -/
theorem exists_layout {root : QName} {events more : List Event} {sink : Sink} (n : Nat)
    (h : Event.IsDocument root (events ++ more)) (hspace : HasSpace ({ sink } : XmlWriter))
    (hok : performAll (events.map Event.call) ({ sink } : XmlWriter) = (.ok (), w₁)) :
    ∃ row last, piecesOf (events.map Event.call) ({ sink } : XmlWriter) = row ++ last
      ∧ (last = [] ∨ last = [.lineBreak 0])
      ∧ indented n {} (row ++ last) = indented n {} row ++ last
      ∧ IsLayout row (indented n {} row)
      ∧ row.filter Piece.isReported = (events.map Event.call).filterMap Call.piece? := by
  obtain ⟨row, last, hpieces, hlast, hnone, hbegins⟩ := exists_row h hspace hok
  have hlines : indented n {} (row ++ last) = indented n {} row ++ last := by
    rcases hlast with rfl | rfl
    · rw [List.append_nil, List.append_nil]
    · exact indented_end n {} row
  have hend : last.filter Piece.isReported = [] := by
    rcases hlast with rfl | rfl <;> rfl
  refine ⟨row, last, hpieces, hlast, hlines, isLayout_indented n hnone hbegins, ?_⟩
  rw [← filter_piecesOf ({ sink } : XmlWriter), hpieces, List.filter_append, hend,
    List.append_nil]

/-- **A document is read as the same tree with an indentation**, but for the space between elements,
if names of XML are reported. -/
theorem readTree_indented {root : QName} {events : List Event} {sink : Sink} (n : Nat)
    (h : Event.IsDocument root events)
    (hok : performAll (events.map Event.call) ({ sink } : XmlWriter) = (.ok (), w₁))
    (hnames : ∀ e ∈ events, e.call.HasNameText) :
    let pieces := piecesOf (events.map Event.call) ({ sink } : XmlWriter)
    (Xml.readTree (textOf (indented n {} pieces))).map (fun e => e.unplaced.dropSpace)
      = (Xml.readTree (textOf pieces)).map Xml.Element.unplaced := by
  intro pieces
  obtain ⟨branch, hbranch⟩ := exists_branch h hok
  have hpieces : pieces = .declaration :: (branch.pieces 0 0 ++ [.lineBreak 0]) := hbranch 0
  -- The line break of the end is the only one that stands at depth 0 behind the root.
  have hlines : indented n {} pieces = .declaration :: (branch.pieces n 0 ++ [.lineBreak 0]) := by
    have hbehind : indented n ⟨0, true⟩ (branch.pieces 0 0 ++ [.lineBreak 0])
        = branch.pieces n 0 ++ [.lineBreak 0] := by
      rw [indented_end, (branch.isIndented n 0).1]
    rw [hpieces, ← hbehind]
    rfl
  have hnamed : ∀ piece ∈ branch.pieces 0 0, piece.IsNamed := by
    have hall : ∀ piece ∈ pieces, piece.IsNamed :=
      (IsNamed.empty sink).piecesOf (List.forall_mem_map.mpr hnames) hok
    rw [hpieces] at hall
    exact fun piece hmem => hall piece (List.mem_cons_of_mem _ (List.mem_append_left _ hmem))
  rw [hlines, hpieces]
  exact readTree_dropSpace n hnamed

end XmlWriter

/-! ## Documents on lines of their own -/

namespace Document

variable {σ : Type} [Source σ]

/-- Where the sink has had room for everything, the writer takes all calls of a run. -/
theorem performAll_xml (w : Leaf.Setting) (root : QName) (source : σ) (sink : Sink) (indent : Nat)
    (hroom : (generate w root source ({ sink, indent } : XmlWriter)).writer.sink.isFull = false) :
    performAll ((eventsOf (steps w root source ({ sink, indent } : XmlWriter))).map Event.call)
        ({ sink, indent } : XmlWriter)
      = (.ok (), (generate w root source ({ sink, indent } : XmlWriter)).writer) :=
  Script.performAll_steps_of_made _ fun _ _ _ hmem =>
    (isAnswered_xml w root source sink indent hroom).2 _ hmem

/-- **An indentation adds nothing but ignorable space.** A run goes the same way with any indentation
as without one. What is put without one is a row of pieces, in which the texts and comments are those
that have been reported, with one line break behind it at the end. With an indentation, the same is
put with line breaks in between. They stand directly before a tag or a comment, on which the number of
blanks depends, and never next to a text (`IsLayout`, `Markup.indented`). If a document is completed
and its names are made of characters that may stand in names, then both texts are read as the same
tree but for the space between elements, or neither is one of a document. -/
theorem generate_indented (w : Leaf.Setting) (root : QName) (source : σ) (n : Nat) :
    let compact := generate w root source ({} : XmlWriter)
    let indented := generate w root source ({ indent := n } : XmlWriter)
    let events := eventsOf (steps w root source ({} : XmlWriter))
    indented.result = compact.result ∧ indented.source = compact.source
      ∧ steps w root source ({ indent := n } : XmlWriter) = steps w root source ({} : XmlWriter)
      ∧ (∃ row last, XmlWriter.piecesOf (events.map Event.call) ({} : XmlWriter) = row ++ last
        ∧ (last = [] ∨ last = [.lineBreak 0])
        ∧ compact.writer.text = Markup.textOf (row ++ last)
        ∧ indented.writer.text = Markup.textOf (Markup.indented n {} row ++ last)
        ∧ IsLayout row (Markup.indented n {} row)
        ∧ row.filter Piece.isReported = (events.map Event.call).filterMap Call.piece?)
      ∧ (compact.result = .ok () → (∀ e ∈ events, e.call.HasNameText) →
        (Xml.readTree indented.writer.text).map (fun e => e.unplaced.dropSpace)
          = (Xml.readTree compact.writer.text).map Xml.Element.unplaced) := by
  intro compact indented events
  -- The two writers differ in the indentation and in what they have put, and in nothing else.
  have htwins : XmlWriter.Twins n ({} : XmlWriter) ({ indent := n } : XmlWriter) :=
    ⟨⟨rfl, rfl⟩, ⟨rfl, rfl⟩, rfl, {}, rfl⟩
  obtain ⟨hsteps, hsame, hend⟩ : steps w root source ({ indent := n } : XmlWriter)
      = steps w root source ({} : XmlWriter) ∧ _ := htwins.run (walk w root { source })
  have accepted : performAll (events.map Event.call) ({} : XmlWriter) = (.ok (), compact.writer) :=
    performAll_xml w root source {} 0 hend.hasSpace.2
  have accepted' : performAll (events.map Event.call) ({ indent := n } : XmlWriter)
      = (.ok (), indented.writer) := by
    have hperform := performAll_xml w root source {} n hend.hasSpace'.2
    rwa [hsteps] at hperform
  have htext : compact.writer.text
      = Markup.textOf (XmlWriter.piecesOf (events.map Event.call) ({} : XmlWriter)) :=
    (XmlWriter.performAll_text accepted).trans String.empty_append
  have htext' : indented.writer.text = Markup.textOf (Markup.indented n {}
      (XmlWriter.piecesOf (events.map Event.call) ({} : XmlWriter))) := by
    rw [XmlWriter.performAll_text accepted', htwins.piecesOf accepted]
    exact String.empty_append
  obtain ⟨⟨more, hmore⟩, hwhole⟩ := forms_walk w root _ _ _ _
    (Script.runs_steps (walk w root { source }) ({} : XmlWriter))
  refine ⟨congrArg Prod.fst hsame, congrArg (Supply.source ∘ Prod.snd) hsame, hsteps, ?_,
    fun hok hnames => ?_⟩
  · obtain ⟨row, last, hpieces, hlast, hlines, hlayout, hreported⟩ :=
      XmlWriter.exists_layout n hmore htwins.hasSpace accepted
    refine ⟨row, last, hpieces, hlast, ?_, ?_, hlayout, hreported⟩
    · exact htext.trans (congrArg Markup.textOf hpieces)
    · rw [htext', ← hlines]
      exact congrArg (Markup.textOf ∘ Markup.indented n {}) hpieces
  · rw [htext, htext']
    exact XmlWriter.readTree_indented n (hwhole () hok) accepted hnames

/-- A schema whose root holds one element of this name, with a text. -/
def wrapping (name : String) : Leaf.Setting :=
  let type : TypeDef := .simple (.restriction (.builtin "string"))
  let inner : Particle := ⟨.once, .element ⟨0, .bare name, .anonymous type, .local, false, none⟩⟩
  let content : Content := .elements ⟨.once, .group ⟨.sequence, [inner]⟩⟩
  let root : ElementDecl :=
    ⟨0, .bare "r", .anonymous (.complex ⟨none, false, content, [], none, none⟩), .global, false, none⟩
  { model := Model.builtin.addElement root, policy := {}, now := default }

/-- A document of the schema is indented, and read as the same tree. -/
theorem generate_indented_wrapping :
    let compact := generate (wrapping "a") (.bare "r") (⟨[], 0⟩ : Scripted) ({} : XmlWriter)
    let indented :=
      generate (wrapping "a") (.bare "r") (⟨[], 0⟩ : Scripted) ({ indent := 2 } : XmlWriter)
    let tag := "<r xmlns:xsi=\"http://www.w3.org/2001/XMLSchema-instance\">"
    compact.result = .ok ()
      ∧ (∀ e ∈ eventsOf (steps (wrapping "a") (.bare "r") (⟨[], 0⟩ : Scripted) ({} : XmlWriter)),
        e.call.HasNameText)
      ∧ compact.writer.text = Markup.declaration ++ tag ++ "<a>a1</a></r>\n"
      ∧ indented.writer.text = Markup.declaration ++ "\n" ++ tag ++ "\n  <a>a1</a>\n</r>\n"
      ∧ (Xml.readTree compact.writer.text).isSome = true
      ∧ (Xml.readTree indented.writer.text).map (fun e => e.unplaced.dropSpace)
        = (Xml.readTree compact.writer.text).map Xml.Element.unplaced := by
  intro compact indented tag
  have hok : compact.result = .ok () := by decide +kernel
  have hnames : ∀ e ∈ eventsOf (steps (wrapping "a") (.bare "r") (⟨[], 0⟩ : Scripted)
      ({} : XmlWriter)), e.call.HasNameText := by decide +kernel
  have hcompact : compact.writer.text = Markup.declaration ++ tag ++ "<a>a1</a></r>\n" := by
    decide +kernel
  obtain ⟨-, -, -, -, htree⟩ := generate_indented (wrapping "a") (.bare "r") (⟨[], 0⟩ : Scripted) 2
  refine ⟨hok, hnames, hcompact, by decide +kernel, ?_, htree hok hnames⟩
  have hchars : (Markup.declaration ++ tag ++ "<a>a1</a></r>\n").toList = _ :=
    Xml.toList_append_eq (Xml.toList_append_eq String.toList_ofList String.toList_ofList)
      String.toList_ofList
  rw [hcompact, Xml.readTree, hchars]
  decide +kernel

/-- **The names of elements are put as they are**, and where a name is none of XML, what stands behind
it is read as text, and a line break may stand next to it. -/
theorem not_read_of_name :
    let compact := generate (wrapping "a>x") (.bare "r") (⟨[], 0⟩ : Scripted) ({} : XmlWriter)
    let indented :=
      generate (wrapping "a>x") (.bare "r") (⟨[], 0⟩ : Scripted) ({ indent := 2 } : XmlWriter)
    let tag := "<r xmlns:xsi=\"http://www.w3.org/2001/XMLSchema-instance\">"
    compact.result = .ok ()
      ∧ compact.writer.text = Markup.declaration ++ tag ++ "<a>x>a&gt;x1</a>x></r>\n"
      ∧ indented.writer.text
        = Markup.declaration ++ "\n" ++ tag ++ "\n  <a>x>a&gt;x1</a>x>\n</r>\n"
      ∧ (Xml.readTree compact.writer.text).isSome = true
      ∧ (Xml.readTree indented.writer.text).isSome = true
      ∧ (Xml.readTree indented.writer.text).map (fun e => e.unplaced.dropSpace)
        ≠ (Xml.readTree compact.writer.text).map fun e => e.unplaced.dropSpace := by
  intro compact indented tag
  have hcompact : compact.writer.text = Markup.declaration ++ tag ++ "<a>x>a&gt;x1</a>x></r>\n" := by
    decide +kernel
  have hindented : indented.writer.text
      = Markup.declaration ++ "\n" ++ tag ++ "\n  <a>x>a&gt;x1</a>x>\n</r>\n" := by
    decide +kernel
  refine ⟨by decide +kernel, hcompact, hindented, ?_⟩
  have hchars : (Markup.declaration ++ tag ++ "<a>x>a&gt;x1</a>x></r>\n").toList = _ :=
    Xml.toList_append_eq (Xml.toList_append_eq String.toList_ofList String.toList_ofList)
      String.toList_ofList
  have hchars' : (Markup.declaration ++ "\n" ++ tag
      ++ "\n  <a>x>a&gt;x1</a>x>\n</r>\n").toList = _ :=
    Xml.toList_append_eq (Xml.toList_append_eq (Xml.toList_append_eq String.toList_ofList
      String.toList_ofList) String.toList_ofList) String.toList_ofList
  rw [hcompact, hindented, Xml.readTree, Xml.readTree, hchars, hchars']
  decide +kernel

end Document

end Specimen

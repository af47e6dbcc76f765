import Specimen.Proofs.Announcement

/-!
# Indentation

Two writers of XML that differ in their indentation only take the same calls and give the same
answers, so a run with one of them is a run with the other. What they put differs in line breaks: the
pieces of the indented text are those of the compact one, with a line break before each tag and
comment that neither comes first nor stands behind a text (`Markup.indented`).
-/

namespace Specimen

/-! ## Pieces on lines of their own -/

/-- The piece that is put for a call by itself. Tags are put for several calls, and for the empty text
nothing is. -/
def Call.piece? : Call → Option Markup.Piece
  | .startDocument => some .declaration
  | .text value => if value = "" then none else some (.text value)
  | .comment value => some (.comment value)
  | _ => none

namespace Markup

/-- The piece is a tag, a comment or the declaration. -/
def Piece.isMarkup : Piece → Bool
  | .lineBreak _ => false
  | .text _ => false
  | _ => true

/-- The piece is a line break. -/
def Piece.isBreak : Piece → Bool
  | .lineBreak _ => true
  | _ => false

/-- The piece is put for what is reported by itself: it is no line break and no tag. -/
def Piece.isReported : Piece → Bool
  | .declaration => true
  | .text _ => true
  | .comment _ => true
  | _ => false

/-- A place between pieces: how many elements are open there, and whether a line may begin. -/
structure Position where
  level : Nat := 0
  breaksLine : Bool := false

namespace Position

/-- The place behind a piece. No line begins behind a text. -/
def next (p : Position) : Piece → Position
  | .startTag _ _ => ⟨p.level + 1, true⟩
  | .endTag _ => ⟨p.level - 1, true⟩
  | .text _ => ⟨p.level, false⟩
  | .lineBreak _ => p
  | _ => ⟨p.level, true⟩

/-- The place behind some pieces. -/
def after (p : Position) (pieces : List Piece) : Position := pieces.foldl next p

/-- How many levels a piece is indented. An end tag stands on the level of its start tag. -/
def levelOf (p : Position) : Piece → Nat
  | .endTag _ => p.level - 1
  | _ => p.level

/-- The line break before a piece, where it is due. -/
def lead (n : Nat) (p : Position) (piece : Piece) : List Piece :=
  if piece.isMarkup && p.breaksLine && 0 < n then [.lineBreak (n * p.levelOf piece)] else []

end Position

/-- The pieces with a line break and `n` blanks for each open element before every tag, comment and
declaration, unless it comes first or stands behind a text. -/
def indented (n : Nat) (p : Position) : List Piece → List Piece
  | [] => []
  | piece :: rest => p.lead n piece ++ piece :: indented n (p.next piece) rest

variable {n : Nat} {p : Position} {pieces pieces' : List Piece}

theorem indented_append :
    indented n p (pieces ++ pieces') = indented n p pieces ++ indented n (p.after pieces) pieces' := by
  induction pieces generalizing p with
  | nil => rfl
  | cons piece rest ih =>
    rw [List.cons_append, indented, indented, ih, List.append_assoc, List.cons_append]
    rfl

theorem Position.after_append : p.after (pieces ++ pieces') = (p.after pieces).after pieces' :=
  List.foldl_append

theorem Position.lead_cases (n : Nat) (p : Position) (piece : Piece) :
    p.lead n piece = []
      ∨ piece.isMarkup = true ∧ p.breaksLine = true
        ∧ ∃ spaces, p.lead n piece = [.lineBreak spaces] := by
  unfold lead
  split
  · next h =>
    simp only [Bool.and_eq_true] at h
    obtain ⟨⟨hmarkup, hbreaks⟩, -⟩ := h
    exact .inr ⟨hmarkup, hbreaks, _, rfl⟩
  · exact .inl rfl

/-- Nothing but line breaks is put in between. -/
theorem filter_indented {q : Piece → Bool} (hq : ∀ spaces, q (.lineBreak spaces) = false) :
    (indented n p pieces).filter q = pieces.filter q := by
  induction pieces generalizing p with
  | nil => rfl
  | cons piece rest ih =>
    have hlead : (p.lead n piece).filter q = [] := by
      rcases p.lead_cases n piece with hlead | ⟨-, -, spaces, hlead⟩
      · rw [hlead, List.filter_nil]
      · rw [hlead, List.filter_singleton, hq]
        rfl
    rw [indented, List.filter_append, hlead, List.nil_append, List.filter_cons, List.filter_cons, ih]

/-- **Line breaks are put in between tags and comments only.** Where the pieces have no line breaks,
each one stands before a tag, a comment or the declaration, and not behind a text. -/
theorem indented_breaks {before after : List Piece} {spaces : Nat}
    (hnone : ∀ piece ∈ pieces, piece.isBreak = false)
    (h : indented n p pieces = before ++ .lineBreak spaces :: after) :
    (before = [] → p.breaksLine = true) ∧ (∀ value, before.getLast? ≠ some (.text value))
      ∧ ∃ piece rest, after = piece :: rest ∧ piece ∈ pieces ∧ piece.isMarkup = true := by
  induction pieces generalizing p before with
  | nil => simp [indented] at h
  | cons piece rest ih =>
    obtain ⟨hpiece, hnone⟩ := List.forall_mem_cons.mp hnone
    -- Behind the piece itself, where a line may begin unless the piece is a text.
    have hbehind (front : List Piece) (hfront : front ≠ []) {before : List Piece}
        (hlastOf : front.getLast? = some piece)
        (h : indented n (p.next piece) rest = before ++ .lineBreak spaces :: after) :
        (front ++ before = [] → p.breaksLine = true)
          ∧ (∀ value, (front ++ before).getLast? ≠ some (.text value))
          ∧ ∃ next more, after = next :: more ∧ next ∈ piece :: rest ∧ next.isMarkup = true := by
      obtain ⟨hbreaks, htext, next, more, rfl, hmem, hmarkup⟩ := ih hnone h
      refine ⟨fun hnil => absurd (List.append_eq_nil_iff.mp hnil).1 hfront, fun value heq => ?_,
        next, more, rfl, List.mem_cons_of_mem _ hmem, hmarkup⟩
      cases before with
      | nil =>
        rw [List.append_nil, hlastOf] at heq
        cases Option.some.inj heq
        exact Bool.false_ne_true (hbreaks rfl)
      | cons first before =>
        rw [List.getLast?_append_cons] at heq
        exact htext value heq
    rw [indented] at h
    rcases p.lead_cases n piece with hlead | ⟨hmarkup, hbreaks, k, hlead⟩
    · rw [hlead, List.nil_append] at h
      rcases List.cons_eq_append_iff.mp h with ⟨rfl, heq⟩ | ⟨before', rfl, heq⟩
      · obtain ⟨rfl, -⟩ := List.cons.inj heq
        cases hpiece
      · exact hbehind [piece] (List.cons_ne_nil _ _) rfl heq
    · rw [hlead, List.singleton_append] at h
      rcases List.cons_eq_append_iff.mp h with ⟨rfl, heq⟩ | ⟨before', rfl, heq⟩
      · obtain ⟨-, rfl⟩ := List.cons.inj heq
        exact ⟨fun _ => hbreaks, nofun, piece, _, rfl, List.mem_cons_self, hmarkup⟩
      · rcases List.cons_eq_append_iff.mp heq with ⟨rfl, heq⟩ | ⟨before', rfl, heq⟩
        · obtain ⟨rfl, -⟩ := List.cons.inj heq
          cases hpiece
        · exact hbehind [.lineBreak k, piece] (List.cons_ne_nil _ _) rfl (List.cons.inj heq).2

end Markup

namespace XmlWriter

open Markup

variable {n : Nat} {w w' : XmlWriter}

/-! ## Writers that differ in their indentation -/

/-- A sink that has room for every text. -/
def HasSpace (w : XmlWriter) : Prop := w.sink.room = none ∧ w.sink.isFull = false

/-- The writer over another sink and with another indentation. -/
def writingTo (w : XmlWriter) (sink : Sink) (indent : Nat) : XmlWriter := { w with sink, indent }

/-- The two writers have come to the same state, over sinks that have room for everything. The first
one writes without an indentation, and the second one with `n` blanks for each level. -/
structure Twins (n : Nat) (w w' : XmlWriter) : Prop where
  hasSpace : w.HasSpace
  hasSpace' : w'.HasSpace
  indent : w.indent = 0
  eq : ∃ sink, w' = w.writingTo sink n

/-- Two calls have ended in the same way, and their writers in the same state. -/
def SameEnd {α : Type} (n : Nat) (r r' : α × XmlWriter) : Prop :=
  r'.1 = r.1 ∧ Twins n r.2 r'.2

theorem put_of_hasSpace (h : w.HasSpace) (text : String) :
    w.sink.put text = (true, { w.sink with written := w.sink.written ++ text }) := by
  rw [Sink.put, if_pos]
  simp [Sink.hasRoom, h.1, h.2]

theorem putMarkup_of_hasSpace (h : w.HasSpace) (markup : String) :
    w.putMarkup markup = (.ok (), { w with
      sink := { w.sink with written := w.sink.written ++ (w.lead ++ markup) }
      breaksLine := true }) := by
  simp [putMarkup, put_of_hasSpace h]

namespace Twins

/-- What is changed in both states alike leaves them the same. -/
theorem change (h : Twins n w w') (f : XmlWriter → XmlWriter)
    (hf : ∀ w sink indent, f (w.writingTo sink indent) = (f w).writingTo sink indent) :
    Twins n (f w) (f w') := by
  have hsink (w : XmlWriter) : (f w).sink = w.sink := by
    show (f (w.writingTo w.sink w.indent)).sink = w.sink
    rw [hf]
    rfl
  have hindent : (f w).indent = w.indent := by
    show (f (w.writingTo w.sink w.indent)).indent = w.indent
    rw [hf]
    rfl
  obtain ⟨hs, hs', h0, sink, rfl⟩ := h
  refine ⟨?_, ?_, hindent.trans h0, sink, hf w sink n⟩
  · rwa [HasSpace, hsink]
  · rwa [HasSpace, hsink]

theorem mapHeld (h : Twins n w w') (f : HeldTag → HeldTag) :
    Twins n { w with held := w.held.map f } { w' with held := w'.held.map f } :=
  h.change (fun w => { w with held := w.held.map f }) fun _ _ _ => rfl

theorem putMarkup (h : Twins n w w') (markup : String) :
    SameEnd n (w.putMarkup markup) (w'.putMarkup markup) := by
  rw [putMarkup_of_hasSpace h.hasSpace, putMarkup_of_hasSpace h.hasSpace']
  obtain ⟨hs, hs', h0, sink, rfl⟩ := h
  exact ⟨rfl, hs, hs', h0, _, rfl⟩

theorem putText (h : Twins n w w') (text : String) : SameEnd n (w.putText text) (w'.putText text) := by
  rw [XmlWriter.putText, XmlWriter.putText, put_of_hasSpace h.hasSpace, put_of_hasSpace h.hasSpace']
  obtain ⟨hs, hs', h0, sink, rfl⟩ := h
  exact ⟨rfl, hs, hs', h0, _, rfl⟩

/-- The state is the same but for what has been put. -/
theorem held_eq (h : Twins n w w') : w'.held = w.held := by
  obtain ⟨-, -, -, sink, rfl⟩ := h
  rfl

theorem opened_eq (h : Twins n w w') : w'.opened = w.opened := by
  obtain ⟨-, -, -, sink, rfl⟩ := h
  rfl

theorem awaited_eq (h : Twins n w w') : w'.awaited = w.awaited := by
  obtain ⟨-, -, -, sink, rfl⟩ := h
  rfl

/-- Asking for a prefix gives the same answer. -/
theorem ensureDeclared (h : Twins n w w') (uri : String) :
    (w'.ensureDeclared uri).1 = (w.ensureDeclared uri).1
      ∧ Twins n (w.ensureDeclared uri).2 (w'.ensureDeclared uri).2 := by
  have hover (w : XmlWriter) (sink : Sink) (indent : Nat) : (w.writingTo sink indent).ensureDeclared uri
      = ((w.ensureDeclared uri).1, (w.ensureDeclared uri).2.writingTo sink indent) := by
    unfold XmlWriter.ensureDeclared
    split
    · rfl
    · cases hheld : w.held with
      | none => simp [writingTo, isInScope, hheld]; split <;> rfl
      | some tag => simp [writingTo, isInScope, hheld]; split <;> rfl
  refine ⟨?_, h.change (fun w => (w.ensureDeclared uri).2) fun w sink indent =>
    congrArg Prod.snd (hover w sink indent)⟩
  obtain ⟨-, -, -, sink, rfl⟩ := h
  rw [hover]

theorem foldl_ensureDeclared (h : Twins n w w') (uris : List String) :
    Twins n (uris.foldl (fun w uri => (w.ensureDeclared uri).2) w)
      (uris.foldl (fun w uri => (w.ensureDeclared uri).2) w') := by
  induction uris generalizing w w' with
  | nil => exact h
  | cons uri uris ih => exact ih (h.ensureDeclared uri).2

theorem declareAwaited (h : Twins n w w') : Twins n w.declareAwaited w'.declareAwaited := by
  rw [XmlWriter.declareAwaited, XmlWriter.declareAwaited, h.awaited_eq]
  exact (h.change (fun w => { w with awaited := [] }) fun _ _ _ => rfl).foldl_ensureDeclared _

theorem andThen {r r' : Except Error Unit × XmlWriter}
    {next : XmlWriter → Except Error Unit × XmlWriter} (h : SameEnd n r r')
    (hnext : ∀ w w', Twins n w w' → SameEnd n (next w) (next w')) :
    SameEnd n (XmlWriter.andThen r next) (XmlWriter.andThen r' next) := by
  obtain ⟨result, w⟩ := r
  obtain ⟨result', w'⟩ := r'
  obtain ⟨hsame, htwins⟩ := h
  obtain rfl : result' = result := hsame
  cases result' with
  | ok => exact hnext w w' htwins
  | error e => exact ⟨rfl, htwins⟩

theorem openHeld (h : Twins n w w') : SameEnd n w.openHeld w'.openHeld := by
  rw [XmlWriter.openHeld, XmlWriter.openHeld, h.held_eq]
  split
  · exact ⟨rfl, h⟩
  · next tag _ =>
    have hput := (h.change (fun w => { w with held := none }) fun _ _ _ => rfl).putMarkup
      (Markup.startTag tag.name tag.attributes)
    exact andThen hput fun w w' h => ⟨rfl,
      h.change (fun w => { w with opened := ⟨tag.name, tag.declared⟩ :: w.opened }) fun _ _ _ => rfl⟩

theorem closeHeld (h : Twins n w w') : SameEnd n w.closeHeld w'.closeHeld := by
  rw [XmlWriter.closeHeld, XmlWriter.closeHeld, h.held_eq]
  split
  · exact ⟨rfl, h⟩
  · exact (h.change (fun w => { w with held := none }) fun _ _ _ => rfl).putMarkup _

/-- **Writers in the same state take the same calls.** -/
theorem take (h : Twins n w w') (call : Call) : SameEnd n (w.take call) (w'.take call) := by
  cases call with
  | startDocument => exact h.putMarkup _
  | declarePrefix uri => exact ⟨rfl, (h.ensureDeclared uri).2⟩
  | startElement uri name =>
    refine andThen h.openHeld fun w w' h => ?_
    have hnew := (h.change (fun w => { w with held := some ⟨"", [], []⟩ })
      fun _ _ _ => rfl).declareAwaited
    obtain ⟨hpfx, hdeclared⟩ := hnew.ensureDeclared uri
    simp only [hpfx]
    exact ⟨rfl, hdeclared.mapHeld _⟩
  | «attribute» uri name value =>
    simp only [XmlWriter.take, addAttribute, h.held_eq]
    split
    · exact ⟨rfl, h⟩
    · obtain ⟨hpfx, hdeclared⟩ := h.ensureDeclared uri
      simp only [hpfx]
      exact ⟨rfl, hdeclared.mapHeld _⟩
  | text value =>
    simp only [XmlWriter.take, addText]
    split
    · exact ⟨rfl, h⟩
    · exact andThen h.openHeld fun w w' h => h.putText value
  | comment value => exact andThen h.openHeld fun w w' h => h.putMarkup _
  | endElement =>
    have hheld : w'.held.isSome = w.held.isSome := congrArg Option.isSome h.held_eq
    rw [XmlWriter.take, XmlWriter.take, endElement, endElement, h.opened_eq]
    by_cases hsome : w.held.isSome = true
    · rw [if_pos hsome, if_pos (hheld.trans hsome)]
      exact h.closeHeld
    · rw [if_neg hsome, if_neg (hheld ▸ hsome)]
      split
      · exact ⟨rfl, h⟩
      · next element outer _ =>
        exact (h.change (fun w => { w with opened := outer }) fun _ _ _ => rfl).putMarkup _
  | endDocument =>
    refine andThen h.closeHeld fun w w' h => ?_
    rw [h.opened_eq]
    split
    · exact ⟨rfl, h⟩
    · rw [put_of_hasSpace h.hasSpace, put_of_hasSpace h.hasSpace']
      obtain ⟨hs, hs', h0, sink, rfl⟩ := h
      exact ⟨rfl, hs, hs', h0, _, rfl⟩

theorem perform (h : Twins n w w') (call : Call) :
    SameEnd n (Writer.perform call w) (Writer.perform call w') := by
  by_cases hcall : ∃ uri, call = .declarePrefix uri
  · obtain ⟨uri, rfl⟩ := hcall
    obtain ⟨hpfx, hdeclared⟩ := h.ensureDeclared uri
    exact ⟨congrArg Except.ok hpfx, hdeclared⟩
  · have htaken (w : XmlWriter) : Writer.perform call w
        = ((w.take call).1.map fun _ => "", (w.take call).2) := by
      cases call with
      | declarePrefix uri => exact absurd ⟨uri, rfl⟩ hcall
      | _ => rfl
    obtain ⟨hsame, htwins⟩ := h.take call
    rw [htaken, htaken]
    exact ⟨congrArg (Except.map fun _ => "") hsame, htwins⟩

/-- **A run goes the same way with both writers.** -/
theorem run {σ α : Type} (h : Twins n w w') (script : Script σ α) :
    script.steps w' = script.steps w ∧ SameEnd n (script.run w) (script.run w') := by
  induction script generalizing w w' with
  | stop r s => exact ⟨rfl, rfl, h⟩
  | note step next ih =>
    obtain ⟨hsteps, hend⟩ := ih h
    exact ⟨by rw [Script.steps, Script.steps, hsteps], hend⟩
  | call c s next ih =>
    obtain ⟨hsame, htwins⟩ := h.perform c
    unfold Script.steps Script.run
    rcases hc : Writer.perform c w with ⟨e | answer, w₁⟩ <;>
      rcases hc' : Writer.perform c w' with ⟨e' | answer', w₁'⟩ <;>
      rw [hc, hc'] at hsame htwins
    · obtain rfl := Except.error.inj hsame
      exact ⟨rfl, rfl, htwins⟩
    · cases hsame
    · cases hsame
    · obtain rfl := Except.ok.inj hsame
      obtain ⟨hsteps, hend⟩ := ih answer' htwins
      exact ⟨congrArg (List.cons (.made c s answer')) hsteps, hend⟩

/-! ## What is put with an indentation -/

end Twins

/-- The place that the writer has come to. -/
def position (w : XmlWriter) : Position := ⟨w.opened.length, w.breaksLine⟩

theorem leadPieces_compact (h : w.indent = 0) : w.leadPieces = [] := by
  simp [leadPieces, h]

namespace Twins

theorem leadPieces (h : Twins n w w') (piece : Piece) (hpiece : piece.isMarkup = true)
    (hlevel : w.position.levelOf piece = w.opened.length) :
    w'.leadPieces = w.position.lead n piece := by
  obtain ⟨-, -, -, sink, rfl⟩ := h
  rw [XmlWriter.leadPieces, Position.lead, hlevel, hpiece, Bool.true_and]
  rfl

theorem startPieces (h : Twins n w w') :
    w'.startPieces = indented n w.position w.startPieces := by
  rw [XmlWriter.startPieces, XmlWriter.startPieces, h.held_eq]
  cases w.held with
  | none => rfl
  | some tag =>
    have hlead := h.leadPieces (.startTag tag.name tag.attributes) rfl rfl
    rw [leadPieces_compact h.indent, hlead]
    rfl

theorem emptyPieces (h : Twins n w w') :
    w'.emptyPieces = indented n w.position w.emptyPieces := by
  rw [XmlWriter.emptyPieces, XmlWriter.emptyPieces, h.held_eq]
  cases w.held with
  | none => rfl
  | some tag =>
    have hlead := h.leadPieces (.emptyTag tag.name tag.attributes) rfl rfl
    rw [leadPieces_compact h.indent, hlead]
    rfl

theorem endPieces (h : Twins n w w') :
    w'.endPieces = indented n w.position w.endPieces := by
  rw [XmlWriter.endPieces, XmlWriter.endPieces, h.opened_eq]
  cases hopened : w.opened with
  | nil => rfl
  | cons element outer =>
    have houter := h.change (fun w => { w with opened := outer }) fun _ _ _ => rfl
    have hlead := houter.leadPieces (.comment "") rfl rfl
    dsimp only
    rw [leadPieces_compact houter.indent, hlead]
    simp [indented, Position.lead, Position.levelOf, position, hopened, Piece.isMarkup]

end Twins

/-- Nothing has been put and no element opened or ended: at most, the tag that is held back has been
given attributes and declarations. -/
structure SameTag (w w' : XmlWriter) : Prop where
  held : w'.held.map HeldTag.name = w.held.map HeldTag.name
  opened : w'.opened = w.opened
  indent : w'.indent = w.indent
  breaksLine : w'.breaksLine = w.breaksLine

namespace SameTag

theorem refl (w : XmlWriter) : w.SameTag w := ⟨rfl, rfl, rfl, rfl⟩

theorem trans {w w' w'' : XmlWriter} (h : w.SameTag w') (h' : w'.SameTag w'') : w.SameTag w'' :=
  ⟨h'.held.trans h.held, h'.opened.trans h.opened, h'.indent.trans h.indent,
    h'.breaksLine.trans h.breaksLine⟩

theorem position (h : w.SameTag w') : w'.position = w.position := by
  rw [XmlWriter.position, XmlWriter.position, h.opened, h.breaksLine]

theorem ensureDeclared (w : XmlWriter) (uri : String) : w.SameTag (w.ensureDeclared uri).2 := by
  have hasks := w.ensureDeclared_asks uri
  generalize w.ensureDeclared uri = result at hasks ⊢
  cases hasks with
  | none _ => exact .refl w
  | declared _ _ => exact ⟨rfl, rfl, rfl, rfl⟩
  | added _ _ hheld => exact ⟨by rw [hheld]; rfl, rfl, rfl, rfl⟩
  | awaited _ hheld _ => exact ⟨rfl, rfl, rfl, rfl⟩

theorem foldl_ensureDeclared (w : XmlWriter) (uris : List String) :
    w.SameTag (uris.foldl (fun w uri => (w.ensureDeclared uri).2) w) := by
  induction uris generalizing w with
  | nil => exact .refl w
  | cons uri uris ih => exact (SameTag.ensureDeclared w uri).trans (ih _)

/-- An attribute is added to the tag. -/
theorem addAttribute {uri name value : String} (h : w.addAttribute uri name value = (.ok (), w')) :
    w.SameTag w' := by
  obtain ⟨-, rfl⟩ := addAttribute_ok h
  have hasked := SameTag.ensureDeclared w uri
  refine hasked.trans ⟨?_, rfl, rfl, rfl⟩
  cases (w.ensureDeclared uri).2.held <;> rfl

end SameTag

/-- Where an element begins, the tag that was held back is put, and its own tag is held back. -/
theorem sameTag_startElement {uri name : String} (h : w.startElement uri name = (.ok (), w')) :
    ∃ w₁, w.openHeld = (.ok (), w₁) ∧ ∃ tag, w'.held = some tag ∧ w'.opened = w₁.opened
      ∧ w'.indent = w₁.indent ∧ w'.breaksLine = w₁.breaksLine := by
  obtain ⟨w₁, hopen, hrest⟩ := startElement_ok h
  obtain rfl := hrest _ rfl
  have hsame := (SameTag.foldl_ensureDeclared
    { w₁ with held := some ⟨"", [], []⟩, awaited := [] } w₁.awaited).trans (.ensureDeclared _ uri)
  obtain ⟨tag, htag, -⟩ := Option.map_eq_some_iff.mp hsame.held
  exact ⟨w₁, hopen, _, congrArg (Option.map _) htag, hsame.opened, hsame.indent, hsame.breaksLine⟩

section

variable {w₁ : XmlWriter} (hindent : w.indent = 0)

include hindent

theorem after_startPieces (h : w.openHeld = (.ok (), w₁)) :
    w.position.after w.startPieces = w₁.position := by
  rcases openHeld_ok h with ⟨hheld, rfl⟩ | ⟨tag, sink, hheld, rfl, -⟩
  · rw [startPieces, hheld]
    rfl
  · rw [startPieces, hheld, leadPieces_compact hindent]
    rfl

theorem after_emptyPieces (h : w.closeHeld = (.ok (), w₁)) :
    w.position.after w.emptyPieces = w₁.position := by
  rcases closeHeld_ok h with ⟨hheld, rfl⟩ | ⟨tag, sink, hheld, rfl, -⟩
  · rw [emptyPieces, hheld]
    rfl
  · rw [emptyPieces, hheld, leadPieces_compact hindent]
    rfl

end

/-- **What a call puts with an indentation** is what it puts without one, on lines of its own. -/
theorem Twins.pieces {call : Call} {w₁ : XmlWriter} (h : Twins n w w')
    (hok : w.take call = (.ok (), w₁)) :
    w'.pieces call = indented n w.position (w.pieces call)
      ∧ w.position.after (w.pieces call) = w₁.position := by
  cases call with
  | startDocument =>
    obtain ⟨sink, rfl, -⟩ := putMarkup_ok .declaration hok
    rw [XmlWriter.pieces, XmlWriter.pieces, leadPieces_compact h.indent,
      h.leadPieces .declaration rfl rfl]
    exact ⟨rfl, rfl⟩
  | declarePrefix uri =>
    obtain rfl := congrArg Prod.snd hok
    exact ⟨rfl, (SameTag.ensureDeclared w uri).position.symm⟩
  | startElement uri name =>
    obtain ⟨w₂, hopen, tag, -, hopened, -, hbreaks⟩ := sameTag_startElement hok
    refine ⟨h.startPieces, (after_startPieces h.indent hopen).trans ?_⟩
    rw [position, position, hopened, hbreaks]
  | «attribute» uri name value =>
    exact ⟨rfl, (SameTag.addAttribute hok).position.symm⟩
  | text value =>
    rw [XmlWriter.pieces, XmlWriter.pieces]
    rcases addText_ok hok with ⟨hempty, rfl⟩ | ⟨hne, w₂, sink, hopen, rfl, -⟩
    · rw [if_pos hempty, if_pos hempty]
      exact ⟨rfl, rfl⟩
    · rw [if_neg hne, if_neg hne, h.startPieces, indented_append, Position.after_append,
        after_startPieces h.indent hopen]
      exact ⟨rfl, rfl⟩
  | comment value =>
    obtain ⟨w₂, sink, hopen, rfl, -⟩ := addComment_ok hok
    obtain ⟨hsame, htwins⟩ := h.openHeld
    have hlead := htwins.leadPieces (.comment value) rfl rfl
    rw [XmlWriter.pieces, XmlWriter.pieces, h.startPieces, hlead, indented_append,
      Position.after_append, after_startPieces h.indent hopen,
      leadPieces_compact htwins.indent, hopen]
    exact ⟨rfl, rfl⟩
  | endElement =>
    have hheld : w'.held.isSome = w.held.isSome := congrArg Option.isSome h.held_eq
    rw [XmlWriter.pieces, XmlWriter.pieces, hheld]
    rcases endElement_ok hok with ⟨hsome, hclose⟩ | ⟨hnone, element, outer, sink, hopened, rfl, -⟩
    · rw [if_pos hsome, h.emptyPieces, if_pos hsome]
      exact ⟨rfl, after_emptyPieces h.indent hclose⟩
    · have hnot : ¬w.held.isSome = true := by simp [hnone]
      rw [if_neg hnot, h.endPieces, if_neg hnot]
      refine ⟨rfl, ?_⟩
      have hcompact : XmlWriter.leadPieces { w with opened := outer } = [] :=
        leadPieces_compact h.indent
      simp [XmlWriter.endPieces, hopened, hcompact, position, Position.after, Position.next]
  | endDocument =>
    obtain ⟨w₂, sink, hclose, -, rfl, -⟩ := endDocument_ok hok
    rw [XmlWriter.pieces, XmlWriter.pieces, h.emptyPieces, indented_append, Position.after_append,
      after_emptyPieces h.indent hclose]
    exact ⟨rfl, rfl⟩

/-- **What calls put with an indentation** is what they put without one, on lines of its own. -/
theorem Twins.piecesOf {calls : List Call} {w₁ : XmlWriter} (h : Twins n w w')
    (hok : performAll calls w = (.ok (), w₁)) :
    XmlWriter.piecesOf calls w' = indented n w.position (XmlWriter.piecesOf calls w) := by
  induction calls generalizing w w' with
  | nil => rfl
  | cons call rest ih =>
    obtain ⟨w₂, htake, hperform, hrest⟩ := performAll_cons_ok hok
    have htwins := (h.perform call).2
    have hperform' : (Writer.perform call w).2 = w₂ := hperform
    rw [hperform'] at htwins
    obtain ⟨hpieces, hafter⟩ := h.pieces htake
    rw [XmlWriter.piecesOf, XmlWriter.piecesOf, hperform, indented_append, hpieces, hafter]
    exact congrArg _ (ih htwins hrest)

/-! ## What a call may put -/

/-- The pieces that a call may put: a line break, the tag that is held back, the tag that is due at
the end of an element, and what the call puts for itself. -/
inductive MayPut (w : XmlWriter) (call : Call) : Piece → Prop
  | lineBreak {spaces : Nat} (h : 0 < w.indent) : MayPut w call (.lineBreak spaces)
  | startTag {tag : HeldTag} (h : w.held = some tag) :
      MayPut w call (.startTag tag.name tag.attributes)
  | emptyTag {tag : HeldTag} (h : w.held = some tag) :
      MayPut w call (.emptyTag tag.name tag.attributes)
  | endTag {element : OpenElement} (h : element ∈ w.opened) : MayPut w call (.endTag element.name)
  | own {piece : Piece} (h : call.piece? = some piece) : MayPut w call piece
  | last (h : call = .endDocument) : MayPut w call (.lineBreak 0)

theorem openHeld_indent (w : XmlWriter) : w.openHeld.2.indent = w.indent := by
  rw [openHeld]
  split
  · rfl
  · split <;> rename_i hput <;> exact congrArg (fun r => r.2.indent) hput.symm

section

variable {call : Call}

theorem mayPut_leadPieces {w₁ : XmlWriter} (h : w₁.indent = w.indent) :
    ∀ piece ∈ w₁.leadPieces, w.MayPut call piece := by
  rw [leadPieces]
  split
  · next hlead =>
    rw [Bool.and_eq_true, decide_eq_true_eq] at hlead
    exact List.forall_mem_singleton.mpr (.lineBreak (h ▸ hlead.2))
  · exact List.forall_mem_nil _

theorem mayPut_startPieces : ∀ piece ∈ w.startPieces, w.MayPut call piece := by
  rw [startPieces]
  split
  · exact List.forall_mem_nil _
  · next htag =>
    exact List.forall_mem_append.mpr
      ⟨mayPut_leadPieces rfl, List.forall_mem_singleton.mpr (.startTag htag)⟩

theorem mayPut_emptyPieces : ∀ piece ∈ w.emptyPieces, w.MayPut call piece := by
  rw [emptyPieces]
  split
  · exact List.forall_mem_nil _
  · next htag =>
    exact List.forall_mem_append.mpr
      ⟨mayPut_leadPieces rfl, List.forall_mem_singleton.mpr (.emptyTag htag)⟩

theorem mayPut_endPieces : ∀ piece ∈ w.endPieces, w.MayPut call piece := by
  rw [endPieces]
  split
  · exact List.forall_mem_nil _
  · next element outer hopened =>
    have hmem : element ∈ w.opened := hopened ▸ List.mem_cons_self
    exact List.forall_mem_append.mpr
      ⟨mayPut_leadPieces rfl, List.forall_mem_singleton.mpr (.endTag hmem)⟩

end

/-- **A call puts nothing else.** -/
theorem mayPut_pieces (w : XmlWriter) (call : Call) : ∀ piece ∈ w.pieces call, w.MayPut call piece := by
  cases call with
  | startDocument =>
    exact List.forall_mem_append.mpr
      ⟨mayPut_leadPieces rfl, List.forall_mem_singleton.mpr (.own rfl)⟩
  | declarePrefix uri => exact List.forall_mem_nil _
  | startElement uri name => exact mayPut_startPieces
  | «attribute» uri name value => exact List.forall_mem_nil _
  | text value =>
    rw [pieces]
    split
    · exact List.forall_mem_nil _
    · next hne =>
      exact List.forall_mem_append.mpr
        ⟨mayPut_startPieces, List.forall_mem_singleton.mpr (.own (if_neg hne))⟩
  | comment value =>
    exact List.forall_mem_append.mpr ⟨mayPut_startPieces, List.forall_mem_append.mpr
      ⟨mayPut_leadPieces w.openHeld_indent, List.forall_mem_singleton.mpr (.own rfl)⟩⟩
  | endElement =>
    rw [pieces]
    split
    · exact mayPut_emptyPieces
    · exact mayPut_endPieces
  | endDocument =>
    exact List.forall_mem_append.mpr
      ⟨mayPut_emptyPieces, List.forall_mem_singleton.mpr (.last rfl)⟩

theorem isBreak_of_piece? {call : Call} {piece : Piece} (h : call.piece? = some piece) :
    piece.isBreak = false := by
  cases call with
  | text value =>
    rw [Call.piece?] at h
    split at h <;> cases h
    rfl
  | _ => cases h <;> rfl

/-- Without an indentation, no line break is put before the end of the document. -/
theorem Twins.noBreak {calls : List Call} {w₁ : XmlWriter} (h : Twins n w w')
    (hcalls : ∀ call ∈ calls, call ≠ .endDocument) (hok : performAll calls w = (.ok (), w₁)) :
    ∀ piece ∈ XmlWriter.piecesOf calls w, piece.isBreak = false := by
  induction calls generalizing w w' with
  | nil => exact List.forall_mem_nil _
  | cons call rest ih =>
    obtain ⟨w₂, -, hperform, hrest⟩ := performAll_cons_ok hok
    obtain ⟨hcall, hcalls⟩ := List.forall_mem_cons.mp hcalls
    have htwins := (h.perform call).2
    have hperform' : (Writer.perform call w).2 = w₂ := hperform
    rw [hperform'] at htwins
    rw [XmlWriter.piecesOf, hperform]
    refine List.forall_mem_append.mpr ⟨fun piece hmem => ?_, ih htwins hcalls hrest⟩
    cases w.mayPut_pieces call piece hmem with
    | lineBreak hindent => exact absurd hindent (h.indent ▸ Nat.lt_irrefl 0)
    | last hlast => exact absurd hlast hcall
    | own hown => exact isBreak_of_piece? hown
    | startTag _ => rfl
    | emptyTag _ => rfl
    | endTag _ => rfl

end XmlWriter

end Specimen

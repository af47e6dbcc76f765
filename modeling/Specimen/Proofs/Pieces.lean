import Specimen.Proofs.Tags
import Specimen.Writer.Xml

/-!
# What calls put

The writer of XML puts whole pieces. Each call that is taken puts a row of them, and the text grows by
just that row. A start tag that is held back is put with the next call that needs it complete.
-/

namespace Specimen.XmlWriter

open Markup

/-! ## Pieces of a call -/

/-- The line break before a tag or comment, where it is due. -/
def leadPieces (w : XmlWriter) : List Piece :=
  if w.breaksLine && 0 < w.indent then [.lineBreak (w.indent * w.opened.length)] else []

/-- The tag that is held back, as a start tag. -/
def startPieces (w : XmlWriter) : List Piece :=
  match w.held with
  | none => []
  | some tag => w.leadPieces ++ [.startTag tag.name tag.attributes]

/-- The tag that is held back, as one without content. -/
def emptyPieces (w : XmlWriter) : List Piece :=
  match w.held with
  | none => []
  | some tag => w.leadPieces ++ [.emptyTag tag.name tag.attributes]

/-- The end of the innermost element, if its start has been put. -/
def endPieces (w : XmlWriter) : List Piece :=
  match w.opened with
  | [] => []
  | element :: outer => { w with opened := outer }.leadPieces ++ [.endTag element.name]

/-- What a call puts when it is taken. -/
def pieces (w : XmlWriter) : Call → List Piece
  | .startDocument => w.leadPieces ++ [.declaration]
  | .declarePrefix _ => []
  | .startElement _ _ => w.startPieces
  | .attribute _ _ _ => []
  | .text value => if value = "" then [] else w.startPieces ++ [.text value]
  | .comment value => w.startPieces ++ (w.openHeld.2.leadPieces ++ [.comment value])
  | .endElement => if w.held.isSome then w.emptyPieces else w.endPieces
  | .endDocument => w.emptyPieces ++ [.lineBreak 0]

/-- What calls put when they are taken one after another. -/
def piecesOf : List Call → XmlWriter → List Piece
  | [], _ => []
  | call :: rest, w => w.pieces call ++ piecesOf rest (perform call w).2

/-! ## Putting pieces -/

variable {w w' : XmlWriter}

theorem textOf_leadPieces (w : XmlWriter) : textOf w.leadPieces = w.lead := by
  rw [leadPieces, lead]
  split
  · exact textOf_singleton _
  · rfl

/-- A text that there is room for is put behind the others. -/
theorem written_put {s : Sink} {text : String} (h : (s.put text).1 = true) :
    (s.put text).2.written = s.written ++ text := by
  rw [Sink.put] at h ⊢
  split
  · rfl
  · rename_i hfull
    rw [if_neg hfull] at h
    cases h

theorem putMarkup_ok (piece : Piece) (h : w.putMarkup piece.toText = (.ok (), w')) :
    ∃ sink, w' = { w with sink, breaksLine := true }
      ∧ sink.written = w.text ++ textOf (w.leadPieces ++ [piece]) := by
  cases hput : (w.sink.put (w.lead ++ piece.toText)).1 with
  | false =>
    simp only [putMarkup, hput] at h
    cases h
  | true =>
    refine ⟨(w.sink.put (w.lead ++ piece.toText)).2, (congrArg Prod.snd h).symm, ?_⟩
    rw [written_put hput, textOf_append, textOf_leadPieces, textOf_singleton]
    rfl

theorem putText_ok {value : String} (h : w.putText value = (.ok (), w')) :
    ∃ sink, w' = { w with sink, breaksLine := false }
      ∧ sink.written = w.text ++ textOf [.text value] := by
  cases hput : (w.sink.put (Markup.escape value)).1 with
  | false =>
    simp only [putText, hput] at h
    cases h
  | true =>
    refine ⟨(w.sink.put (Markup.escape value)).2, (congrArg Prod.snd h).symm, ?_⟩
    rw [written_put hput, textOf_singleton]
    rfl

theorem openHeld_ok (h : w.openHeld = (.ok (), w')) :
    (w.held = none ∧ w' = w)
      ∨ ∃ tag sink, w.held = some tag ∧ w' = { w with
            sink, breaksLine := true, held := none
            opened := ⟨tag.name, tag.declared⟩ :: w.opened }
          ∧ sink.written = w.text ++ textOf w.startPieces := by
  rw [openHeld] at h
  cases hheld : w.held with
  | none =>
    simp only [hheld] at h
    exact .inl ⟨rfl, (congrArg Prod.snd h).symm⟩
  | some tag =>
    simp only [hheld] at h
    split at h
    · rename_i hput
      obtain ⟨sink, rfl, hsink⟩ := putMarkup_ok (.startTag tag.name tag.attributes) hput
      refine .inr ⟨tag, sink, rfl, (congrArg Prod.snd h).symm, ?_⟩
      rw [startPieces, hheld]
      exact hsink
    · cases h

theorem closeHeld_ok (h : w.closeHeld = (.ok (), w')) :
    (w.held = none ∧ w' = w)
      ∨ ∃ tag sink, w.held = some tag ∧ w' = { w with sink, breaksLine := true, held := none }
          ∧ sink.written = w.text ++ textOf w.emptyPieces := by
  rw [closeHeld] at h
  cases hheld : w.held with
  | none =>
    simp only [hheld] at h
    exact .inl ⟨rfl, (congrArg Prod.snd h).symm⟩
  | some tag =>
    simp only [hheld] at h
    obtain ⟨sink, rfl, hsink⟩ := putMarkup_ok (.emptyTag tag.name tag.attributes) h
    refine .inr ⟨tag, sink, rfl, rfl, ?_⟩
    rw [emptyPieces, hheld]
    exact hsink

/-! ## Calls that are taken -/

theorem andThen_ok {r : Except Error Unit × XmlWriter}
    {next : XmlWriter → Except Error Unit × XmlWriter} (h : andThen r next = (.ok (), w')) :
    ∃ w₁, r = (.ok (), w₁) ∧ next w₁ = (.ok (), w') := by
  rcases r with ⟨_ | _, w₁⟩
  · cases h
  · exact ⟨w₁, rfl, h⟩

/-- The start of an element is held back until the namespaces it needs are declared. -/
theorem startElement_ok {uri name : String} (h : w.startElement uri name = (.ok (), w')) :
    ∃ w₁, w.openHeld = (.ok (), w₁)
      ∧ ∀ w₂, w₂ = ({ w₁ with held := some ⟨"", [], []⟩ } : XmlWriter).declareAwaited →
        w' = { (w₂.ensureDeclared uri).2 with
          held := (w₂.ensureDeclared uri).2.held.map fun tag =>
            { tag with name := Markup.qualify (w₂.ensureDeclared uri).1 name } } := by
  obtain ⟨w₁, hopen, hrest⟩ := andThen_ok h
  refine ⟨w₁, hopen, ?_⟩
  rintro w₂ rfl
  exact (congrArg Prod.snd hrest).symm

theorem addAttribute_ok {uri name value : String} (h : w.addAttribute uri name value = (.ok (), w')) :
    w.held ≠ none ∧ w' = { (w.ensureDeclared uri).2 with
      held := (w.ensureDeclared uri).2.held.map fun tag => { tag with
        attributes :=
          tag.attributes ++ [(Markup.qualify (w.ensureDeclared uri).1 name, value)] } } := by
  rw [addAttribute] at h
  split at h
  · cases h
  · rename_i hsome
    refine ⟨fun hnone => hsome ?_, (congrArg Prod.snd h).symm⟩
    rw [hnone]
    rfl

theorem addText_ok {value : String} (h : w.addText value = (.ok (), w')) :
    (value = "" ∧ w' = w)
      ∨ value ≠ "" ∧ ∃ w₁ sink, w.openHeld = (.ok (), w₁) ∧ w' = { w₁ with sink, breaksLine := false }
        ∧ sink.written = w₁.text ++ textOf [.text value] := by
  rw [addText] at h
  split at h
  · rename_i hempty
    exact .inl ⟨hempty, (congrArg Prod.snd h).symm⟩
  · rename_i hne
    obtain ⟨w₁, hopen, hput⟩ := andThen_ok h
    obtain ⟨sink, rfl, hsink⟩ := putText_ok hput
    exact .inr ⟨hne, w₁, sink, hopen, rfl, hsink⟩

theorem addComment_ok {value : String} (h : w.addComment value = (.ok (), w')) :
    ∃ w₁ sink, w.openHeld = (.ok (), w₁) ∧ w' = { w₁ with sink, breaksLine := true }
      ∧ sink.written = w₁.text ++ textOf (w₁.leadPieces ++ [.comment value]) := by
  obtain ⟨w₁, hopen, hput⟩ := andThen_ok h
  obtain ⟨sink, rfl, hsink⟩ := putMarkup_ok (.comment value) hput
  exact ⟨w₁, sink, hopen, rfl, hsink⟩

theorem endElement_ok (h : w.endElement = (.ok (), w')) :
    (w.held.isSome ∧ w.closeHeld = (.ok (), w'))
      ∨ w.held = none ∧ ∃ element outer sink, w.opened = element :: outer
        ∧ w' = { w with opened := outer, sink, breaksLine := true }
        ∧ sink.written = w.text ++ textOf w.endPieces := by
  rw [endElement] at h
  split at h
  · rename_i hheld
    exact .inl ⟨hheld, h⟩
  · rename_i hheld
    split at h
    · cases h
    · rename_i element outer hopened
      obtain ⟨sink, rfl, hsink⟩ := putMarkup_ok (.endTag element.name) h
      refine .inr ⟨Option.not_isSome_iff_eq_none.mp hheld, element, outer, sink, hopened, rfl, ?_⟩
      rw [endPieces, hopened]
      exact hsink

theorem endDocument_ok (h : w.endDocument = (.ok (), w')) :
    ∃ w₁ sink, w.closeHeld = (.ok (), w₁) ∧ w₁.opened = [] ∧ w' = { w₁ with sink }
      ∧ sink.written = w₁.text ++ textOf [.lineBreak 0] := by
  obtain ⟨w₁, hclose, hrest⟩ := andThen_ok h
  split at hrest
  · cases hrest
  · rename_i hopened
    cases hput : (w₁.sink.put "\n").1 with
    | false =>
      simp only [hput] at hrest
      cases hrest
    | true =>
      refine ⟨w₁, (w₁.sink.put "\n").2, hclose, hopened, (congrArg Prod.snd hrest).symm, ?_⟩
      rw [written_put hput]
      rfl

/-! ## The text that a call adds -/

theorem openHeld_text (h : w.openHeld = (.ok (), w')) :
    w'.text = w.text ++ textOf w.startPieces := by
  rcases openHeld_ok h with ⟨hheld, rfl⟩ | ⟨tag, sink, -, rfl, hsink⟩
  · rw [startPieces, hheld, textOf_nil, String.append_empty]
  · exact hsink

theorem closeHeld_text (h : w.closeHeld = (.ok (), w')) :
    w'.text = w.text ++ textOf w.emptyPieces := by
  rcases closeHeld_ok h with ⟨hheld, rfl⟩ | ⟨tag, sink, -, rfl, hsink⟩
  · rw [emptyPieces, hheld, textOf_nil, String.append_empty]
  · exact hsink

/-- Asking for a prefix puts nothing. -/
theorem ensureDeclared_sink (w : XmlWriter) (uri : String) :
    (w.ensureDeclared uri).2.sink = w.sink := by
  rw [ensureDeclared]
  split
  · rfl
  · dsimp only
    split
    · rfl
    · split <;> rfl

theorem foldl_ensureDeclared_sink (w : XmlWriter) (uris : List String) :
    (uris.foldl (fun w uri => (w.ensureDeclared uri).2) w).sink = w.sink := by
  induction uris generalizing w with
  | nil => rfl
  | cons uri uris ih => exact (ih _).trans (w.ensureDeclared_sink uri)

/-- **A call that is taken puts just its pieces.** -/
theorem take_text {call : Call} (h : w.take call = (.ok (), w')) :
    w'.text = w.text ++ textOf (w.pieces call) := by
  cases call with
  | startDocument =>
    obtain ⟨sink, rfl, hsink⟩ := putMarkup_ok .declaration h
    exact hsink
  -- Prefixes and attributes go to the tag that is held back, which puts no text yet.
  | declarePrefix uri =>
    obtain rfl := congrArg Prod.snd h
    rw [pieces, textOf_nil, String.append_empty]
    exact congrArg Sink.written (w.ensureDeclared_sink uri)
  | startElement uri name =>
    obtain ⟨w₁, hopen, hrest⟩ := startElement_ok h
    obtain rfl := hrest _ rfl
    show (XmlWriter.ensureDeclared _ uri).2.sink.written = _
    rw [ensureDeclared_sink, declareAwaited, foldl_ensureDeclared_sink]
    have htext := openHeld_text hopen
    exact htext
  | «attribute» uri name value =>
    obtain ⟨-, rfl⟩ := addAttribute_ok h
    rw [pieces, textOf_nil, String.append_empty]
    exact congrArg Sink.written (w.ensureDeclared_sink uri)
  | text value =>
    rcases addText_ok h with ⟨hempty, rfl⟩ | ⟨hne, w₁, sink, hopen, rfl, hsink⟩
    · rw [pieces, if_pos hempty, textOf_nil, String.append_empty]
    · rw [pieces, if_neg hne, textOf_append, ← String.append_assoc, ← openHeld_text hopen]
      exact hsink
  | comment value =>
    obtain ⟨w₁, sink, hopen, rfl, hsink⟩ := addComment_ok h
    rw [pieces, hopen, textOf_append, ← String.append_assoc, ← openHeld_text hopen]
    exact hsink
  | endElement =>
    rcases endElement_ok h with ⟨hheld, hclose⟩ | ⟨hheld, element, outer, sink, -, rfl, hsink⟩
    · rw [pieces, if_pos hheld]
      exact closeHeld_text hclose
    · rw [pieces, if_neg (by simp [hheld])]
      exact hsink
  | endDocument =>
    obtain ⟨w₁, sink, hclose, -, rfl, hsink⟩ := endDocument_ok h
    rw [pieces, textOf_append, ← String.append_assoc, ← closeHeld_text hclose]
    exact hsink

/-! ## The text of a row of calls -/

theorem of_map_ok {r : Except Error Unit × XmlWriter} {answer : String}
    (h : (r.1.map fun _ => "", r.2) = (.ok answer, w')) : r = (.ok (), w') := by
  rcases r with ⟨_ | _, w₁⟩
  · cases congrArg Prod.fst h
  · exact congrArg (fun r => (Except.ok (), r.2)) h

theorem take_of_perform {call : Call} {answer : String}
    (h : Writer.perform call w = (.ok answer, w')) : w.take call = (.ok (), w') := by
  cases call with
  | declarePrefix uri => exact congrArg (fun r => (Except.ok (), r.2)) h
  | _ => exact of_map_ok h

/-- What is kept by each call that is taken is kept by a row of them. -/
theorem performAll_cons_ok {call : Call} {rest : List Call}
    (h : performAll (call :: rest) w = (.ok (), w')) :
    ∃ w₁, w.take call = (.ok (), w₁) ∧ (perform call w).2 = w₁
      ∧ performAll rest w₁ = (.ok (), w') := by
  rw [performAll] at h
  split at h
  · rename_i w₁ hperform
    exact ⟨w₁, take_of_perform hperform, congrArg Prod.snd hperform, h⟩
  · cases h

/-- **Calls that are taken put just their pieces.** -/
theorem performAll_text {calls : List Call} (h : performAll calls w = (.ok (), w')) :
    w'.text = w.text ++ textOf (piecesOf calls w) := by
  induction calls generalizing w with
  | nil =>
    obtain rfl := congrArg Prod.snd h
    rw [piecesOf, textOf_nil, String.append_empty]
    rfl
  | cons call rest ih =>
    obtain ⟨w₁, htake, hperform, hrest⟩ := performAll_cons_ok h
    rw [ih hrest, take_text htake, piecesOf, hperform, textOf_append, String.append_assoc]

end Specimen.XmlWriter

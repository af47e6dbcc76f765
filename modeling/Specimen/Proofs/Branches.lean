import Specimen.Proofs.Indentation
import Specimen.Proofs.Values

/-!
# Documents as they are put

The pieces of a whole document are those of a tree: an element is put as one tag, as a text between
tags, or as elements between tags, and there may be a comment before it. With an indentation, the
same tree is put with a line break before each tag and each comment, but none next to a text.

That the pieces are those of a tree follows from the grammar of event streams: a start tag is held
back until it is known what stands inside its element.
-/

namespace Specimen

namespace Markup

/-! ## Trees of pieces -/

mutual

/-- An element as it is put: the comment before it, if there is one, the name and the attributes of
its tag, and what stands inside. -/
inductive Branch where
  | element (remark : Option String) (name : String) (attributes : List (String × String))
    (inside : Inside)

/-- What is put inside an element: nothing, a text that is not empty, or elements. -/
inductive Inside where
  | nothing
  | text (value : String) (h : value ≠ "")
  | branches (branches : Branches)

/-- Elements one after another, and one of them at least. -/
inductive Branches where
  | last (branch : Branch)
  | cons (branch : Branch) (rest : Branches)

end

/-- A line break and `n` blanks for each level, where there is an indentation. -/
def breakPieces (n level : Nat) : List Piece := if 0 < n then [.lineBreak (n * level)] else []

/-- The comment before an element, on a line of its own. -/
def remarkPieces (n level : Nat) : Option String → List Piece
  | none => []
  | some remark => breakPieces n level ++ [.comment remark]

mutual

/-- The pieces of an element on a level, with `n` blanks for each. -/
def Branch.pieces (n level : Nat) : Branch → List Piece
  | .element remark name attributes inside =>
    remarkPieces n level remark ++ (breakPieces n level ++ inside.pieces n level name attributes)

/-- The pieces of an element from its tag on. -/
def Inside.pieces (n level : Nat) (name : String) (attributes : List (String × String)) :
    Inside → List Piece
  | .nothing => [.emptyTag name attributes]
  | .text value _ => [.startTag name attributes, .text value, .endTag name]
  | .branches branches => .startTag name attributes
      :: (branches.pieces n (level + 1) ++ (breakPieces n level ++ [.endTag name]))

/-- The pieces of elements one after another. -/
def Branches.pieces (n level : Nat) : Branches → List Piece
  | .last branch => branch.pieces n level
  | .cons branch rest => branch.pieces n level ++ rest.pieces n level

end

/-! ## Trees on lines of their own -/

/-- These pieces of a level begin and end where a line may begin, and become others with an
indentation. -/
def IsIndented (n level : Nat) (pieces indentedPieces : List Piece) : Prop :=
  indented n ⟨level, true⟩ pieces = indentedPieces
    ∧ Position.after ⟨level, true⟩ pieces = ⟨level, true⟩

namespace IsIndented

variable {n level : Nat} {pieces pieces' indentedPieces indentedPieces' : List Piece}

theorem nil : IsIndented n level [] [] := ⟨rfl, rfl⟩

theorem append (h : IsIndented n level pieces indentedPieces)
    (h' : IsIndented n level pieces' indentedPieces') :
    IsIndented n level (pieces ++ pieces') (indentedPieces ++ indentedPieces') := by
  refine ⟨?_, ?_⟩
  · rw [indented_append, h.1, h.2, h'.1]
  · rw [Position.after_append, h.2, h'.2]

end IsIndented

theorem breakPieces_zero (level : Nat) : breakPieces 0 level = [] := rfl

/-- A piece of markup on its level. -/
theorem lead_eq_breakPieces {n level : Nat} {piece : Piece} (h : piece.isMarkup = true) :
    Position.lead n ⟨level, true⟩ piece = breakPieces n (Position.levelOf ⟨level, true⟩ piece) := by
  rw [Position.lead, h, breakPieces]
  simp

theorem isIndented_remark (n level : Nat) (remark : Option String) :
    IsIndented n level (remarkPieces 0 level remark) (remarkPieces n level remark) := by
  cases remark with
  | none => exact .nil
  | some remark =>
    refine ⟨?_, rfl⟩
    rw [remarkPieces, breakPieces_zero, List.nil_append, indented, lead_eq_breakPieces rfl]
    rfl

mutual

theorem Branch.isIndented (n level : Nat) :
    ∀ branch : Branch, IsIndented n level (branch.pieces 0 level) (branch.pieces n level)
  | .element remark name attributes inside =>
    (isIndented_remark n level remark).append (inside.isIndented n level name attributes)

theorem Inside.isIndented (n level : Nat) (name : String) (attributes : List (String × String)) :
    ∀ inside : Inside, IsIndented n level (inside.pieces 0 level name attributes)
      (breakPieces n level ++ inside.pieces n level name attributes)
  | .nothing => by
    refine ⟨?_, rfl⟩
    rw [Inside.pieces, indented, lead_eq_breakPieces rfl]
    rfl
  | .text value h => by
    refine ⟨?_, rfl⟩
    rw [Inside.pieces, indented, lead_eq_breakPieces rfl]
    rfl
  | .branches branches => by
    obtain ⟨hinside, hafter⟩ := branches.isIndented n (level + 1)
    have hpieces : (Inside.branches branches).pieces 0 level name attributes
        = .startTag name attributes :: (branches.pieces 0 (level + 1) ++ [.endTag name]) := rfl
    have hnext : Position.next ⟨level, true⟩ (.startTag name attributes) = ⟨level + 1, true⟩ := rfl
    refine ⟨?_, ?_⟩
    · rw [hpieces, indented, lead_eq_breakPieces rfl, hnext, indented_append, hinside, hafter,
        indented, lead_eq_breakPieces rfl]
      rfl
    · rw [hpieces, Position.after, List.foldl_cons, hnext]
      show Position.after _ (_ ++ _) = _
      rw [Position.after_append, hafter]
      rfl

theorem Branches.isIndented (n level : Nat) :
    ∀ branches : Branches, IsIndented n level (branches.pieces 0 level) (branches.pieces n level)
  | .last branch => branch.isIndented n level
  | .cons branch rest => (branch.isIndented n level).append (rest.isIndented n level)

end

end Markup

namespace XmlWriter

open Markup

variable {w w' : XmlWriter} {opened : List OpenElement}

/-! ## Tags that are held back -/

/-- The tag that is held back when elements follow, and the elements that are open behind it. What
has been asked for before they follow may be declared on the tag. -/
inductive Opens (w : XmlWriter) : List Piece → List OpenElement → Prop
  | already (h : w.held = none) : Opens w [] w.opened
  | tag {tag : HeldTag} (h : w.held = some tag) (attributes : List (String × String))
      (declared : List String) :
      Opens w [.startTag tag.name attributes] (⟨tag.name, declared⟩ :: w.opened)

/-- No tag is held back, these elements are open, and there is no indentation. -/
structure Stays (w : XmlWriter) (opened : List OpenElement) : Prop where
  held : w.held = none
  opened_eq : w.opened = opened
  indent : w.indent = 0

/-- What stays in a tag puts nothing. -/
theorem sameTag_performAll {calls : List Call} (hcalls : ∀ c ∈ calls, c.StaysInTag)
    (h : performAll calls w = (.ok (), w')) : w.SameTag w' ∧ piecesOf calls w = [] := by
  induction calls generalizing w with
  | nil =>
    cases h
    exact ⟨.refl _, rfl⟩
  | cons c rest ih =>
    obtain ⟨w₁, htake, hperform, hrest⟩ := performAll_cons_ok h
    obtain ⟨hc, hcalls⟩ := List.forall_mem_cons.mp hcalls
    obtain ⟨hsame, hnone⟩ := ih hcalls hrest
    have hone : w.SameTag w₁ ∧ w.pieces c = [] := by
      cases c with
      | declarePrefix uri =>
        obtain rfl := congrArg Prod.snd htake
        exact ⟨.ensureDeclared w uri, rfl⟩
      | «attribute» uri name value => exact ⟨.addAttribute htake, rfl⟩
      | text value =>
        rcases addText_ok htake with ⟨hempty, rfl⟩ | ⟨hne, -⟩
        · exact ⟨.refl _, if_pos hempty⟩
        · exact absurd hc hne
      | _ => exact hc.elim
    rw [piecesOf, hone.2, hperform, hnone]
    exact ⟨hone.1.trans hsame, rfl⟩

theorem startPieces_of_held_none (h : w.held = none) : w.startPieces = [] := by rw [startPieces, h]

theorem openHeld_of_held_none (h : w.held = none) : w.openHeld = (.ok (), w) := by rw [openHeld, h]

/-- Where elements follow, the tag that was held back is put. -/
theorem SameTag.opens {w₁ w₂ : XmlWriter} (h : w.SameTag w₁) (hindent : w.indent = 0)
    (hopen : w₁.openHeld = (.ok (), w₂)) :
    w.Opens w₁.startPieces w₂.opened ∧ w₂.Stays w₂.opened := by
  have hheld := h.held
  rcases openHeld_ok hopen with ⟨hnone, rfl⟩ | ⟨tag, sink, hsome, rfl, -⟩
  · rw [hnone, Option.map_none, eq_comm, Option.map_eq_none_iff] at hheld
    rw [startPieces_of_held_none hnone, h.opened]
    exact ⟨.already hheld, hnone, h.opened, h.indent.trans hindent⟩
  · rw [hsome, Option.map_some, eq_comm, Option.map_eq_some_iff] at hheld
    obtain ⟨tag', htag, hname⟩ := hheld
    have hstart : w₁.startPieces = [.startTag tag.name tag.attributes] := by
      rw [startPieces, hsome, leadPieces_compact (h.indent.trans hindent)]
      rfl
    rw [hstart, h.opened, ← hname]
    exact ⟨.tag htag _ _, rfl, rfl, h.indent.trans hindent⟩

/-- A comment that follows is put behind this tag. -/
theorem SameTag.addComment {w₁ : XmlWriter} {value : String} (h : w.SameTag w₁)
    (hindent : w.indent = 0) (hcomment : w₁.addComment value = (.ok (), w')) :
    ∃ opened, w.Opens w₁.startPieces opened ∧ w'.Stays opened
      ∧ w₁.pieces (.comment value) = w₁.startPieces ++ [.comment value] := by
  obtain ⟨w₂, sink, hopen, rfl, -⟩ := addComment_ok hcomment
  obtain ⟨hopens, hstayed⟩ := h.opens hindent hopen
  refine ⟨_, hopens, ⟨hstayed.held, rfl, hstayed.indent⟩, ?_⟩
  rw [pieces, hopen, leadPieces_compact hstayed.indent]
  rfl

theorem Stays.startElement {uri name : String} (h : w.Stays opened)
    (hstart : w.startElement uri name = (.ok (), w')) :
    ∃ tag, w'.held = some tag ∧ w'.opened = opened ∧ w'.indent = 0 := by
  obtain ⟨w₁, hopen, tag, hheld, hopened, hindent, -⟩ := sameTag_startElement hstart
  rw [openHeld_of_held_none h.held] at hopen
  obtain rfl : w = w₁ := congrArg Prod.snd hopen
  exact ⟨tag, hheld, hopened.trans h.opened_eq, hindent.trans h.indent⟩

/-- Before an element there may be a comment, and then its tag is held back. -/
theorem exists_lead {lead : List Event} {uri name : String} (hlead : Event.IsLead lead)
    (hindent : w.indent = 0)
    (h : performAll (lead.map Event.call ++ [.startElement uri name]) w = (.ok (), w')) :
    ∃ front opened remark tag, w.Opens front opened ∧ w'.held = some tag ∧ w'.opened = opened
      ∧ w'.indent = 0
      ∧ ∀ level, piecesOf (lead.map Event.call ++ [.startElement uri name]) w
          = front ++ remarkPieces 0 level remark := by
  have hstays {l : List Event} (hl : ∀ e ∈ l, e.isRequest = true) :
      ∀ c ∈ l.map Event.call, c.StaysInTag := by
    refine List.forall_mem_map.mpr fun e he => ?_
    have hrequest := hl e he
    cases e with
    | declarePrefix uri pfx => trivial
    | _ => cases hrequest
  cases hlead with
  | requests hl =>
    obtain ⟨w₁, hrequests, hstart⟩ := performAll_append_ok h
    obtain ⟨hsame, hnone⟩ := sameTag_performAll (hstays hl) hrequests
    obtain ⟨w₂, htake, -, hend⟩ := performAll_cons_ok hstart
    cases hend
    obtain ⟨w₃, hopen, tag, hheld, hopened, hindent', -⟩ := sameTag_startElement htake
    obtain ⟨hopens, hstayed⟩ := hsame.opens hindent hopen
    refine ⟨_, _, none, tag, hopens, hheld, hopened, hindent'.trans hstayed.indent, fun level => ?_⟩
    rw [piecesOf_append _ hrequests, hnone]
    rfl
  | @comment l hl value =>
    rw [List.map_append, List.append_assoc] at h ⊢
    obtain ⟨w₁, hrequests, hrest⟩ := performAll_append_ok h
    obtain ⟨hsame, hnone⟩ := sameTag_performAll (hstays hl) hrequests
    obtain ⟨w₂, hremark, hperform, hstart⟩ := performAll_cons_ok hrest
    obtain ⟨opened, hopens, hstayed, hcomment⟩ := hsame.addComment hindent hremark
    obtain ⟨w₃, htake, -, hend⟩ := performAll_cons_ok hstart
    cases hend
    obtain ⟨tag, hheld, hopened, hindent'⟩ := hstayed.startElement htake
    refine ⟨_, _, some value, tag, hopens, hheld, hopened, hindent', fun level => ?_⟩
    -- The comment has put what was held back, so the tag itself puts nothing yet.
    have hstart : piecesOf [Call.startElement uri name] w₂ = [] := by
      rw [piecesOf, pieces, startPieces_of_held_none hstayed.held]
      rfl
    rw [piecesOf_append _ hrequests, hnone]
    show piecesOf (Call.comment value :: [Call.startElement uri name]) w₁ = _
    rw [Event.call] at hperform
    rw [piecesOf, hcomment, hperform, hstart, List.append_nil]
    rfl

/-! ## Elements that are put -/

/-- Where the calls are taken, the tag that is held back is put, and then a tree with such pieces. -/
def Grows {α : Type} (calls : List Call) (pieces : Nat → α → List Piece) : Prop :=
  ∀ w w' : XmlWriter, w.indent = 0 → performAll calls w = (.ok (), w') →
    ∃ front opened tree, w.Opens front opened ∧ w'.Stays opened
      ∧ ∀ level, piecesOf calls w = front ++ pieces level tree

/-- Where the calls are taken while a tag is held back, the rest of its element is put. -/
def Fills (calls : List Call) : Prop :=
  ∀ (w w' : XmlWriter) (tag : HeldTag), w.indent = 0 → w.held = some tag →
    performAll calls w = (.ok (), w') →
    w'.Stays w.opened ∧ ∃ attributes inside, ∀ level,
      piecesOf calls w = Inside.pieces 0 level tag.name attributes inside

/-- The end of an element whose tag is held back. -/
theorem fills_end : Fills [.endElement] := by
  intro w w' tag hindent hheld h
  obtain ⟨w₁, htake, -, hnil⟩ := performAll_cons_ok h
  cases hnil
  have hsome : w.held.isSome = true := by rw [hheld]; rfl
  rcases endElement_ok htake with ⟨-, hclose⟩ | ⟨hnone, -⟩
  · rcases closeHeld_ok hclose with ⟨hnone, -⟩ | ⟨tag', sink, -, rfl, -⟩
    · rw [hheld] at hnone
      cases hnone
    · refine ⟨⟨rfl, rfl, hindent⟩, tag.attributes, .nothing, fun level => ?_⟩
      rw [piecesOf, pieces, if_pos hsome, emptyPieces, hheld, leadPieces_compact hindent]
      rfl
  · rw [hheld] at hnone
    cases hnone

/-- The end of an element whose tag has been put. -/
theorem Stays.endElement {element : OpenElement} {outer : List OpenElement}
    (h : w.Stays (element :: outer)) (hok : performAll [.endElement] w = (.ok (), w')) :
    w'.Stays outer ∧ piecesOf [.endElement] w = [.endTag element.name] := by
  obtain ⟨w₁, htake, -, hnil⟩ := performAll_cons_ok hok
  cases hnil
  have hnot : ¬w.held.isSome = true := by rw [h.held]; exact Bool.false_ne_true
  rcases endElement_ok htake with ⟨hsome, -⟩ | ⟨-, element', outer', sink, hopened, rfl, -⟩
  · exact absurd hsome hnot
  · obtain ⟨rfl, rfl⟩ := List.cons.inj (h.opened_eq.symm.trans hopened)
    have hcompact : leadPieces { w with opened := outer } = [] := leadPieces_compact h.indent
    refine ⟨⟨h.held, rfl, h.indent⟩, ?_⟩
    rw [piecesOf, pieces, if_neg hnot, endPieces, hopened]
    dsimp only
    rw [hcompact]
    rfl

/-- A text fills an element. The empty one leaves no trace. -/
theorem fills_text (value : String) : Fills [.text value, .endElement] := by
  intro w w' tag hindent hheld h
  obtain ⟨w₁, htake, hperform, hend⟩ := performAll_cons_ok h
  rw [piecesOf, pieces, hperform]
  rcases addText_ok htake with ⟨hempty, rfl⟩ | ⟨hne, w₂, sink, hopen, heq, -⟩
  · rw [if_pos hempty]
    exact fills_end _ _ tag hindent hheld hend
  · rw [if_neg hne]
    rcases openHeld_ok hopen with ⟨hnone, -⟩ | ⟨tag', sink', hsome, rfl, -⟩
    · rw [hheld] at hnone
      cases hnone
    · obtain rfl := Option.some.inj (hheld.symm.trans hsome)
      have hstayed : w₁.Stays (⟨tag.name, tag.declared⟩ :: w.opened) := by
        subst heq
        exact ⟨rfl, rfl, hindent⟩
      obtain ⟨hstayed', hpieces⟩ := hstayed.endElement hend
      refine ⟨hstayed', tag.attributes, .text value hne, fun level => ?_⟩
      rw [hpieces, startPieces, hheld, leadPieces_compact hindent]
      rfl

/-- Elements fill an element. -/
theorem fills_branches {calls : List Call} (hcalls : Grows calls (Branches.pieces 0)) :
    Fills (calls ++ [.endElement]) := by
  intro w w' tag hindent hheld h
  obtain ⟨w₁, hinside, hend⟩ := performAll_append_ok h
  obtain ⟨front, opened, branches, hopens, hstayed, hpieces⟩ := hcalls w w₁ hindent hinside
  cases hopens with
  | already hnone =>
    rw [hheld] at hnone
    cases hnone
  | tag hsome attributes declared =>
    obtain rfl := Option.some.inj (hheld.symm.trans hsome)
    obtain ⟨hstayed', hend⟩ := hstayed.endElement hend
    refine ⟨hstayed', attributes, .branches branches, fun level => ?_⟩
    rw [piecesOf_append _ hinside, hpieces (level + 1), hend]
    rfl

/-- An element, from what stands before its start on. -/
theorem grows_element {lead tag : List Event} {inside : List Call} {uri name : String}
    (hlead : Event.IsLead lead) (htag : ∀ e ∈ tag, e.isTagPart = true) (hinside : Fills inside) :
    Grows (lead.map Event.call ++ ([.startElement uri name] ++ (tag.map Event.call ++ inside)))
      (Branch.pieces 0) := by
  intro w w' hindent h
  rw [← List.append_assoc] at h ⊢
  obtain ⟨w₁, hstart, hrest⟩ := performAll_append_ok h
  obtain ⟨front, opened, remark, started, hopens, hheld, rfl, hindent', hpieces⟩ :=
    exists_lead hlead hindent hstart
  obtain ⟨w₂, hparts, hrest'⟩ := performAll_append_ok hrest
  -- Attributes and requests change the tag that is held back, but not its name.
  obtain ⟨hsame, hnone⟩ := sameTag_performAll
    (List.forall_mem_map.mpr fun e he => staysInTag_of_isTagPart (htag e he)) hparts
  have hname := hsame.held
  rw [hheld, Option.map_some, Option.map_eq_some_iff] at hname
  obtain ⟨completed, hheld', hname⟩ := hname
  obtain ⟨hstayed, attributes, inside', hfilled⟩ :=
    hinside w₂ w' completed (hsame.indent.trans hindent') hheld' hrest'
  refine ⟨front, w₁.opened, .element remark completed.name attributes inside', hopens,
    hsame.opened ▸ hstayed, fun level => ?_⟩
  rw [piecesOf_append _ hstart, piecesOf_append _ hparts, hnone, hfilled level, hpieces level,
    List.append_assoc]
  rfl

theorem Grows.last {calls : List Call} (h : Grows calls (Branch.pieces 0)) :
    Grows calls (Branches.pieces 0) := by
  intro w w' hindent hok
  obtain ⟨front, opened, branch, hgrown⟩ := h w w' hindent hok
  exact ⟨front, opened, .last branch, hgrown⟩

/-- Elements one after another: a tag is held back only before the first one. -/
theorem Grows.cons {calls calls' : List Call} (h : Grows calls (Branch.pieces 0))
    (h' : Grows calls' (Branches.pieces 0)) : Grows (calls ++ calls') (Branches.pieces 0) := by
  intro w w' hindent hok
  obtain ⟨w₁, hfirst, hrest⟩ := performAll_append_ok hok
  obtain ⟨front, opened, branch, hopens, hstayed, hpieces⟩ := h w w₁ hindent hfirst
  obtain ⟨front', opened', branches, hopens', hstayed', hpieces'⟩ := h' w₁ w' hstayed.indent hrest
  cases hopens' with
  | tag hsome _ _ =>
    rw [hstayed.held] at hsome
    cases hsome
  | already _ =>
    refine ⟨front, opened, .cons branch branches, hopens, hstayed.opened_eq ▸ hstayed',
      fun level => ?_⟩
    rw [piecesOf_append _ hfirst, hpieces level, hpieces' level, List.append_assoc]
    rfl

end XmlWriter

namespace Event

open XmlWriter Markup

/-- **By the grammar of elements: what is put is a tree.** -/
theorem IsElement.grows {l : List Event} (h : IsElement l) :
    Grows (l.map Event.call) (Branch.pieces 0) := by
  induction h using IsElement.rec
    (motive_2 := fun l _ => Fills (l.map Event.call ++ [.endElement]))
    (motive_3 := fun l _ => l = [] ∨ Grows (l.map Event.call) (Branches.pieces 0)) with
  | element hlead htag _ ih =>
    simpa [Event.call] using grows_element hlead htag ih
  | text value => exact fills_text value
  | elements _ ih =>
    rcases ih with rfl | hgrows
    · exact fills_end
    · exact fills_branches hgrows
  | nil => exact .inl rfl
  | cons h h' ih ih' =>
    refine .inr ?_
    rcases ih' with rfl | hgrows
    · rw [List.append_nil]
      exact ih.last
    · rw [List.map_append]
      exact ih.cons hgrows

end Event

namespace XmlWriter

open Markup

theorem piecesOf_endDocument (w : XmlWriter) :
    piecesOf [.endDocument] w = w.emptyPieces ++ [.lineBreak 0] := List.append_nil _

/-- **What is put of a document without an indentation** is the declaration, one element and a line
break. -/
theorem exists_branch {root : QName} {l : List Event} {sink : Sink} {w' : XmlWriter}
    (h : Event.IsDocument root l)
    (hok : performAll (l.map Event.call) ({ sink } : XmlWriter) = (.ok (), w')) :
    ∃ branch : Branch, ∀ level, piecesOf (l.map Event.call) ({ sink } : XmlWriter)
      = .declaration :: (branch.pieces 0 level ++ [.lineBreak 0]) := by
  obtain @⟨declarations, element, hdeclarations, helement⟩ := h
  have hstays : ∀ c ∈ declarations.map Event.call, c.StaysInTag := by
    cases hdeclarations <;> simp [Event.call, Call.StaysInTag]
  rw [List.map_cons, List.map_append, List.map_append] at hok ⊢
  obtain ⟨w₁, htake, hperform, hrest⟩ := performAll_cons_ok hok
  obtain ⟨w₂, hrequests, hrest⟩ := performAll_append_ok hrest
  obtain ⟨w₃, hwhole, hend⟩ := performAll_append_ok hrest
  obtain ⟨sink', heq, -⟩ := putMarkup_ok .declaration htake
  obtain ⟨hsame, hnone⟩ := sameTag_performAll hstays hrequests
  have hheld : w₂.held = none := by simpa [heq] using hsame.held
  have hindent : w₂.indent = 0 := by simpa [heq] using hsame.indent
  obtain ⟨front, opened, branch, hopens, hstayed, hpieces⟩ := helement.grows w₂ w₃ hindent hwhole
  -- Behind the declaration no tag is held back, so nothing stands before the element.
  cases hopens with
  | tag hsome _ _ =>
    rw [hheld] at hsome
    cases hsome
  | already _ =>
    refine ⟨branch, fun level => ?_⟩
    have hend' : piecesOf ([.endDocument].map Event.call) w₃ = [.lineBreak 0] := by
      rw [List.map_singleton, Event.call, piecesOf_endDocument, emptyPieces, hstayed.held]
      rfl
    rw [piecesOf, hperform, piecesOf_append _ hrequests, hnone, piecesOf_append _ hwhole,
      hpieces level, hend']
    rfl

end XmlWriter

end Specimen

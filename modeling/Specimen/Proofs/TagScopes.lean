import Specimen.Proofs.Independence
import Specimen.Proofs.XmlNames

/-!
# What is in force in a tag

A value may be a name as well, and then its prefix stands for the namespace that is declared for it
on the tag or around it. Reading a text gives its start tags in their order, each with the
declarations in force there. The elements that are reported are started in the same order, so the
tag of each is known by its number, and in it the prefix that a request was answered with stands for
the namespace that was asked for.
-/

namespace Specimen

open Markup

/-! ## Tags of a text -/

namespace Markup

/-- The name that a value stands for: the URI of its namespace and its local part. Without a prefix
it is in the default namespace. -/
def Bindings.name? (scope : Bindings) (value : String) : Option (String × String) :=
  (nameParts value).bind fun (pfx, localName) =>
    (scope.elementUri? pfx).map fun uri => (uri, localName)

/-- The prefix that was given out for a namespace, with a local part behind it, is a name in this
namespace. -/
theorem Bindings.name?_scope {ps : Prefixes} {uris : List String} {uri localName : String}
    (hs : ps.IsSound) (hnames : ∀ u ∈ uris, ps.Names u) (hvisible : Prefixes.IsVisible uris uri)
    (hlocal : ':' ∉ localName.toList) :
    (ps.scope uris).name? (qualify (ps.pfx uri) localName) = some (uri, localName) := by
  have hcolon := hs.colon_notMem (hs.names_of_isVisible hnames hvisible)
  rw [Bindings.name?, nameParts_qualify hcolon hlocal]
  show ((ps.scope uris).elementUri? (ps.pfx uri)).map _ = _
  rw [hs.elementUri?_scope hnames hvisible]
  rfl

/-- The start of an element. -/
def Mark.isStart : Mark → Bool
  | .start .. => true
  | .finish => false

namespace Reading

/-- What is in force in a start tag, and the start of its element. -/
def tag? (r : Reading) : Piece → Option (Bindings × Mark)
  | .startTag name attributes =>
    (readTag r.scope name attributes).map fun (declared, mark) => (declared ++ r.scope, mark)
  | .emptyTag name attributes =>
    (readTag r.scope name attributes).map fun (declared, mark) => (declared ++ r.scope, mark)
  | _ => none

/-- The start tags among pieces, which have to be readable. -/
def tags (r : Reading) : List Piece → Option (List (Bindings × Mark))
  | [] => some []
  | piece :: rest =>
    (r.read piece).bind fun r' => (r'.tags rest).map fun tags => (r.tag? piece).toList ++ tags

theorem tags_append {r r' : Reading} {pieces : List Piece} (pieces' : List Piece)
    (h : r.readAll pieces = some r') :
    r.tags (pieces ++ pieces')
      = (r.tags pieces).bind fun tags => (r'.tags pieces').map fun tags' => tags ++ tags' := by
  induction pieces generalizing r with
  | nil =>
    cases h
    simp [tags]
  | cons piece rest ih =>
    rw [readAll, List.foldlM_cons] at h
    obtain ⟨r₁, hread, hrest⟩ := Option.bind_eq_some_iff.mp h
    rw [List.cons_append, tags, tags, hread, Option.bind_some, Option.bind_some, ih hrest]
    cases r₁.tags rest with
    | none => rfl
    | some l => simp [Function.comp_def]

theorem isStart_of_readTag {outer declared : Bindings} {name : String}
    {attributes : List (String × String)} {mark : Mark}
    (h : readTag outer name attributes = some (declared, mark)) : mark.isStart = true := by
  unfold readTag at h
  simp only [Option.bind_eq_bind, Option.bind_eq_some_iff, Option.ite_none_right_eq_some] at h
  obtain ⟨items, -, parts, -, uri, -, attrs, -, -, hmark⟩ := h
  cases hmark
  rfl

/-- The first tag among pieces that begin with a tag. -/
theorem head?_tags {r : Reading} {piece : Piece} {rest : List Piece} {tags : List (Bindings × Mark)}
    {tag : Bindings × Mark} (h : r.tags (piece :: rest) = some tags)
    (htag : r.tag? piece = some tag) : tags.head? = some tag := by
  rw [Reading.tags, htag] at h
  obtain ⟨r', -, h⟩ := Option.bind_eq_some_iff.mp h
  obtain ⟨tags', -, rfl⟩ := Option.map_eq_some_iff.mp h
  rfl

/-- A start tag is read with each start that is added. -/
theorem countP_read {r r' : Reading} {piece : Piece} (h : r.read piece = some r') :
    r'.marks.countP Mark.isStart = r.marks.countP Mark.isStart + (r.tag? piece).toList.length := by
  have hmark {name : String} {attributes : List (String × String)} {read : Bindings × Mark}
      (h : readTag r.scope name attributes = some read) : read.2.isStart = true :=
    isStart_of_readTag h
  cases piece with
  | startTag name attributes =>
    obtain ⟨read, hread, rfl⟩ := Option.map_eq_some_iff.mp h
    simp [tag?, hread, hmark hread]
  | emptyTag name attributes =>
    obtain ⟨read, hread, rfl⟩ := Option.map_eq_some_iff.mp h
    have hfinish : Mark.isStart .finish = false := rfl
    simp [tag?, hread, hmark hread, hfinish]
  | endTag name =>
    simp only [read] at h
    split at h
    · cases h
    · split at h
      · cases h
        simp [tag?, Mark.isStart]
      · cases h
  | _ => cases h; rfl

theorem exists_tags {r r' : Reading} {pieces : List Piece} (h : r.readAll pieces = some r') :
    ∃ tags, r.tags pieces = some tags
      ∧ r'.marks.countP Mark.isStart = r.marks.countP Mark.isStart + tags.length := by
  induction pieces generalizing r with
  | nil =>
    cases h
    exact ⟨[], rfl, rfl⟩
  | cons piece rest ih =>
    rw [readAll, List.foldlM_cons] at h
    obtain ⟨r₁, hread, hrest⟩ := Option.bind_eq_some_iff.mp h
    obtain ⟨tags, htags, hcount⟩ := ih hrest
    refine ⟨(r.tag? piece).toList ++ tags, ?_, ?_⟩
    · rw [Reading.tags, hread, Option.bind_some, htags, Option.map_some]
    · rw [hcount, countP_read hread, List.length_append, Nat.add_assoc]

end Reading

end Markup

/-! ## Tags that are reported -/

namespace Call

/-- The start of an element. -/
def isStart : Call → Bool
  | .startElement _ _ => true
  | _ => false

/-- An attribute with its name and value. -/
def attribute? : Call → Option (String × String × String)
  | .attribute uri name value => some (uri, name, value)
  | _ => none

/-- The call belongs into a start tag or leaves no trace, so the tag may still be added to. -/
def StaysInTag : Call → Prop
  | .declarePrefix _ => True
  | .attribute _ _ _ => True
  | .text value => value = ""
  | _ => False

/-- The call comes after a start tag, which is complete then. -/
def LeavesTag : Call → Prop
  | .startElement _ _ => True
  | .text value => value ≠ ""
  | .comment _ => True
  | .endElement => True
  | .endDocument => True
  | _ => False

/-- The call stays in a tag and does not change what names stand for. -/
structure FitsInTag (c : Call) : Prop where
  stays : c.StaysInTag
  plain : c.IsPlain
  noDefault : ¬c.DeclaresDefault

theorem LeavesTag.not_staysInTag {c : Call} (h : c.LeavesTag) : ¬c.StaysInTag := by
  cases c with
  | text value => exact h
  | declarePrefix uri => exact h.elim
  | «attribute» uri name value => exact h.elim
  | _ => exact id

end Call

namespace Markup

/-- Every start that is reported adds a start to the marks, and nothing else does. -/
theorem countP_report (marks : List Mark) (c : Call) :
    (report marks c).countP Mark.isStart = marks.countP Mark.isStart + c.isStart.toNat := by
  cases c with
  | startElement uri name => simp [report, Mark.isStart, Call.isStart]
  | endElement => simp [report, Mark.isStart, Call.isStart]
  | endDocument => simp [report, Mark.isStart, Call.isStart, List.countP_replicate]
  | «attribute» uri name value =>
    rcases List.eq_nil_or_concat marks with rfl | ⟨before, mark, rfl⟩
    · rfl
    · cases mark <;> simp [report, Mark.addAttribute, Mark.isStart, Call.isStart]
  | _ => rfl

theorem countP_marksOf (calls : List Call) :
    (marksOf calls).countP Mark.isStart = calls.countP Call.isStart := by
  have hfold (marks : List Mark) : (calls.foldl report marks).countP Mark.isStart
      = marks.countP Mark.isStart + calls.countP Call.isStart := by
    induction calls generalizing marks with
    | nil => rfl
    | cons c rest ih =>
      rw [List.foldl_cons, ih, countP_report, List.countP_cons, Nat.add_assoc]
      cases c.isStart <;> simp [Nat.add_comm]
  simpa [marksOf] using hfold []

/-- What is reported into a tag is its attributes. -/
theorem foldl_report_inTag {marks : List Mark} {uri name : String}
    {attributes : List (String × String × String)} {calls : List Call}
    (h : ∀ c ∈ calls, c.StaysInTag) :
    calls.foldl report (marks ++ [.start uri name attributes])
      = marks ++ [.start uri name (attributes ++ calls.filterMap Call.attribute?)] := by
  induction calls generalizing attributes with
  | nil => rw [List.filterMap_nil, List.append_nil, List.foldl_nil]
  | cons c rest ih =>
    have hrest : ∀ c ∈ rest, c.StaysInTag := fun c' hmem => h c' (List.mem_cons_of_mem _ hmem)
    have hc := h c List.mem_cons_self
    rw [List.foldl_cons]
    cases c with
    | «attribute» uri' name' value =>
      rw [report_attribute, ih hrest, List.filterMap_cons]
      simp [Call.attribute?]
    | declarePrefix uri' => exact ih hrest
    | text value => exact ih hrest
    | _ => exact hc.elim

theorem marksOf_tag {uri name : String} {calls : List Call} (h : ∀ c ∈ calls, c.StaysInTag) :
    marksOf (.startElement uri name :: calls)
      = [.start uri name (calls.filterMap Call.attribute?)] := by
  have hreport : calls.foldl report ([] ++ [.start uri name []])
      = [] ++ [.start uri name ([] ++ calls.filterMap Call.attribute?)] := foldl_report_inTag h
  exact hreport

end Markup

/-! ## Tags that are held back -/

section

variable {ω : Type} [Writer ω] {w w' : ω}

theorem performAll_append {calls : List Call} (calls' : List Call)
    (h : performAll calls w = (.ok (), w')) :
    performAll (calls ++ calls') w = performAll calls' w' := by
  induction calls generalizing w with
  | nil =>
    cases h
    rfl
  | cons c rest ih =>
    rw [performAll] at h
    rw [List.cons_append, performAll]
    split at h
    · exact ih h
    · cases h

/-- Where calls are taken, so are the first of them. -/
theorem performAll_append_ok {calls calls' : List Call}
    (h : performAll (calls ++ calls') w = (.ok (), w')) :
    ∃ w₁, performAll calls w = (.ok (), w₁) ∧ performAll calls' w₁ = (.ok (), w') := by
  induction calls generalizing w with
  | nil => exact ⟨w, rfl, h⟩
  | cons c rest ih =>
    rw [List.cons_append, performAll] at h
    rw [performAll]
    split at h
    · exact ih h
    · cases h

end

namespace XmlWriter

open Prefixes

variable {w w' w'' : XmlWriter} {r : Reading} {marks : List Mark}

theorem piecesOf_append {calls : List Call} (calls' : List Call)
    (h : performAll calls w = (.ok (), w')) :
    piecesOf (calls ++ calls') w = piecesOf calls w ++ piecesOf calls' w' := by
  induction calls generalizing w with
  | nil =>
    cases h
    rfl
  | cons c rest ih =>
    obtain ⟨w₁, -, hperform, hrest⟩ := performAll_cons_ok h
    rw [List.cons_append, piecesOf, piecesOf, hperform, ih hrest, List.append_assoc]

/-- A tag is held back in both states. What has been declared stays so, and prefixes stay the
same. -/
structure KeepsTag (w w' : XmlWriter) : Prop where
  held : w'.held ≠ none
  subset : w.declared ⊆ w'.declared
  extends_prefixes : w'.prefixes.Extends w.prefixes

namespace KeepsTag

theorem refl (hheld : w.held ≠ none) : w.KeepsTag w :=
  ⟨hheld, List.Subset.refl _, .refl _⟩

theorem trans (h : w.KeepsTag w') (h' : w'.KeepsTag w'') : w.KeepsTag w'' :=
  ⟨h'.held, List.Subset.trans h.subset h'.subset, h'.extends_prefixes.trans h.extends_prefixes⟩

end KeepsTag

theorem OnlyDeclares.keepsTag (h : w.OnlyDeclares w') (hheld : w.held ≠ none) : w.KeepsTag w' :=
  ⟨mt h.held_eq_none.mp hheld, h.subset, h.extends_prefixes⟩

/-- A change of the tag that is held back changes no declaration, as long as it declares the
same. -/
theorem declared_mapHeld (w : XmlWriter) (f : HeldTag → HeldTag)
    (hf : ∀ tag, (f tag).declared = tag.declared) :
    declared { w with held := w.held.map f } = w.declared := by
  cases hheld : w.held with
  | none => simp [declared, heldDeclared, outerDeclared, hheld]
  | some tag => simp [declared, heldDeclared, outerDeclared, hheld, hf]

/-- **A call that belongs into a tag leaves the tag held back.** -/
theorem keepsTag_take {c : Call} (hs : w.IsSound) (hheld : w.held ≠ none) (hc : c.FitsInTag)
    (h : w.take c = (.ok (), w')) : w.KeepsTag w' := by
  have hstays := hc.stays
  have hplain := hc.plain
  cases c with
  | declarePrefix uri =>
    obtain rfl := congrArg Prod.snd h
    exact (hs.onlyDeclares hplain).keepsTag hheld
  | «attribute» uri name value =>
    obtain ⟨-, rfl⟩ := addAttribute_ok h
    obtain ⟨hheld', hsubset, hextends⟩ := (hs.onlyDeclares hplain.1).keepsTag hheld
    refine ⟨by simpa using hheld', ?_, hextends⟩
    rw [declared_mapHeld]
    · exact hsubset
    · exact fun _ => rfl
  | text value =>
    rcases addText_ok h with ⟨-, rfl⟩ | ⟨hne, -⟩
    · exact .refl hheld
    · exact absurd hstays hne
  | _ => exact hstays.elim

/-- Several such calls do so too. -/
theorem keepsTag_performAll {calls : List Call} (m : w.Mirrors r marks) (hheld : w.held ≠ none)
    (hcalls : ∀ c ∈ calls, c.FitsInTag) (h : performAll calls w = (.ok (), w')) :
    w.KeepsTag w' := by
  induction calls generalizing w r marks with
  | nil =>
    cases h
    exact .refl hheld
  | cons c rest ih =>
    obtain ⟨w₁, htake, -, hrest⟩ := performAll_cons_ok h
    obtain ⟨hc, hcalls⟩ := List.forall_mem_cons.mp hcalls
    obtain ⟨r₁, -, m₁⟩ := m.take hc.plain hc.noDefault htake
    have hkeeps := keepsTag_take m.isSound hheld hc htake
    exact hkeeps.trans (ih m₁ hkeeps.held hcalls hrest)

/-- What has been put still mirrors what was reported, with the tag held back. -/
theorem Mirrors.performAll_inTag {calls : List Call} (m : w.Mirrors r marks) (hheld : w.held ≠ none)
    (hcalls : ∀ c ∈ calls, c.FitsInTag) (h : Specimen.performAll calls w = (.ok (), w')) :
    ∃ r', Reads r (piecesOf calls w) r' ∧ w'.Mirrors r' (calls.foldl report marks)
      ∧ w.KeepsTag w' := by
  obtain ⟨r', hreads, m'⟩ :=
    m.performAll (fun c hmem => (hcalls c hmem).plain) (fun c hmem => (hcalls c hmem).noDefault) h
  exact ⟨r', hreads, m', keepsTag_performAll m hheld hcalls h⟩

/-- The start of an element is held back. -/
theorem held_of_startElement {uri name : String} (hs : w.IsSound)
    (h : w.take (.startElement uri name) = (.ok (), w')) : w'.held ≠ none := by
  have hstands : w.Stands ⟨w.depth, false⟩ := stands_outside hs.prefixes rfl
  rcases proceeds_take hstands (c := .startElement uri name) rfl with
    ⟨w₁, hok, hstands', -⟩ | ⟨e, w₁, herror, -⟩
  · obtain rfl := congrArg Prod.snd (h.symm.trans hok)
    exact Option.ne_none_iff_isSome.mpr (hstands'.isSome_held rfl)
  · rw [h] at herror
    cases congrArg Prod.fst herror

/-- The piece is the tag that was held back, with or without an end. -/
def IsPutAs (tag : HeldTag) (piece : Piece) : Prop :=
  piece = .startTag tag.name tag.attributes ∨ piece = .emptyTag tag.name tag.attributes

/-- The call that leaves a tag puts it, behind a line break if one is due. -/
theorem pieces_of_leavesTag {c : Call} {tag : HeldTag} (hc : c.LeavesTag)
    (hheld : w.held = some tag) :
    ∃ piece more, w.pieces c = w.leadPieces ++ piece :: more ∧ IsPutAs tag piece := by
  have hstart : w.startPieces = w.leadPieces ++ [.startTag tag.name tag.attributes] := by
    rw [startPieces, hheld]
  have hempty : w.emptyPieces = w.leadPieces ++ [.emptyTag tag.name tag.attributes] := by
    rw [emptyPieces, hheld]
  cases c with
  | startElement uri name => exact ⟨_, [], hstart, .inl rfl⟩
  | text value =>
    refine ⟨_, [.text value], ?_, .inl rfl⟩
    rw [pieces, if_neg hc, hstart, List.append_assoc]
    rfl
  | comment value =>
    refine ⟨_, w.openHeld.2.leadPieces ++ [.comment value], ?_, .inl rfl⟩
    rw [pieces, hstart, List.append_assoc]
    rfl
  | endElement =>
    refine ⟨_, [], ?_, .inr rfl⟩
    rw [pieces, if_pos (by rw [hheld]; rfl), hempty]
  | endDocument =>
    refine ⟨_, [.lineBreak 0], ?_, .inr rfl⟩
    rw [pieces, hempty, List.append_assoc]
    rfl
  | _ => exact hc.elim

section

variable {before inner rest : List Call} {uri name : String} {next : Call} {sink : Sink}
  {indent : Nat} {w₁ w₂ : XmlWriter}
  (hstart : performAll (before ++ [.startElement uri name]) { sink, indent } = (.ok (), w₁))
  (hinner : performAll inner w₁ = (.ok (), w₂))
  (plain : ∀ c ∈ before ++ [.startElement uri name], c.IsPlain)
  (noDefault : ∀ c ∈ before ++ [.startElement uri name], ¬c.DeclaresDefault)
  (fits : ∀ c ∈ inner, c.FitsInTag)
include hstart plain noDefault

/-- The tag of an element that has just been started is held back. -/
theorem mirrors_started :
    ∃ r, Reads {} (piecesOf (before ++ [.startElement uri name]) { sink, indent }) r
      ∧ w₁.Mirrors r (marksOf (before ++ [.startElement uri name])) ∧ w₁.held ≠ none := by
  obtain ⟨r, hreads, m⟩ := (Mirrors.start sink indent).performAll plain noDefault hstart
  refine ⟨r, hreads, m, ?_⟩
  obtain ⟨w₀, hbefore, hlast⟩ := performAll_append_ok hstart
  obtain ⟨r₀, -, m₀⟩ := (Mirrors.start sink indent).performAll
    (List.forall_mem_append.mp plain).1 (List.forall_mem_append.mp noDefault).1 hbefore
  obtain ⟨w₁', htake, -, hnil⟩ := performAll_cons_ok hlast
  cases hnil
  exact held_of_startElement m₀.isSound htake

include hinner fits

/-- **The prefix that a request in a tag is answered with** stands for its namespace when the tag is
left. -/
theorem isVisible_of_asked {inner₁ inner₂ : List Call} {uri' : String}
    (hsplit : inner = inner₁ ++ .declarePrefix uri' :: inner₂) :
    ∃ w₀ : XmlWriter,
      performAll (before ++ [.startElement uri name] ++ inner₁) { sink, indent } = (.ok (), w₀)
      ∧ (w₀.ensureDeclared uri').1 = w₂.prefixes.pfx uri' ∧ IsVisible w₂.declared uri' := by
  subst hsplit
  obtain ⟨fits₁, hasked⟩ := List.forall_mem_append.mp fits
  obtain ⟨fits₀, fits₂⟩ := List.forall_mem_cons.mp hasked
  obtain ⟨w₀, hbefore, hrest⟩ := performAll_append_ok hinner
  obtain ⟨w₃, htake, -, hafter⟩ := performAll_cons_ok hrest
  obtain rfl : (w₀.ensureDeclared uri').2 = w₃ := congrArg Prod.snd htake
  -- The tag is held back before the request, behind it, and when it is left.
  obtain ⟨r₁, -, m₁, hheld₁⟩ := mirrors_started hstart plain noDefault
  obtain ⟨r₀, -, m₀, keeps₁⟩ := m₁.performAll_inTag hheld₁ fits₁ hbefore
  obtain ⟨r₃, -, m₃⟩ := m₀.take fits₀.plain fits₀.noDefault htake
  have keeps₀ := keepsTag_take m₀.isSound keeps₁.held fits₀ htake
  have keeps₂ := keepsTag_performAll m₃ keeps₀.held fits₂ hafter
  have hvisible := isVisible_ensureDeclared keeps₁.held uri'
  refine ⟨w₀, (performAll_append inner₁ hstart).trans hbefore, ?_, hvisible.mono keeps₂.subset⟩
  -- The prefix that was given out then stays the same.
  rw [ensureDeclared_fst, keeps₂.extends_prefixes.pfx_eq]
  exact m₃.isSound.declares.names_of_isVisible m₃.isSound.prefixes hvisible

/-- When a tag is left, it is held back and reads as the start that was reported, with its
attributes. What is in force in it is what is declared then, and what has been read are the elements
that were started before. -/
theorem exists_held :
    ∃ r marks tag,
      Reads {} (piecesOf (before ++ [.startElement uri name] ++ inner) { sink, indent }) r
      ∧ r.marks = marksOf before ∧ w₂.Mirrors r marks ∧ w₂.held = some tag
      ∧ ∀ piece, IsPutAs tag piece → r.tag? piece
        = some (w₂.prefixes.scope w₂.declared, .start uri name (inner.filterMap Call.attribute?)) := by
  obtain ⟨r₁, hreads₁, m₁, hheld₁⟩ := mirrors_started hstart plain noDefault
  obtain ⟨r₂, hreads₂, m₂, keeps⟩ := m₁.performAll_inTag hheld₁ fits hinner
  obtain ⟨tag, hheld⟩ := Option.ne_none_iff_exists'.mp keeps.held
  obtain ⟨uri', name', attributes, hread, hmarks, -⟩ := m₂.readTag hheld
  have hreported : inner.foldl report (marksOf (before ++ [.startElement uri name]))
      = marksOf before ++ [.start uri name (inner.filterMap Call.attribute?)] := by
    rw [marksOf, List.foldl_append]
    exact foldl_report_inTag fun c hmem => (fits c hmem).stays
  rw [hreported] at hmarks
  -- What is reported in the tag changes the last mark only, so the ones before it are the older
  -- ones.
  obtain ⟨hbefore, hlast⟩ := List.append_inj' hmarks rfl
  obtain ⟨rfl, rfl, rfl⟩ := Mark.start.inj (List.cons.inj hlast).1
  refine ⟨r₂, _, tag, ?_, hbefore.symm, m₂, hheld, fun piece hpiece => ?_⟩
  · rw [piecesOf_append inner hstart]
    exact hreads₁.append hreads₂
  · rw [declared_of_held hheld, scope_append, ← m₂.scope_eq]
    rcases hpiece with rfl | rfl <;> rw [Reading.tag?, hread] <;> rfl

/-- **The tag of an element, as it is read.** An element is started behind the calls `before`; then
come calls that belong into its tag, and a call that leaves it. The tag is read behind as many
others as there are elements started before. -/
theorem exists_tag (hrest : performAll (next :: rest) w₂ = (.ok (), w')) (hnext : next.LeavesTag)
    (plainRest : ∀ c ∈ next :: rest, c.IsPlain)
    (noDefaultRest : ∀ c ∈ next :: rest, ¬c.DeclaresDefault) :
    w₂.IsSound ∧ ∃ tags,
      ({} : Reading).tags (piecesOf (before ++ [.startElement uri name] ++ inner ++ next :: rest)
        { sink, indent }) = some tags
      ∧ tags[before.countP Call.isStart]?
        = some (w₂.prefixes.scope w₂.declared, .start uri name (inner.filterMap Call.attribute?)) := by
  obtain ⟨r, marks, tag, hreads, hmarks, m, hheld, htag⟩ :=
    exists_held hstart hinner plain noDefault fits
  -- The tag is the first piece that the next call puts, but for a line break.
  obtain ⟨piece, more, hpieces, hpiece⟩ := pieces_of_leavesTag hnext hheld
  have hput : piecesOf (next :: rest) w₂
      = w₂.leadPieces ++ piece :: (more ++ piecesOf rest (perform next w₂).2) := by
    rw [piecesOf, hpieces, List.append_assoc, List.cons_append]
  have hlead := (hreads.append (Mirrors.reads_leadPieces w₂ r)).readAll_eq
  obtain ⟨r', hreads', -⟩ := m.performAll plainRest noDefaultRest hrest
  have htail := hreads'.readAll_eq
  rw [hput, Reading.readAll_append, (Mirrors.reads_leadPieces w₂ r).readAll_eq,
    Option.bind_some] at htail
  obtain ⟨tags₁, htags₁, hcount⟩ := Reading.exists_tags hlead
  obtain ⟨tags₂, htags₂, -⟩ := Reading.exists_tags htail
  refine ⟨m.isSound, tags₁ ++ tags₂, ?_, ?_⟩
  · rw [piecesOf_append _ ((performAll_append inner hstart).trans hinner), hput,
      ← List.append_assoc, Reading.tags_append _ hlead, htags₁, Option.bind_some, htags₂]
    rfl
  · have hlength : tags₁.length = before.countP Call.isStart := by
      rw [← countP_marksOf, ← hmarks, hcount]
      exact (Nat.zero_add _).symm
    rw [List.getElem?_append_right (by omega), ← hlength, Nat.sub_self, ← List.head?_eq_getElem?]
    exact Reading.head?_tags htags₂ (htag piece hpiece)

end

end XmlWriter

end Specimen

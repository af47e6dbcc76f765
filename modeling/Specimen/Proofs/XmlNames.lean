import Specimen.Proofs.Declaring
import Specimen.Proofs.Pieces

/-!
# Names in written documents

Every call that the writer of XML takes puts a row of pieces. Read one after another, the pieces that
a row of calls puts give the elements that were reported, with the same names in full: the tags nest,
and every prefix stands for the namespace that was meant. A start tag that is held back is read once
it is put.

The names have to be local names without a colon, and the namespace of declarations may not be used.
An attribute in no namespace with the name `xmlns` would be taken for the declaration of a default
namespace.
-/

namespace Specimen

open Markup

/-! ## What is reported -/

namespace Markup

/-- How many elements are open after a mark. -/
def Mark.depthFrom (depth : Nat) : Mark → Nat
  | .start .. => depth + 1
  | .finish => depth - 1

/-- How many elements are open after the marks. -/
def depthOf (marks : List Mark) : Nat := marks.foldl Mark.depthFrom 0

@[simp] theorem depthOf_append (marks marks' : List Mark) :
    depthOf (marks ++ marks') = marks'.foldl Mark.depthFrom (depthOf marks) :=
  List.foldl_append

/-- Adds an attribute to the start of an element. -/
def Mark.addAttribute (attr : String × String × String) : Mark → Mark
  | .start uri name attributes => .start uri name (attributes ++ [attr])
  | .finish => .finish

/-- The marks with those that a call reports. An attribute belongs to the last start, and the end of
the document ends what is still open. -/
def report (marks : List Mark) : Call → List Mark
  | .startElement uri name => marks ++ [.start uri name []]
  | .attribute uri name value =>
    marks.dropLast ++ (marks.getLast?.map (Mark.addAttribute (uri, name, value))).toList
  | .endElement => marks ++ [.finish]
  | .endDocument => marks ++ List.replicate (depthOf marks) .finish
  | _ => marks

/-- The starts and ends of elements that calls report. -/
def marksOf (calls : List Call) : List Mark := calls.foldl report []

theorem report_attribute (marks : List Mark) (uri name : String)
    (attributes : List (String × String × String)) (uri' name' value : String) :
    report (marks ++ [.start uri name attributes]) (.attribute uri' name' value)
      = marks ++ [.start uri name (attributes ++ [(uri', name', value)])] := by
  simp [report, Mark.addAttribute]

end Markup

/-- The names of a call are local names without a colon, and its namespace is not the one of
declarations. -/
def Call.IsPlain : Call → Prop
  | .declarePrefix uri => uri ≠ Namespace.xmlns
  | .startElement uri name => uri ≠ Namespace.xmlns ∧ ':' ∉ name.toList
  | .attribute uri name _ => uri ≠ Namespace.xmlns ∧ ':' ∉ name.toList
  | _ => True

/-- An attribute that is written as the declaration of a default namespace. -/
def Call.DeclaresDefault : Call → Prop
  | .attribute uri name _ => uri = "" ∧ name = "xmlns"
  | _ => False

instance : DecidablePred Call.IsPlain
  | .declarePrefix _ => inferInstanceAs (Decidable (_ ≠ _))
  | .startElement _ _ => inferInstanceAs (Decidable (_ ∧ _))
  | .attribute _ _ _ => inferInstanceAs (Decidable (_ ∧ _))
  | .startDocument => inferInstanceAs (Decidable True)
  | .text _ => inferInstanceAs (Decidable True)
  | .comment _ => inferInstanceAs (Decidable True)
  | .endElement => inferInstanceAs (Decidable True)
  | .endDocument => inferInstanceAs (Decidable True)

instance : DecidablePred Call.DeclaresDefault
  | .attribute _ _ _ => inferInstanceAs (Decidable (_ ∧ _))
  | .startDocument => inferInstanceAs (Decidable False)
  | .declarePrefix _ => inferInstanceAs (Decidable False)
  | .startElement _ _ => inferInstanceAs (Decidable False)
  | .text _ => inferInstanceAs (Decidable False)
  | .comment _ => inferInstanceAs (Decidable False)
  | .endElement => inferInstanceAs (Decidable False)
  | .endDocument => inferInstanceAs (Decidable False)

namespace XmlWriter

open Prefixes

variable {w w' : XmlWriter} {r : Reading} {marks : List Mark}

/-! ## What has been read of a document -/

/-- What has been read of what was put, `r`, agrees with the state of the writer, and with `marks`,
which have been reported: all but the start of the element whose tag is held back. -/
structure Mirrors (w : XmlWriter) (r : Reading) (marks : List Mark) : Prop where
  isSound : w.IsSound
  opened_eq : r.opened = w.opened.map fun e => (e.name, w.prefixes.scope e.declared)
  marks_eq : w.held = none → marks = r.marks
  held : w.held ≠ none → ∃ uri name entries,
    w.Holds (qualify (w.prefixes.pfx uri) name) entries ∧ IsVisible w.declared uri
      ∧ ':' ∉ name.toList
      ∧ marks = r.marks ++ [.start uri name (entries.filterMap Entry.attribute?)]
  depth_eq : depthOf r.marks = w.opened.length

namespace Mirrors

/-- Nothing is known of a document that has not been begun. -/
theorem start (sink : Sink) (indent : Nat) : Mirrors { sink, indent } {} [] where
  isSound := ⟨isSound_empty, ⟨List.nodup_nil, nofun, nofun⟩, List.not_mem_nil⟩
  opened_eq := rfl
  marks_eq := fun _ => rfl
  held := fun h => absurd rfl h
  depth_eq := rfl

/-- Putting what is no tag changes nothing. -/
theorem put (m : w.Mirrors r marks) (sink : Sink) (breaksLine : Bool) :
    Mirrors { w with sink, breaksLine } r marks :=
  ⟨⟨m.isSound.prefixes, m.isSound.declares, m.isSound.awaited⟩, m.opened_eq, m.marks_eq,
    fun h => by
      obtain ⟨uri, name, entries, hholds, hrest⟩ := m.held h
      exact ⟨uri, name, entries, ⟨hholds.held_eq, hholds.isVisible, hholds.isPlain⟩, hrest⟩,
    m.depth_eq⟩

/-- What is in force for the tags that follow is what the open elements declare. -/
theorem scope_eq (m : w.Mirrors r marks) : r.scope = w.prefixes.scope w.outerDeclared := by
  rw [Reading.scope, m.opened_eq, outerDeclared, Prefixes.scope, List.map_flatMap, List.flatMap_map]
  rfl

/-- **Prefixes may be given out, and declarations added.** -/
theorem onlyDeclares (m : w.Mirrors r marks) (h : w.OnlyDeclares w') : w'.Mirrors r marks := by
  have hopened : w'.opened = w.opened := by rw [h.frame]
  refine ⟨h.isSound, ?_, ?_, ?_, ?_⟩
  · rw [m.opened_eq, hopened]
    refine List.map_congr_left fun e hmem => ?_
    rw [Prefixes.scope_eq h.extends_prefixes fun uri huri => m.isSound.declares.isSome uri ?_]
    exact List.mem_append_right _ (List.mem_flatMap.mpr ⟨e, hmem, huri⟩)
  · intro hnone
    exact m.marks_eq (h.held_eq_none.mp hnone)
  · intro hsome
    obtain ⟨uri, name, entries, hholds, hvisible, hname, hmarks⟩ :=
      m.held (mt h.held_eq_none.mpr hsome)
    obtain ⟨added, hholds, hadded⟩ := h.holds hholds
    have hnames := m.isSound.declares.names_of_isVisible m.isSound.prefixes hvisible
    rw [← h.extends_prefixes.pfx_eq hnames] at hholds
    refine ⟨uri, name, _, hholds, hvisible.mono h.subset, hname, ?_⟩
    rw [List.filterMap_append, hadded, List.append_nil, hmarks]
  · rw [m.depth_eq, hopened]

/-! ## Tags -/

/-- **The tag that is held back reads as the start that was reported.** -/
theorem readTag (m : w.Mirrors r marks) {tag : HeldTag} (hheld : w.held = some tag) :
    ∃ uri name attributes, Markup.readTag r.scope tag.name tag.attributes
        = some (w.prefixes.scope tag.declared, .start uri name attributes)
      ∧ marks = r.marks ++ [.start uri name attributes]
      ∧ ∀ attr ∈ tag.attributes, attr.1 ≠ "xmlns" := by
  obtain ⟨uri, name, entries, hholds, hvisible, hname, hmarks⟩ := m.held (by simp [hheld])
  obtain rfl : tag = _ := Option.some.inj (hheld.symm.trans hholds.held_eq)
  have hdeclared := declared_of_held hheld
  have hentries := hholds.isVisible
  have hd := m.isSound.declares
  rw [hdeclared] at hentries hvisible hd
  refine ⟨uri, name, _, ?_, hmarks, ?_⟩
  · rw [m.scope_eq]
    exact readTag_write m.isSound.prefixes hd hentries hvisible hname hholds.isPlain
  · intro attr hattr
    obtain ⟨entry, hentry, rfl⟩ := List.mem_map.mp hattr
    refine Entry.write_ne_xmlns m.isSound.prefixes
      (hd.names_of_isVisible m.isSound.prefixes (hentries entry hentry))
      (hholds.isPlain entry hentry) fun uri huri => ?_
    exact (hd.lawful uri (List.mem_append_left _ (List.mem_filterMap.mpr ⟨entry, hentry, huri⟩))).1

/-- A line break is no tag. -/
theorem reads_leadPieces (w : XmlWriter) (r : Reading) : Reads r w.leadPieces r := by
  rw [leadPieces]
  split
  · exact .plain rfl rfl
  · exact .nil r

/-- **The tag that is held back may be put as a start tag.** -/
theorem openHeld (m : w.Mirrors r marks) (h : w.openHeld = (.ok (), w')) :
    ∃ r', Reads r w.startPieces r' ∧ w'.Mirrors r' marks ∧ w'.held = none := by
  rcases openHeld_ok h with ⟨hheld, rfl⟩ | ⟨tag, sink, hheld, rfl, -⟩
  · refine ⟨r, ?_, m, hheld⟩
    rw [startPieces, hheld]
    exact .nil r
  · obtain ⟨uri, name, attributes, hread, hmarks, hdefault⟩ := m.readTag hheld
    refine ⟨⟨r.marks ++ [.start uri name attributes],
      (tag.name, w.prefixes.scope tag.declared) :: r.opened⟩, ?_, ?_, rfl⟩
    · rw [startPieces, hheld]
      refine (reads_leadPieces w r).append (.single ?_ hdefault)
      rw [Reading.read, hread]
      rfl
    · refine ⟨⟨m.isSound.prefixes, ?_, m.isSound.awaited⟩, ?_, fun _ => hmarks,
        fun h => absurd rfl h, ?_⟩
      · -- What the tag declared is declared by an open element now.
        have hd := m.isSound.declares
        rw [declared_of_held hheld] at hd
        exact hd
      · rw [m.opened_eq]
        rfl
      · show depthOf (r.marks ++ _) = _
        rw [depthOf_append, m.depth_eq]
        rfl

/-- **The tag that is held back may be put as one without content**, which ends its element. -/
theorem closeHeld (m : w.Mirrors r marks) (h : w.closeHeld = (.ok (), w')) :
    ∃ r', Reads r w.emptyPieces r' ∧ w'.held = none ∧ w'.opened = w.opened
      ∧ w'.Mirrors r' (if w.held.isSome then marks ++ [.finish] else marks) := by
  rcases closeHeld_ok h with ⟨hheld, rfl⟩ | ⟨tag, sink, hheld, rfl, -⟩
  · refine ⟨r, ?_, hheld, rfl, ?_⟩
    · rw [emptyPieces, hheld]
      exact .nil r
    · rw [if_neg (by simp [hheld])]
      exact m
  · obtain ⟨uri, name, attributes, hread, hmarks, hdefault⟩ := m.readTag hheld
    refine ⟨⟨r.marks ++ [.start uri name attributes, .finish], r.opened⟩, ?_, rfl, rfl, ?_⟩
    · rw [emptyPieces, hheld]
      refine (reads_leadPieces w r).append (.single ?_ hdefault)
      rw [Reading.read, hread]
      rfl
    · rw [if_pos (by simp [hheld])]
      refine ⟨⟨m.isSound.prefixes, ?_, m.isSound.awaited⟩, m.opened_eq, fun _ => ?_,
        fun h => absurd rfl h, ?_⟩
      · -- What the tag declared is in force nowhere else.
        have hd := m.isSound.declares
        rw [declared_of_held hheld] at hd
        exact hd.of_suffix
      · rw [hmarks, List.append_assoc]
        rfl
      · show depthOf (r.marks ++ _) = _
        rw [depthOf_append, m.depth_eq]
        rfl

/-- **An end tag ends the innermost element.** -/
theorem popElement (m : w.Mirrors r marks) (hheld : w.held = none) {element : OpenElement}
    {outer : List OpenElement} (hopened : w.opened = element :: outer) :
    ∃ r', Reads r [.endTag element.name] r'
      ∧ Mirrors { w with opened := outer } r' (marks ++ [.finish]) := by
  have hmarks := m.marks_eq hheld
  have hread := m.opened_eq
  rw [hopened, List.map_cons] at hread
  refine ⟨⟨r.marks ++ [.finish], outer.map fun e => (e.name, w.prefixes.scope e.declared)⟩, ?_, ?_⟩
  · refine .single ?_ fun attr hattr => absurd hattr List.not_mem_nil
    rw [Reading.read, hread]
    exact if_pos rfl
  · refine ⟨⟨m.isSound.prefixes, ?_, m.isSound.awaited⟩, rfl, fun _ => by rw [hmarks],
      fun h => absurd hheld h, ?_⟩
    · -- What the element declared is not in force behind it.
      have hd := m.isSound.declares
      rw [declared_of_held_none hheld, outerDeclared, hopened, List.flatMap_cons] at hd
      have hdeclared : declared { w with opened := outer } = outer.flatMap OpenElement.declared :=
        declared_of_held_none hheld
      rw [hdeclared]
      exact hd.of_suffix
    · show depthOf (r.marks ++ _) = _
      rw [depthOf_append, m.depth_eq, hopened]
      rfl

/-! ## The tag that is held back -/

/-- A tag that declares the same may be held back in place of another one. -/
theorem holdInstead (m : w.Mirrors r marks) {tag : HeldTag} (hheld : w.held = some tag)
    {uri name : String} {entries : List Entry}
    (hdeclared : entries.filterMap Entry.declared? = tag.declared)
    (hvisible : ∀ entry ∈ entries, IsVisible w.declared entry.uri)
    (hplain : ∀ entry ∈ entries, entry.IsPlain) (huri : IsVisible w.declared uri)
    (hname : ':' ∉ name.toList) :
    Mirrors { w with held := some ⟨qualify (w.prefixes.pfx uri) name,
        entries.map (Entry.write w.prefixes), entries.filterMap Entry.declared?⟩ } r
      (r.marks ++ [.start uri name (entries.filterMap Entry.attribute?)]) := by
  have hsame : w.declared = entries.filterMap Entry.declared? ++ w.outerDeclared := by
    rw [declared_of_held hheld, hdeclared]
  have hd := m.isSound.declares
  rw [hsame] at hd hvisible huri
  exact ⟨⟨m.isSound.prefixes, hd, m.isSound.awaited⟩, m.opened_eq,
    fun hnone => absurd hnone (Option.some_ne_none _),
    fun _ => ⟨uri, name, entries, ⟨rfl, hvisible, hplain⟩, huri, hname, rfl⟩, m.depth_eq⟩

/-- A tag without a name yet reads as the start of an element whose name is empty. -/
theorem holdBack (m : w.Mirrors r marks) (hheld : w.held = none) :
    Mirrors { w with held := some ⟨"", [], []⟩, awaited := [] } r (marks ++ [.start "" "" []]) := by
  have hd := m.isSound.declares
  rw [declared_of_held_none hheld] at hd
  refine ⟨⟨m.isSound.prefixes, hd, List.not_mem_nil⟩, m.opened_eq,
    fun hnone => absurd hnone (Option.some_ne_none _), fun _ => ?_, m.depth_eq⟩
  have hempty : Holds { w with held := some ⟨"", [], []⟩, awaited := [] } "" [] :=
    ⟨rfl, fun _ hmem => absurd hmem List.not_mem_nil, fun _ hmem => absurd hmem List.not_mem_nil⟩
  refine ⟨"", "", [], hempty, .inl rfl, by decide, ?_⟩
  rw [m.marks_eq hheld]
  rfl

/-- The tag that is held back may be given another name. -/
theorem rename {uri name uri' name' : String} {attributes : List (String × String × String)}
    (m : w.Mirrors r (marks ++ [.start uri' name' attributes])) (hheld : w.held ≠ none)
    (hvisible : IsVisible w.declared uri) (hname : ':' ∉ name.toList) :
    Mirrors { w with
        held := w.held.map fun tag => { tag with name := qualify (w.prefixes.pfx uri) name } } r
      (marks ++ [.start uri name attributes]) := by
  obtain ⟨_, _, entries, hholds, -, -, hmarks⟩ := m.held hheld
  obtain ⟨rfl, hlast⟩ := List.append_inj' hmarks rfl
  obtain ⟨-, -, rfl⟩ := Mark.start.inj (List.cons.inj hlast).1
  have m' := m.holdInstead hholds.held_eq rfl hholds.isVisible hholds.isPlain hvisible hname
  rw [hholds.held_eq]
  exact m'

/-- An attribute may be added to the tag that is held back. -/
theorem addAttribute {uri name value : String} (m : w.Mirrors r marks) (hheld : w.held ≠ none)
    (hvisible : IsVisible w.declared uri) (hplain : (Entry.has uri name value).IsPlain) :
    Mirrors { w with
        held := w.held.map fun tag => { tag with
          attributes := tag.attributes ++ [(qualify (w.prefixes.pfx uri) name, value)] } } r
      (report marks (.attribute uri name value)) := by
  obtain ⟨uri', name', entries, hholds, hvisible', hname', hmarks⟩ := m.held hheld
  have hdeclared : (entries ++ [Entry.has uri name value]).filterMap Entry.declared?
      = entries.filterMap Entry.declared? := by
    rw [List.filterMap_append]
    exact List.append_nil _
  have hvisible : ∀ entry ∈ entries ++ [Entry.has uri name value], IsVisible w.declared entry.uri := by
    intro entry hmem
    rcases List.mem_append.mp hmem with hmem | hmem
    · exact hholds.isVisible entry hmem
    · rw [List.mem_singleton.mp hmem]
      exact hvisible
  have hplain : ∀ entry ∈ entries ++ [Entry.has uri name value], entry.IsPlain := by
    intro entry hmem
    rcases List.mem_append.mp hmem with hmem | hmem
    · exact hholds.isPlain entry hmem
    · rw [List.mem_singleton.mp hmem]
      exact hplain
  -- The declarations are the same, so everything else stays visible.
  have m' := m.holdInstead hholds.held_eq hdeclared hvisible hplain hvisible' hname'
  rw [hdeclared, List.map_append, List.filterMap_append] at m'
  rw [hholds.held_eq, hmarks, report_attribute]
  exact m'

/-! ## Calls -/

/-- Where no element is open, the end of the document ends the one whose tag is held back. -/
theorem report_endDocument (m : w.Mirrors r marks) (hopened : w.opened = []) :
    report marks .endDocument = if w.held.isSome then marks ++ [.finish] else marks := by
  have hdepth := m.depth_eq
  rw [hopened] at hdepth
  cases hheld : w.held with
  | none =>
    rw [report, m.marks_eq hheld, hdepth, if_neg (by simp)]
    exact List.append_nil _
  | some tag =>
    obtain ⟨uri, name, attributes, -, hmarks, -⟩ := m.readTag hheld
    rw [report, hmarks, depthOf_append, hdepth, if_pos Option.isSome_some]
    rfl

theorem startElement {uri name : String} (m : w.Mirrors r marks)
    (hplain : (Call.startElement uri name).IsPlain) (h : w.startElement uri name = (.ok (), w')) :
    ∃ r', Reads r w.startPieces r' ∧ w'.Mirrors r' (marks ++ [.start uri name []]) := by
  obtain ⟨w₁, hopen, hrest⟩ := startElement_ok h
  obtain rfl := hrest _ rfl
  obtain ⟨r', hreads, m₁, hheld⟩ := m.openHeld hopen
  refine ⟨r', hreads, ?_⟩
  have m₂ := m₁.holdBack hheld
  -- What has been awaited comes first, then the namespace of the element itself.
  have hawaited := m₂.isSound.onlyDeclares_foldl m₁.isSound.awaited
  have hown := hawaited.isSound.onlyDeclares hplain.1
  have m₃ := (m₂.onlyDeclares hawaited).onlyDeclares hown
  have hsome := mt (hawaited.trans hown).held_eq_none.mp (Option.some_ne_none _)
  have hvisible := isVisible_ensureDeclared
    (mt hawaited.held_eq_none.mp (Option.some_ne_none _)) uri
  have m₄ := m₃.rename hsome hvisible hplain.2
  rw [← ensureDeclared_fst] at m₄
  exact m₄

theorem attributeCall {uri name value : String} (m : w.Mirrors r marks)
    (hplain : (Call.attribute uri name value).IsPlain)
    (hdefault : ¬(Call.attribute uri name value).DeclaresDefault)
    (h : w.addAttribute uri name value = (.ok (), w')) :
    w'.Mirrors r (report marks (.attribute uri name value)) := by
  obtain ⟨hheld, rfl⟩ := addAttribute_ok h
  have hown := m.isSound.onlyDeclares hplain.1
  have hentry : (Entry.has uri name value).IsPlain := ⟨hplain.2, hdefault⟩
  have m₁ := (m.onlyDeclares hown).addAttribute (mt hown.held_eq_none.mp hheld)
    (isVisible_ensureDeclared hheld uri) hentry
  rw [← ensureDeclared_fst] at m₁
  exact m₁

/-- **Every call that is taken keeps what is read in step with what is reported.** -/
theorem take {call : Call} (m : w.Mirrors r marks) (hplain : call.IsPlain)
    (hdefault : ¬call.DeclaresDefault) (h : w.take call = (.ok (), w')) :
    ∃ r', Reads r (w.pieces call) r' ∧ w'.Mirrors r' (report marks call) := by
  cases call with
  | startDocument =>
    obtain ⟨sink, rfl, -⟩ := putMarkup_ok .declaration h
    exact ⟨r, (reads_leadPieces w r).append (.plain rfl rfl), m.put sink true⟩
  | declarePrefix uri =>
    obtain rfl := congrArg Prod.snd h
    exact ⟨r, .nil r, m.onlyDeclares (m.isSound.onlyDeclares hplain)⟩
  | startElement uri name => exact m.startElement hplain h
  | «attribute» uri name value => exact ⟨r, .nil r, m.attributeCall hplain hdefault h⟩
  | text value =>
    rcases addText_ok h with ⟨hempty, rfl⟩ | ⟨hne, w₁, sink, hopen, rfl, -⟩
    · rw [pieces, if_pos hempty]
      exact ⟨r, .nil r, m⟩
    · obtain ⟨r', hreads, m₁, -⟩ := m.openHeld hopen
      rw [pieces, if_neg hne]
      exact ⟨r', hreads.append (.plain rfl rfl), m₁.put sink false⟩
  | comment value =>
    obtain ⟨w₁, sink, hopen, rfl, -⟩ := addComment_ok h
    obtain ⟨r', hreads, m₁, -⟩ := m.openHeld hopen
    refine ⟨r', hreads.append ?_, m₁.put sink true⟩
    rw [hopen]
    exact (reads_leadPieces w₁ r').append (.plain rfl rfl)
  | endElement =>
    rcases endElement_ok h with ⟨hheld, hclose⟩ | ⟨hheld, element, outer, sink, hopened, rfl, -⟩
    · obtain ⟨r', hreads, -, -, m₁⟩ := m.closeHeld hclose
      rw [if_pos hheld] at m₁
      rw [pieces, if_pos hheld]
      exact ⟨r', hreads, m₁⟩
    · obtain ⟨r', hreads, m₁⟩ := m.popElement hheld hopened
      rw [pieces, if_neg (by simp [hheld]), endPieces, hopened]
      exact ⟨r', (reads_leadPieces _ r).append hreads, m₁.put sink true⟩
  | endDocument =>
    obtain ⟨w₁, sink, hclose, hnone, rfl, -⟩ := endDocument_ok h
    obtain ⟨r', hreads, -, hopened, m₁⟩ := m.closeHeld hclose
    rw [hopened] at hnone
    rw [← m.report_endDocument hnone] at m₁
    exact ⟨r', hreads.append (.plain rfl rfl), m₁.put sink _⟩

/-- A row of calls does so, by induction on the calls. -/
theorem performAll {calls : List Call} (m : w.Mirrors r marks)
    (hplain : ∀ call ∈ calls, call.IsPlain) (hdefault : ∀ call ∈ calls, ¬call.DeclaresDefault)
    (h : Specimen.performAll calls w = (.ok (), w')) :
    ∃ r', Reads r (piecesOf calls w) r' ∧ w'.Mirrors r' (calls.foldl report marks) := by
  induction calls generalizing w r marks with
  | nil =>
    obtain rfl := congrArg Prod.snd h
    exact ⟨r, .nil r, m⟩
  | cons call rest ih =>
    obtain ⟨w₁, htake, hperform, hrest⟩ := performAll_cons_ok h
    obtain ⟨r₁, hreads, m₁⟩ :=
      m.take (hplain call List.mem_cons_self) (hdefault call List.mem_cons_self) htake
    obtain ⟨r', hreads', m'⟩ := ih m₁ (fun c hc => hplain c (List.mem_cons_of_mem _ hc))
      (fun c hc => hdefault c (List.mem_cons_of_mem _ hc)) hrest
    rw [piecesOf, hperform]
    exact ⟨r', hreads.append hreads', m'⟩

end Mirrors

/-! ## Documents -/

/-- What calls put, from the state `before` to the state `after`, is what they report: no tag
declares a default namespace, the tags can be read, and they read as the starts and ends that were
reported, but for the start of the element whose tag is held back. The elements that are open in the
text are those that are open for the writer. -/
structure Corresponds (calls : List Call) (before after : XmlWriter) : Prop where
  text_eq : after.text = before.text ++ textOf (piecesOf calls before)
  noDefault : ∀ piece ∈ piecesOf calls before, ¬piece.DeclaresDefault
  reads : ∃ r, ({} : Reading).readAll (piecesOf calls before) = some r
    ∧ r.opened.map Prod.fst = after.opened.map OpenElement.name
    ∧ (after.held = none → marksOf calls = r.marks)
    ∧ (after.held ≠ none →
      ∃ uri name attributes, marksOf calls = r.marks ++ [.start uri name attributes])

/-- **Every name in a document that is taken stands for the name that was reported.** -/
theorem performAll_corresponds {calls : List Call} {sink : Sink} {indent : Nat}
    (accepted : performAll calls { sink, indent } = (.ok (), w))
    (plain : ∀ call ∈ calls, call.IsPlain) (noDefault : ∀ call ∈ calls, ¬call.DeclaresDefault) :
    Corresponds calls { sink, indent } w := by
  obtain ⟨r, hreads, m⟩ := (Mirrors.start sink indent).performAll plain noDefault accepted
  refine ⟨performAll_text accepted, hreads.noDefault, r, hreads.readAll_eq, ?_, m.marks_eq, ?_⟩
  · rw [m.opened_eq, List.map_map]
    rfl
  · intro hheld
    obtain ⟨uri, name, entries, -, -, -, hmarks⟩ := m.held hheld
    exact ⟨uri, name, _, hmarks⟩

/-- A prefix is asked for before the root, and two siblings need another namespace. -/
theorem performAll_corresponds_siblings :
    let calls : List Call := [.declarePrefix "urn:r", .startElement "urn:r" "r",
      .startElement "urn:c" "c", .attribute "urn:c" "n" "1", .endElement,
      .startElement "urn:c" "c", .text "2", .endElement, .endElement]
    let w := (performAll calls ({} : XmlWriter)).2
    performAll calls ({} : XmlWriter) = (.ok (), w)
      ∧ (∀ call ∈ calls, call.IsPlain) ∧ (∀ call ∈ calls, ¬call.DeclaresDefault)
      ∧ w.text = "<ns1:r xmlns:ns1=\"urn:r\"><ns2:c xmlns:ns2=\"urn:c\" ns2:n=\"1\"/>"
          ++ "<ns2:c xmlns:ns2=\"urn:c\">2</ns2:c></ns1:r>"
      ∧ Corresponds calls {} w := by
  intro calls w
  have accepted : performAll calls ({} : XmlWriter) = (.ok (), w) := rfl
  have plain : ∀ call ∈ calls, call.IsPlain := by decide
  have noDefault : ∀ call ∈ calls, ¬call.DeclaresDefault := by decide
  exact ⟨accepted, plain, noDefault, by decide +kernel,
    performAll_corresponds accepted plain noDefault⟩

/-- **An attribute in no namespace with the name `xmlns` declares a default namespace.** The call is
taken, and the element that was reported in no namespace is in the one that its value names. -/
theorem not_corresponds_of_default :
    let calls : List Call := [.startElement "" "a", .attribute "" "xmlns" "urn:x", .endElement]
    let w := (performAll calls ({} : XmlWriter)).2
    performAll calls ({} : XmlWriter) = (.ok (), w)
      ∧ (∀ call ∈ calls, call.IsPlain)
      ∧ w.text = "<a xmlns=\"urn:x\"/>"
      ∧ marksOf calls = [.start "" "a" [("", "xmlns", "urn:x")], .finish]
      ∧ ({} : Reading).readAll (piecesOf calls {}) = some ⟨[.start "urn:x" "a" [], .finish], []⟩
      ∧ ¬Corresponds calls {} w := by
  intro calls w
  refine ⟨rfl, by decide, by decide +kernel, by decide +kernel, by decide +kernel, fun h => ?_⟩
  exact h.noDefault (.emptyTag "a" [("xmlns", "urn:x")]) (by decide +kernel)
    ⟨("xmlns", "urn:x"), List.mem_singleton_self _, rfl⟩

end XmlWriter

end Specimen

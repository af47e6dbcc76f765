import Specimen.Proofs.Branches
import Specimen.Proofs.Scanning
import Specimen.Proofs.Unplaced

/-!
# Reading trees back

What the reader makes of pieces as they stand in a document. A row of pieces is read as a row of nodes
(`ReadsAs`): from wherever the reader stands, it goes through the text of the pieces, adds these nodes
to its draft, and goes on behind them. The nodes depend on the namespaces in scope only. Rows one after
another are read as the nodes of both, so that each element is read from its tag, its parts and its
end tag, and a tree by following its shape (`Branch.reads`).

Where the pieces are indented, each line break is read as a text of its own. Whether a tree is read at
all does not depend on them.
-/

namespace Specimen.Xml

open Markup

/-! ## Reading one piece -/

/-- Reads what stands inside of an element, in a document without entities. -/
def readInside (total : Nat) (expand : Reading → String → Option Reading) (fuel depth : Nat)
    (draft : Draft) (cs : List Char) : Option (Reading × List Char) :=
  readContent ⟨[], total⟩ 0 expand fuel ⟨depth, true⟩ ⟨draft, .full⟩ cs

/-- Nodes are put behind those of a draft. -/
def Draft.addNodes (draft : Draft) (nodes : List Node) : Draft :=
  { draft with nodes := nodes.reverse ++ draft.nodes }

variable {total : Nat} {expand : Reading → String → Option Reading} {draft : Draft}
  {rest : List Char}

/-- A comment is passed over. -/
theorem readInside_comment (text : String) (fuel depth : Nat) :
    readInside total expand (fuel + 1) depth draft ((comment text).toList ++ rest)
      = if text.toList.all isChar then readInside total expand fuel depth draft rest else none := by
  have htext : (comment text).toList ++ rest = '<' :: '!' :: '-' :: '-'
      :: ' ' :: (partHyphens text.toList ++ ' ' :: '-' :: '-' :: '>' :: rest) := by
    simp [comment]
  rw [htext, readInside, readContent]
  have hbegins (cs : List Char) : begins "<!--" ('<' :: '!' :: '-' :: '-' :: cs) = true := rfl
  rw [if_pos (hbegins _)]
  simp only [List.drop, skipComment_written, Option.bind_eq_bind]
  split <;> rfl

/-- A text between markup is one node. -/
theorem readInside_text {value : String} (hne : value ≠ "") (fuel depth : Nat) :
    readInside total expand (fuel + 1) depth draft ((escape value).toList ++ '<' :: rest)
      = if value.toList.all isChar then
          readInside total expand fuel depth (draft.addNodes [.text (normalizedText value)])
            ('<' :: rest)
        else none := by
  have hnot : '<' ∉ (escape value).toList := by
    rw [escape, String.toList_ofList]
    exact notMem_escape _ '<' (by decide)
  have hbreaks : (unifyBreaks value.toList).isEmpty = false :=
    List.isEmpty_eq_false_iff.mpr (unifyBreaks_ne_nil fun h => hne (String.toList_eq_nil_iff.mp h))
  rw [readInside]
  -- The escaped text does not begin with markup, so that the case for texts is the one to apply.
  have hhead {l : List Char} (h : (escape value).toList ++ '<' :: rest = '<' :: l) : False := by
    cases hescape : (escape value).toList with
    | nil => exact escape_ne_nil hne hescape
    | cons c l' =>
      rw [hescape] at h hnot
      exact hnot ((List.cons.inj h).1 ▸ List.mem_cons_self)
  generalize hcs : (escape value).toList ++ '<' :: rest = cs at hhead
  have hread : readContent ⟨[], total⟩ 0 expand (fuel + 1) ⟨depth, true⟩ ⟨draft, .full⟩ cs
      = (readText expand ⟨draft, .full⟩ (cs.span (· ≠ '<')).1).bind fun state =>
          readContent ⟨[], total⟩ 0 expand fuel ⟨depth, true⟩ state (cs.span (· ≠ '<')).2 := by
    rw [readContent]
    · rfl
    · rintro rfl
      simp at hcs
    all_goals
      rintro _ rfl
      exact hhead rfl
  rw [hread, ← hcs, span_escape, readText_escape expand rfl]
  split
  · rw [Option.bind_some, Reading.addText, Draft.addText, hbreaks]
    rfl
  · rfl

/-- What stands behind a bracket is read as a tag, unless its first character speaks against it. -/
theorem readContent_tag {cs : List Char} (h : ∀ c ∈ cs.head?, c ∉ ['/', '!', '?'])
    (setting : Setting) (behind fuel : Nat) (nesting : Nesting) (state : Reading) :
    readContent setting behind expand (fuel + 1) nesting state ('<' :: cs)
      = (readTag setting (setting.total - (behind + (cs.length + 1))) state cs).bind fun read =>
          readContent setting behind expand fuel (nesting.next read.1.1) read.1.2 read.2 := by
  rw [readContent]
  · rfl
  all_goals
    rintro _ rfl
    exact h _ rfl (by decide)

/-- The tag of an element without a name and attributes may look like an end tag. -/
theorem head?_tag {tagEnd : TagEnd} {close : List Char} (hclose : Closes tagEnd close) {name : String}
    (hname : IsNameText name) (attributes : List (String × String)) (rest : List Char) :
    (∀ c ∈ ((tagText name attributes).toList ++ (close ++ rest)).head?, c ∉ ['/', '!', '?'])
      ∨ name = "" ∧ (tagText name attributes).toList ++ (close ++ rest) = '/' :: '>' :: rest := by
  have htext : (tagText name attributes).toList = name.toList
      ++ (String.join (attributes.map attributeText)).toList := by rw [tagText, String.toList_append]
  rw [htext]
  cases hlist : name.toList with
  | cons c l =>
    refine .inl fun d hd => ?_
    obtain rfl : c = d := Option.some.inj hd
    obtain ⟨-, hmem⟩ := isNamePart_ne (hname c (hlist ▸ List.mem_cons_self))
    exact fun h => hmem (List.Subset.trans (by decide) (List.Subset.refl _) h)
  | nil =>
    cases attributes with
    | cons attr attributes =>
      refine .inl fun d hd => ?_
      simp only [List.map_cons, String.join_cons, attributeText, String.toList_append] at hd
      cases hd
      decide
    | nil =>
      cases hclose with
      | opens => exact .inl fun d hd => by cases hd; decide
      | empty => exact .inr ⟨String.toList_eq_nil_iff.mp hlist, rfl⟩

/-- A tag is read up to its end. -/
theorem readInside_tag {tagEnd : TagEnd} {close : List Char} (hclose : Closes tagEnd close)
    {name : String} {attributes : List (String × String)} (hdraft : draft.attributes = [])
    (hname : IsNameText name) (hnames : ∀ attr ∈ attributes, IsNameText attr.1) (total : Nat)
    (expand : Reading → String → Option Reading) (fuel depth : Nat) (rest : List Char) :
    ∃ offset, readInside total expand (fuel + 1) depth draft
        ('<' :: ((tagText name attributes).toList ++ (close ++ rest)))
      = (tag? draft.outerScope name attributes).bind fun tag =>
          readInside total expand fuel (Nesting.next ⟨depth, true⟩ tagEnd).depth
            (tag.finish offset draft tagEnd) rest := by
  rcases head?_tag hclose hname attributes rest with hhead | ⟨rfl, htext⟩
  · have hread := @readContent_tag expand _ hhead ⟨[], total⟩ 0 fuel ⟨depth, true⟩
      ⟨draft, .full⟩
    rw [readTag_written hclose hdraft hname hnames, Option.bind_map] at hread
    let cs := (tagText name attributes).toList ++ (close ++ rest)
    refine ⟨total - (0 + (cs.length + 1)), hread.trans ?_⟩
    cases hclose <;> rfl
  · have hnone : readEndTag ⟨draft, .full⟩ ('>' :: rest) = none := by
      rw [readEndTag, readTagName_eq_none fun c hc => by cases hc; decide]
      rfl
    refine ⟨0, ?_⟩
    rw [htext, readInside, readContent, tag?, tagName?_empty]
    simp [hnone]

/-- The end tag of the innermost element closes it. -/
theorem readInside_endTag {name : String} (hname : IsNameText name) {e : Opened} {outer : List Opened}
    (hdraft : draft.attributes = []) (hopened : draft.opened = e :: outer)
    (hread : tagName? name = some (e.pfx, e.localName)) (fuel depth : Nat) :
    let closed : Draft := { nodes := .element (e.element draft.nodes) :: e.before, opened := outer }
    readInside total expand (fuel + 1) depth draft ((endTag name).toList ++ rest)
      = match depth with
        | 0 => some (⟨closed, .full⟩, rest)
        | depth + 1 => readInside total expand fuel depth closed rest := by
  intro closed
  have htext : (endTag name).toList ++ rest = '<' :: '/' :: (name.toList ++ '>' :: rest) := by
    simp [endTag]
  rw [htext, readInside, readContent]
  simp only [readEndTag_written hname hdraft hopened hread, if_true, Option.bind_eq_bind,
    Option.bind_some]
  cases depth <;> rfl

/-! ## Reading rows of pieces -/

theorem unplacedAll_append (nodes nodes' : List Node) :
    unplacedAll (nodes ++ nodes') = unplacedAll nodes ++ unplacedAll nodes' := by
  induction nodes with
  | nil => rfl
  | cons node rest ih => rw [List.cons_append, unplacedAll, unplacedAll, ih, List.cons_append]

/-- What may stand behind some pieces: anything, or only markup. -/
inductive Follows : (onlyMarkup : Bool) → List Char → Prop
  | anything (cs : List Char) : Follows false cs
  | markup (cs : List Char) : Follows true ('<' :: cs)

/-- The pieces are read as these nodes, but for the places of elements, or not at all. The nodes
depend on the scope only, whatever stands around the pieces. -/
def ReadsAs (onlyMarkup : Bool) (pieces : List Markup.Piece) (nodes? : Scope → Option (List Node)) :
    Prop :=
  ∀ (total : Nat) (expand : Reading → String → Option Reading) (fuel depth : Nat) (draft : Draft)
    (rest : List Char), draft.attributes = [] → Follows onlyMarkup rest →
    (textOf pieces).toList.length + rest.length < fuel →
    ∃ read : Option (List Node), read.map unplacedAll = nodes? draft.outerScope
      ∧ ∃ fuel', rest.length < fuel'
      ∧ readInside total expand fuel depth draft ((textOf pieces).toList ++ rest)
        = read.bind fun nodes => readInside total expand fuel' depth (draft.addNodes nodes) rest

namespace ReadsAs

variable {onlyMarkup : Bool} {pieces pieces' : List Markup.Piece}
  {nodes? nodes?' : Scope → Option (List Node)}

theorem nil : ReadsAs false [] fun _ => some [] :=
  fun _ _ fuel _ _ _ _ _ hfuel => ⟨some [], rfl, fuel, by simpa using hfuel, rfl⟩

/-- Pieces one after another. -/
theorem append (h : ReadsAs onlyMarkup pieces nodes?) {onlyMarkup' : Bool}
    (h' : ReadsAs onlyMarkup' pieces' nodes?')
    (hfollows : ∀ rest, Follows onlyMarkup' rest →
      Follows onlyMarkup ((textOf pieces').toList ++ rest)) :
    ReadsAs onlyMarkup' (pieces ++ pieces') fun scope =>
      (nodes? scope).bind fun nodes => (nodes?' scope).map (nodes ++ ·) := by
  intro total expand fuel depth draft rest hdraft hrest hfuel
  rw [textOf_append, String.toList_append, List.length_append] at hfuel
  rw [textOf_append, String.toList_append, List.append_assoc]
  obtain ⟨read, hread, fuel₁, hfuel₁, heq⟩ := h total expand fuel depth draft _ hdraft
    (hfollows rest hrest) (by rw [List.length_append]; omega)
  cases read with
  | none =>
    refine ⟨none, ?_, rest.length + 1, Nat.lt_succ_self _, heq⟩
    beta_reduce
    rw [← hread]
    rfl
  | some nodes =>
    rw [List.length_append] at hfuel₁
    obtain ⟨read', hread', fuel₂, hfuel₂, heq'⟩ :=
      h' total expand fuel₁ depth (draft.addNodes nodes) rest hdraft hrest hfuel₁
    refine ⟨read'.map (nodes ++ ·), ?_, fuel₂, hfuel₂, ?_⟩
    · have hscope : (draft.addNodes nodes).outerScope = draft.outerScope := rfl
      beta_reduce
      rw [← hread, ← hscope, ← hread']
      cases read' with
      | none => rfl
      | some nodes' => exact congrArg some (unplacedAll_append nodes nodes')
    · rw [heq, Option.bind_some, heq']
      cases read' with
      | none => rfl
      | some nodes' => simp [Draft.addNodes]

/-- Any markup may follow where anything may. -/
theorem mono (h : ReadsAs false pieces nodes?) : ReadsAs onlyMarkup pieces nodes? :=
  fun total expand fuel depth draft rest hdraft _ hfuel =>
    h total expand fuel depth draft rest hdraft (.anything rest) hfuel

/-- A piece that is read in one step. -/
theorem single {piece : Markup.Piece} (hne : piece.toText.toList ≠ [])
    (h : ∀ (total : Nat) (expand : Reading → String → Option Reading) (fuel depth : Nat)
      (draft : Draft) (rest : List Char), draft.attributes = [] → Follows onlyMarkup rest →
      ∃ read : Option (List Node), read.map unplacedAll = nodes? draft.outerScope
        ∧ readInside total expand (fuel + 1) depth draft (piece.toText.toList ++ rest)
          = read.bind fun nodes => readInside total expand fuel depth (draft.addNodes nodes) rest) :
    ReadsAs onlyMarkup [piece] nodes? := by
  intro total expand fuel depth draft rest hdraft hrest hfuel
  rw [textOf_singleton] at hfuel ⊢
  have hpos := List.length_pos_iff.mpr hne
  obtain ⟨fuel, rfl⟩ : ∃ k, fuel = k + 1 := ⟨fuel - 1, by omega⟩
  obtain ⟨read, hread, heq⟩ := h total expand fuel depth draft rest hdraft hrest
  exact ⟨read, hread, fuel, by omega, heq⟩

end ReadsAs

/-! ## Reading single pieces -/

/-- A comment has no nodes. -/
theorem reads_comment (text : String) :
    ReadsAs false [.comment text] fun _ => if text.toList.all isChar then some [] else none := by
  refine .single (by simp [Markup.Piece.toText, comment])
    fun total expand fuel depth draft rest _ _ => ?_
  refine ⟨if text.toList.all isChar then some [] else none, by split <;> rfl, ?_⟩
  rw [Markup.Piece.toText, readInside_comment]
  split <;> rfl

/-- A text is one node. -/
theorem reads_text {value : String} (hne : value ≠ "") :
    ReadsAs true [.text value] fun _ =>
      if value.toList.all isChar then some [.text (normalizedText value)] else none := by
  refine .single (escape_ne_nil hne) fun total expand fuel depth draft rest _ hrest => ?_
  cases hrest with
  | markup cs =>
    refine ⟨if value.toList.all isChar then some [.text (normalizedText value)] else none,
      by split <;> rfl, ?_⟩
    rw [Markup.Piece.toText, readInside_text hne]
    split <;> rfl

/-- The texts that line breaks are read as. -/
def breakNodes (n level : Nat) : List Node :=
  if 0 < n then [.text (Markup.Piece.lineBreak (n * level)).toText] else []

theorem lineBreak_chars (spaces : Nat) :
    ∀ c ∈ (Markup.Piece.lineBreak spaces).toText.toList, c = '\n' ∨ c = ' ' := by
  intro c hc
  rw [Markup.Piece.toText, String.toList_append] at hc
  rcases List.mem_append.mp hc with hc | hc
  · exact .inl (List.mem_singleton.mp hc)
  · rw [String.toList_ofList] at hc
    exact .inr (List.eq_of_mem_replicate hc)

/-- A line break is read as it is. -/
theorem reads_break (n level : Nat) :
    ReadsAs true (breakPieces n level) fun _ => some (breakNodes n level) := by
  rw [breakPieces, breakNodes]
  split
  · let value := (Markup.Piece.lineBreak (n * level)).toText
    have hchars := lineBreak_chars (n * level)
    have hne : value ≠ "" := fun h => by
      simpa [value, Markup.Piece.toText] using congrArg String.toList h
    have hescape : escape value = value := escape_eq_self fun c hc => by
      rcases hchars c hc with rfl | rfl <;> decide
    have hnormal : normalizedText value = value := normalizedText_eq_self.mpr fun hmem => by
      rcases hchars _ hmem with h | h <;> exact absurd h (by decide)
    have hall : value.toList.all isChar = true := List.all_eq_true.mpr fun c hc => by
      rcases hchars c hc with rfl | rfl <;> decide
    refine .single (fun h => hne (String.toList_eq_nil_iff.mp h))
      fun total expand fuel depth draft rest _ hrest => ?_
    cases hrest with
    | markup cs =>
      have hread : readInside total expand (fuel + 1) depth draft ((escape value).toList ++ '<' :: cs)
          = _ := readInside_text hne fuel depth
      rw [hescape, if_pos hall, hnormal] at hread
      exact ⟨some [.text value], rfl, hread⟩
  · exact ReadsAs.nil.mono

theorem tagName?_of_tag? {scope : Scope} {name : String} {attributes : List (String × String)}
    {tag : Tag} (h : tag? scope name attributes = some tag) :
    tagName? name = some (tag.pfx, tag.localName) := by
  obtain ⟨read, hread, h⟩ := Option.bind_eq_some_iff.mp h
  split at h
  · cases h
  · obtain ⟨all, -, h⟩ := Option.bind_eq_some_iff.mp h
    split at h
    · cases h
      exact hread
    · cases h

/-- The text of an element that has content. -/
theorem toList_element (name : String) (attributes : List (String × String))
    (inside : List Markup.Piece) (rest : List Char) :
    (textOf (.startTag name attributes :: (inside ++ [.endTag name]))).toList ++ rest
      = '<' :: ((tagText name attributes).toList
        ++ (['>'] ++ ((textOf inside).toList ++ ((endTag name).toList ++ rest)))) := by
  rw [← List.singleton_append, textOf_append, textOf_append, textOf_singleton, textOf_singleton]
  simp [Markup.Piece.toText, startTag]

/-- What stands behind the start tag of an element is read up to the end tag. -/
theorem readInside_element {name : String} (hname : IsNameText name)
    {attributes : List (String × String)} {inside : List Markup.Piece}
    {nodes? : Scope → Option (List Node)} (h : ReadsAs true inside nodes?) {draft : Draft}
    (hdraft : draft.attributes = []) {tag : Tag}
    (htag : tag? draft.outerScope name attributes = some tag) (total : Nat)
    (expand : Reading → String → Option Reading) {fuel : Nat} (depth offset : Nat) {rest : List Char}
    (hfuel : (textOf inside).toList.length + ((endTag name).toList.length + rest.length) < fuel) :
    ∃ read : Option (List Node),
      read.map unplacedAll = nodes? (draft.outerScope.enter tag.attributes)
      ∧ ∃ fuel', rest.length < fuel'
      ∧ readInside total expand fuel depth (tag.finish offset draft .opens)
          ((textOf inside).toList ++ ((endTag name).toList ++ rest))
        = read.bind fun nodes =>
          match depth with
          | 0 => some (⟨draft.addNodes [.element (tag.element offset nodes)], .full⟩, rest)
          | depth + 1 => readInside total expand fuel' depth
              (draft.addNodes [.element (tag.element offset nodes)]) rest := by
  have hmarkup : Follows true ((endTag name).toList ++ rest) := by
    have htext : (endTag name).toList ++ rest = '<' :: ('/' :: name.toList ++ '>' :: rest) := by
      simp [endTag]
    rw [htext]
    exact .markup _
  obtain ⟨read, hread, fuel', hfuel', heq⟩ := h total expand fuel depth (tag.finish offset draft .opens)
    ((endTag name).toList ++ rest) rfl hmarkup (by rw [List.length_append]; exact hfuel)
  rw [List.length_append] at hfuel'
  obtain ⟨fuel', rfl⟩ : ∃ k, fuel' = k + 1 := ⟨fuel' - 1, by omega⟩
  refine ⟨read, hread, fuel', ?_, ?_⟩
  · have hpos : 0 < (endTag name).toList.length := by simp [endTag]
    omega
  · rw [heq]
    cases read with
    | none => rfl
    | some nodes =>
      -- The end tag closes what the start tag has opened, on top of the draft from before.
      let opened : Opened := ⟨offset, tag.pfx, tag.localName, tag.attributes,
        draft.outerScope.enter tag.attributes, draft.nodes⟩
      have hopened : ((tag.finish offset draft .opens).addNodes nodes).opened
          = opened :: draft.opened := rfl
      have hclosed : ({ nodes := .element (opened.element (nodes.reverse ++ [])) :: draft.nodes
                        opened := draft.opened } : Draft)
          = draft.addNodes [.element (tag.element offset nodes)] := by
        obtain ⟨_, _, _⟩ := draft
        obtain rfl := hdraft
        simp [Draft.addNodes, opened, Opened.element, Tag.element]
      rw [Option.bind_some, Option.bind_some,
        readInside_endTag hname rfl hopened (tagName?_of_tag? htag), ← hclosed]
      rfl

section

variable {name : String} {attributes : List (String × String)} (hname : IsNameText name)
  (hnames : ∀ attr ∈ attributes, IsNameText attr.1)

include hname hnames

/-- An element without content is read from its tag. -/
theorem reads_emptyTag :
    ReadsAs false [.emptyTag name attributes] fun scope =>
      (tag? scope name attributes).map fun tag => [.element (tag.element 0 [])] := by
  refine .single (by simp [Markup.Piece.toText, emptyTag])
    fun total expand fuel depth draft rest hdraft _ => ?_
  obtain ⟨offset, hread⟩ :=
    readInside_tag .empty hdraft hname hnames total expand fuel depth rest
  refine ⟨(tag? draft.outerScope name attributes).map fun tag => [.element (tag.element offset [])],
    ?_, ?_⟩
  · rw [Option.map_map]
    rfl
  · have htext : (Markup.Piece.emptyTag name attributes).toText.toList ++ rest
        = '<' :: ((tagText name attributes).toList ++ (['/', '>'] ++ rest)) := by
      simp [Markup.Piece.toText, emptyTag]
    rw [htext, hread, Option.bind_map]
    rfl

/-- An element is read from its start tag to its end tag. -/
theorem reads_element {inside : List Markup.Piece} {nodes? : Scope → Option (List Node)}
    (h : ReadsAs true inside nodes?) :
    ReadsAs false (.startTag name attributes :: (inside ++ [.endTag name])) fun scope =>
      (tag? scope name attributes).bind fun tag =>
        (nodes? (scope.enter tag.attributes)).map fun nodes => [.element (tag.element 0 nodes)] := by
  intro total expand fuel depth draft rest hdraft _ hfuel
  have htext := toList_element name attributes inside rest
  rw [← List.length_append, htext] at hfuel
  rw [htext]
  simp only [List.length_cons, List.length_append, List.length_nil] at hfuel
  obtain ⟨fuel, rfl⟩ : ∃ k, fuel = k + 1 := ⟨fuel - 1, by omega⟩
  obtain ⟨offset, hstart⟩ := readInside_tag .opens hdraft hname hnames total expand fuel depth
    ((textOf inside).toList ++ ((endTag name).toList ++ rest))
  have hinside : (textOf inside).toList.length + ((endTag name).toList.length + rest.length)
      < fuel := by omega
  rw [hstart]
  beta_reduce
  cases htag : tag? draft.outerScope name attributes with
  | none => exact ⟨none, rfl, rest.length + 1, Nat.lt_succ_self _, rfl⟩
  | some tag =>
    obtain ⟨read, hread, fuel', hfuel', heq⟩ :=
      readInside_element hname h hdraft htag total expand (depth + 1) offset hinside
    refine ⟨read.map fun nodes => [.element (tag.element offset nodes)], ?_, fuel', hfuel', ?_⟩
    · rw [Option.bind_some, ← hread, Option.map_map, Option.map_map]
      rfl
    · rw [Option.bind_some, Option.bind_map]
      exact heq

end

theorem ReadsAs.congr {onlyMarkup : Bool} {pieces : List Markup.Piece}
    {nodes? nodes?' : Scope → Option (List Node)} (h : ReadsAs onlyMarkup pieces nodes?)
    (heq : ∀ scope, nodes? scope = nodes?' scope) : ReadsAs onlyMarkup pieces nodes?' :=
  funext heq ▸ h

end Specimen.Xml

namespace Specimen.Markup

open Xml

/-! ## Reading trees -/

/-- The names in a tag are made of characters that may stand in names. -/
def Piece.IsNamed : Piece → Prop
  | .startTag name attributes => IsNameText name ∧ ∀ attr ∈ attributes, IsNameText attr.1
  | .emptyTag name attributes => IsNameText name ∧ ∀ attr ∈ attributes, IsNameText attr.1
  | .endTag name => IsNameText name
  | _ => True

/-- The nodes for a comment: the line break before it. -/
def remarkNodes? (n level : Nat) : Option String → Option (List Node)
  | none => some []
  | some remark => if remark.toList.all isChar then some (breakNodes n level) else none

mutual

/-- The nodes that an element is read as: the line breaks before it and the element itself, inside a
scope. -/
def Branch.nodes? (n level : Nat) (scope : Xml.Scope) : Branch → Option (List Node)
  | .element remark name attributes inside =>
    (remarkNodes? n level remark).bind fun nodes =>
      (inside.element? n level scope name attributes).map fun e =>
        nodes ++ (breakNodes n level ++ [.element e])

/-- The element that is read from its tag on. -/
def Inside.element? (n level : Nat) (scope : Xml.Scope) (name : String)
    (attributes : List (String × String)) : Inside → Option Element
  | .nothing => (tag? scope name attributes).map fun tag => tag.element 0 []
  | .text value _ => (tag? scope name attributes).bind fun tag =>
    if value.toList.all isChar then some (tag.element 0 [.text (normalizedText value)]) else none
  | .branches branches => (tag? scope name attributes).bind fun tag =>
    (branches.nodes? n (level + 1) (scope.enter tag.attributes)).map fun nodes =>
      tag.element 0 (nodes ++ breakNodes n level)

/-- The nodes that elements one after another are read as. -/
def Branches.nodes? (n level : Nat) (scope : Xml.Scope) : Branches → Option (List Node)
  | .last branch => branch.nodes? n level scope
  | .cons branch rest => (branch.nodes? n level scope).bind fun nodes =>
    (rest.nodes? n level scope).map (nodes ++ ·)

end

theorem reads_remark (n level : Nat) (remark : Option String) :
    ReadsAs false (remarkPieces n level remark) fun _ => remarkNodes? n level remark := by
  cases remark with
  | none => exact .nil
  | some remark =>
    refine ((reads_break n level).append (reads_comment remark) fun rest _ => ?_).congr fun _ => ?_
    · have htext : (textOf [.comment remark]).toList ++ rest
          = '<' :: ('!' :: '-' :: '-'
            :: ' ' :: (partHyphens remark.toList ++ " -->".toList ++ rest)) := by
        simp [textOf_singleton, Piece.toText, comment]
      rw [htext]
      exact .markup _
    · rw [Option.bind_some, remarkNodes?]
      split
      · simp
      · rfl

/-- An element begins with its tag. -/
theorem toList_inside (n level : Nat) (name : String) (attributes : List (String × String))
    (inside : Inside) (rest : List Char) :
    ∃ tagEnd close more, Closes tagEnd close
      ∧ (textOf (inside.pieces n level name attributes)).toList ++ rest
        = '<' :: ((tagText name attributes).toList ++ (close ++ more)) := by
  cases inside with
  | nothing =>
    refine ⟨_, _, rest, .empty, ?_⟩
    simp [Inside.pieces, textOf_singleton, Piece.toText, emptyTag]
  | text value hne => exact ⟨_, _, _, .opens, toList_element name attributes [.text value] rest⟩
  | branches branches =>
    refine ⟨_, _, _, .opens, (congrArg (fun pieces => (textOf pieces).toList ++ rest) ?_).trans
      (toList_element name attributes (branches.pieces n (level + 1) ++ breakPieces n level) rest)⟩
    rw [List.append_assoc]
    rfl

section

variable {n level : Nat} {name : String} {attributes : List (String × String)} {inside : Inside}

theorem Inside.names (h : ∀ piece ∈ inside.pieces 0 level name attributes, piece.IsNamed) :
    IsNameText name ∧ ∀ attr ∈ attributes, IsNameText attr.1 := by
  cases inside <;> exact h _ List.mem_cons_self

/-- What stands inside an element: nothing, or pieces between its tags that are read as nodes. -/
def Inside.HasContent (n level : Nat) (name : String) (attributes : List (String × String))
    (inside : Inside) : Prop :=
  inside = .nothing ∨ ∃ pieces nodes?, ReadsAs true pieces nodes?
    ∧ inside.pieces n level name attributes = .startTag name attributes :: (pieces ++ [.endTag name])
    ∧ ∀ scope, inside.element? n level scope name attributes
      = (tag? scope name attributes).bind fun tag =>
        (nodes? (scope.enter tag.attributes)).map (tag.element 0)

theorem Inside.HasContent.reads (h : inside.HasContent n level name attributes)
    (hname : IsNameText name) (hnames : ∀ attr ∈ attributes, IsNameText attr.1) :
    ReadsAs false (inside.pieces n level name attributes) fun scope =>
      (inside.element? n level scope name attributes).map fun e => [.element e] := by
  rcases h with rfl | ⟨pieces, nodes?, hreads, hpieces, helement⟩
  · refine (reads_emptyTag hname hnames).congr fun scope => ?_
    rw [Inside.element?, Option.map_map]
    rfl
  · rw [hpieces]
    refine (reads_element hname hnames hreads).congr fun scope => ?_
    rw [helement, Option.map_bind]
    refine congrArg _ (funext fun tag => ?_)
    rw [Function.comp, Option.map_map]
    rfl

end

mutual

/-- **An element is read back** with any indentation, but for the line breaks. -/
theorem Branch.reads (n level : Nat) : ∀ branch : Branch,
    (∀ piece ∈ branch.pieces 0 level, piece.IsNamed) →
    ReadsAs false (branch.pieces n level) fun scope => branch.nodes? n level scope
  | .element remark name attributes inside, hnamed => by
    have hinside : ∀ piece ∈ inside.pieces 0 level name attributes, piece.IsNamed :=
      fun piece hmem => hnamed piece (List.mem_append_right _ (List.mem_append_right _ hmem))
    obtain ⟨hname, hnames⟩ := Inside.names hinside
    have hreads := (inside.hasContent n level name attributes hinside).reads hname hnames
    refine ((reads_remark n level remark).append ((reads_break n level).append hreads
      fun rest _ => by
        obtain ⟨_, _, _, -, htext⟩ := toList_inside n level name attributes inside rest
        rw [htext]
        exact .markup _)
      fun rest _ => .anything _).congr fun scope => ?_
    simp only [Branch.nodes?, Option.bind_some, Option.map_map]
    rfl

theorem Inside.hasContent (n level : Nat) (name : String) (attributes : List (String × String)) :
    ∀ inside : Inside, (∀ piece ∈ inside.pieces 0 level name attributes, piece.IsNamed) →
    inside.HasContent n level name attributes
  | .nothing, _ => .inl rfl
  | .text value hne, _ => by
    refine .inr ⟨[.text value], _, reads_text hne, rfl, fun scope => ?_⟩
    rw [Inside.element?]
    refine congrArg _ (funext fun tag => ?_)
    split <;> rfl
  | .branches branches, hnamed => by
    have hinside := branches.reads n (level + 1) fun piece hmem =>
      hnamed piece (List.mem_cons_of_mem _ (List.mem_append_left _ hmem))
    refine .inr ⟨branches.pieces n (level + 1) ++ breakPieces n level, _,
      hinside.append (reads_break n level) fun rest _ => .anything _, ?_, fun scope => ?_⟩
    · rw [List.append_assoc]
      rfl
    · rw [Inside.element?]
      refine congrArg _ (funext fun tag => ?_)
      cases branches.nodes? n (level + 1) (scope.enter tag.attributes) <;> rfl

theorem Branches.reads (n level : Nat) : ∀ branches : Branches,
    (∀ piece ∈ branches.pieces 0 level, piece.IsNamed) →
    ReadsAs false (branches.pieces n level) fun scope => branches.nodes? n level scope
  | .last branch, hnamed => branch.reads n level hnamed
  | .cons branch rest, hnamed =>
    (branch.reads n level fun piece hmem => hnamed piece (List.mem_append_left _ hmem)).append
      (rest.reads n level fun piece hmem => hnamed piece (List.mem_append_right _ hmem))
      fun _ _ => .anything _

end

end Specimen.Markup

import Specimen.Proofs.Escaping

/-!
# Reading what was written

What the scanners find in written markup, whatever follows it: the name and the attributes of a tag,
the end of a comment. The names are made of characters that may stand in names. A reader may refuse a
tag for other reasons, as when a name begins with a digit or a prefix is not declared; then it
refuses it whatever follows.
-/

namespace Specimen.Xml

open Markup

/-! ## Names -/

/-- All characters may stand in a name. -/
def IsNameText (name : String) : Prop := ∀ c ∈ name.toList, isNamePart c = true

instance (name : String) : Decidable (IsNameText name) :=
  decidable_of_iff (name.toList.all isNamePart = true) List.all_eq_true

/-- No name goes on here. -/
def EndsName (cs : List Char) : Prop := ∀ c ∈ cs.head?, isNamePart c = false

/-- The prefix and the local name that a reader takes a name for. -/
def tagName? (name : String) : Option (Option String × String) :=
  (readTagName name.toList).map Prod.fst

variable {name : String} {rest : List Char}

/-- A name ends where it cannot go on. -/
theorem span_name {cs : List Char} (h : ∀ c ∈ cs, isNamePart c = true) (hrest : EndsName rest) :
    (cs ++ rest).span isNamePart = (cs, rest) := by
  rw [List.span_eq_takeWhile_dropWhile, List.takeWhile_append_of_pos h,
    List.dropWhile_append_of_pos h]
  cases rest with
  | nil => simp
  | cons c rest => simp [hrest c rfl]

/-- **A name is read up to its end.** -/
theorem readTagName_append (h : IsNameText name) (hrest : EndsName rest) :
    readTagName (name.toList ++ rest) = (tagName? name).map fun read => (read, rest) := by
  have hname : name.toList.span isNamePart = (name.toList, []) := by
    simpa using span_name h (show EndsName [] from nofun)
  rw [tagName?, readTagName, readTagName, span_name h hrest, hname]
  dsimp only
  split
  · dsimp only
    split
    · rfl
    · split <;> rfl
  · dsimp only
    split
    · rfl
    · split <;> rfl

theorem tagName?_empty : tagName? "" = none := rfl

/-- Without a first character there is no name. -/
theorem readTagName_eq_none (hrest : EndsName rest) : readTagName rest = none := by
  have hread := readTagName_append (show IsNameText "" from nofun) hrest
  rwa [tagName?_empty, Option.map_none, String.toList_empty, List.nil_append] at hread

/-- What may stand in a name is no space, and no other character of markup. -/
theorem isNamePart_ne {c : Char} (h : isNamePart c = true) :
    isSpace c = false ∧ c ∉ ['/', '>', '!', '?', '='] := by
  have hnot : ∀ d ∈ [' ', '\t', '\n', '\r', '/', '>', '!', '?', '='], isNamePart d = false :=
    forall_mem_of_all (by decide)
  have hmem : c ∉ [' ', '\t', '\n', '\r', '/', '>', '!', '?', '='] := fun hmem =>
    Bool.false_ne_true ((hnot c hmem).symm.trans h)
  simp only [List.mem_cons, List.not_mem_nil, or_false, not_or] at hmem ⊢
  simp [isSpace, hmem]

/-! ## Attributes -/

/-- The attribute that a reader takes a name and a value for. -/
def attribute? (attr : String × String) : Option Attribute :=
  (tagName? attr.1).bind fun name =>
    if attr.2.toList.all isChar then some ⟨name.1, name.2, normalizedValue attr.2⟩ else none

/-- The attributes that have come, and behind them those that a reader takes the written ones for. -/
def attributesFrom? (before : List Attribute) : List (String × String) → Option (List Attribute)
  | [] => some before
  | attr :: rest => (attribute? attr).bind fun a =>
    if a.mayFollow before then attributesFrom? (before ++ [a]) rest else none

/-- How a tag ends, and what is written for it. -/
inductive Closes : TagEnd → List Char → Prop
  | opens : Closes .opens ['>']
  | empty : Closes .empty ['/', '>']

theorem length_le_attributes (attributes : List (String × String)) :
    attributes.length ≤ (String.join (attributes.map attributeText)).toList.length := by
  induction attributes with
  | nil => exact Nat.zero_le _
  | cons attr attributes ih =>
    simp only [List.map_cons, String.join_cons, attributeText, String.toList_append,
      List.length_append, List.length_cons]
    have hblank : (" ".toList).length = 1 := rfl
    omega

/-- Where a tag ends or an attribute begins, no name goes on. -/
theorem Closes.endsName {tagEnd : TagEnd} {close : List Char} (h : Closes tagEnd close)
    (attributes : List (String × String)) (rest : List Char) :
    EndsName ((String.join (attributes.map attributeText)).toList ++ (close ++ rest)) := by
  cases attributes with
  | nil =>
    cases h with
    | opens => exact fun c hc => by cases hc; decide
    | empty => exact fun c hc => by cases hc; decide
  | cons attr attributes =>
    intro c hc
    simp only [List.map_cons, String.join_cons, attributeText, String.toList_append] at hc
    cases hc
    decide

theorem skipSpace_eq_self {cs : List Char} (h : ∀ c ∈ cs.head?, isSpace c = false) :
    skipSpace cs = cs := by
  cases cs with
  | nil => rfl
  | cons c cs => rw [skipSpace, List.dropWhile_cons_of_neg (by simp [h c rfl])]

/-- An attribute is read from the space before it on. -/
theorem readAttributes_cons {attr : String × String} (hname : IsNameText attr.1) (fuel : Nat)
    (draft : Draft) (rest : List Char) :
    readAttributes [] (fuel + 1) ⟨draft, .full⟩ ((attributeText attr).toList ++ rest)
      = (attribute? attr).bind fun a => (draft.addAttribute a).bind fun draft =>
          readAttributes [] fuel ⟨draft, .full⟩ rest := by
  obtain ⟨name, value⟩ := attr
  let behind := '=' :: '"' :: (value.toList.flatMap escapeChar ++ '"' :: rest)
  have htext : (attributeText (name, value)).toList ++ rest = ' ' :: (name.toList ++ behind) := by
    simp [attributeText, escape, behind]
  have hhead : ∀ c ∈ (name.toList ++ behind).head?, isSpace c = false ∧ c ≠ '>' ∧ c ≠ '/' := by
    intro c hc
    rw [List.head?_append] at hc
    cases hfirst : name.toList.head? with
    | none =>
      rw [hfirst] at hc
      cases hc
      decide
    | some d =>
      rw [hfirst] at hc
      cases hc
      obtain ⟨hspace, hmem⟩ := isNamePart_ne (hname c (List.mem_of_head? hfirst))
      exact ⟨hspace, fun h => hmem (by simp [h]), fun h => hmem (by simp [h])⟩
  have hspace : skipSpace (' ' :: (name.toList ++ behind)) = name.toList ++ behind :=
    skipSpace_eq_self fun c hc => (hhead c hc).1
  have hneed : needSpace (' ' :: (name.toList ++ behind)) = some (name.toList ++ behind) :=
    congrArg some hspace
  have hread : readTagName (name.toList ++ behind) = (tagName? name).map fun read => (read, behind) :=
    readTagName_append hname fun c hc => by cases hc; decide
  rw [htext, readAttributes, if_neg (by simp), hspace]
  split
  · rename_i heq
    exact absurd rfl (hhead '>' (by rw [heq]; rfl)).2.1
  · rename_i heq
    exact absurd rfl (hhead '/' (by rw [heq]; rfl)).2.2
  · have hvalue : readValue behind
        = if value.toList.all isChar then some (value.toList.flatMap escapeChar, rest) else none :=
      readValue_escape value.toList rest
    simp only [hneed, hread, Option.bind_eq_bind, Option.bind_some, Option.bind_map, attribute?]
    cases tagName? name with
    | none => rfl
    | some read =>
      simp only [Option.bind_some, Function.comp, hvalue]
      split
      · simp only [Option.bind_some, readAttributeValue_escape]
      · rfl

/-- **The attributes of a tag are read up to its end.** -/
theorem readAttributes_written {tagEnd : TagEnd} {close : List Char} (hclose : Closes tagEnd close)
    {attributes : List (String × String)} (hnames : ∀ attr ∈ attributes, IsNameText attr.1)
    {fuel : Nat} (hfuel : attributes.length < fuel) (draft : Draft) (rest : List Char) :
    readAttributes [] fuel ⟨draft, .full⟩
        ((String.join (attributes.map attributeText)).toList ++ (close ++ rest))
      = (attributesFrom? draft.attributes attributes).map fun all =>
          ((tagEnd, ⟨{ draft with attributes := all }, .full⟩), rest) := by
  induction attributes generalizing draft fuel with
  | nil =>
    obtain ⟨fuel, rfl⟩ : ∃ k, fuel = k + 1 := ⟨fuel - 1, by simp at hfuel; omega⟩
    cases hclose <;> rfl
  | cons attr attributes ih =>
    obtain ⟨fuel, rfl⟩ : ∃ k, fuel = k + 1 := ⟨fuel - 1, by simp at hfuel; omega⟩
    obtain ⟨hname, hnames⟩ := List.forall_mem_cons.mp hnames
    rw [List.map_cons, String.join_cons, String.toList_append, List.append_assoc,
      readAttributes_cons hname, attributesFrom?]
    cases attribute? attr with
    | none => rfl
    | some a =>
      rw [Option.bind_some, Option.bind_some, Draft.addAttribute]
      split
      · rw [Option.bind_some, ih hnames (by simpa using hfuel)]
      · rfl

/-! ## Tags -/

/-- A tag: its name with its prefix, and its attributes. -/
structure Tag where
  pfx : Option String
  localName : String
  attributes : List Attribute

/-- The tag that a reader takes a written one for, inside a scope. -/
def tag? (outer : Scope) (name : String) (attributes : List (String × String)) : Option Tag :=
  (tagName? name).bind fun read =>
    if read.1 = some "xmlns" then none
    else
      (attributesFrom? [] attributes).bind fun all =>
        if (outer.enter all).admits all && (outer.enter all).namesElement read.1 then
          some ⟨read.1, read.2, all⟩
        else none

/-- The element of a tag. -/
def Tag.element (tag : Tag) (offset : Nat) (children : List Node) : Element :=
  ⟨offset, tag.pfx, tag.localName, tag.attributes, children⟩

/-- The tree behind a tag. -/
def Tag.finish (tag : Tag) (offset : Nat) (draft : Draft) : TagEnd → Draft
  | .opens => { opened := ⟨offset, tag.pfx, tag.localName, tag.attributes,
      draft.outerScope.enter tag.attributes, draft.nodes⟩ :: draft.opened }
  | _ => { draft with nodes := .element (tag.element offset []) :: draft.nodes }

/-- A tag whose attributes have come is completed if names and attributes are in order. -/
theorem finishTag_written {tagEnd : TagEnd} {close : List Char} (hclose : Closes tagEnd close)
    {draft : Draft} (hdraft : draft.attributes = []) (offset : Nat) (read : Option String × String)
    (all : List Attribute) :
    Draft.finishTag { draft with attributes := all } offset read.1 read.2 tagEnd
      = (if (draft.outerScope.enter all).admits all && (draft.outerScope.enter all).namesElement read.1
          then some (⟨read.1, read.2, all⟩ : Tag) else none).map fun tag =>
        tag.finish offset draft tagEnd := by
  obtain ⟨nodes, opened, _⟩ := draft
  obtain rfl := hdraft
  have hscope (draft : Draft) : draft.outerScope = Draft.outerScope { draft with attributes := all } :=
    rfl
  rw [hscope]
  cases hclose <;> rw [Draft.finishTag, Draft.isLawful, Draft.scope] <;> split <;> rfl

/-- **A tag is read up to its end.** -/
theorem readTag_written {draft : Draft} {tagEnd : TagEnd} {close : List Char}
    {attributes : List (String × String)} (hclose : Closes tagEnd close)
    (hdraft : draft.attributes = []) (hname : IsNameText name)
    (hnames : ∀ attr ∈ attributes, IsNameText attr.1) (total offset : Nat) (rest : List Char) :
    readTag ⟨[], total⟩ offset ⟨draft, .full⟩ ((tagText name attributes).toList ++ (close ++ rest))
      = (tag? draft.outerScope name attributes).map fun tag =>
          ((tagEnd, ⟨tag.finish offset draft tagEnd, .full⟩), rest) := by
  have hlength : attributes.length
      < ((String.join (attributes.map attributeText)).toList ++ (close ++ rest)).length + 1 := by
    have hjoin := length_le_attributes attributes
    rw [List.length_append]
    omega
  rw [readTag, tagText, String.toList_append, List.append_assoc,
    readTagName_append hname (hclose.endsName attributes rest), tag?]
  cases tagName? name with
  | none => rfl
  | some read =>
    simp only [Option.map_some, Option.bind_eq_bind, Option.bind_some]
    split
    · rfl
    · rw [readAttributes_written hclose hnames hlength, hdraft]
      cases attributesFrom? [] attributes with
      | none => rfl
      | some all =>
        rw [Option.map_some, Option.bind_some, Option.bind_some, finishTag_written hclose hdraft]
        split <;> rfl

/-- The end tag of the innermost element closes it. -/
theorem readEndTag_written (h : IsNameText name) {draft : Draft} {e : Opened} {outer : List Opened}
    (hdraft : draft.attributes = []) (hopened : draft.opened = e :: outer)
    (hname : tagName? name = some (e.pfx, e.localName)) (rest : List Char) :
    readEndTag ⟨draft, .full⟩ (name.toList ++ '>' :: rest)
      = some (⟨{ nodes := .element (e.element draft.nodes) :: e.before, opened := outer }, .full⟩,
          rest) := by
  have hends : EndsName ('>' :: rest) := fun c hc => by cases hc; decide
  have hread := readTagName_append h hends
  have hafter : after? ">" (skipSpace ('>' :: rest)) = some rest := rfl
  have hclose : draft.close e.pfx e.localName
      = some { nodes := .element (e.element draft.nodes) :: e.before, opened := outer } := by
    simp [Draft.close, hopened, hdraft, Scope.admits, plainOf, allDistinct]
  rw [readEndTag, hread, hname]
  simp only [Option.map_some, Option.bind_eq_bind, Option.bind_some, hafter, hclose]
  rfl

/-! ## Comments -/

theorem hasDoubleHyphen_cons (c : Char) (cs : List Char) :
    hasDoubleHyphen (c :: cs) = (decide (c = '-' ∧ cs.head? = some '-') || hasDoubleHyphen cs) := by
  cases cs with
  | nil => by_cases hc : c = '-' <;> simp [hasDoubleHyphen]
  | cons d cs => by_cases hc : c = '-' <;> by_cases hd : d = '-' <;> simp [hasDoubleHyphen, hc, hd]

theorem hasDoubleHyphen_blank (cs : List Char) :
    hasDoubleHyphen (cs ++ [' ']) = hasDoubleHyphen cs := by
  induction cs with
  | nil => rfl
  | cons c cs ih =>
    rw [List.cons_append, hasDoubleHyphen_cons, hasDoubleHyphen_cons, ih]
    cases cs <;> simp

/-- No two hyphens that stand side by side are left. -/
theorem hasDoubleHyphen_partHyphens (cs : List Char) : hasDoubleHyphen (partHyphens cs) = false := by
  fun_induction partHyphens cs with
  | case1 cs _ ih => exact ih
  | case2 cs h => exact eq_false_of_ne_true h

theorem all_isChar_partPairs (cs : List Char) : (partPairs cs).all isChar = cs.all isChar := by
  have hblank : isChar ' ' = true := by decide
  fun_induction partPairs cs with
  | case1 rest ih => simp [hblank, ih]
  | case2 c rest _ ih => simp [ih]
  | case3 => rfl

/-- Nothing but blanks is put into a comment. -/
theorem all_isChar_partHyphens (cs : List Char) : (partHyphens cs).all isChar = cs.all isChar := by
  fun_induction partHyphens cs with
  | case1 cs _ ih => rw [ih, all_isChar_partPairs]
  | case2 => rfl

/-- A comment ends with the first two hyphens that stand side by side. -/
theorem upTo_hyphens {cs : List Char} (h : hasDoubleHyphen cs = false)
    (hlast : cs.getLast? ≠ some '-') (rest : List Char) :
    upTo ['-', '-', '>'] (cs ++ '-' :: '-' :: '>' :: rest) = some (cs, rest) := by
  induction cs with
  | nil => rfl
  | cons c cs ih =>
    rw [hasDoubleHyphen_cons, Bool.or_eq_false_iff, decide_eq_false_iff_not] at h
    have hnot : ¬['-', '-', '>'].isPrefixOf (c :: (cs ++ '-' :: '-' :: '>' :: rest)) = true := by
      rw [List.isPrefixOf_iff_prefix]
      intro hprefix
      obtain ⟨rfl, hbehind⟩ := List.cons_prefix_cons.mp hprefix
      cases cs with
      | nil => exact hlast rfl
      | cons d cs =>
        obtain ⟨rfl, -⟩ := List.cons_prefix_cons.mp hbehind
        exact h.1 ⟨rfl, rfl⟩
    have hlast' : cs.getLast? ≠ some '-' := by
      cases cs with
      | nil => nofun
      | cons d cs => rwa [List.getLast?_cons_cons] at hlast
    rw [List.cons_append, upTo, if_neg hnot, ih h.2 hlast']
    rfl

/-- **A comment is skipped up to its end**, if its characters are permitted. -/
theorem skipComment_written (text : String) (rest : List Char) :
    skipComment (' ' :: (partHyphens text.toList ++ ' ' :: '-' :: '-' :: '>' :: rest))
      = if text.toList.all isChar then some rest else none := by
  let inside := ' ' :: (partHyphens text.toList ++ [' '])
  have htext : ' ' :: (partHyphens text.toList ++ ' ' :: '-' :: '-' :: '>' :: rest)
      = inside ++ '-' :: '-' :: '>' :: rest := by simp [inside]
  have hhyphens : hasDoubleHyphen inside = false := by
    rw [hasDoubleHyphen_cons, hasDoubleHyphen_blank, hasDoubleHyphen_partHyphens]
    simp
  have hlast : (' ' :: partHyphens text.toList ++ [' ']).getLast? = some ' ' := List.getLast?_concat
  have hall : inside.all isChar = text.toList.all isChar := by
    have hblank : isChar ' ' = true := by decide
    simp [inside, hblank, all_isChar_partHyphens]
  have hne : inside.getLast? ≠ some '-' := by
    rw [show inside.getLast? = some ' ' from hlast]
    decide
  rw [htext, skipComment, upTo_hyphens hhyphens hne]
  simp only [Option.bind_eq_bind, Option.bind_some, hhyphens, bne_iff_ne.mpr hne, hall]
  simp

end Specimen.Xml

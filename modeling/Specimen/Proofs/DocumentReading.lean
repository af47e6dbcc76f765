import Specimen.Proofs.TreeReading

/-!
# Reading documents back

A whole document is read as its root, behind the declaration and the comment on the root. With an
indentation, the texts between elements are line breaks, and without these, the root is the same
as without an indentation (`Markup.readTree_dropSpace`).
-/

namespace Specimen

open Markup Xml

namespace Xml

/-! ## Before and behind the root -/

/-- The declaration is passed over. -/
theorem skipDeclaration_written (rest : List Char) :
    skipDeclaration (declaration.toList ++ rest) = some rest := by
  rfl

/-- The line break before a piece is passed over. -/
theorem skipSpace_break (n : Nat) {rest : List Char} (hrest : Follows true rest) :
    skipSpace ((textOf (breakPieces n 0)).toList ++ rest) = rest := by
  cases hrest with
  | markup cs =>
    rw [breakPieces]
    split
    · have htext : (textOf [.lineBreak (n * 0)]).toList = ['\n'] := by
        simp [textOf_singleton, Markup.Piece.toText]
      rw [htext]
      rfl
    · rfl

/-- Where a tag stands, nothing more is passed over. -/
theorem skipMisc_tag (n fuel : Nat) {cs : List Char} (h : ∀ c ∈ cs.head?, c ≠ '!' ∧ c ≠ '?') :
    skipMisc (fuel + 1) ((textOf (breakPieces n 0)).toList ++ '<' :: cs) = some ('<' :: cs) := by
  have hbegins (c : Char) (word : String) (rest : List Char) (hword : word.toList = '<' :: c :: rest)
      (hc : ∀ d ∈ cs.head?, d ≠ c) : begins word ('<' :: cs) = false := by
    rw [begins, hword]
    cases cs with
    | nil => rfl
    | cons d cs => simp [List.isPrefixOf, (hc d rfl).symm]
  rw [skipMisc, skipSpace_break n (.markup cs)]
  have hcomment : begins "<!--" ('<' :: cs) = false := hbegins '!' _ _ rfl fun d hd => (h d hd).1
  have hinstruction : begins "<?" ('<' :: cs) = false := hbegins '?' _ _ rfl fun d hd => (h d hd).2
  simp only [hcomment, hinstruction]
  rfl

/-- A comment on the root is passed over. -/
theorem skipMisc_remark (n fuel : Nat) (remark : Option String) {cs : List Char}
    (h : ∀ c ∈ cs.head?, c ≠ '!' ∧ c ≠ '?') :
    skipMisc (fuel + 2) ((textOf (remarkPieces n 0 remark)).toList
        ++ ((textOf (breakPieces n 0)).toList ++ '<' :: cs))
      = (remarkNodes? n 0 remark).map fun _ => '<' :: cs := by
  cases remark with
  | none => exact skipMisc_tag n (fuel + 1) h
  | some remark =>
    have htext (rest : List Char) : (textOf (remarkPieces n 0 (some remark))).toList ++ rest
        = (textOf (breakPieces n 0)).toList ++ '<' :: '!' :: '-' :: '-'
          :: ' ' :: (partHyphens remark.toList ++ ' ' :: '-' :: '-' :: '>' :: rest) := by
      rw [remarkPieces, textOf_append, textOf_singleton]
      simp [Markup.Piece.toText, comment]
    have hbegins (cs : List Char) : begins "<!--" ('<' :: '!' :: '-' :: '-' :: cs) = true := rfl
    rw [htext, skipMisc, skipSpace_break n (.markup _)]
    simp only [hbegins, if_true, List.drop, skipComment_written, remarkNodes?, Option.bind_eq_bind]
    split
    · exact skipMisc_tag n fuel h
    · rfl

/-! ## The root -/

variable {n : Nat} {name : String} {attributes : List (String × String)} {rest : List Char}

section

variable (hname : IsNameText name) (hnames : ∀ attr ∈ attributes, IsNameText attr.1) (total : Nat)

include hname hnames

/-- The tag of the root is read up to its end. -/
theorem readRoot_tag {tagEnd : TagEnd} {close : List Char} (hclose : Closes tagEnd close)
    (rest : List Char) :
    ∃ offset, readRoot ⟨[], total⟩ ('<' :: ((tagText name attributes).toList ++ (close ++ rest)))
      = (tag? [] name attributes).bind fun tag =>
        match tagEnd with
        | .opens => (readInside total (expandEntity ⟨[], total⟩ Budget.maxLevels) (rest.length + 1) 0
            (tag.finish offset {} .opens) rest).map fun read => (read.1.draft, read.2)
        | _ => some (tag.finish offset {} tagEnd, rest) := by
  let cs := '<' :: ((tagText name attributes).toList ++ (close ++ rest))
  have hafter : after? "<" cs = some ((tagText name attributes).toList ++ (close ++ rest)) := rfl
  have hread := readTag_written hclose (rfl : ({} : Draft).attributes = []) hname hnames total
    (total - cs.length) rest
  have hscope : ({} : Draft).outerScope = [] := rfl
  refine ⟨total - cs.length, ?_⟩
  rw [readRoot, hafter]
  simp only [Option.bind_eq_bind, Option.bind_some]
  rw [hread, hscope, Option.bind_map]
  cases hclose with
  | opens => exact congrArg _ (funext fun tag => Option.map_eq_bind.symm)
  | empty => rfl

/-- A root without content is read from its tag. -/
theorem readRoot_emptyTag (rest : List Char) :
    ∃ read : Option Element,
      read.map Element.unplaced = (tag? [] name attributes).map (fun tag => tag.element 0 [])
      ∧ readRoot ⟨[], total⟩ ((textOf [.emptyTag name attributes]).toList ++ rest)
        = read.map fun e => ({ nodes := [.element e] }, rest) := by
  have htext : (textOf [.emptyTag name attributes]).toList ++ rest
      = '<' :: ((tagText name attributes).toList ++ (['/', '>'] ++ rest)) := by
    simp [textOf_singleton, Markup.Piece.toText, emptyTag]
  obtain ⟨offset, hread⟩ := readRoot_tag hname hnames total .empty rest
  refine ⟨(tag? [] name attributes).map fun tag => tag.element offset [], ?_, ?_⟩
  · rw [Option.map_map]
    rfl
  · rw [htext, hread, Option.map_map]
    exact Option.map_eq_bind.symm

/-- A root with content is read from its start tag to its end tag. -/
theorem readRoot_element {inside : List Markup.Piece} {nodes? : Scope → Option (List Node)}
    (h : ReadsAs true inside nodes?) (rest : List Char) :
    ∃ read : Option Element,
      read.map Element.unplaced = ((tag? [] name attributes).bind fun tag =>
        (nodes? (Scope.enter [] tag.attributes)).map (tag.element 0))
      ∧ readRoot ⟨[], total⟩
          ((textOf (.startTag name attributes :: (inside ++ [.endTag name]))).toList ++ rest)
        = read.map fun e => ({ nodes := [.element e] }, rest) := by
  obtain ⟨offset, hstart⟩ := readRoot_tag hname hnames total .opens
    ((textOf inside).toList ++ ((endTag name).toList ++ rest))
  rw [toList_element, hstart]
  cases htag : tag? [] name attributes with
  | none => exact ⟨none, rfl, rfl⟩
  | some tag =>
    -- The whole text that follows is fuel enough for what is inside.
    have hfuel : (textOf inside).toList.length + ((endTag name).toList.length + rest.length)
        < ((textOf inside).toList ++ ((endTag name).toList ++ rest)).length + 1 := by
      simp only [List.length_append]
      omega
    obtain ⟨read, hread, fuel', -, heq⟩ := readInside_element hname h
      (rfl : ({} : Draft).attributes = []) htag total
      (expandEntity ⟨[], total⟩ Budget.maxLevels) 0 offset hfuel
    refine ⟨read.map (tag.element offset), ?_, ?_⟩
    · have hnodes : read.map unplacedAll = nodes? (Scope.enter [] tag.attributes) := hread
      rw [Option.bind_some, ← hnodes, Option.map_map, Option.map_map]
      rfl
    · rw [Option.bind_some, heq, Option.map_map]
      cases read <;> rfl

/-- **The root is read back** from its tag on. -/
theorem readRoot_inside (n : Nat) (inside : Inside)
    (hnamed : ∀ piece ∈ inside.pieces 0 0 name attributes, piece.IsNamed) (rest : List Char) :
    ∃ read : Option Element, read.map Element.unplaced = inside.element? n 0 [] name attributes
      ∧ readRoot ⟨[], total⟩ ((textOf (inside.pieces n 0 name attributes)).toList ++ rest)
        = read.map fun e => ({ nodes := [.element e] }, rest) := by
  rcases inside.hasContent n 0 name attributes hnamed with
    rfl | ⟨pieces, nodes?, hreads, hpieces, helement⟩
  · exact readRoot_emptyTag hname hnames total rest
  · rw [hpieces, helement]
    exact readRoot_element hname hnames total hreads rest

end

end Xml

/-! ## Documents -/

namespace Markup

/-- The root that the elements of a document are read as. -/
def Branch.root? (n : Nat) : Branch → Option Element
  | .element remark name attributes inside =>
    (remarkNodes? n 0 remark).bind fun _ => inside.element? n 0 [] name attributes

/-- The root begins with a tag, which is no comment and no instruction. -/
theorem head?_inside {name : String} (hname : IsNameText name) (n : Nat)
    (attributes : List (String × String)) (inside : Inside) (rest : List Char) :
    ∃ cs, (textOf (inside.pieces n 0 name attributes)).toList ++ rest = '<' :: cs
      ∧ ∀ c ∈ cs.head?, c ≠ '!' ∧ c ≠ '?' := by
  obtain ⟨tagEnd, close, more, hclose, htext⟩ := toList_inside n 0 name attributes inside rest
  refine ⟨_, htext, fun c hc => ?_⟩
  rcases head?_tag hclose hname attributes more with hhead | ⟨-, heq⟩
  · have hnot := hhead c hc
    exact ⟨fun h => hnot (by simp [h]), fun h => hnot (by simp [h])⟩
  · rw [heq] at hc
    cases hc
    decide

/-- The text of a document, part by part. -/
theorem toList_document (n : Nat) (remark : Option String) (name : String)
    (attributes : List (String × String)) (inside : Inside) :
    (textOf (.declaration :: ((Branch.element remark name attributes inside).pieces n 0
        ++ [.lineBreak 0]))).toList
      = declaration.toList ++ ((textOf (remarkPieces n 0 remark)).toList
        ++ ((textOf (breakPieces n 0)).toList
          ++ ((textOf (inside.pieces n 0 name attributes)).toList ++ ['\n']))) := by
  rw [← List.singleton_append, textOf_append, textOf_append, Branch.pieces, textOf_append,
    textOf_append, textOf_singleton, textOf_singleton]
  simp [Piece.toText]

/-- What stands before the tag of the root is passed over, if the comment on it can be. -/
theorem skipMisc_document (n total : Nat) (remark : Option String) {cs : List Char}
    (h : ∀ c ∈ cs.head?, c ≠ '!' ∧ c ≠ '?') (htotal : 0 < total) :
    skipMisc (total + 1) ((textOf (remarkPieces n 0 remark)).toList
        ++ ((textOf (breakPieces n 0)).toList ++ '<' :: cs))
      = (remarkNodes? n 0 remark).map fun _ => '<' :: cs := by
  obtain ⟨fuel, rfl⟩ : ∃ k, total = k + 1 := ⟨total - 1, by omega⟩
  exact skipMisc_remark n fuel remark h

/-- There is no document type declaration. -/
theorem readPrologue_tag {cs : List Char} (h : ∀ c ∈ cs.head?, c ≠ '!' ∧ c ≠ '?') :
    readPrologue ('<' :: cs) = some ([], '<' :: cs) := by
  have hafter : after? "<!DOCTYPE" ('<' :: cs) = none := by
    cases cs with
    | nil => rfl
    | cons c cs => simp [after?, List.isPrefixOf, (h c rfl).1.symm]
  rw [readPrologue, hafter]

/-- **A document is read back** with any indentation, but for the line breaks. -/
theorem readTree_branch (n : Nat) (branch : Branch)
    (hnamed : ∀ piece ∈ branch.pieces 0 0, piece.IsNamed) :
    (readTree (textOf (.declaration :: (branch.pieces n 0 ++ [.lineBreak 0])))).map Element.unplaced
      = branch.root? n := by
  obtain ⟨remark, name, attributes, inside⟩ := branch
  have hinside : ∀ piece ∈ inside.pieces 0 0 name attributes, piece.IsNamed :=
    fun piece hmem => hnamed piece (List.mem_append_right _ (List.mem_append_right _ hmem))
  obtain ⟨hname, hnames⟩ := Inside.names hinside
  obtain ⟨cs, hcs, hhead⟩ := head?_inside hname n attributes inside ['\n']
  have htext := toList_document n remark name attributes inside
  generalize textOf (.declaration :: ((Branch.element remark name attributes inside).pieces n 0
    ++ [.lineBreak 0])) = text at htext ⊢
  obtain ⟨read, hread, hroot⟩ :=
    readRoot_inside hname hnames text.toList.length n inside hinside ['\n']
  rw [hcs] at htext hroot
  have hbom : text.toList.head? ≠ some (Char.ofNat 0xFEFF) := by
    have hfirst : text.toList.head? = some '<' := htext ▸ rfl
    rw [hfirst]
    decide
  have hdeclaration : skipDeclaration text.toList = some ((textOf (remarkPieces n 0 remark)).toList
      ++ ((textOf (breakPieces n 0)).toList ++ '<' :: cs)) := by
    rw [htext]
    exact skipDeclaration_written _
  have hmisc := skipMisc_document n text.toList.length remark hhead (by simp [htext, declaration])
  have hend : skipMisc (['\n'].length + 1) ['\n'] = some [] := rfl
  rw [readTree, Branch.root?]
  simp only [if_neg hbom, hdeclaration, hmisc, Option.bind_eq_bind, Option.bind_some]
  cases remarkNodes? n 0 remark with
  | none => rfl
  | some _ =>
    simp only [Option.map_some, Option.bind_some, readPrologue_tag hhead, hroot, ← hread]
    cases read <;> rfl

end Markup

/-! ## Space between elements -/

namespace Xml

/-- The node is an element. -/
def Node.isElement : Node → Bool
  | .element _ => true
  | .text _ => false

mutual

/-- An element without the texts of nothing but space that stand beside elements. -/
def Element.dropSpace : Element → Element
  | ⟨offset, pfx, localName, attributes, children⟩ =>
    ⟨offset, pfx, localName, attributes, dropSpaces (children.any Node.isElement) children⟩

/-- Nodes without such texts. There are elements among them or beside them, or there are none. -/
def dropSpaces (besideElements : Bool) : List Node → List Node
  | [] => []
  | node :: rest => node.dropSpace besideElements ++ dropSpaces besideElements rest

/-- A node, unless it is such a text. -/
def Node.dropSpace (besideElements : Bool) : Node → List Node
  | .element e => [.element e.dropSpace]
  | .text text => if besideElements && text.toList.all isSpace then [] else [.text text]

end

theorem dropSpaces_append (besideElements : Bool) (nodes nodes' : List Node) :
    dropSpaces besideElements (nodes ++ nodes')
      = dropSpaces besideElements nodes ++ dropSpaces besideElements nodes' := by
  induction nodes with
  | nil => rfl
  | cons node rest ih =>
    rw [List.cons_append, dropSpaces, dropSpaces, ih, List.append_assoc]

/-- Line breaks between elements are dropped. -/
theorem dropSpaces_break (n level : Nat) : dropSpaces true (breakNodes n level) = [] := by
  have hall : (Markup.Piece.lineBreak (n * level)).toText.toList.all isSpace = true :=
    List.all_eq_true.mpr fun c hc => by
      rcases lineBreak_chars _ c hc with rfl | rfl <;> decide
  rw [breakNodes]
  split
  · rw [dropSpaces, Node.dropSpace, hall]
    rfl
  · rfl

end Xml

namespace Markup

theorem dropSpace_remark (n level : Nat) (remark : Option String) :
    (remarkNodes? n level remark).map (dropSpaces true) = remarkNodes? 0 level remark := by
  cases remark with
  | none => rfl
  | some remark =>
    rw [remarkNodes?, remarkNodes?]
    split
    · exact congrArg some (dropSpaces_break n level)
    · rfl

theorem any_isElement_branch {n level : Nat} {scope : Xml.Scope} {branch : Branch} {nodes : List Node}
    (h : branch.nodes? n level scope = some nodes) : nodes.any Node.isElement = true := by
  obtain ⟨remark, name, attributes, inside⟩ := branch
  obtain ⟨front, -, h⟩ := Option.bind_eq_some_iff.mp h
  obtain ⟨e, -, rfl⟩ := Option.map_eq_some_iff.mp h
  simp [Node.isElement]

theorem any_isElement_branches {n level : Nat} {scope : Xml.Scope} {branches : Branches}
    {nodes : List Node} (h : branches.nodes? n level scope = some nodes) :
    nodes.any Node.isElement = true := by
  cases branches with
  | last branch => exact any_isElement_branch h
  | cons branch rest =>
    obtain ⟨front, hfront, h⟩ := Option.bind_eq_some_iff.mp h
    obtain ⟨back, -, rfl⟩ := Option.map_eq_some_iff.mp h
    rw [List.any_append, any_isElement_branch hfront, Bool.true_or]

mutual

/-- **Without space between elements, it does not matter how they are indented.** -/
theorem Branch.dropSpace (n level : Nat) (scope : Xml.Scope) : ∀ branch : Branch,
    (branch.nodes? n level scope).map (dropSpaces true) = branch.nodes? 0 level scope
  | .element remark name attributes inside => by
    have hremark := dropSpace_remark n level remark
    have hinside := inside.dropSpace n level scope name attributes
    rw [Branch.nodes?, Branch.nodes?, ← hremark, ← hinside]
    cases remarkNodes? n level remark with
    | none => rfl
    | some nodes =>
      cases inside.element? n level scope name attributes with
      | none => rfl
      | some e =>
        simp only [Option.bind_some, Option.map_some, dropSpaces_append, dropSpaces_break]
        rfl

theorem Inside.dropSpace (n level : Nat) (scope : Xml.Scope) (name : String)
    (attributes : List (String × String)) : ∀ inside : Inside,
    (inside.element? n level scope name attributes).map Element.dropSpace
      = inside.element? 0 level scope name attributes
  | .nothing => by
    rw [Inside.element?, Inside.element?, Option.map_map]
    rfl
  | .text value hne => by
    rw [Inside.element?, Inside.element?, Option.map_bind]
    refine congrArg _ (funext fun tag => ?_)
    dsimp only [Function.comp]
    split <;> rfl
  | .branches branches => by
    rw [Inside.element?, Inside.element?, Option.map_bind]
    refine congrArg _ (funext fun tag => ?_)
    have hbranches := branches.dropSpace n (level + 1) (scope.enter tag.attributes)
    rw [Function.comp, ← hbranches]
    cases hnodes : branches.nodes? n (level + 1) (scope.enter tag.attributes) with
    | none => rfl
    | some nodes =>
      have helement := any_isElement_branches hnodes
      simp only [Option.map_some, Tag.element, Element.dropSpace, List.any_append, helement,
        Bool.true_or, dropSpaces_append, dropSpaces_break]
      rfl

theorem Branches.dropSpace (n level : Nat) (scope : Xml.Scope) : ∀ branches : Branches,
    (branches.nodes? n level scope).map (dropSpaces true) = branches.nodes? 0 level scope
  | .last branch => branch.dropSpace n level scope
  | .cons branch rest => by
    have hbranch := branch.dropSpace n level scope
    have hrest := rest.dropSpace n level scope
    rw [Branches.nodes?, Branches.nodes?, ← hbranch, ← hrest]
    cases branch.nodes? n level scope with
    | none => rfl
    | some nodes =>
      cases rest.nodes? n level scope with
      | none => rfl
      | some nodes' => exact congrArg some (dropSpaces_append true nodes nodes')

end

/-- **The compact document is read as the indented one** without the space between elements. -/
theorem readTree_dropSpace (n : Nat) {branch : Branch}
    (hnamed : ∀ piece ∈ branch.pieces 0 0, piece.IsNamed) :
    (readTree (textOf (.declaration :: (branch.pieces n 0 ++ [.lineBreak 0])))).map
        (fun e => e.unplaced.dropSpace)
      = (readTree (textOf (.declaration :: (branch.pieces 0 0 ++ [.lineBreak 0])))).map
        Element.unplaced := by
  have hdrop : (branch.root? n).map Element.dropSpace = branch.root? 0 := by
    obtain ⟨remark, name, attributes, inside⟩ := branch
    rw [Branch.root?, Branch.root?, ← dropSpace_remark n 0 remark]
    cases remarkNodes? n 0 remark with
    | none => rfl
    | some _ => exact inside.dropSpace n 0 [] name attributes
  rw [readTree_branch 0 branch hnamed, ← hdrop, ← readTree_branch n branch hnamed, Option.map_map]
  rfl

end Markup

end Specimen

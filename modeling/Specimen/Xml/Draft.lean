import Specimen.Xml.Namespace

/-!
# Trees that are being read

The tree of a document as far as it has been read: the elements that are open, the nodes before and
inside them, and the attributes that have come since the last tag was complete. A start tag takes
all of these attributes, so those of a tag that breaks off pass to the next one. An end tag closes
the innermost element that is open.
-/

namespace Specimen.Xml

/-- An element that is open: where its start tag begins, its name and attributes, the scope inside
it, and the nodes before it, last one first. -/
structure Opened where
  offset : Nat
  pfx : Option String
  localName : String
  attributes : List Attribute
  scope : Scope
  before : List Node

/-- The element that was open, with its nodes, last one first. -/
def Opened.element (e : Opened) (nodes : List Node) : Element :=
  ⟨e.offset, e.pfx, e.localName, e.attributes, nodes.reverse⟩

/-- A tree that is being read. `nodes` holds those of the innermost open element so far, last one
first, `opened` the open elements, the innermost first, and `attributes` those that have come since
the last tag was complete. -/
structure Draft where
  nodes : List Node := []
  opened : List Opened := []
  attributes : List Attribute := []

/-- The ways in which a start tag may end: it opens an element, it is an element by itself, or the
text ends with it. -/
inductive TagEnd where
  | opens
  | empty
  | breaksOff
deriving DecidableEq, Repr

namespace Draft

/-! ## Text and attributes -/

/-- Adds a text, unless it is empty. -/
def addText (draft : Draft) (text : List Char) : Draft :=
  if text.isEmpty then draft
  else { draft with nodes := .text (String.ofList text) :: draft.nodes }

/-- Adds an attribute, if it may stand behind those before it. -/
def addAttribute (draft : Draft) (a : Attribute) : Option Draft :=
  if a.mayFollow draft.attributes then
    some { draft with attributes := draft.attributes ++ [a] }
  else none

/-! ## Tags -/

/-- The scope inside the innermost open element. -/
def outerScope (draft : Draft) : Scope :=
  match draft.opened with
  | [] => []
  | e :: _ => e.scope

/-- The scope inside a tag with the attributes that have come. -/
def scope (draft : Draft) : Scope := draft.outerScope.enter draft.attributes

/-- The attributes that have come may stand in one tag, and its element may have a name with this
prefix. -/
def isLawful (draft : Draft) (pfx : Option String) : Bool :=
  draft.scope.admits draft.attributes && draft.scope.namesElement pfx

/-- Completes a start tag with the attributes that have come. A tag that breaks off leaves them to
the next one, and its name does not count. -/
def finishTag (draft : Draft) (offset : Nat) (pfx : Option String) (localName : String) :
    TagEnd → Option Draft
  | .breaksOff => some draft
  | .empty =>
    if draft.isLawful pfx then
      some { draft with
        nodes := .element ⟨offset, pfx, localName, draft.attributes, []⟩ :: draft.nodes
        attributes := [] }
    else none
  | .opens =>
    if draft.isLawful pfx then
      some { opened := ⟨offset, pfx, localName, draft.attributes, draft.scope, draft.nodes⟩
        :: draft.opened }
    else none

/-- Closes the innermost open element, which has to have this name. Attributes that have come since
the last tag have to be in order there, and are lost. -/
def close (draft : Draft) (pfx : Option String) (localName : String) : Option Draft :=
  match draft.opened with
  | [] => none
  | e :: outer =>
    if draft.scope.admits draft.attributes && e.pfx == pfx && e.localName == localName then
      some { nodes := .element (e.element draft.nodes) :: e.before, opened := outer }
    else none

/-! ## The end -/

/-- The root: the first element outside of all others, once no element is open. -/
def root? (draft : Draft) : Option Element :=
  if draft.opened.isEmpty then draft.nodes.reverse.findSome? Node.asElement else none

end Draft

end Specimen.Xml

import Specimen.Name.Basic
import Specimen.Writer.Markup

/-!
# Reading tags

A text that is XML is a row of pieces: tags, character data, comments, line breaks. Reading the tags
among them gives the elements with their names in full, where every prefix stands for the namespace
that is declared for it on the tag itself or on the nearest element around it.

A row cannot be read when a name has more than one colon or a prefix that is not declared, when a tag
declares a prefix twice or one that is reserved, or when an end tag has not the name of the innermost
element that is open. A default namespace may be declared, and then elements without a prefix are in
it; attributes without a prefix are in no namespace.
-/

namespace Specimen.Markup

/-! ## Pieces -/

/-- What is put in one go, or between two such things. Names of tags and attributes are given as they
are written, with their prefixes, and declarations are attributes. -/
inductive Piece where
  | lineBreak (spaces : Nat)
  | declaration
  | text (value : String)
  | comment (value : String)
  | startTag (name : String) (attributes : List (String × String))
  | emptyTag (name : String) (attributes : List (String × String))
  | endTag (name : String)
deriving DecidableEq, Repr

namespace Piece

/-- A piece as it is written. -/
def toText : Piece → String
  | .lineBreak spaces => "\n" ++ String.ofList (List.replicate spaces ' ')
  | .declaration => Markup.declaration
  | .text value => escape value
  | .comment value => Markup.comment value
  | .startTag name attributes => Markup.startTag name attributes
  | .emptyTag name attributes => Markup.emptyTag name attributes
  | .endTag name => Markup.endTag name

/-- The attributes of a tag. -/
def attributes : Piece → List (String × String)
  | .startTag _ attributes => attributes
  | .emptyTag _ attributes => attributes
  | _ => []

/-- The default namespace is declared. -/
def DeclaresDefault (piece : Piece) : Prop := ∃ attr ∈ piece.attributes, attr.1 = "xmlns"

end Piece

/-- Pieces as they are written one after another. -/
def textOf (pieces : List Piece) : String := String.join (pieces.map Piece.toText)

@[simp] theorem textOf_nil : textOf [] = "" := rfl

theorem textOf_append (pieces pieces' : List Piece) :
    textOf (pieces ++ pieces') = textOf pieces ++ textOf pieces' := by
  rw [textOf, List.map_append, String.join_append]
  rfl

@[simp] theorem textOf_singleton (piece : Piece) : textOf [piece] = piece.toText := by
  simp [textOf]

/-! ## Names -/

/-- The prefix of a name, empty if there is none, and its local part. -/
def nameParts (name : String) : Option (String × String) :=
  match name.toList.splitOn ':' with
  | [localName] => some ("", String.ofList localName)
  | [pfx, localName] =>
    if pfx = [] then none else some (String.ofList pfx, String.ofList localName)
  | _ => none

/-- **A name that was given a prefix is taken apart again.** -/
theorem nameParts_qualify {pfx name : String} (hpfx : ':' ∉ pfx.toList)
    (hname : ':' ∉ name.toList) : nameParts (qualify pfx name) = some (pfx, name) := by
  rw [nameParts, qualify]
  by_cases hempty : pfx = ""
  · rw [if_pos hempty, List.splitOn_eq_singleton hname, hempty]
    simp
  · have hne : pfx.toList ≠ [] := fun h => hempty (by simpa using h)
    have hlist : (pfx ++ ":" ++ name).toList = pfx.toList ++ ':' :: name.toList := by
      simp [String.toList_append]
    rw [if_neg hempty, hlist, List.splitOn_append_cons_self, List.splitOn_eq_singleton hpfx,
      List.splitOn_eq_singleton hname]
    simp [hne]

/-! ## Attributes and declarations -/

/-- What an attribute is: the declaration of a prefix, where the empty one stands for the default
namespace, or an attribute proper. -/
inductive Item where
  | declares (pfx uri : String)
  | has (pfx name value : String)
deriving DecidableEq, Repr

namespace Item

/-- Reads an attribute. -/
def read (attr : String × String) : Option Item :=
  match nameParts attr.1 with
  | none => none
  | some (pfx, name) =>
    if pfx = "xmlns" then (if name = "" then none else some (.declares name attr.2))
    else if pfx = "" ∧ name = "xmlns" then some (.declares "" attr.2)
    else some (.has pfx name attr.2)

theorem read_declaration {pfx : String} (hcolon : ':' ∉ pfx.toList) (hne : pfx ≠ "")
    (uri : String) : read ("xmlns:" ++ pfx, uri) = some (.declares pfx uri) := by
  have hname : "xmlns:" ++ pfx = qualify "xmlns" pfx := rfl
  have hparts : nameParts (qualify "xmlns" pfx) = some ("xmlns", pfx) :=
    nameParts_qualify (by decide) hcolon
  rw [read, hname, hparts]
  simp [hne]

theorem read_attribute {pfx name : String} (hpfx : ':' ∉ pfx.toList) (hname : ':' ∉ name.toList)
    (hxmlns : pfx ≠ "xmlns") (hdefault : ¬(pfx = "" ∧ name = "xmlns")) (value : String) :
    read (qualify pfx name, value) = some (.has pfx name value) := by
  rw [read, nameParts_qualify hpfx hname]
  simp only [if_neg hxmlns, if_neg hdefault]

/-- The prefix and the URI of a declaration. -/
def declared? : Item → Option (String × String)
  | .declares pfx uri => some (pfx, uri)
  | .has .. => none

/-- The prefix, the local part and the value of an attribute proper. -/
def attribute? : Item → Option (String × String × String)
  | .declares .. => none
  | .has pfx name value => some (pfx, name, value)

end Item

/-! ## Scopes -/

/-- Prefixes and the URIs that they stand for, the nearest declaration first. -/
abbrev Bindings := List (String × String)

/-- Declarations that may stand on one tag: no prefix comes twice, a prefix stands for some
namespace, `xml` and its namespace belong together, and `xmlns` and its namespace are not
declared. -/
def MayDeclare (declared : Bindings) : Prop :=
  (declared.map Prod.fst).Nodup ∧ ∀ d ∈ declared,
    (d.1 ≠ "" → d.2 ≠ "") ∧ (d.1 = "xml" ↔ d.2 = Namespace.xml)
      ∧ d.1 ≠ "xmlns" ∧ d.2 ≠ Namespace.xmlns

instance (declared : Bindings) : Decidable (MayDeclare declared) :=
  inferInstanceAs (Decidable (_ ∧ _))

/-- The URI that a prefix stands for. -/
def Bindings.uri? (scope : Bindings) (pfx : String) : Option String :=
  if pfx = "xml" then some Namespace.xml else scope.lookup pfx

/-- The namespace of an element with this prefix, where an empty URI means none. -/
def Bindings.elementUri? (scope : Bindings) (pfx : String) : Option String :=
  if pfx = "" then some ((scope.lookup "").getD "") else scope.uri? pfx

/-- The namespace of an attribute with this prefix. -/
def Bindings.attributeUri? (scope : Bindings) (pfx : String) : Option String :=
  if pfx = "" then some "" else scope.uri? pfx

/-! ## Elements -/

/-- The start of an element, with its name and the names and values of its attributes, or the end of
one. Each name is the URI of its namespace and its local part. -/
inductive Mark where
  | start (uri name : String) (attributes : List (String × String × String))
  | finish
deriving DecidableEq, Repr

/-- The name of an attribute in full, and its value. -/
def Bindings.attribute? (scope : Bindings) (attr : String × String × String) :
    Option (String × String × String) :=
  (scope.attributeUri? attr.1).map fun uri => (uri, attr.2)

/-- Reads a start tag inside the scope `outer`: what it declares, and the start of its element. -/
def readTag (outer : Bindings) (name : String) (attributes : List (String × String)) :
    Option (Bindings × Mark) := do
  let items ← attributes.mapM Item.read
  let declared := items.filterMap Item.declared?
  let scope : Bindings := declared ++ outer
  let (pfx, localName) ← nameParts name
  let uri ← scope.elementUri? pfx
  let attrs ← (items.filterMap Item.attribute?).mapM scope.attribute?
  if MayDeclare declared then some (declared, .start uri localName attrs) else none

/-- What has been read so far: the starts and ends of elements, and the elements that are open, the
innermost one first, each with its name as it was written and what it declares. -/
structure Reading where
  marks : List Mark := []
  opened : List (String × Bindings) := []
deriving DecidableEq, Repr

namespace Reading

/-- What is declared by the elements that are open. -/
def scope (r : Reading) : Bindings := r.opened.flatMap Prod.snd

/-- Reads a piece. -/
def read (r : Reading) : Piece → Option Reading
  | .startTag name attributes =>
    (readTag r.scope name attributes).map fun (declared, mark) =>
      ⟨r.marks ++ [mark], (name, declared) :: r.opened⟩
  | .emptyTag name attributes =>
    (readTag r.scope name attributes).map fun (_, mark) =>
      ⟨r.marks ++ [mark, .finish], r.opened⟩
  | .endTag name =>
    match r.opened with
    | [] => none
    | (name', _) :: outer => if name = name' then some ⟨r.marks ++ [.finish], outer⟩ else none
  | _ => some r

/-- Reads pieces one after another. -/
def readAll (r : Reading) (pieces : List Piece) : Option Reading := pieces.foldlM read r

theorem readAll_append (r : Reading) (pieces pieces' : List Piece) :
    r.readAll (pieces ++ pieces') = (r.readAll pieces).bind fun r' => r'.readAll pieces' :=
  List.foldlM_append

end Reading

/-- Reading the pieces leads from one state to another, and none of them declares a default
namespace. -/
structure Reads (r : Reading) (pieces : List Piece) (r' : Reading) : Prop where
  readAll_eq : r.readAll pieces = some r'
  noDefault : ∀ piece ∈ pieces, ¬piece.DeclaresDefault

namespace Reads

variable {r r' r'' : Reading} {piece : Piece} {pieces pieces' : List Piece}

theorem nil (r : Reading) : Reads r [] r := ⟨rfl, fun _ hmem => absurd hmem List.not_mem_nil⟩

theorem append (h : Reads r pieces r') (h' : Reads r' pieces' r'') :
    Reads r (pieces ++ pieces') r'' where
  readAll_eq := by rw [Reading.readAll_append, h.readAll_eq, Option.bind_some, h'.readAll_eq]
  noDefault := fun piece hmem => by
    rcases List.mem_append.mp hmem with hmem | hmem
    · exact h.noDefault piece hmem
    · exact h'.noDefault piece hmem

theorem single (h : r.read piece = some r') (hdefault : ∀ attr ∈ piece.attributes, attr.1 ≠ "xmlns") :
    Reads r [piece] r' where
  readAll_eq := by
    rw [Reading.readAll, List.foldlM_cons, h]
    rfl
  noDefault := fun piece' hmem ⟨attr, hattr, hname⟩ => by
    rw [List.mem_singleton.mp hmem] at hattr
    exact hdefault attr hattr hname

/-- A piece that is no tag changes nothing. -/
theorem plain (h : r.read piece = some r) (hattributes : piece.attributes = []) :
    Reads r [piece] r :=
  .single h fun _ hattr => absurd (hattributes ▸ hattr) List.not_mem_nil

end Reads

end Specimen.Markup

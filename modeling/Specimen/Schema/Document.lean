import Specimen.Files.Address
import Specimen.Schema.Declaration
import Specimen.Xml.Place
import Specimen.Xml.Reader

/-!
# Schema documents

A schema document declares components and refers to other documents. An included document without a
target namespace of its own takes that of the document which includes it; an imported one does not.
-/

namespace Specimen

/-- A reference to another document, and the namespace that is offered to it. -/
structure Link where
  address : Address
  target : Option String
deriving DecidableEq, Repr

/-- What a schema document holds. -/
structure SchemaDocument where
  target : Option String
  declarations : List Declaration
  links : List Link

namespace SchemaDocument

/-- The place of an element in a text, with the address of the text if it has one. -/
def place (address : Option Address) (text : String) (offset : Nat) : String :=
  match address with
  | some a => a.text ++ ":" ++ (Xml.placeAt text offset).text
  | none => (Xml.placeAt text offset).text

/-- The settings of a document, from its root, the namespace that is offered to it, and how places
are reported. -/
def setting (root : SchemaTag) (offered : Option String) (place : Nat → String) : DocumentSetting :=
  let own := (root.attr? "targetNamespace").filter (· ≠ "")
  { target := own.or offered
    isAdopted := own.isNone && offered.isSome
    elementForm := ((root.attr? "elementFormDefault").bind Form.ofName?).getD .unqualified
    attributeForm := ((root.attr? "attributeFormDefault").bind Form.ofName?).getD .unqualified
    place }

/-- The reference to another document that an element makes, if it makes one. -/
def link? (s : DocumentSetting) (address : Option Address) (tag : SchemaTag) : Option Link :=
  if tag.name = "include" || tag.name = "redefine" || tag.name = "import" then
    (tag.attr? "schemaLocation").map fun location =>
      ⟨Address.resolve address location, if tag.name = "import" then none else s.target⟩
  else none

/-- Reads what the elements of a document declare, in their order. -/
def readAll (s : DocumentSetting) : List SchemaNode → Except Error (List Declaration)
  | [] => .ok []
  | node :: rest => do
    let declaration ← readDeclaration s node
    return declaration.toList ++ (← readAll s rest)

/-- Reads a document from the tree of its elements. -/
def ofTree (address : Option Address) (offered : Option String) (place : Nat → String)
    (root : Xml.Element) : Except Error SchemaDocument :=
  match SchemaNode.ofElement? [] root with
  | none => .error (.ofCause (.notSchema root.localName))
  | some node =>
    if node.tag.name ≠ "schema" then .error (.ofCause (.notSchema root.localName))
    else do
      let s := setting node.tag offered place
      let declarations ← readAll s node.children
      let links := node.children.filterMap fun child => link? s address child.tag
      return ⟨s.target, declarations, links⟩

/-- Reads a document from its text. -/
def read (address : Option Address) (offered : Option String) (text : String) :
    Except Error SchemaDocument :=
  match Xml.readTree text with
  | none => .error (.parse ⟨.malformed, address.map Address.text, none⟩)
  | some root => ofTree address offered (place address text) root

end SchemaDocument

end Specimen

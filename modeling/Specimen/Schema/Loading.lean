import Specimen.Files.Basic
import Specimen.Schema.Document
import Specimen.Schema.Model

/-!
# Loading schemas

A schema is loaded from a main document and all documents that can be reached from it. The
references are followed in the order in which they are met, and each file is read once, whatever the
addresses by which it is referred to. Every file that is read leaves one file fewer to read, so the
loading ends however the documents refer to each other.
-/

namespace Specimen

/-- How far the loading has come: the model, the elements that take the type of their head, and the
files that have been read, in their order. -/
structure Loading where
  model : Model := .builtin
  untyped : List QName := []
  read : List FileName := []

namespace Loading

/-! ## Documents -/

/-- Registers a declaration. -/
def register (l : Loading) : Declaration → Loading
  | .element decl inheritsType =>
    { l with
      model := l.model.addElement decl
      untyped := if inheritsType then l.untyped ++ [decl.name] else l.untyped }
  | .type name definition => { l with model := l.model.addNamedType name definition }
  | .attr decl => { l with model := l.model.addAttribute decl }
  | .attributeGroup name group => { l with model := l.model.addNamedAttributeGroup name group }
  | .group name group => { l with model := l.model.addGroup name group }

/-- Registers what a document declares. -/
def enter (l : Loading) (document : SchemaDocument) : Loading :=
  document.declarations.foldl register l

theorem read_register (l : Loading) (declaration : Declaration) :
    (l.register declaration).read = l.read := by
  cases declaration <;> rfl

/-- To register what a document declares reads no further file. -/
theorem read_enter (l : Loading) (document : SchemaDocument) :
    (l.enter document).read = l.read := by
  unfold enter
  induction document.declarations generalizing l with
  | nil => rfl
  | cons declaration rest ih => rw [List.foldl_cons, ih, read_register]

/-- Follows references, the first one first, and those of the documents read on the way behind them.
-/
def follow (fs : Files) (l : Loading) (links : List Link) : Except Error Loading :=
  match links with
  | [] => .ok l
  | link :: rest =>
    match _found : fs.read link.address with
    | .error fault => .error (.resource (.unreadable link.address.text fault))
    | .ok (name, text) =>
      if _known : l.read.contains name then follow fs l rest
      else
        match SchemaDocument.read (some link.address) link.target text with
        | .error e => .error e
        | .ok document =>
          follow fs (enter { l with read := l.read ++ [name] } document) (rest ++ document.links)
termination_by (fs.unread l.read, links.length)
decreasing_by
  · exact Prod.Lex.right _ (by simp)
  · refine Prod.Lex.left _ _ ?_
    rw [read_enter]
    exact Files.unread_append_lt (Files.mem_of_read _found) (by simpa using _known)

/-! ## Types of substitutes -/

/-- The longest chain of heads that is followed for a type. -/
def chainLimit : Nat := 64

/-- The type of the first element in a chain of heads that has one of its own. -/
def headType (m : Model) (untyped : List QName) : Nat → Option QName → Option TypeRef
  | 0, _ => none
  | steps + 1, head => do
    let decl ← m.elements.get? (← head)
    if untyped.contains decl.name then headType m untyped steps decl.head else some decl.type

/-- Gives an element the type of its head, if there is one. The declaration keeps its number. -/
def inheritType (untyped : List QName) (m : Model) (name : QName) : Model :=
  match m.elements.get? name with
  | none => m
  | some decl =>
    match headType m untyped chainLimit decl.head with
    | none => m
    | some type => { m with elements := m.elements.insert decl.name { decl with type } }

/-- The model, with the types of substitutes filled in. -/
def finish (l : Loading) : Model := l.untyped.foldl (inheritType l.untyped) l.model

/-! ## Schemas -/

/-- Enters the main document and follows its references. -/
def main (fs : Files) (read : List FileName) (document : SchemaDocument) : Except Error Loading :=
  let l := ({ read } : Loading).enter document
  follow fs { l with model := { l.model with target := document.target } } document.links

end Loading

namespace Model

/-- Loads the schema that a text holds. -/
def ofText (fs : Files) (text : String) : Except Error Model := do
  let document ← SchemaDocument.read none none text
  return (← Loading.main fs [] document).finish

/-- Loads the schema that a file holds. -/
def ofFile (fs : Files) (address : Address) : Except Error Model :=
  match fs.read address with
  | .error fault => .error (.resource (.unreadable address.text fault))
  | .ok (name, text) => do
    let document ← SchemaDocument.read (some address) none text
    return (← Loading.main fs [name] document).finish

end Model

end Specimen

import Specimen.Text.Blank
import Specimen.Xml.Namespace

/-!
# Elements of the schema language

A schema document holds its declarations in elements of the namespace of the schema language. Other
elements, and all text, are comments to it. What is kept of an element is its local name, its
attributes without a prefix, the namespaces in scope, and where it stands.
-/

namespace Specimen

/-- The tag of an element of the schema language. -/
structure SchemaTag where
  name : String
  attributes : List (String × String)
  scope : Xml.Scope
  offset : Nat
deriving Repr

/-- An element of the schema language with those directly inside it. -/
structure SchemaNode where
  tag : SchemaTag
  children : List SchemaNode

namespace SchemaTag

/-- The value of an attribute, if it is given. -/
def attr? (tag : SchemaTag) (name : String) : Option String := tag.attributes.lookup name

/-- An attribute is given as true. -/
def isTrue (value : Option String) : Bool :=
  match value.map Text.trim with
  | some "true" | some "1" => true
  | _ => false

/-- An attribute that is false unless it is given as true. -/
def flag (tag : SchemaTag) (name : String) : Bool := isTrue (tag.attr? name)

/-- The tag of an element, in the scope inside it. -/
def ofElement (scope : Xml.Scope) (e : Xml.Element) : SchemaTag where
  name := e.localName
  attributes :=
    ((Xml.plainOf e.attributes).filter fun a => a.pfx.isNone).map fun a => (a.localName, a.value)
  scope
  offset := e.offset

end SchemaTag

mutual

/-- The element, if it is one of the schema language. -/
def SchemaNode.ofElement? (scope : Xml.Scope) : Xml.Element → Option SchemaNode
  | ⟨offset, pfx, localName, attributes, children⟩ =>
    let e : Xml.Element := ⟨offset, pfx, localName, attributes, []⟩
    let inner := scope.enter attributes
    if inner.uri? pfx = some Namespace.xsd then
      some ⟨.ofElement inner e, SchemaNode.ofNodes inner children⟩
    else none

/-- The elements of the schema language in a list of nodes. -/
def SchemaNode.ofNodes (scope : Xml.Scope) : List Xml.Node → List SchemaNode
  | [] => []
  | node :: rest => (SchemaNode.ofNode? scope node).toList ++ SchemaNode.ofNodes scope rest

/-- The element, if the node is one of the schema language. -/
def SchemaNode.ofNode? (scope : Xml.Scope) : Xml.Node → Option SchemaNode
  | .element e => SchemaNode.ofElement? scope e
  | .text _ => none

end

end Specimen

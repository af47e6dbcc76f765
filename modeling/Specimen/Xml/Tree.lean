/-!
# Trees of XML elements

What is left of a document once it has been read: its elements with their attributes, and the
character data between them. Names are kept as they are written, with their prefixes, and namespace
declarations are attributes like any other. What they mean is settled in `Specimen.Xml.Namespace`.
-/

namespace Specimen.Xml

/-- An attribute: its name as it is written, and its value after normalisation. -/
structure Attribute where
  pfx : Option String
  localName : String
  value : String
deriving DecidableEq, Repr, Inhabited

mutual

/-- An element. `offset` is the number of characters of the document before the element. -/
structure Element where
  offset : Nat
  pfx : Option String
  localName : String
  attributes : List Attribute
  children : List Node

/-- What stands between the tags of an element. -/
inductive Node where
  | element (element : Element)
  | text (text : String)

end

instance : Inhabited Element := ⟨⟨0, none, "", [], []⟩⟩

instance : Inhabited Node := ⟨.text ""⟩

mutual

/-- Whether two elements are the same. -/
def Element.decEq : (e e' : Element) → Decidable (e = e')
  | ⟨offset, pfx, localName, attributes, children⟩,
    ⟨offset', pfx', localName', attributes', children'⟩ =>
    have := decEqNodes children children'
    decidable_of_decidable_of_iff (p := offset = offset' ∧ pfx = pfx' ∧ localName = localName'
      ∧ attributes = attributes' ∧ children = children') (Element.mk.injEq .. ▸ Iff.rfl)

/-- Whether two rows of nodes are the same. -/
def decEqNodes : (nodes nodes' : List Node) → Decidable (nodes = nodes')
  | [], [] => isTrue rfl
  | [], _ :: _ => isFalse nofun
  | _ :: _, [] => isFalse nofun
  | node :: rest, node' :: rest' =>
    have := Node.decEq node node'
    have := decEqNodes rest rest'
    decidable_of_decidable_of_iff (p := node = node' ∧ rest = rest') (List.cons.injEq .. ▸ Iff.rfl)

/-- Whether two nodes are the same. -/
def Node.decEq : (node node' : Node) → Decidable (node = node')
  | .element e, .element e' =>
    have := Element.decEq e e'
    decidable_of_decidable_of_iff (p := e = e') (Node.element.injEq .. ▸ Iff.rfl)
  | .text text, .text text' =>
    decidable_of_decidable_of_iff (p := text = text') (Node.text.injEq .. ▸ Iff.rfl)
  | .element _, .text _ => isFalse nofun
  | .text _, .element _ => isFalse nofun

end

instance : DecidableEq Element := Element.decEq

instance : DecidableEq Node := Node.decEq

/-- The element, if the node is one. -/
def Node.asElement : Node → Option Element
  | element e => some e
  | text _ => none

namespace Element

/-- The elements directly inside an element. -/
def elements (e : Element) : List Element := e.children.filterMap Node.asElement

/-- The value of the attribute that is written with this name and without a prefix. -/
def attr? (e : Element) (name : String) : Option String :=
  (e.attributes.find? fun a => a.pfx.isNone && a.localName == name).map Attribute.value

end Element

end Specimen.Xml

import Specimen.Schema.Component

/-!
# Paths

The chain of what is being generated, from the root element down. It tells how often a declaration
has been entered, and so where a recursive schema has to be cut off, and which wildcard is that of
the attributes of the type around it. Declarations and wildcards are told apart by their numbers.
-/

namespace Specimen

/-- Something that is being generated. A complex type stands with the attribute wildcard in effect.
-/
inductive PathNode where
  | element (decl : ElementDecl)
  | complexType (type : ComplexType) (wildcard : Option Wildcard)
  | group (compositor : Compositor)
  | attribute (name : QName)
  | wildcard (wildcard : Wildcard)

/-- What is being generated, the innermost first. -/
structure Path where
  nodes : List PathNode := []

namespace Path

/-- The path of a document that has not been begun. -/
def empty : Path := ⟨[]⟩

/-- Goes down to a node. -/
def push (p : Path) (node : PathNode) : Path := ⟨node :: p.nodes⟩

/-- Goes back from the innermost node. -/
def pop (p : Path) : Option PathNode × Path := (p.nodes.head?, ⟨p.nodes.tail⟩)

/-- The number of nodes. -/
def length (p : Path) : Nat := p.nodes.length

/-- The path without a node. -/
def isEmpty (p : Path) : Bool := p.nodes.isEmpty

/-- The innermost node. -/
def current (p : Path) : Option PathNode := p.nodes[0]?

/-- The node around the innermost one. -/
def parent (p : Path) : Option PathNode := p.nodes[1]?

/-- The element of a node, if it is one. -/
def elementOf : PathNode → Option ElementDecl
  | .element decl => some decl
  | _ => none

/-- The elements, the innermost first. -/
def elements (p : Path) : List ElementDecl := p.nodes.filterMap elementOf

/-- How often a declaration stands on the path. -/
def recursionDepth (p : Path) (decl : ElementDecl) : Nat :=
  p.elements.countP fun other => other.id == decl.id

/-- The number of elements. -/
def elementDepth (p : Path) : Nat := p.elements.length

/-- The innermost element. -/
def nearestElement (p : Path) : Option ElementDecl := p.elements.head?

/-- The innermost node is the attribute wildcard of the complex type directly around it. -/
def isAttributeWildcard (p : Path) : Bool :=
  match p.current, p.parent with
  | some (.wildcard w), some (.complexType _ (some own)) => w.id == own.id
  | _, _ => false

end Path

end Specimen

import Specimen.Name.Basic
import Specimen.Xml.Tree

/-!
# Namespaces of a document

An attribute with the prefix `xmlns` declares its local name as a prefix, for an element and
everything inside it. Any other attribute with the local name `xmlns`, whatever its prefix, declares
the namespace of names without a prefix. A scope lists the declarations that are in force at a
place, and an inner declaration comes before an outer one.

A tag keeps to the rules of namespaces when every prefix in its names is declared, no two of its
attributes have the same name, and the reserved prefixes and URIs are not declared for anything
else. The prefix `xml` belongs to attributes: there it stands for its namespace without being
declared, and a declaration of it changes nothing.
-/

namespace Specimen.Xml

/-! ## Declarations -/

/-- A declaration: the prefix, or none for the namespace of names without a prefix, and the URI. An
empty URI stands for no namespace. -/
structure Binding where
  pfx : Option String
  uri : String
deriving DecidableEq, Repr

/-- A declaration that the reserved prefixes and URIs permit. -/
def Binding.isLawful (b : Binding) : Bool :=
  b.uri != Namespace.xmlns && ((b.uri == Namespace.xml) == (b.pfx == some "xml"))

/-- The declaration that an attribute is, if it is one. -/
def Attribute.binding? (a : Attribute) : Option Binding :=
  if a.pfx = some "xmlns" then some ⟨some a.localName, a.value⟩
  else if a.localName = "xmlns" then some ⟨none, a.value⟩
  else none

/-- The declarations among attributes that have an effect. -/
def bindingsOf (attributes : List Attribute) : List Binding :=
  (attributes.filterMap Attribute.binding?).filter fun b => b.pfx != some "xml"

/-- The attributes that declare no namespace. -/
def plainOf (attributes : List Attribute) : List Attribute :=
  attributes.filter fun a => a.binding?.isNone

/-- An attribute may stand behind others in a tag as far as it is a declaration: it is a lawful one,
and does not declare a prefix anew. The namespace of names without a prefix may be declared again,
and the first declaration counts. -/
def Attribute.mayFollow (a : Attribute) (before : List Attribute) : Bool :=
  match a.binding? with
  | none => true
  | some b => b.isLawful && (b.pfx.isNone || (bindingsOf before).all fun c => c.pfx != b.pfx)

/-! ## Scopes -/

/-- No item of a list comes twice. -/
def allDistinct {α : Type} [BEq α] : List α → Bool
  | [] => true
  | a :: rest => !rest.contains a && allDistinct rest

/-- The declarations in force at a place, the nearest first. -/
abbrev Scope := List Binding

namespace Scope

/-- The scope inside an element with these attributes. -/
def enter (scope : Scope) (attributes : List Attribute) : Scope := bindingsOf attributes ++ scope

/-- The URI that a prefix, or its absence, stands for. -/
def uri? (scope : Scope) (pfx : Option String) : Option String :=
  (scope.find? fun b => b.pfx == pfx).map Binding.uri

/-- The URI of the namespace that the name of an attribute is in. A name without a prefix is in no
namespace. -/
def attributeUri? (scope : Scope) (a : Attribute) : Option String :=
  if a.pfx = some "xml" then some Namespace.xml
  else a.pfx.bind fun pfx => scope.uri? (some pfx)

/-- The name of an element may be used: its prefix, if there is one, is declared. -/
def namesElement (scope : Scope) (pfx : Option String) : Bool :=
  pfx.isNone || (scope.uri? pfx).isSome

/-- Attributes may stand in one tag as far as they declare nothing: every prefix is declared, and no
two of them have the same local name in the same namespace. -/
def admits (scope : Scope) (attributes : List Attribute) : Bool :=
  let plain := plainOf attributes
  plain.all (fun a => a.pfx.isNone || (scope.attributeUri? a).isSome)
    && allDistinct (plain.map fun a => (scope.attributeUri? a, a.localName))

end Scope

end Specimen.Xml

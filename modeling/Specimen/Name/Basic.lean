/-!
# Expanded names

A name is a local part together with the URI of its namespace, or with none. Names are compared by
URI and local part; the prefix under which a document writes a name is no part of it.
-/

namespace Specimen

/-! ## Well-known namespaces -/

namespace Namespace

/-- The namespace of the schema language and its built-in types. -/
def xsd : String := "http://www.w3.org/2001/XMLSchema"

/-- The namespace of the marker attribute `xsi:type`. -/
def xsi : String := "http://www.w3.org/2001/XMLSchema-instance"

/-- The namespace that the prefix `xml` always stands for. -/
def xml : String := "http://www.w3.org/XML/1998/namespace"

/-- The namespace of namespace declarations, which no document may bind. -/
def xmlns : String := "http://www.w3.org/2000/xmlns/"

end Namespace

/-! ## Names -/

/-- A name: the URI of its namespace, if it has one, and its local part. -/
structure QName where
  uri : Option String
  localName : String
deriving DecidableEq, Repr, Inhabited

namespace QName

/-- The name with a local part in a namespace, where an empty URI stands for no namespace. -/
def make (uri : Option String) (localName : String) : QName :=
  ⟨uri.filter (· ≠ ""), localName⟩

/-- A name in no namespace. -/
def bare (localName : String) : QName := ⟨none, localName⟩

/-- A name in the namespace `uri`, or in none when `uri` is empty. -/
def qualified (uri localName : String) : QName := make (some uri) localName

/-- A name in the namespace of the schema language. -/
def xsd (localName : String) : QName := ⟨some Namespace.xsd, localName⟩

/-- The URI of the namespace, empty for none. -/
def namespaceUri (name : QName) : String := name.uri.getD ""

/-- A name in the namespace of the schema language. -/
def isXsd (name : QName) : Bool := name.uri == some Namespace.xsd

/-- The name as it is printed: the URI in braces, if there is one, and the local part. -/
def clark (name : QName) : String :=
  match name.uri with
  | some uri => "\x7b" ++ uri ++ "\x7d" ++ name.localName
  | none => name.localName

theorem make_uri_ne (uri : Option String) (localName : String) :
    (make uri localName).uri ≠ some "" := by
  cases uri with
  | none => simp [make]
  | some uri => by_cases h : uri = "" <;> simp [make, Option.filter, h]

end QName

end Specimen

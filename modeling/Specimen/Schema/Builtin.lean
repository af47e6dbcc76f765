import Specimen.Schema.Component

/-!
# Built-in types

The simple types that every schema knows, with what they are derived from and the facets they bring
along, and the type of elements that may hold anything. A type of the user that is derived from one
of them inherits these facets.
-/

namespace Specimen

/-! ## The table -/

/-- A built-in simple type: the local names of the type, of its base and, for a list, of its items,
and the bounds it brings along. -/
structure BuiltinType where
  name : String
  base : Option String
  item : Option String := none
  facets : List Facet := []
deriving DecidableEq, Repr

namespace BuiltinType

/-- The built-in types derived from `base` without facets of their own. -/
def family (base : String) (names : List String) : List BuiltinType :=
  names.map fun name => ⟨name, some base, none, []⟩

/-- A list type with items of one type. -/
def listOf (name item : String) : BuiltinType := ⟨name, some "anySimpleType", some item, []⟩

/-- A type with a lower and an upper bound, either of which may be missing. -/
def bounded (name base : String) (min max : Option String) : BuiltinType :=
  ⟨name, some base, none,
    min.toList.map (Facet.bound .minInclusive) ++ max.toList.map (Facet.bound .maxInclusive)⟩

/-- The types of texts, each after its base. -/
def texts : List BuiltinType :=
  family "anySimpleType" ["string"] ++ family "string" ["normalizedString"]
    ++ family "normalizedString" ["token"] ++ family "token" ["language", "Name", "NMTOKEN"]
    ++ family "Name" ["NCName"] ++ family "NCName" ["ID", "IDREF", "ENTITY"]

/-- The types whose values are lists. -/
def lists : List BuiltinType :=
  [listOf "NMTOKENS" "NMTOKEN", listOf "IDREFS" "IDREF", listOf "ENTITIES" "ENTITY"]

/-- The types that are derived from no other but the one that all come from. -/
def primitives : List BuiltinType :=
  family "anySimpleType"
    ["boolean", "decimal", "float", "double", "duration", "dateTime", "time", "date", "gYearMonth",
     "gYear", "gMonthDay", "gDay", "gMonth", "hexBinary", "base64Binary", "anyURI", "QName",
     "NOTATION"]

/-- The types of whole numbers, each after its base. -/
def integers : List BuiltinType :=
  [⟨"integer", some "decimal", none, [.count .fractionDigits 0]⟩,
   bounded "nonPositiveInteger" "integer" none (some "0"),
   bounded "negativeInteger" "nonPositiveInteger" none (some "-1"),
   bounded "long" "integer" (some "-9223372036854775808") (some "9223372036854775807"),
   bounded "int" "long" (some "-2147483648") (some "2147483647"),
   bounded "short" "int" (some "-32768") (some "32767"),
   bounded "byte" "short" (some "-128") (some "127"),
   bounded "nonNegativeInteger" "integer" (some "0") none,
   bounded "unsignedLong" "nonNegativeInteger" none (some "18446744073709551615"),
   bounded "unsignedInt" "unsignedLong" none (some "4294967295"),
   bounded "unsignedShort" "unsignedInt" none (some "65535"),
   bounded "unsignedByte" "unsignedShort" none (some "255"),
   bounded "positiveInteger" "nonNegativeInteger" (some "1") none]

/-- Every built-in simple type, each after its base. -/
def all : List BuiltinType :=
  [⟨"anySimpleType", none, none, []⟩] ++ texts ++ lists ++ primitives ++ integers

/-- The built-in simple type with a local name. -/
def get? (name : String) : Option BuiltinType := all.find? fun type => type.name == name

/-- The definition of a built-in type. -/
def definition (type : BuiltinType) : SimpleType where
  name := some (QName.xsd type.name)
  base := type.base.map TypeRef.builtin
  variety := match type.item with
    | some item => .list (.builtin item)
    | none => .atomic
  facets := type.facets.foldl FacetSet.push .empty

end BuiltinType

/-- The type of an element without a type: any elements with text between them, and any
attributes. -/
def anyType : ComplexType where
  name := some (QName.xsd "anyType")
  isAbstract := false
  content := .mixed ⟨.zeroOrMore, .any ⟨0, .any⟩⟩
  attributes := []
  wildcard := some ⟨0, .any⟩
  derivation := none

/-! ## What the values of a built-in type are made of -/

/-- How the values of a type are made up, given the built-in type it comes from. -/
inductive BuiltinKind where
  | boolean
  | numeric
  | date
  | time
  | dateTime
  | other
deriving DecidableEq, Repr

namespace BuiltinKind

/-- The endings, in lower case, of the names of the types of whole numbers. -/
def integerEndings : List String := ["integer", "int", "long", "short", "byte"]

/-- A type of numbers: the names of the real types, in any case, and all names that end like one of
the types of whole numbers. -/
def isNumericName (name : String) : Bool :=
  let lower := name.toList.map Char.toLower
  ["double", "decimal", "float"].any (fun real => real.toList == lower)
    || integerEndings.any fun ending => ending.toList.isSuffixOf lower

/-- The kind of a built-in type, by its local name. -/
def ofName (name : String) : BuiltinKind :=
  match name with
  | "boolean" => boolean
  | "date" => date
  | "time" => time
  | "dateTime" => dateTime
  | _ => if isNumericName name then numeric else other

end BuiltinKind

end Specimen

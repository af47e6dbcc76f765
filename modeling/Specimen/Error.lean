import Specimen.Name.Basic
import Specimen.Schema.FacetKind

/-!
# What can go wrong

Every failure is named by its cause. The words in which it is reported are chosen in one place, the
functions `message` of this module, and no other part of the library depends on them.
-/

namespace Specimen

/-! ## Schemas that allow no document -/

/-- The kinds of named components of a schema. -/
inductive ComponentKind where
  | element
  | type
  | attr
  | group
  | attrGroup
deriving DecidableEq, Repr

/-- The name of a kind of component. -/
def ComponentKind.name : ComponentKind → String
  | element => "element"
  | type => "type"
  | attr => "attribute"
  | group => "group"
  | attrGroup => "attribute group"

/-- How a type is named in a report; a type declared in place has no name. -/
def typeLabel : Option QName → String
  | some name => name.clark
  | none => "(anonymous)"

/-- Why the shape of a schema allows no document, or no answer about a type. -/
inductive ShapeFault where
  | unknown (kind : ComponentKind) (name : QName)
  | unnamedType
  | unnamedAttributeGroup
  | noSimpleContent (type : Option QName)
  | circular (type : Option QName)
  | circularModelGroup
  | noBuiltinAncestor (type : Option QName)
  | noSubstitute (element : QName)
  | anonymousAbstract
  | noConcreteSubtype (type : QName)
  | nestedTooDeep (hint : String)
  | badBound (kind : FacetKind) (value : String)
deriving DecidableEq, Repr

/-- The words for a fault of shape. -/
def ShapeFault.message : ShapeFault → String
  | unknown kind name => "unknown " ++ kind.name ++ " " ++ name.clark
  | unnamedType => "global type without a name"
  | unnamedAttributeGroup => "attribute group without a name"
  | noSimpleContent type => "type " ++ typeLabel type ++ " has no simple content"
  | circular type => "circular definition involving " ++ typeLabel type
  | circularModelGroup => "circular definition involving a model group"
  | noBuiltinAncestor type => "simple type " ++ typeLabel type ++ " has no built-in ancestor"
  | noSubstitute element =>
    "abstract element " ++ element.clark ++ " has no substitution group members"
  | anonymousAbstract => "anonymous abstract complex type has no subtypes"
  | noConcreteSubtype type => "abstract type " ++ type.clark ++ " has no concrete subtypes"
  | nestedTooDeep hint => "list or union nesting too deep while generating '" ++ hint ++ "'"
  | badBound kind value => "invalid " ++ kind.name ++ " facet value '" ++ value ++ "'"

/-! ## Schema documents that cannot be read -/

/-- Why a schema document cannot be read. -/
inductive ParseCause where
  | stated (text : String)
  | malformed
  | notSchema (root : String)
  | unknownPrefix (pfx : String)
  | missingAttribute (element attr : String)
  | noDerivation (element : String)
  | noBaseType (element attr : String)
  | noVariety
  | noMemberTypes
  | badMinOccurs
  | badMaxOccurs
  | maxBelowMin
  | minAboveOne
  | badUseMode (value : String)
  | fixedAndDefault
  | badCount (kind : FacetKind)
  | badNamespaceKeyword (word : String)
deriving DecidableEq, Repr

/-- The words for a reason not to read a document. -/
def ParseCause.message : ParseCause → String
  | stated text => text
  | malformed => "malformed schema document"
  | notSchema root => "Expected xs:schema root element, got " ++ root
  | unknownPrefix pfx => "unknown namespace prefix '" ++ pfx ++ "'"
  | missingAttribute element attr =>
    "xs:" ++ element ++ " missing '" ++ attr ++ "' attribute"
  | noDerivation element => "xs:" ++ element ++ " without extension or restriction"
  | noBaseType element attr =>
    "xs:" ++ element ++ " needs '" ++ attr ++ "' or an inline simple type"
  | noVariety => "xs:simpleType without restriction, list or union"
  | noMemberTypes => "xs:union without member types"
  | badMinOccurs => "minOccurs value is not a valid non-negative integer"
  | badMaxOccurs => "maxOccurs value must be a non-negative integer or 'unbounded'"
  | maxBelowMin => "maxOccurs must be 'unbounded' or greater than minOccurs"
  | minAboveOne => "minOccurs must be lesser or equal than maxOccurs"
  | badUseMode value =>
    "Invalid attribute use value: '" ++ value
      ++ "'. Must be 'optional', 'required', or 'prohibited'"
  | fixedAndDefault => "'default' and 'fixed' attributes are mutually exclusive"
  | badCount kind => kind.name ++ " must be a non-negative integer"
  | badNamespaceKeyword word => "wrong value '" ++ word ++ "' in 'namespace' attribute"

/-- A reason not to read a document, with the place it was found at and the text it is about, where
they are known. -/
structure ParseError where
  cause : ParseCause
  location : Option String := none
  source : Option String := none
deriving DecidableEq, Repr

namespace ParseError

/-- The report: the reason, then the place, then the text. -/
def message (e : ParseError) : String :=
  e.cause.message
    ++ (match e.location with | some place => "\n\nLocation: " ++ place | none => "")
    ++ (match e.source with | some text => "\n\nSource:\n" ++ text | none => "")

/-- Adds the place, unless one is known already. -/
def locate (place : String) (e : ParseError) : ParseError :=
  match e.location with
  | some _ => e
  | none => { e with location := some place }

end ParseError

/-! ## Files, policies and writers -/

/-- Why the file system refuses a path. -/
inductive FileFault where
  | notFound
  | isDirectory
  | notDirectory
deriving DecidableEq, Repr

/-- The words and the number that the operating system has for a refusal. -/
def FileFault.message : FileFault → String
  | notFound => "No such file or directory (os error 2)"
  | isDirectory => "Is a directory (os error 21)"
  | notDirectory => "Not a directory (os error 20)"

/-- Why a setting given by the user is refused. -/
inductive ConfigFault where
  | badName (name : String)
  | badPolicy
  | badTriState (word : String)
  | unreadable (path : String) (fault : FileFault)
  | reversedElements (min max : Nat)
  | reversedListItems (min max : Nat)
deriving DecidableEq, Repr

/-- The words for a refused setting. -/
def ConfigFault.message : ConfigFault → String
  | badName name => "Invalid NCName: '" ++ name ++ "'"
  | badPolicy => "invalid policy"
  | badTriState word =>
    "invalid policy: invalid tri-state '" ++ word ++ "', expected always, never or random"
  | unreadable path fault => "cannot read " ++ path ++ ": " ++ fault.message
  | reversedElements min max =>
    "minElements (" ++ toString min ++ ") exceeds maxElements (" ++ toString max ++ ")"
  | reversedListItems min max =>
    "minListItems (" ++ toString min ++ ") exceeds maxListItems (" ++ toString max ++ ")"

/-- Why a schema file is not loaded. -/
inductive ResourceFault where
  | unreadable (path : String) (fault : FileFault)
  | noSuchSchema (path : String) (fault : FileFault)
deriving DecidableEq, Repr

/-- The words for a schema file that is not loaded. -/
def ResourceFault.message : ResourceFault → String
  | unreadable path fault => "cannot read " ++ path ++ ": " ++ fault.message
  | noSuchSchema path fault => "cannot open schema '" ++ path ++ "': " ++ fault.message

/-- Why a writer refuses a call. -/
inductive WriteFault where
  | refused (reason : String)
  | attributeOutsideTag (name : String)
  | unmatchedEnd
  | unclosed (name : String)
deriving DecidableEq, Repr

/-- The words for a refused call. -/
def WriteFault.message : WriteFault → String
  | refused reason => reason
  | attributeOutsideTag name => "attribute '" ++ name ++ "' outside of a start tag"
  | unmatchedEnd => "end of element without a matching start"
  | unclosed name => "element '" ++ name ++ "' is not closed"

/-- States that a well-formed schema never leads to. -/
inductive InvariantFault where
  | outsideElement
  | unnamedSubstitute
  | emptyNamespaceList
deriving DecidableEq, Repr

/-- The words for a broken invariant. -/
def InvariantFault.message : InvariantFault → String
  | outsideElement => "complex type visited outside of an element"
  | unnamedSubstitute => "substituted type has no name"
  | emptyNamespaceList => "wildcard with an empty namespace list"

/-! ## All of them -/

/-- A failure of the library. `endless` is the outcome for a model group that contains itself and
whose document has no end. -/
inductive Error where
  | rootNotFound (root : QName)
  | shape (fault : ShapeFault)
  | parse (error : ParseError)
  | config (fault : ConfigFault)
  | resource (fault : ResourceFault)
  | write (fault : WriteFault)
  | xml (reason : String)
  | sink (reason : String)
  | invariant (fault : InvariantFault)
  | endless
deriving DecidableEq, Repr

namespace Error

/-- The report of a failure. -/
def message : Error → String
  | rootNotFound root => "element " ++ root.clark ++ " is not found"
  | shape fault => "schema error: " ++ fault.message
  | parse error => "parse error: " ++ error.message
  | config fault => "configuration error: " ++ fault.message
  | resource fault => "resource error: " ++ fault.message
  | write fault => "write error: " ++ fault.message
  | xml reason => "XML error: I/O error: " ++ reason
  | sink reason => "I/O error: " ++ reason
  | invariant fault => "internal invariant violated: " ++ fault.message
  | endless => "a model group contains itself without end"

/-- A parse error without place or text. -/
def ofCause (cause : ParseCause) : Error := parse ⟨cause, none, none⟩

/-- Adds the place to a parse error that has none yet; other failures stay as they are. -/
def locate (place : String) : Error → Error
  | parse e => parse (e.locate place)
  | other => other

end Error

/-! ## Computations that may fail -/

section

variable {ε α β : Type} {x : Except ε α}

/-- What a computation of two steps comes to, each of the steps came to. -/
theorem exists_of_bind_eq_ok {f : α → Except ε β} {b : β} (h : x >>= f = .ok b) :
    ∃ a, x = .ok a ∧ f a = .ok b := by
  cases x with
  | error e => cases h
  | ok a => exact ⟨a, rfl, h⟩

theorem exists_of_map_eq_ok {f : α → β} {b : β} (h : f <$> x = .ok b) :
    ∃ a, x = .ok a ∧ f a = b := by
  cases x with
  | error e => cases h
  | ok a => exact ⟨a, rfl, Except.ok.inj h⟩

theorem eq_ok_of_toOption {a : α} (h : x.toOption = some a) : x = .ok a := by
  cases x with
  | error e => cases h
  | ok a' => exact congrArg Except.ok (Option.some.inj h)

end

end Specimen

import Specimen.Error
import Specimen.Text.Blank

/-!
# Wildcards

A wildcard stands for any element or any attribute whose namespace it admits. The empty URI in its
lists stands for no namespace, and the lists keep the order in which they were written.
-/

namespace Specimen

/-! ## Namespace constraints -/

/-- The namespaces that a wildcard admits. -/
inductive NamespaceConstraint where
  | any
  | among (uris : List String)
  | except (uris : List String)
deriving DecidableEq, Repr, Inhabited

namespace NamespaceConstraint

/-- The URI that a word of a `namespace` attribute stands for. A word that begins with `##` has to
be one of the two keywords. -/
def wordUri (target word : String) : Except Error String :=
  if word = "##local" then .ok ""
  else if word = "##targetNamespace" then .ok target
  else if word.toList.take 2 = ['#', '#'] then .error (.ofCause (.badNamespaceKeyword word))
  else .ok word

/-- Puts the URIs of the words that are still to read behind those read so far, each once. -/
def collect (target : String) (uris : List String) : List String → Except Error (List String)
  | [] => .ok uris
  | word :: rest => do
    let uri ← wordUri target word
    collect target (if uris.contains uri then uris else uris ++ [uri]) rest

/-- Reads the value of a `namespace` attribute in a schema with a target namespace, or with none.
`##other` refuses the target namespace and what is in no namespace. -/
def read (value : String) (target : Option String) : Except Error NamespaceConstraint :=
  let own := target.getD ""
  match Text.trim value with
  | "##any" => .ok any
  | "##other" => .ok (except (if own = "" then [""] else [own, ""]))
  | text => among <$> collect own [] (Text.words text)

end NamespaceConstraint

/-! ## Wildcards -/

/-- A wildcard: its number, by which two wildcards of a schema are told apart, and what it
admits. -/
structure Wildcard where
  id : Nat := 0
  namespaces : NamespaceConstraint
deriving DecidableEq, Repr, Inhabited

end Specimen

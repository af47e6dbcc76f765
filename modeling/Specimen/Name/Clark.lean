import Specimen.Error
import Specimen.Name.NCName
import Specimen.Text.Blank

/-!
# Names in braces notation

A root element is given as `{uri}local`, or by its local part alone. A local part alone takes the
namespace that the reader is told, so that the root of a schema can be named without its namespace.
-/

namespace Specimen

/-- Refuses what is not a name without a colon. -/
def checkNCName (name : String) : Except Error Unit :=
  if isNCName name then .ok () else .error (.config (.badName name))

/-- Cuts `{uri}local` after its URI. The URI holds no brace, and the local part is one line that is
not empty. -/
def splitClark (cs : List Char) : Option (List Char × List Char) :=
  match cs with
  | '{' :: rest =>
    match rest.span fun c => c ≠ '{' && c ≠ '}' with
    | (uri, '}' :: localPart) =>
      if localPart.isEmpty || localPart.contains '\n' then none else some (uri, localPart)
    | _ => none
  | _ => none

/-- Reads a name in braces notation, or a local part alone, which is taken to be in the namespace
`default`. Blanks around it are dropped. -/
def readClark (text : String) (default : Option String) : Except Error QName :=
  let name := Text.trim text
  match splitClark name.toList with
  | some (uri, localPart) => do
    checkNCName (String.ofList localPart)
    return QName.qualified (String.ofList uri) (String.ofList localPart)
  | none => do
    checkNCName name
    return QName.make default name

end Specimen

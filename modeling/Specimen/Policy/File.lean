import Specimen.Files.Basic
import Specimen.Policy.Json

/-!
# Policies in files
-/

namespace Specimen.Policy

/-- Reads the policy that a file holds. -/
def ofFile (fs : Files) (a : Address) : Except Error Policy :=
  match fs.read a with
  | .ok (_, text) => read text
  | .error fault => .error (.config (.unreadable a.text fault))

end Specimen.Policy

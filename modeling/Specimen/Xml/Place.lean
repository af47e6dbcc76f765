/-!
# Places in a text

Rows and columns, as places are reported to people.
-/

namespace Specimen.Xml

/-- A place in a text: its row, and its column counted in characters, both from one on. -/
structure Place where
  row : Nat
  column : Nat
deriving DecidableEq, Repr

/-- The place as it is reported. -/
def Place.text (p : Place) : String := toString p.row ++ ":" ++ toString p.column

/-- The place behind one more character. -/
def Place.next (p : Place) (c : Char) : Place :=
  if c = '\n' then ⟨p.row + 1, 1⟩ else ⟨p.row, p.column + 1⟩

/-- The place that lies so many characters behind the beginning of a text. -/
def placeAt (text : String) (offset : Nat) : Place :=
  (text.toList.take offset).foldl Place.next ⟨1, 1⟩

end Specimen.Xml

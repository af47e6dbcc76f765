/-!
# Characters of XML

Which characters a document may hold, which of them are space, and which may stand in a name. Ranges
are given by their first and last code point.
-/

namespace Specimen.Xml

/-- Within one of the runs of code points. -/
def isWithin (runs : List (Nat × Nat)) (c : Char) : Bool :=
  runs.any fun run => run.1 ≤ c.toNat && c.toNat ≤ run.2

/-- The runs of characters that a document may hold. -/
def charRuns : List (Nat × Nat) :=
  [(0x09, 0x0A), (0x0D, 0x0D), (0x20, 0xD7FF), (0xE000, 0xFFFD), (0x10000, 0x10FFFF)]

/-- A character that a document may hold: no control character but the three of space, no surrogate,
and neither of the two last code points of the first plane. -/
def isChar (c : Char) : Bool := isWithin charRuns c

/-- A character that parts the words of markup. -/
def isSpace (c : Char) : Bool := c == ' ' || c == '\t' || c == '\n' || c == '\r'

/-- The runs of characters that may begin a name. The colon is one of them. -/
def nameStartRuns : List (Nat × Nat) :=
  [(0x3A, 0x3A), (0x41, 0x5A), (0x5F, 0x5F), (0x61, 0x7A), (0xC0, 0xD6), (0xD8, 0xF6),
   (0xF8, 0x2FF), (0x370, 0x37D), (0x37F, 0x1FFF), (0x200C, 0x200D), (0x2070, 0x218F),
   (0x2C00, 0x2FEF), (0x3001, 0xD7FF), (0xF900, 0xFDCF), (0xFDF0, 0xFFFD), (0x10000, 0xEFFFF)]

/-- A character that may begin a name. -/
def isNameStart (c : Char) : Bool := isWithin nameStartRuns c

/-- The runs of characters that may stand in a name but not begin it. -/
def namePartRuns : List (Nat × Nat) :=
  [(0x2D, 0x2E), (0x30, 0x39), (0xB7, 0xB7), (0x300, 0x36F), (0x203F, 0x2040)]

/-- A character that may stand in a name. -/
def isNamePart (c : Char) : Bool := isNameStart c || isWithin namePartRuns c

end Specimen.Xml

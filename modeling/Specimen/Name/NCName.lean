/-!
# Names without a colon

The characters that a name without a colon may begin with and go on with. The ranges cover the
Latin letters with their supplements and end at U+037D; a name with a letter beyond is refused.
-/

namespace Specimen

/-- The first and the last code point of each run of characters that may begin a name. -/
def nameStartRuns : List (Nat × Nat) :=
  [(0x41, 0x5A), (0x5F, 0x5F), (0x61, 0x7A), (0xC0, 0xD6), (0xD8, 0xF6), (0xF8, 0x2FF),
   (0x370, 0x37D)]

/-- A character that may begin a name. -/
def isNameStart (c : Char) : Bool :=
  nameStartRuns.any fun run => run.1 ≤ c.toNat && c.toNat ≤ run.2

/-- A character that may stand in a name after its first: one that may begin it, a hyphen, a full
stop, an ASCII digit or the middle dot. -/
def isNamePart (c : Char) : Bool :=
  isNameStart c || c == '-' || c == '.' || ('0' ≤ c && c ≤ '9') || c.toNat == 0xB7

/-- A name without a colon. -/
def isNCName (s : String) : Bool :=
  match s.toList with
  | [] => false
  | c :: cs => isNameStart c && cs.all isNamePart

/-- A written name, cut at its first colon into the prefix, if it has one, and the rest. -/
def splitPrefix (s : String) : Option String × String :=
  match s.toList.span (· ≠ ':') with
  | (_, []) => (none, s)
  | (before, _ :: after) => (some (String.ofList before), String.ofList after)

end Specimen

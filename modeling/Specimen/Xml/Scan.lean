import Specimen.Xml.Char

/-!
# Scanning markup

The small readers that the markup of a document is made of: words, names and literals in quotes. A
reader is given the characters from some place on, and gives those behind what it has read.
-/

namespace Specimen.Xml

/-! ## Words and space -/

/-- Drops the space in front. -/
def skipSpace (cs : List Char) : List Char := cs.dropWhile isSpace

/-- Drops the space in front, of which there has to be some. -/
def needSpace (cs : List Char) : Option (List Char) :=
  match cs with
  | c :: _ => if isSpace c then some (skipSpace cs) else none
  | [] => none

/-- What follows a word that stands next. -/
def after? (word : String) (cs : List Char) : Option (List Char) :=
  if word.toList.isPrefixOf cs then some (cs.drop word.length) else none

/-- A word stands next. -/
def begins (word : String) (cs : List Char) : Bool := word.toList.isPrefixOf cs

/-- The characters up to a word, and those behind it. -/
def upTo (word : List Char) : List Char → Option (List Char × List Char)
  | [] => none
  | c :: cs =>
    if word.isPrefixOf (c :: cs) then some ([], (c :: cs).drop word.length)
    else (upTo word cs).map fun (before, behind) => (c :: before, behind)

/-- Two hyphens stand side by side somewhere. -/
def hasDoubleHyphen : List Char → Bool
  | '-' :: '-' :: _ => true
  | _ :: cs => hasDoubleHyphen cs
  | [] => false

/-! ## Names -/

/-- A name, in which colons have no meaning. -/
def readName (cs : List Char) : Option (String × List Char) :=
  let (name, rest) := cs.span isNamePart
  match name with
  | c :: _ => if isNameStart c then some (String.ofList name, rest) else none
  | [] => none

/-- Characters that a part of a name may begin with, if there are any. -/
def beginsName (cs : List Char) : Bool :=
  match cs with
  | c :: _ => isNameStart c
  | [] => true

/-- Reads a name with or without a prefix. An empty prefix counts as none, and there is one colon at
most. -/
def readTagName (cs : List Char) : Option ((Option String × String) × List Char) :=
  let (name, rest) := cs.span isNamePart
  let (pfx, localName) :=
    match name.span (· ≠ ':') with
    | (localName, []) => ([], localName)
    | (pfx, _ :: localName) => (pfx, localName)
  if localName.isEmpty || localName.contains ':' then none
  else if beginsName pfx && beginsName localName then
    some ((if pfx.isEmpty then none else some (String.ofList pfx), String.ofList localName), rest)
  else none

/-! ## Literals -/

/-- Reads a literal in quotes of either kind, whatever it holds. -/
def readLiteral (cs : List Char) : Option (List Char × List Char) :=
  match cs with
  | '"' :: rest => upTo ['"'] rest
  | '\'' :: rest => upTo ['\''] rest
  | _ => none

/-- Reads the equals sign of an attribute and its literal, with space around the sign. -/
def readValue (cs : List Char) : Option (List Char × List Char) := do
  let cs ← after? "=" (skipSpace cs)
  let (value, cs) ← readLiteral (skipSpace cs)
  if value.all fun c => isChar c && c ≠ '<' then some (value, cs) else none

/-! ## Comments and instructions -/

/-- Skips a comment from its text on. The text holds no two hyphens side by side, nor one at its
end. -/
def skipComment (cs : List Char) : Option (List Char) := do
  let (text, rest) ← upTo ['-', '-', '>'] cs
  if text.all isChar && !hasDoubleHyphen text && text.getLast? != some '-' then some rest else none

/-- Skips a processing instruction, which may not look like the declaration of a document. -/
def skipInstruction (cs : List Char) : Option (List Char) := do
  if begins "<?xml " cs then none
  else
    let cs ← after? "<?" cs
    let (_, cs) ← readName cs
    let (text, rest) ← upTo ['?', '>'] (skipSpace cs)
    if text.all isChar then some rest else none

end Specimen.Xml

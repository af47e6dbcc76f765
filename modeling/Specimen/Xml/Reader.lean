import Specimen.Xml.Doctype
import Specimen.Xml.Draft

/-!
# Reading XML documents

`readTree` accepts the documents that are well formed and keep to the rules of namespaces, and gives
the tree of their elements. What an entity stands for is read as content by itself, but it goes on
with the same tree: it may close an element that was opened before it, and leave elements open.
Each step uses up a character at least, so the number of characters bounds the number of steps.
-/

namespace Specimen.Xml

/-- What the reader knows about the document: its entities and its length. -/
structure Setting where
  entities : Entities
  total : Nat

/-- How far the reader has come: the tree so far, and what may still be replaced. -/
structure Reading where
  draft : Draft := {}
  budget : Budget := .full

/-! ## Tags -/

/-- Reads the attributes of a start tag and how it ends. Space stands before each attribute. The tag
breaks off if the text ends right behind its name or one of its attributes. -/
def readAttributes (entities : Entities) :
    (fuel : Nat) → Reading → List Char → Option ((TagEnd × Reading) × List Char)
  | 0, _, _ => none
  | fuel + 1, state, cs =>
    if cs.isEmpty then some ((.breaksOff, state), [])
    else
      match skipSpace cs with
      | '>' :: rest => some ((.opens, state), rest)
      | '/' :: '>' :: rest => some ((.empty, state), rest)
      | _ => do
        let ((pfx, localName), cs) ← readTagName (← needSpace cs)
        let (text, cs) ← readValue cs
        let (value, budget) ← readAttributeValue entities state.budget text
        let draft ← state.draft.addAttribute ⟨pfx, localName, value⟩
        readAttributes entities fuel { draft, budget } cs

/-- Reads a start tag from its name on. No element is named with the prefix of declarations. -/
def readTag (setting : Setting) (offset : Nat) (state : Reading) (cs : List Char) :
    Option ((TagEnd × Reading) × List Char) := do
  let ((pfx, localName), cs) ← readTagName cs
  if pfx = some "xmlns" then none
  else
    let ((tagEnd, state), cs) ← readAttributes setting.entities (cs.length + 1) state cs
    let draft ← state.draft.finishTag offset pfx localName tagEnd
    return ((tagEnd, { state with draft }), cs)

/-- Reads an end tag from its name on, and closes the innermost open element. -/
def readEndTag (state : Reading) (cs : List Char) : Option (Reading × List Char) := do
  let ((pfx, localName), cs) ← readTagName cs
  let rest ← after? ">" (skipSpace cs)
  let draft ← state.draft.close pfx localName
  return ({ state with draft }, rest)

/-! ## Character data -/

/-- Every line break becomes a line feed. -/
def unifyBreaks : List Char → List Char
  | [] => []
  | [c] => if c = '\r' then ['\n'] else [c]
  | c :: d :: cs =>
    if c = '\r' then (if d = '\n' then unifyBreaks (d :: cs) else '\n' :: unifyBreaks (d :: cs))
    else c :: unifyBreaks (d :: cs)

/-- Adds a text to the tree. -/
def Reading.addText (state : Reading) (text : List Char) : Reading :=
  { state with draft := state.draft.addText text }

/-- Adds what pieces of character data stand for. `plain` holds the characters before, last one
first, whose line breaks are still to be unified, and `text` those before them. -/
def addPieces (expand : Reading → String → Option Reading) (text plain : List Char) :
    Reading → List Piece → Option Reading
  | state, [] => some (state.addText (text ++ unifyBreaks plain.reverse))
  | state, .plain c :: rest => addPieces expand text (c :: plain) state rest
  | state, .referred c :: rest =>
    if state.budget.isInside then addPieces expand text (c :: plain) state rest
    else addPieces expand (text ++ unifyBreaks plain.reverse ++ [c]) [] state rest
  | state, .entity name :: rest => do
    addPieces expand [] [] (← expand (state.addText (text ++ unifyBreaks plain.reverse)) name) rest

/-- Reads character data: only permitted characters, and no end of a literal section. -/
def readText (expand : Reading → String → Option Reading) (state : Reading) (cs : List Char) :
    Option Reading :=
  if cs.all isChar && (upTo [']', ']', '>'] cs).isNone then
    (pieces cs).bind (addPieces expand [] [] state)
  else none

/-- Reads a literal section from its text on. -/
def readLiteralSection (state : Reading) (cs : List Char) : Option (Reading × List Char) := do
  let (text, rest) ← upTo [']', ']', '>'] cs
  if text.all isChar then some (state.addText (unifyBreaks text), rest) else none

/-! ## Content -/

/-- How a text is nested at a place by its own tags: how many start tags have no end tag yet, and
whether there has been a start tag at all. -/
structure Nesting where
  depth : Nat := 0
  isTagged : Bool := false

/-- The nesting behind a start tag. -/
def Nesting.next (nesting : Nesting) : TagEnd → Nesting
  | .opens => ⟨nesting.depth + 1, true⟩
  | _ => { nesting with isTagged := true }

/-- Reads content up to the end tag that has no start tag in the same text, or up to the end of the
text, and gives what is left. Such an end tag stands behind some start tag at least. `behind` is the
number of characters of the document behind the text. -/
def readContent (setting : Setting) (behind : Nat) (expand : Reading → String → Option Reading) :
    (fuel : Nat) → Nesting → Reading → List Char → Option (Reading × List Char)
  | 0, _, _, _ => none
  | fuel + 1, nesting, state, cs =>
    match cs with
    | [] => some (state, [])
    | '<' :: '/' :: rest => do
      let (state, rest) ← if nesting.isTagged then readEndTag state rest else none
      match nesting.depth with
      | 0 => return (state, rest)
      | depth + 1 =>
        readContent setting behind expand fuel { nesting with depth } state rest
    | '<' :: '!' :: _ =>
      if begins "<!--" cs then do
        readContent setting behind expand fuel nesting state (← skipComment (cs.drop 4))
      else do
        let (state, rest) ← readLiteralSection state (← after? "<![CDATA[" cs)
        readContent setting behind expand fuel nesting state rest
    | '<' :: '?' :: _ => do
      readContent setting behind expand fuel nesting state (← skipInstruction cs)
    | '<' :: rest => do
      let offset := setting.total - (behind + cs.length)
      let ((tagEnd, state), rest) ← readTag setting offset state rest
      readContent setting behind expand fuel (nesting.next tagEnd) state rest
    | _ => do
      let (text, rest) := cs.span (· ≠ '<')
      readContent setting behind expand fuel nesting (← readText expand state text) rest

/-- Reads what an entity in content stands for, with `levels` of entities permitted from here on.
What is left of its text behind an end tag that has no start tag there is not read. -/
def expandEntity (setting : Setting) :
    (levels : Nat) → Reading → String → Option Reading
  | 0, _, _ => none
  | levels + 1, state, name => do
    let (draft, budget) ← replace (fun entity left => do
      let (state, _) ← readContent setting entity.behind (expandEntity setting levels)
        (entity.text.length + 1) {} { state with budget := ⟨levels, left⟩ } entity.text
      return (state.draft, state.budget.references)) setting.entities state.budget name
    return { draft, budget }

/-! ## Documents -/

/-- Skips space, comments and instructions. -/
def skipMisc : (fuel : Nat) → List Char → Option (List Char)
  | 0, _ => none
  | fuel + 1, cs =>
    let cs := skipSpace cs
    if begins "<!--" cs then do skipMisc fuel (← skipComment (cs.drop 4))
    else if begins "<?" cs then do skipMisc fuel (← skipInstruction cs)
    else some cs

/-- Skips the space before what follows in a declaration, where the declaration goes on. -/
def declarationSpace (cs : List Char) : Option (List Char) :=
  if begins "?>" cs then some cs else needSpace cs

/-- Skips an attribute of the declaration. -/
def skipAttribute (cs : List Char) : Option (List Char) := do
  let (_, cs) ← readTagName cs
  let (_, cs) ← readValue cs
  return cs

/-- Skips the declaration that a document may begin with: a version, and perhaps an encoding and a
statement about external parts. -/
def skipDeclaration (cs : List Char) : Option (List Char) :=
  match after? "<?xml " cs with
  | none => some cs
  | some cs => do
    let cs := skipSpace cs
    if !begins "version" cs then none
    else
      let cs ← declarationSpace (← skipAttribute cs)
      let cs ← if begins "encoding" cs then (skipAttribute cs).bind declarationSpace else some cs
      let cs ← if begins "standalone" cs then skipAttribute cs else some cs
      after? "?>" (skipSpace cs)

/-- Reads the root from its start tag on, with all that goes on with its tree. -/
def readRoot (setting : Setting) (cs : List Char) : Option (Draft × List Char) := do
  let rest ← after? "<" cs
  let ((tagEnd, state), rest) ← readTag setting (setting.total - cs.length) {} rest
  match tagEnd with
  | .opens =>
    let (state, rest) ← readContent setting 0 (expandEntity setting Budget.maxLevels)
      (rest.length + 1) ⟨0, true⟩ state rest
    return (state.draft, rest)
  | _ => return (state.draft, rest)

/-- Reads the document type declaration, if there is one. -/
def readPrologue (cs : List Char) : Option (Entities × List Char) :=
  match after? "<!DOCTYPE" cs with
  | none => some ([], cs)
  | some rest => do
    let (entities, rest) ← readDoctype rest
    return (entities, ← skipMisc (rest.length + 1) rest)

/-- Reads a document: a byte order mark and a declaration may come first, then a document type
declaration, then the root, with comments and instructions anywhere between and behind. -/
def readTree (text : String) : Option Element := do
  let all := text.toList
  let cs := if all.head? = some (Char.ofNat 0xFEFF) then all.drop 1 else all
  let cs ← skipMisc (all.length + 1) (← skipDeclaration cs)
  let (entities, cs) ← readPrologue cs
  let (draft, cs) ← readRoot ⟨entities, all.length⟩ cs
  let rest ← skipMisc (cs.length + 1) cs
  if rest.isEmpty then draft.root? else none

end Specimen.Xml

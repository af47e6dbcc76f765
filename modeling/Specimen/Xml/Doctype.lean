import Specimen.Xml.Reference

/-!
# Document type declarations

Of what a document declares about itself only its entities matter here. Other declarations are
passed over, and so are the names of external parts, which are not fetched.
-/

namespace Specimen.Xml

/-- Skips the name of an external part: `SYSTEM` with one literal, or `PUBLIC` with two. -/
def skipExternal (cs : List Char) : Option (List Char) :=
  match after? "SYSTEM" cs with
  | some cs => do
    let (_, cs) ← readLiteral (← needSpace cs)
    return cs
  | none => do
    let cs ← after? "PUBLIC" cs
    let (_, cs) ← readLiteral (← needSpace cs)
    let (_, cs) ← readLiteral (← needSpace cs)
    return cs

/-- Skips the notation of an entity that is no XML, if one is given. -/
def skipNotation (cs : List Char) : Option (List Char) :=
  match after? "NDATA" (skipSpace cs) with
  | none => some (skipSpace cs)
  | some cs => do
    let (_, cs) ← readName (← needSpace cs)
    return cs

/-- Reads what an entity stands for. An external entity stands for nothing that is known. -/
def readEntityText (isParameter : Bool) (cs : List Char) : Option (Option Entity × List Char) :=
  match readLiteral cs with
  | some (text, rest) => some (some ⟨text, rest.length + 1⟩, rest)
  | none => do
    let cs ← skipExternal cs
    let cs ← if isParameter then some cs else skipNotation cs
    return (none, cs)

/-- Reads the declaration of an entity from its first space on. The names of parameter entities are
entered beside the others. -/
def readEntity (cs : List Char) : Option (Entities × List Char) := do
  let cs ← needSpace cs
  let (isParameter, cs) ← match cs with
    | '%' :: rest => (needSpace rest).map fun rest => (true, rest)
    | _ => some (false, cs)
  let (name, cs) ← readName cs
  let (entity, cs) ← readEntityText isParameter (← needSpace cs)
  let cs ← after? ">" (skipSpace cs)
  return (entity.toList.map fun entity => (name, entity), cs)

/-- Reads the declarations between the brackets, up to the end of the whole declaration. -/
def readSubset : (fuel : Nat) → Entities → List Char → Option (Entities × List Char)
  | 0, _, _ => none
  | fuel + 1, entities, cs =>
    let cs := skipSpace cs
    if begins "<!ENTITY" cs then do
      let (more, rest) ← readEntity (cs.drop 8)
      readSubset fuel (entities ++ more) rest
    else if begins "<!--" cs then do readSubset fuel entities (← skipComment (cs.drop 4))
    else if begins "<?" cs then do readSubset fuel entities (← skipInstruction cs)
    else if begins "<!ELEMENT" cs || begins "<!ATTLIST" cs || begins "<!NOTATION" cs then do
      let (_, rest) ← upTo ['>'] cs
      readSubset fuel entities rest
    else do
      let rest ← after? "]" cs
      return (entities, ← after? ">" (skipSpace rest))

/-- Reads a document type declaration from its first space on, and gives the entities that it
declares. -/
def readDoctype (cs : List Char) : Option (Entities × List Char) := do
  let (_, cs) ← readName (← needSpace cs)
  let cs := skipSpace cs
  let cs := skipSpace ((skipExternal cs).getD cs)
  match cs with
  | '>' :: rest => return ([], rest)
  | '[' :: rest => readSubset (rest.length + 1) [] rest
  | _ => none

end Specimen.Xml

import Specimen.Json.Text
import Specimen.Name.Prefixes
import Specimen.Writer.Call

/-!
# Event lists

A writer that keeps what is reported to it as a list of events. It gives out prefixes only on
request, and it refuses nothing but an end without a start.
-/

namespace Specimen

/-! ## Events -/

/-- Something that was reported. A request for a prefix is kept with the answer. -/
inductive Event where
  | startDocument
  | declarePrefix (uri pfx : String)
  | startElement (uri name : String)
  | attribute (uri name value : String)
  | text (value : String)
  | comment (value : String)
  | endElement
  | endDocument
deriving DecidableEq, Repr

namespace Event

/-- The name of an event and its parts, each with its name, in their order. -/
def parts : Event → String × List (String × String)
  | .startDocument => ("startDocument", [])
  | .declarePrefix uri pfx => ("declarePrefix", [("uri", uri), ("prefix", pfx)])
  | .startElement uri name => ("startElement", [("namespace", uri), ("name", name)])
  | .attribute uri name value =>
    ("attribute", [("namespace", uri), ("name", name), ("value", value)])
  | .text value => ("text", [("value", value)])
  | .comment value => ("comment", [("text", value)])
  | .endElement => ("endElement", [])
  | .endDocument => ("endDocument", [])

/-- The event as a JSON object on several lines, two spaces further in for each level. -/
def toJson (event : Event) : String :=
  let members := ("event", event.parts.1) :: event.parts.2
  "  \x7b\n"
    ++ ",\n".intercalate (members.map fun (key, value) =>
      "    " ++ Json.quote key ++ ": " ++ Json.quote value)
    ++ "\n  \x7d"

end Event

/-! ## The writer -/

/-- The events so far, the prefixes given out, and the number of elements that are open. -/
structure Recorder where
  events : Array Event := #[]
  prefixes : Prefixes := {}
  depth : Nat := 0

namespace Recorder

/-- Keeps an event. -/
def push (r : Recorder) (event : Event) : Recorder := { r with events := r.events.push event }

/-- Takes a call. -/
def perform : Call → Recorder → Except Error String × Recorder
  | .startDocument, r => (.ok "", r.push .startDocument)
  | .declarePrefix uri, r =>
    if uri = "" then (.ok "", r.push (.declarePrefix uri ""))
    else
      let ((pfx, _), prefixes) := r.prefixes.bind uri
      (.ok pfx, { r with prefixes }.push (.declarePrefix uri pfx))
  | .startElement uri name, r =>
    (.ok "", { r with depth := r.depth + 1 }.push (.startElement uri name))
  | .attribute uri name value, r => (.ok "", r.push (.attribute uri name value))
  | .text value, r => (.ok "", r.push (.text value))
  | .comment value, r => (.ok "", r.push (.comment value))
  | .endElement, r =>
    match r.depth with
    | 0 => (.error (.write .unmatchedEnd), r)
    | depth + 1 => (.ok "", { r with depth }.push .endElement)
  | .endDocument, r => (.ok "", r.push .endDocument)

instance : Writer Recorder := ⟨perform⟩

/-- The local names of the elements that were started, in document order. -/
def elementNames (r : Recorder) : List String :=
  r.events.toList.filterMap fun event =>
    match event with
    | .startElement _ name => some name
    | _ => none

/-- The events as a JSON array. -/
def toJson (r : Recorder) : String :=
  if r.events.isEmpty then "[]"
  else "[\n" ++ ",\n".intercalate (r.events.toList.map Event.toJson) ++ "\n]"

end Recorder

end Specimen

import Specimen.Error

/-!
# Calls on a writer

A document is reported to a writer as a row of calls, in document order. Namespaces are given as
URIs, where the empty one means none, and an attribute belongs to the element whose start was
reported last. A writer answers the request for a prefix with the prefix; its answers to other calls
are empty. It may refuse a call, and is a state either way, so that what it has done before a
refusal can be looked at.
-/

namespace Specimen

/-- What can be reported to a writer, or asked of it. -/
inductive Call where
  | startDocument
  | declarePrefix (uri : String)
  | startElement (uri name : String)
  | attribute (uri name value : String)
  | text (value : String)
  | comment (value : String)
  | endElement
  | endDocument
deriving DecidableEq, Repr

/-- The kinds of calls. -/
inductive CallKind where
  | startDocument
  | declarePrefix
  | startElement
  | attribute
  | text
  | comment
  | endElement
  | endDocument
deriving DecidableEq, Repr

/-- The kind of a call. -/
def Call.kind : Call → CallKind
  | .startDocument => .startDocument
  | .declarePrefix _ => .declarePrefix
  | .startElement _ _ => .startElement
  | .attribute _ _ _ => .attribute
  | .text _ => .text
  | .comment _ => .comment
  | .endElement => .endElement
  | .endDocument => .endDocument

/-- A state that takes calls. -/
class Writer (ω : Type) where
  perform : Call → ω → Except Error String × ω

/-- Takes calls one after another and stops at the first that is refused. -/
def performAll {ω : Type} [Writer ω] : List Call → ω → Except Error Unit × ω
  | [], w => (.ok (), w)
  | call :: rest, w =>
    match Writer.perform call w with
    | (.ok _, w) => performAll rest w
    | (.error e, w) => (.error e, w)

end Specimen

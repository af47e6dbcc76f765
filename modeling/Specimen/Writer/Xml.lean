import Specimen.Name.Prefixes
import Specimen.Writer.Call
import Specimen.Writer.Markup
import Specimen.Writer.Sink

/-!
# XML texts

A writer that puts a document into a sink as XML. A start tag is held back until something follows
that does not belong into it, so that attributes and namespace declarations can be added and an
element without content becomes one empty tag.

A namespace is declared on the tag on which it is first needed and no open element declares it;
namespaces asked for before the root are declared on the root. There is never a default namespace,
so a name without a prefix is in no namespace.

With an indentation, each tag and comment begins a line of its own, unless it comes first or follows
a text.
-/

namespace Specimen

/-- A start tag that is held back: its name, its attributes and declarations in their order, and the
namespaces it declares. -/
structure HeldTag where
  name : String
  attributes : List (String × String) := []
  declared : List String := []
deriving DecidableEq, Repr, Inhabited

/-- An element whose start tag has been written: its name and the namespaces it declares. -/
structure OpenElement where
  name : String
  declared : List String
deriving DecidableEq, Repr, Inhabited

/-- The state of the writer. `opened` holds the elements that are open, the innermost one first, and
`awaited` the namespaces that are to be declared on the next tag. -/
structure XmlWriter where
  sink : Sink := {}
  indent : Nat := 0
  prefixes : Prefixes := {}
  held : Option HeldTag := none
  opened : List OpenElement := []
  awaited : List String := []
  breaksLine : Bool := false

namespace XmlWriter

/-! ## Putting text -/

/-- What is put before a tag or comment: a line break and the indentation, where they are due. -/
def lead (w : XmlWriter) : String :=
  if w.breaksLine && 0 < w.indent then
    "\n" ++ String.ofList (List.replicate (w.indent * w.opened.length) ' ')
  else ""

/-- Puts a tag, a comment or the declaration on its line. -/
def putMarkup (w : XmlWriter) (markup : String) : Except Error Unit × XmlWriter :=
  let (isPut, sink) := w.sink.put (w.lead ++ markup)
  (if isPut then .ok () else .error (.xml Sink.refusal), { w with sink, breaksLine := true })

/-- Puts character data, after which no line begins. -/
def putText (w : XmlWriter) (text : String) : Except Error Unit × XmlWriter :=
  let (isPut, sink) := w.sink.put (Markup.escape text)
  (if isPut then .ok () else .error (.xml Sink.refusal), { w with sink, breaksLine := false })

/-! ## Namespaces -/

/-- A prefix for the namespace is declared on an open element or on the tag that is held back. -/
def isInScope (w : XmlWriter) (uri : String) : Bool :=
  uri == Namespace.xml
    || w.opened.any (fun element => element.declared.contains uri)
    || (match w.held with | some tag => tag.declared.contains uri | none => false)

/-- Adds a declaration to a tag. -/
def HeldTag.declare (tag : HeldTag) (pfx uri : String) : HeldTag :=
  { tag with
    attributes := tag.attributes ++ [("xmlns:" ++ pfx, uri)]
    declared := tag.declared ++ [uri] }

/-- The prefix for a namespace. If it is not in scope, it is declared on the tag that is held back,
or on the next one if there is none. -/
def ensureDeclared (w : XmlWriter) (uri : String) : String × XmlWriter :=
  if uri = "" then ("", w)
  else
    let ((pfx, _), prefixes) := w.prefixes.bind uri
    let w := { w with prefixes }
    if w.isInScope uri then (pfx, w)
    else
      match w.held with
      | some tag => (pfx, { w with held := some (HeldTag.declare tag pfx uri) })
      | none =>
        let awaited := if w.awaited.contains uri then w.awaited else w.awaited ++ [uri]
        (pfx, { w with awaited })

/-- Declares what has been asked for before the tag. -/
def declareAwaited (w : XmlWriter) : XmlWriter :=
  w.awaited.foldl (fun w uri => (w.ensureDeclared uri).2) { w with awaited := [] }

/-! ## Calls -/

/-- Puts the tag that is held back, if there is one, as the start of an element. -/
def openHeld (w : XmlWriter) : Except Error Unit × XmlWriter :=
  match w.held with
  | none => (.ok (), w)
  | some tag =>
    match { w with held := none }.putMarkup (Markup.startTag tag.name tag.attributes) with
    | (.ok (), w) => (.ok (), { w with opened := ⟨tag.name, tag.declared⟩ :: w.opened })
    | (.error e, w) => (.error e, w)

/-- Puts the tag that is held back, if there is one, as an element without content. -/
def closeHeld (w : XmlWriter) : Except Error Unit × XmlWriter :=
  match w.held with
  | none => (.ok (), w)
  | some tag => { w with held := none }.putMarkup (Markup.emptyTag tag.name tag.attributes)

/-- Goes on after a part of a call, unless it was refused. -/
def andThen (r : Except Error Unit × XmlWriter)
    (next : XmlWriter → Except Error Unit × XmlWriter) : Except Error Unit × XmlWriter :=
  match r with
  | (.ok (), w) => next w
  | (.error e, w) => (.error e, w)

/-- Holds back the start tag of an element. -/
def startElement (w : XmlWriter) (uri name : String) : Except Error Unit × XmlWriter :=
  andThen w.openHeld fun w =>
    let w := { w with held := some ⟨"", [], []⟩ }.declareAwaited
    let (pfx, w) := w.ensureDeclared uri
    (.ok (), { w with held := w.held.map fun tag => { tag with name := Markup.qualify pfx name } })

/-- Adds an attribute to the tag that is held back. -/
def addAttribute (w : XmlWriter) (uri name value : String) : Except Error Unit × XmlWriter :=
  if w.held.isNone then (.error (.write (.attributeOutsideTag name)), w)
  else
    let (pfx, w) := w.ensureDeclared uri
    let attr := (Markup.qualify pfx name, value)
    (.ok (), { w with
      held := w.held.map fun tag => { tag with attributes := tag.attributes ++ [attr] } })

/-- Adds character data. The empty text leaves no trace. -/
def addText (w : XmlWriter) (text : String) : Except Error Unit × XmlWriter :=
  if text = "" then (.ok (), w) else andThen w.openHeld fun w => w.putText text

/-- Adds a comment. -/
def addComment (w : XmlWriter) (text : String) : Except Error Unit × XmlWriter :=
  andThen w.openHeld fun w => w.putMarkup (Markup.comment text)

/-- Ends the innermost element. -/
def endElement (w : XmlWriter) : Except Error Unit × XmlWriter :=
  if w.held.isSome then w.closeHeld
  else
    match w.opened with
    | [] => (.error (.write .unmatchedEnd), w)
    | element :: outer => { w with opened := outer }.putMarkup (Markup.endTag element.name)

/-- Ends the document with a line break. -/
def endDocument (w : XmlWriter) : Except Error Unit × XmlWriter :=
  andThen w.closeHeld fun w =>
    match w.opened with
    | element :: _ => (.error (.write (.unclosed element.name)), w)
    | [] =>
      let (isPut, sink) := w.sink.put "\n"
      (if isPut then .ok () else .error (.sink Sink.refusal), { w with sink })

/-- Takes a call that is not a request. -/
def take (w : XmlWriter) : Call → Except Error Unit × XmlWriter
  | .startDocument => w.putMarkup Markup.declaration
  | .declarePrefix uri => (.ok (), (w.ensureDeclared uri).2)
  | .startElement uri name => w.startElement uri name
  | .attribute uri name value => w.addAttribute uri name value
  | .text value => w.addText value
  | .comment value => w.addComment value
  | .endElement => w.endElement
  | .endDocument => w.endDocument

/-- Takes a call. -/
def perform (call : Call) (w : XmlWriter) : Except Error String × XmlWriter :=
  match call with
  | .declarePrefix uri =>
    let (pfx, w) := w.ensureDeclared uri
    (.ok pfx, w)
  | _ =>
    let (result, w) := w.take call
    (result.map fun _ => "", w)

instance : Writer XmlWriter := ⟨perform⟩

/-- The text written so far. -/
def text (w : XmlWriter) : String := w.sink.written

end XmlWriter

end Specimen

import Specimen.Generate.ContentModel
import Specimen.Generate.Path
import Specimen.Schema.Parts
import Specimen.Schema.Substitution

/-!
# Documents

Generates a document for a root element: walks through the schema from its declaration and reports
what it decides on to a writer. It decides

* how often each particle is repeated, and in which order the branches of a choice and the particles
  of an `all` group are visited,
* which element stands for an abstract one, and which type for an abstract type; the latter is
  announced by `xsi:type`,
* which optional attributes are written, and what stands in each leaf.

A note stands before the start of every element that is declared, and in the place of every element
that is left out.

## Termination

An element that has been entered three times on the way to its own position is left out. Between two
elements there are only model groups inside each other. So the walk goes down no further than
`Document.depthBound` particles, unless a model group contains itself; it is this number that the
recursion goes by.
-/

namespace Specimen.Document

open Specimen.Walk

variable {σ : Type} [Source σ]

/-! ## Fixed names -/

/-- How often an element may already stand on the path when it is entered. -/
def recursionLimit : Nat := 2

/-- The namespace written for a wildcard that admits any. -/
def wildcardNamespace : String := "anyNS"

/-- The name of an element that stands for a wildcard. -/
def wildcardElement : String := "anyElement"

/-- The name of an attribute that stands for a wildcard. -/
def wildcardAttribute : String := "anyAttr"

/-- The value of an attribute that stands for a wildcard. -/
def wildcardValue : String := "anyValue"

/-! ## Wildcards -/

/-- The wildcard namespace with the first number behind it, from `i` on, that makes it differ from
all of some URIs. `steps` is the number of these URIs. -/
def numberedNamespace (excluded : List String) : Nat → Nat → String
  | 0, i => wildcardNamespace ++ toString i
  | steps + 1, i =>
    if excluded.contains (wildcardNamespace ++ toString i) then
      numberedNamespace excluded steps (i + 1)
    else wildcardNamespace ++ toString i

/-- A namespace that is none of some URIs. -/
def unlistedNamespace (excluded : List String) : String :=
  if excluded.contains wildcardNamespace then numberedNamespace excluded excluded.length 1
  else wildcardNamespace

/-- A namespace that a wildcard admits. -/
def chooseNamespace (constraint : NamespaceConstraint) : Walk σ String :=
  match constraint with
  | .any => pure wildcardNamespace
  | .among uris => do
    match ← draw (Draw.pick uris) with
    | some uri => pure uri
    | none => fail (.invariant .emptyNamespaceList)
  | .except uris => pure (unlistedNamespace uris)

/-- Writes an attribute or an element for a wildcard. -/
def wildcard (path : Path) (w : Wildcard) : Walk σ Unit := do
  let uri ← chooseNamespace w.namespaces
  if (path.push (.wildcard w)).isAttributeWildcard then
    tell (.attribute uri wildcardAttribute wildcardValue)
  else
    tell (.startElement uri wildcardElement)
    tell .endElement

/-! ## Attributes -/

/-- Whether an attribute without a constraint is given a value. -/
def isFilled (w : Leaf.Setting) (attr : EffectiveAttribute) : Walk σ Bool :=
  if attr.isRequired then pure true else draw w.policy.optionalAttributes.draw

/-- The value of an attribute without a constraint. One that is given none may still be written with
the empty text. -/
def freeValue (w : Leaf.Setting) (attr : EffectiveAttribute) : Walk σ (Option String) := do
  if ← isFilled w attr then
    let type ← ask (w.model.resolveSimple attr.decl.type)
    let value ← fill (Leaf.value w type attr.decl.name.localName)
    return some value
  else
    let isEmpty ← draw w.policy.optionalAttributeAsEmptyString.draw
    return if isEmpty then some "" else none

/-- The value to write for an attribute, or nothing if it is left out. -/
def attributeValue (w : Leaf.Setting) (attr : EffectiveAttribute) : Walk σ (Option String) := do
  match attr.constraint with
  | .fixed value =>
    let isWritten ← draw w.policy.fixedAttributes.draw
    return if isWritten then some value else none
  | .default value =>
    let isWritten ← draw w.policy.defaultAttributes.draw
    return if isWritten then some value else none
  | .free => freeValue w attr

/-- Writes an attribute, or leaves it out. -/
def writeAttribute (w : Leaf.Setting) (attr : EffectiveAttribute) : Walk σ Unit := do
  match ← attributeValue w attr with
  | some value => tell (.attribute attr.decl.name.namespaceUri attr.decl.name.localName value)
  | none => pure ()

/-! ## Types -/

/-- How a particle is walked through, at a position of the document. -/
abbrev Visit (σ : Type) := Path → Particle → Walk σ Unit

/-- Announces the type that stands for an abstract one. -/
def announceType (type : ComplexType) : Walk σ Unit := do
  match type.name with
  | none => fail (.invariant .unnamedSubstitute)
  | some name =>
    let pfx ← call (.declarePrefix name.namespaceUri)
    let value := if pfx = "" then name.localName else pfx ++ ":" ++ name.localName
    tell (.attribute Namespace.xsi "type" value)

/-- Announces a type if it stands for an abstract one. -/
def announce (type : ComplexType) (isSubstitute : Bool) : Walk σ Unit :=
  if isSubstitute then announceType type else pure ()

/-- Writes an attribute for the attribute wildcard of a type, if it has one. -/
def attributeWildcard (path : Path) : Option Wildcard → Walk σ Unit
  | some own => wildcard path own
  | none => pure ()

/-- Walks through the content of a complex type. -/
def content (w : Leaf.Setting) (visit : Visit σ) (path : Path) (type : ComplexType) :
    Walk σ Unit := do
  let content ← ask (w.model.contentOf type)
  match content.particle with
  | some particle => visit path particle
  | none => pure ()

/-- Writes the attributes and the elements of a complex type. `isSubstitute` says that it stands for
an abstract type. -/
def complexType (w : Leaf.Setting) (visit : Visit σ) (path : Path) (type : ComplexType)
    (isSubstitute : Bool) : Walk σ Unit :=
  if path.nearestElement.isNone then fail (.invariant .outsideElement)
  else do
    announce type isSubstitute
    let own ← ask (w.model.wildcardOf type)
    let attrs ← ask (w.model.attributesOf type)
    each attrs (writeAttribute w)
    attributeWildcard (path.push (.complexType type own)) own
    content w visit (path.push (.complexType type own)) type

/-- A type that stands for an abstract one. -/
def chooseSubtype (m : Model) (type : ComplexType) : Walk σ ComplexType := do
  match type.name with
  | none => fail (.shape .anonymousAbstract)
  | some name =>
    match m.concreteSubtypes name with
    | [] => fail (.shape (.noConcreteSubtype name))
    | first :: others =>
      let i ← draw (Draw.index (others.length + 1))
      return (first :: others).getD i first

/-- The type to generate for a declared one, and whether it stands for an abstract type. -/
def effectiveType (m : Model) (declared : TypeDef) : Walk σ (TypeDef × Bool) := do
  match declared with
  | .complex type =>
    if type.isAbstract then
      let subtype ← chooseSubtype m type
      return (.complex subtype, true)
    else return (declared, false)
  | .simple _ => return (declared, false)

/-! ## Elements -/

/-- An element that stands for an abstract one. -/
def chooseSubstitute (m : Model) (decl : ElementDecl) : Walk σ ElementDecl := do
  match m.substitutionMembers decl.name with
  | [] => fail (.shape (.noSubstitute decl.name))
  | first :: others =>
    let i ← draw (Draw.index (others.length + 1))
    return (first :: others).getD i first

/-- Writes a content model as a comment, if it allows more than one row of elements. -/
def comment (model : String) : Walk σ Unit :=
  if ContentModel.isVariable model then tell (.comment model) else pure ()

/-- Writes a comment with the content model of a type. -/
def annotateType (m : Model) (type : ComplexType) : Walk σ Unit := do
  let content ← ask (m.contentOf type)
  match content.particle with
  | none => pure ()
  | some particle => ContentModel.render m particle >>= comment

/-- Writes a comment with the content model of a complex type, if the policy asks for it. -/
def annotate (w : Leaf.Setting) (declared : TypeDef) : Walk σ Unit :=
  match declared with
  | .simple _ => pure ()
  | .complex type => if w.policy.annotateContentModel then annotateType w.model type else pure ()

/-- Writes what the type of an element asks for between its tags, attributes included and text not.
-/
def structured (w : Leaf.Setting) (visit : Visit σ) (path : Path) (type : TypeDef)
    (isSubstitute : Bool) : Walk σ Unit :=
  match type with
  | .complex complex => complexType w visit path complex isSubstitute
  | .simple _ => pure ()

/-- Writes the text of an element whose type allows only text. -/
def text (w : Leaf.Setting) (decl : ElementDecl) (type : TypeDef) : Walk σ Unit := do
  match ← ask (w.model.textType type) with
  | some textType =>
    let value ← fill (Leaf.value w textType decl.name.localName)
    tell (.text value)
  | none => pure ()

/-- Writes an element, from its comment to its end tag. -/
def wholeElement (w : Leaf.Setting) (visit : Visit σ) (path : Path) (decl : ElementDecl) :
    Walk σ Unit := do
  let declared ← ask (w.model.resolveType decl.type)
  let (type, isSubstitute) ← effectiveType w.model declared
  annotate w declared
  note (.element decl type)
  tell (.startElement decl.name.namespaceUri decl.name.localName)
  structured w visit (path.push (.element decl)) type isSubstitute
  text w decl type
  tell .endElement

/-- Writes an element that is not abstract, or leaves it out where it has been entered too often. -/
def concreteElement (w : Leaf.Setting) (visit : Visit σ) (path : Path) (decl : ElementDecl) :
    Walk σ Unit :=
  if recursionLimit < path.recursionDepth decl then note (.leftOut decl)
  else wholeElement w visit path decl

/-- Writes an element, or one that stands for it. -/
def element (w : Leaf.Setting) (visit : Visit σ) (path : Path) (decl : ElementDecl) :
    Walk σ Unit :=
  if decl.isAbstract then do
    let member ← chooseSubstitute w.model decl
    concreteElement w visit path member
  else concreteElement w visit path decl

/-! ## Particles -/

/-- How many of the `n` branches of a choice are visited: all of them or, where the policy does not
ask for all, no more than the choice may occur. -/
def branchCount (policy : Policy) (occurs : Occurs) (n : Nat) : Nat :=
  match occurs.max with
  | some max => if policy.exhaustiveChoices then n else min n max
  | none => n

/-- Visits branches of a choice in random order. -/
def choice (w : Leaf.Setting) (visit : Visit σ) (path : Path) (occurs : Occurs)
    (branches : List Particle) : Walk σ Unit := do
  let shuffled ← draw (Draw.shuffle branches)
  each (shuffled.take (branchCount w.policy occurs branches.length))
    (visit (path.push (.group .choice)))

/-- The particles of a group in the order in which they are visited. -/
def order (group : ModelGroup) : Walk σ (List Particle) :=
  if group.compositor = .all then draw (Draw.shuffle group.particles) else pure group.particles

/-- Visits the particles of a group once. -/
def groupOnce (visit : Visit σ) (path : Path) (group : ModelGroup) : Walk σ Unit := do
  let particles ← order group
  each particles (visit (path.push (.group group.compositor)))

/-- Walks the same way as often as it is decided. -/
def repeated (w : Leaf.Setting) (occurs : Occurs) (walk : Walk σ Unit) : Walk σ Unit := do
  let count ← draw (Count.ofOccurs w.policy occurs)
  times count walk

/-- Visits a model group as often as it is decided. -/
def modelGroup (w : Leaf.Setting) (visit : Visit σ) (path : Path) (group : ModelGroup)
    (occurs : Occurs) : Walk σ Unit :=
  if group.compositor = .choice then choice w visit path occurs group.particles
  else repeated w occurs (groupOnce visit path group)

/-- Writes the global element with a name. -/
def elementOf (w : Leaf.Setting) (visit : Visit σ) (path : Path) (name : QName) : Walk σ Unit := do
  let decl ← ask (w.model.resolveElement name)
  element w visit path decl

/-- Walks through a particle, given how the particles inside it are walked through. -/
def particle (w : Leaf.Setting) (visit : Visit σ) : Visit σ := fun path p =>
  match p.term with
  | .group group => modelGroup w visit path group p.occurs
  | .groupRef name => do
    let group ← ask (w.model.resolveGroup name)
    modelGroup w visit path group p.occurs
  | .element decl => repeated w p.occurs (element w visit path decl)
  | .elementRef name => repeated w p.occurs (elementOf w visit path name)
  | .any own => repeated w p.occurs (wildcard path own)

/-- Walks through a particle with at most `steps` particles inside each other. -/
def visit (w : Leaf.Setting) : Nat → Visit σ
  | 0 => fun _ _ => fail .endless
  | steps + 1 => particle w (visit w steps)

/-- A number of particles that are not exceeded inside each other in a document of a model in which
no model group contains itself: three elements for each declaration, below each of them every model
group once, and in each of these, or in the content of a type with what its bases bring along, no
more particles than the model has parts. -/
def depthBound (m : Model) : Nat :=
  3 * m.declarations.length
    * ((m.groups.size + 1) * ((Model.chainLimit + 2) * (m.parts.length + 1)))

/-! ## Documents -/

/-- Asks for a prefix for the namespace of the root element, if it is in one. -/
def declareRoot (root : QName) : Walk σ Unit :=
  if root.namespaceUri ≠ "" then tell (.declarePrefix root.namespaceUri) else pure ()

/-- Writes a document with at most `steps` particles inside each other. -/
def walkWithin (steps : Nat) (w : Leaf.Setting) (root : QName) : Walk σ Unit := do
  let decl ← ask (w.model.rootElement root)
  tell .startDocument
  tell (.declarePrefix Namespace.xsi)
  declareRoot root
  element w (visit w steps) .empty decl
  tell .endDocument

/-- Writes a document. -/
def walk (w : Leaf.Setting) (root : QName) : Walk σ Unit :=
  walkWithin (depthBound w.model) w root

/-- What a run leads to: its result, the source as the run leaves it, and the writer. -/
structure Outcome (σ ω : Type) where
  result : Except Error Unit
  source : σ
  writer : ω

/-- Generates a document for a root element with a source and a writer. -/
def generate {ω : Type} [Writer ω] (w : Leaf.Setting) (root : QName) (source : σ) (writer : ω) :
    Outcome σ ω :=
  let ((result, supply), writer) := (walk w root { source }).run writer
  ⟨result, supply.source, writer⟩

end Specimen.Document

import Specimen.Generate.Script

/-!
# Content models in short notation

The content of a complex type as text: the particles of a group in parentheses with the separator of
the group between them, `any` for a wildcard, and the occurrence suffix behind each. The name of an
element in a namespace has the prefix that the writer gives. Groups inside each other are followed
`ContentModel.nestingLimit` times and once more.
-/

namespace Specimen.ContentModel

variable {σ : Type}

/-- How deep groups may stand inside the outermost one. -/
def nestingLimit : Nat := 64

/-- The characters that show that a model allows more than one row of elements. -/
def variableMarks : List Char := ['?', '*', '+', '|', ';', '[']

/-- The model allows more than one row of elements. -/
def isVariable (model : String) : Bool := model.toList.any variableMarks.contains

/-- The name of an element with the prefix for its namespace. -/
def renderName (name : QName) : Walk σ String :=
  if name.namespaceUri = "" then pure name.localName
  else do
    let pfx ← Walk.call (.declarePrefix name.namespaceUri)
    return pfx ++ ":" ++ name.localName

/-- The results for the items of a list, in their order. -/
def renderAll (render : Particle → Walk σ String) : List Particle → Walk σ (List String)
  | [] => pure []
  | p :: rest => do
    let text ← render p
    let texts ← renderAll render rest
    return text :: texts

/-- A model group, given how the particles in it are rendered. -/
def renderGroup (render : Particle → Walk σ String) (group : ModelGroup) : Walk σ String := do
  let texts ← renderAll render group.particles
  return "(" ++ group.compositor.separator.intercalate texts ++ ")"

/-- A term, given how the groups in it are rendered. -/
def renderTerm (m : Model) (render : ModelGroup → Walk σ String) : Term → Walk σ String
  | .elementRef name => renderName name
  | .element decl => renderName decl.name
  | .group group => render group
  | .groupRef name => do
    let group ← Walk.ask (m.resolveGroup name)
    render group
  | .any _ => pure "any"

/-- A particle, given how the groups in it are rendered. -/
def renderParticle (m : Model) (render : ModelGroup → Walk σ String) (p : Particle) :
    Walk σ String := do
  let text ← renderTerm m render p.term
  return text ++ p.occurs.suffix

/-- A particle in which at most `steps` groups stand inside each other. -/
def renderWithin (m : Model) : Nat → Particle → Walk σ String
  | 0 => renderParticle m fun _ => Walk.fail (.shape .circularModelGroup)
  | steps + 1 => renderParticle m (renderGroup (renderWithin m steps))

/-- The content model of a particle. -/
def render (m : Model) (p : Particle) : Walk σ String := renderWithin m (nestingLimit + 1) p

end Specimen.ContentModel

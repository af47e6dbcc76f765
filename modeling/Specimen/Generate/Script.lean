import Specimen.Generate.Leaf
import Specimen.Writer.Call

/-!
# Scripts

A run seen from its writer: the calls it makes, one after another, each with the supply as it was at
that moment, and what it does with the answer. A script says all that a run does with any writer,
before there is a writer; `Script.run` performs it. Since a refused call ends the run, a script says
nothing about refusals.

Between the calls a script has notes on what has been decided and no writer is told.
-/

namespace Specimen

/-- A decision that no writer is told of: from which declaration and for which type the element is
generated that is started next, or that an element of a declaration is left out. -/
inductive Note where
  | element (decl : ElementDecl) (type : TypeDef)
  | leftOut (decl : ElementDecl)

/-- A run, from here on. It has either stopped, with a result and a state, or makes a call in a
state and goes on with the answer, or notes a decision. -/
inductive Script (σ α : Type) where
  | stop (result : Except Error α) (state : σ)
  | call (call : Call) (state : σ) (next : String → Script σ α)
  | note (note : Note) (next : Script σ α)

namespace Script

variable {σ α β : Type}

/-- Goes on with the result of a script. -/
def bind : Script σ α → (α → σ → Script σ β) → Script σ β
  | stop (.ok a) s, f => f a s
  | stop (.error e) s, _ => stop (.error e) s
  | call c s next, f => call c s fun answer => (next answer).bind f
  | note n next, f => note n (next.bind f)

/-- Performs a script with a writer. The run ends with the first refusal. -/
def run {ω : Type} [Writer ω] : Script σ α → ω → (Except Error α × σ) × ω
  | stop result s, w => ((result, s), w)
  | call c s next, w =>
    match Writer.perform c w with
    | (.ok answer, w) => (next answer).run w
    | (.error e, w) => ((.error e, s), w)
  | note _ next, w => next.run w

end Script

/-! ## Walks -/

/-- A computation that uses up a supply and makes calls. -/
def Walk (σ α : Type) := Supply σ → Script (Supply σ) α

namespace Walk

variable {σ α β : Type}

instance : Monad (Walk σ) where
  pure a := fun s => .stop (.ok a) s
  bind walk f := fun s => (walk s).bind f

/-- Makes a call and gives the answer. -/
def call (c : Call) : Walk σ String := fun s => .call c s fun answer => .stop (.ok answer) s

/-- Makes a call whose answer does not matter. -/
def tell (c : Call) : Walk σ Unit := fun s => .call c s fun _ => .stop (.ok ()) s

/-- Notes a decision. -/
def note (n : Note) : Walk σ Unit := fun s => .note n (.stop (.ok ()) s)

/-- Ends the run. -/
def fail (e : Error) : Walk σ α := fun s => .stop (.error e) s

/-- An answer about the schema. -/
def ask (answer : Except Error α) : Walk σ α := fun s => .stop answer s

/-- Fills a leaf. -/
def fill (filling : Filling σ α) : Walk σ α := fun s =>
  let (result, s) := filling s
  .stop result s

/-- A draw from the source. -/
def draw (f : σ → α × σ) : Walk σ α := fill (Filling.draw f)

/-- Walks the same way `n` times. -/
def times : Nat → Walk σ Unit → Walk σ Unit
  | 0, _ => pure ()
  | n + 1, walk => do
    walk
    times n walk

/-- Walks through the items of a list. -/
def each : List β → (β → Walk σ Unit) → Walk σ Unit
  | [], _ => pure ()
  | b :: rest, walk => do
    walk b
    each rest walk

end Walk

end Specimen

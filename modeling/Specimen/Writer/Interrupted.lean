import Specimen.Writer.Recorder

/-!
# Interrupted event lists

A writer that records calls until the `n`-th call of one kind, which it refuses. It goes on counting
the calls that are made after the refusal.
-/

namespace Specimen

/-- A recorder, the kind of call that is refused, and how many calls of this kind are still taken,
the refused one included; zero refuses none. -/
structure Interrupted where
  recorder : Recorder := {}
  kind : CallKind
  left : Nat
  hasRefused : Bool := false
  callsAfter : Nat := 0

namespace Interrupted

/-- The refusal. -/
def refusal : Error := .write (.refused "boom")

/-- Takes a call, unless it is the one to be refused. -/
def perform (call : Call) (w : Interrupted) : Except Error String × Interrupted :=
  let w := if w.hasRefused then { w with callsAfter := w.callsAfter + 1 } else w
  let left := if call.kind = w.kind then w.left - 1 else w.left
  if call.kind = w.kind && w.left == 1 then
    (.error refusal, { w with left, hasRefused := true })
  else
    let (answer, recorder) := w.recorder.perform call
    (answer, { w with recorder, left })

instance : Writer Interrupted := ⟨perform⟩

end Interrupted

end Specimen

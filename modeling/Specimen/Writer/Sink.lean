/-!
# Sinks

Where a writer puts text. A sink may have room for a number of bytes only; it refuses the first text
that would take it past that number, and every text after it.
-/

namespace Specimen

/-- The text so far, the number of bytes there is room for, and whether a text has been refused. -/
structure Sink where
  written : String := ""
  room : Option Nat := none
  isFull : Bool := false
deriving DecidableEq, Repr, Inhabited

namespace Sink

/-- The words with which a sink refuses a text. -/
def refusal : String := "disk full"

/-- There is room for a text. -/
def hasRoom (s : Sink) (text : String) : Bool :=
  !s.isFull && (match s.room with
    | some limit => s.written.utf8ByteSize + text.utf8ByteSize ≤ limit
    | none => true)

/-- Puts a text behind what is there, if there is room. -/
def put (s : Sink) (text : String) : Bool × Sink :=
  if s.hasRoom text then (true, { s with written := s.written ++ text })
  else (false, { s with isFull := true })

end Sink

end Specimen

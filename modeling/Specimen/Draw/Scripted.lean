import Specimen.Draw.Source

/-!
# Scripted sources

A source that yields given words first. After them the words are the multiples of an odd constant,
by the number of words drawn so far. A word of 32 bits is the lower half of one of 64.
-/

namespace Specimen

/-- The words still to come, and the number of words drawn so far. -/
structure Scripted where
  words : List UInt64
  drawn : Nat := 0

namespace Scripted

/-- The constant whose multiples follow the given words. -/
def stride : UInt64 := 0x9E3779B97F4A7C15

/-- The next word. -/
def next (s : Scripted) : UInt64 × Scripted :=
  match s.words with
  | w :: rest => (w, ⟨rest, s.drawn + 1⟩)
  | [] => (s.drawn.toUInt64 * stride, ⟨[], s.drawn + 1⟩)

instance : Source Scripted where
  next32 s :=
    let (w, s) := s.next
    (w.toUInt32, s)
  next64 := next

end Scripted

end Specimen

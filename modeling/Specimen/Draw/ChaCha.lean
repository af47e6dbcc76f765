import Specimen.Draw.Source

/-!
# Seeded sources

A source that is determined by a seed of 64 bits: the key stream of the ChaCha cipher with twelve
rounds. The seed is spread over the key by a congruential generator with permuted output. A word of
64 bits is two words of 32, the lower half first.
-/

namespace Specimen

/-! ## The block function -/

namespace ChaCha

/-- Turns the bits of a word to the left. -/
def rotateLeft (x : UInt32) (n : UInt32) : UInt32 := (x <<< n) ||| (x >>> (32 - n))

/-- The word at a place of a block. -/
def word (block : Array UInt32) (i : Nat) : UInt32 := block[i]?.getD 0

/-- One step of a quarter round: adds the word at `b` to that at `a`, and turns what the word at `d`
becomes when the sum is added to it without carries. -/
def mix (a b d : Nat) (turn : UInt32) (block : Array UInt32) : Array UInt32 :=
  let sum := word block a + word block b
  let block := block.setIfInBounds a sum
  block.setIfInBounds d (rotateLeft (word block d ^^^ sum) turn)

/-- A quarter round on four places. -/
def quarterRound (a b c d : Nat) (block : Array UInt32) : Array UInt32 :=
  mix c d b 7 (mix a b d 8 (mix c d b 12 (mix a b d 16 block)))

/-- Two rounds: one on the columns and one on the diagonals. -/
def doubleRound (block : Array UInt32) : Array UInt32 :=
  let columns := quarterRound 3 7 11 15 (quarterRound 2 6 10 14
    (quarterRound 1 5 9 13 (quarterRound 0 4 8 12 block)))
  quarterRound 3 4 9 14 (quarterRound 2 7 8 13
    (quarterRound 1 6 11 12 (quarterRound 0 5 10 15 columns)))

/-- The words that every block begins with. -/
def constants : Array UInt32 := #[0x61707865, 0x3320646e, 0x79622d32, 0x6b206574]

/-- The block that is permuted for a key and a counter. -/
def initial (key : Array UInt32) (counter : UInt64) : Array UInt32 :=
  constants ++ key ++ #[counter.toUInt32, (counter >>> 32).toUInt32, 0, 0]

/-- The key stream of one counter value: twelve rounds, then the initial block is added. -/
def block (key : Array UInt32) (counter : UInt64) : Array UInt32 :=
  let start := initial key counter
  let permuted := Nat.repeat doubleRound 6 start
  Array.zipWith (· + ·) permuted start

/-! ## Keys -/

/-- The step of the generator that spreads the seed. -/
def stepSeed (s : UInt64) : UInt64 := s * 6364136223846793005 + 11634580027462260723

/-- The word that a state of that generator yields. -/
def seedWord (s : UInt64) : UInt32 :=
  let x := (((s >>> 18) ^^^ s) >>> 27).toUInt32
  let turn := (s >>> 59).toUInt32
  (x >>> turn) ||| (x <<< ((32 - turn) &&& 31))

/-- The next `n` words that the generator yields from a state. -/
def seedWords : Nat → UInt64 → List UInt32
  | 0, _ => []
  | n + 1, s => seedWord (stepSeed s) :: seedWords n (stepSeed s)

/-- The key of a seed. -/
def keyOf (seed : UInt64) : Array UInt32 := (seedWords 8 seed).toArray

end ChaCha

/-! ## The source -/

/-- The key stream of a key from a block on, and what is left of the block before. -/
structure KeyStream where
  key : Array UInt32
  counter : UInt64
  rest : List UInt32

namespace KeyStream

/-- The source of a seed. -/
def seeded (seed : UInt64) : KeyStream := ⟨ChaCha.keyOf seed, 0, []⟩

/-- The next word. -/
def next (s : KeyStream) : UInt32 × KeyStream :=
  match s.rest with
  | w :: rest => (w, { s with rest })
  | [] =>
    match (ChaCha.block s.key s.counter).toList with
    | [] => (0, s)
    | w :: rest => (w, ⟨s.key, s.counter + 1, rest⟩)

instance : Source KeyStream where
  next32 := next
  next64 s :=
    let (low, s) := s.next
    let (high, s) := s.next
    (low.toUInt64 ||| (high.toUInt64 <<< 32), s)

end KeyStream

end Specimen

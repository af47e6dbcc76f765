/-!
# Sources of random words

Every decision of a run takes its randomness from one source, a state that yields words of 32 or 64
bits. The draws of this module are made of such words only, so they can be followed word by word,
and a source that yields the same words leads to the same decisions.

Uniform numbers below a bound are found by rejection: a word that would favour some numbers is
thrown away and another one is drawn. A source may keep yielding words that are thrown away; after
`Draw.patience` of them the next word is used as it is.
-/

namespace Specimen

/-- A source of random words. -/
class Source (σ : Type) where
  next32 : σ → UInt32 × σ
  next64 : σ → UInt64 × σ

export Source (next32 next64)

namespace Draw

variable {σ : Type} [Source σ]

/-! ## The unit interval -/

/-- The number of a word in the unit interval: its upper 53 bits, divided by 2^53. -/
def unitOf (w : UInt64) : Float := (w >>> 11).toFloat / 9007199254740992

/-- A number that is at least zero and below one. -/
def unit (s : σ) : Float × σ :=
  let (w, s) := next64 s
  (unitOf w, s)

/-- A fair coin. -/
def coin (s : σ) : Bool × σ :=
  let (u, s) := unit s
  (u < 0.5, s)

/-! ## Numbers below a bound -/

/-- The number of words that are thrown away at most for one number. -/
def patience : Nat := 4096

/-- The number of binary digits of a number. -/
def bitLength (n : Nat) : Nat := if n = 0 then 0 else n.log2 + 1

/-- The remainders of the words of `bits` bits that are used for a number below `n` end here: what
is below is a multiple of `n`, and as large as the highest digit of `n` allows. -/
def zone (bits n : Nat) : Nat := n * Nat.pow 2 (bits - bitLength n)

/-- A number below `n` from words of `bits` bits: the upper half of the product of a word and `n`,
if its lower half is in the zone. -/
def belowFrom (draw : σ → Nat × σ) (bits n : Nat) : Nat → σ → Nat × σ
  | 0, s =>
    let (w, s) := draw s
    (w * n / Nat.pow 2 bits, s)
  | retries + 1, s =>
    let (w, s) := draw s
    if w * n % Nat.pow 2 bits < zone bits n then (w * n / Nat.pow 2 bits, s)
    else belowFrom draw bits n retries s

/-- A number below `n`, which is positive, from words of 64 bits. -/
def index (n : Nat) (s : σ) : Nat × σ :=
  belowFrom (fun s => let (w, s) := next64 s; (w.toNat, s)) 64 n patience s

/-- A number below `n`, which is positive, from words of 32 bits. -/
def shortIndex (n : Nat) (s : σ) : Nat × σ :=
  belowFrom (fun s => let (w, s) := next32 s; (w.toNat, s)) 32 n patience s

/-! ## Lists -/

/-- One of the items. The empty list has none, and no word is drawn for it. -/
def pick {α : Type} (items : List α) (s : σ) : Option α × σ :=
  if items.isEmpty then (none, s)
  else
    let (i, s) := index items.length s
    (items[i]?, s)

/-- Exchanges each item from position `i` down with one that does not stand behind it. -/
def shuffleFrom {α : Type} : Nat → Array α → σ → Array α × σ
  | 0, items, s => (items, s)
  | i + 1, items, s =>
    let (j, s) := shortIndex (i + 2) s
    shuffleFrom i (items.swapIfInBounds (i + 1) j) s

/-- The items in random order. -/
def shuffle {α : Type} (items : List α) (s : σ) : List α × σ :=
  let (shuffled, s) := shuffleFrom (items.length - 1) items.toArray s
  (shuffled.toList, s)

end Draw

end Specimen

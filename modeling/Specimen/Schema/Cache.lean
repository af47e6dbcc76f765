import Specimen.Schema.Loading

/-!
# Caches

A table of results by the files they were made from, whatever the addresses by which a file is asked
for. A file gets a slot when it is first asked for, and the slot is filled with the result that is
then made; a failure is reported and leaves the slot empty, so the next one who asks tries again.
What makes a result is a step on a state of its own, from which it can be told whether it was made
or only looked up.
-/

namespace Specimen

/-- A result with the number under which it was made. -/
structure Cached (α : Type) where
  serial : Nat
  value : α
deriving Repr

/-- The slots, each by the one address of its file and empty or filled, and the number of the next
result. -/
structure Cache (α : Type) where
  slots : List (Address × Option (Cached α)) := []
  next : Nat := 0

namespace Cache

variable {α : Type}

/-- The address by which the result for a file is kept. -/
def key (fs : Files) (a : Address) : Except Error Address :=
  (fs.canonical a).mapError fun fault => .resource (.noSuchSchema a.text fault)

/-- The result in the slot of a key. -/
def get? (c : Cache α) (key : Address) : Option (Cached α) := (c.slots.lookup key).join

/-- Gives a key an empty slot if it has none. -/
def reserve (c : Cache α) (key : Address) : Cache α :=
  if (c.slots.lookup key).isSome then c else { c with slots := c.slots ++ [(key, none)] }

/-- Fills the slot of a key with a new result. -/
def fill (c : Cache α) (key : Address) (value : α) : Cached α × Cache α :=
  let cached := ⟨c.next, value⟩
  (cached, ⟨c.slots.map fun slot => if slot.1 = key then (key, some cached) else slot, c.next + 1⟩)

/-- The result for a file, which `make` is asked for if none is kept. -/
def fetch {σ : Type} (c : Cache α) (fs : Files) (a : Address)
    (make : Address → σ → Except Error α × σ) (s : σ) :
    Except Error (Cached α) × Cache α × σ :=
  match key fs a with
  | .error e => (.error e, c, s)
  | .ok key =>
    let c := c.reserve key
    match c.get? key with
    | some cached => (.ok cached, c, s)
    | none =>
      match make key s with
      | (.error e, s) => (.error e, c, s)
      | (.ok value, s) =>
        let (cached, c) := c.fill key value
        (.ok cached, c, s)

/-- A result is kept for a file. -/
def contains (c : Cache α) (fs : Files) (a : Address) : Bool :=
  match key fs a with
  | .ok key => (c.get? key).isSome
  | .error _ => false

/-- The number of results that are kept, which is the number of the filled slots. -/
def size (c : Cache α) : Nat := c.slots.countP (·.2.isSome)

/-- Nothing is kept. -/
def isEmpty (c : Cache α) : Bool := c.size == 0

/-- Drops all slots, but not how many results were made. -/
def clear (c : Cache α) : Cache α := { c with slots := [] }

end Cache

/-- The schema of a file, by the one address that the file has. -/
def Model.openFile (fs : Files) (a : Address) : Except Error Model := do
  Model.ofFile fs (← Cache.key fs a)

end Specimen

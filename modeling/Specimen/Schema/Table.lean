import Specimen.Name.Basic

/-!
# Tables of named components

A table keeps its entries in the order in which their names were first entered. Entering a name
again replaces its component and leaves its place.
-/

namespace Specimen

/-- Named components in the order of their first entry. -/
structure Table (α : Type) where
  entries : List (QName × α) := []

namespace Table

variable {α : Type}

/-- The table without an entry. -/
def empty : Table α := ⟨[]⟩

instance : Inhabited (Table α) := ⟨empty⟩

/-- The component with a name, if there is one. -/
def get? (t : Table α) (name : QName) : Option α := t.entries.lookup name

/-- Replaces the component of a name, or adds it at the end. -/
def insertInto (name : QName) (a : α) : List (QName × α) → List (QName × α)
  | [] => [(name, a)]
  | entry :: rest =>
    if entry.1 = name then (entry.1, a) :: rest else entry :: insertInto name a rest

/-- Enters a component under a name. -/
def insert (t : Table α) (name : QName) (a : α) : Table α := ⟨insertInto name a t.entries⟩

/-- The names in order. -/
def names (t : Table α) : List QName := t.entries.map Prod.fst

/-- The components in order. -/
def values (t : Table α) : List α := t.entries.map Prod.snd

/-- The number of entries. -/
def size (t : Table α) : Nat := t.entries.length

theorem lookup_insertInto (name other : QName) (a : α) (entries : List (QName × α)) :
    (insertInto name a entries).lookup other
      = if other = name then some a else entries.lookup other := by
  induction entries with
  | nil =>
    by_cases h : other = name
    · simp [insertInto, h]
    · simp [insertInto, List.lookup_cons, beq_false_of_ne h, h]
  | cons entry rest ih =>
    obtain ⟨key, b⟩ := entry
    by_cases hk : key = name
    · subst hk
      by_cases h : other = key
      · simp [insertInto, h]
      · simp [insertInto, List.lookup_cons, beq_false_of_ne h, h]
    · by_cases h : other = key
      · subst h; simp [insertInto, hk]
      · simp [insertInto, List.lookup_cons, hk, beq_false_of_ne h, ih]

/-- Entering a component changes what its own name stands for, and nothing else. -/
theorem get?_insert (t : Table α) (name other : QName) (a : α) :
    (t.insert name a).get? other = if other = name then some a else t.get? other :=
  lookup_insertInto name other a t.entries

end Table

end Specimen

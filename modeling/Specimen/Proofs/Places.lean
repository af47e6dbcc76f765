/-!
# Places in a row

What is said of an item of a row is said with the items before it and behind it. If it stays true
with more items around, it holds of the items of two rows one behind the other if it holds of those
of each. So it is a law of rows.
-/

namespace Specimen

/-- What may be said of some items, and is said of two rows of items one behind the other if it is
said of each. -/
structure IsRowLaw {α : Type} (Q : List α → Prop) : Prop where
  nil : Q []
  append {l l' : List α} : Q l → Q l' → Q (l ++ l')

/-- What may be said of an item, with the items before it and behind it. -/
abbrev PlaceLaw (α : Type) := List α → α → List α → Prop

variable {α : Type}

/-- More items may stand around the item. -/
def PlaceLaw.IsLocal (P : PlaceLaw α) : Prop :=
  ∀ before a after, P before a after → ∀ outer more, P (outer ++ before) a (after ++ more)

/-- This is so for each of the items. -/
def EachPlace (P : PlaceLaw α) (l : List α) : Prop :=
  ∀ before a after, l = before ++ a :: after → P before a after

namespace EachPlace

variable {P : PlaceLaw α} {l l' before : List α} {a : α}

theorem of_forall (h : ∀ a ∈ l, ∀ before after, P before a after) : EachPlace P l := by
  rintro before a after rfl
  exact h a (List.mem_append_right _ List.mem_cons_self) before after

theorem nil : EachPlace P [] := of_forall fun _ hmem => absurd hmem List.not_mem_nil

/-- A place in two rows one behind the other is a place in the one or in the other. -/
theorem of_append (h : ∀ before a after, l = before ++ a :: after → P before a (after ++ l'))
    (h' : ∀ before a after, l' = before ++ a :: after → P (l ++ before) a after) :
    EachPlace P (l ++ l') := by
  intro before a after heq
  rcases List.append_eq_append_iff.mp heq with ⟨more, rfl, hl'⟩ | ⟨more, rfl, hmore⟩
  · exact h' _ _ _ hl'
  · cases more with
    | nil =>
      have hplace := h' [] _ _ hmore.symm
      rwa [List.append_nil, List.append_nil] at hplace
    | cons first more =>
      obtain ⟨rfl, rfl⟩ := List.cons.inj hmore
      exact h _ _ _ rfl

theorem append (hP : P.IsLocal) (h : EachPlace P l) (h' : EachPlace P l') :
    EachPlace P (l ++ l') := by
  refine of_append (fun before a after heq => ?_) fun before a after heq => ?_
  · exact hP _ _ _ (h _ _ _ heq) [] l'
  · have hplace := hP _ _ _ (h' _ _ _ heq) l []
    rwa [List.append_nil] at hplace

/-- This is so for an item with all that stands around it, and for the items before it and behind
it. -/
theorem around (hP : P.IsLocal) (hplace : P before a l) (hbefore : EachPlace P before)
    (hl : EachPlace P l) : EachPlace P (before ++ a :: l) := by
  refine of_append (fun before' b after heq => ?_) fun before' b after heq => ?_
  · exact hP _ _ _ (hbefore _ _ _ heq) [] _
  · cases before' with
    | nil =>
      obtain ⟨rfl, rfl⟩ := List.cons.inj heq
      rwa [List.append_nil]
    | cons first before' =>
      obtain ⟨rfl, rfl⟩ := List.cons.inj heq
      have hlater := hP _ _ _ (hl _ _ _ rfl) (before ++ [a]) []
      simpa using hlater

end EachPlace

/-- **What is said of each place is a law of rows.** -/
theorem isRowLaw_eachPlace {P : PlaceLaw α} (hP : P.IsLocal) : IsRowLaw (EachPlace P) :=
  ⟨.nil, .append hP⟩

end Specimen

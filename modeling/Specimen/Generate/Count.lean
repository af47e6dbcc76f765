import Specimen.Draw.Range
import Specimen.Policy.Basic
import Specimen.Schema.Occurs

/-!
# Counts

How often something is repeated: a number from the declared range and, if the two have a number in
common, from the range of the policy as well. Where they have none, the declared range decides, so
that the document stays valid.
-/

namespace Specimen.Count

variable {σ : Type} [Source σ]

/-- The bounds of a count, from the declared range, which may be open above, and that of the policy.
An open range ends at the upper bound of the policy or, if that is below, where it begins. -/
def bounds (min : Nat) (max : Option Nat) (policyMin policyMax : Nat) : Nat × Nat :=
  let top := max.getD (Nat.max min policyMax)
  if policyMax < min || top < policyMin then (min, top)
  else (Nat.max min policyMin, Nat.min top policyMax)

/-- A count from the declared range and that of the policy. Nothing is drawn when only one number is
possible. -/
def within (min : Nat) (max : Option Nat) (policyMin policyMax : Nat) (s : σ) : Nat × σ :=
  let (low, high) := bounds min max policyMin policyMax
  if low = high then (low, s) else Draw.nat low high s

/-- How often the term of a particle occurs. A term that is present or absent is settled by the flag
for optional elements alone. -/
def ofOccurs (policy : Policy) (occurs : Occurs) (s : σ) : Nat × σ :=
  if occurs.isOptional then
    let (present, s) := policy.optionalElements.draw s
    (if present then 1 else 0, s)
  else within occurs.min occurs.max policy.minElements policy.maxElements s

/-- The number of items of a list, from its length facets. A fixed length goes before all else. -/
def ofLengths (policy : Policy) (length minLength maxLength : Option Nat) (s : σ) : Nat × σ :=
  match length with
  | some n => (n, s)
  | none => within (minLength.getD 0) maxLength policy.minListItems policy.maxListItems s

end Specimen.Count

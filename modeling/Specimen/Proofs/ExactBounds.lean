import Specimen.Proofs.NumberReading

/-!
# Bounds as exact decimals

The bounds of a numeric type are texts that denote fractions. This module says which numbers keep to
them, whatever double precision makes of them, and how they are related to the bounds that are read:
each of these is a number that is nearest to what the text denotes.
-/

namespace Specimen

open Decimal

/-! ## Bounds as they are written -/

/-- A bound with the fraction that its text denotes. -/
structure ExactBound where
  value : ℚ
  isExclusive : Bool

namespace ExactBound

/-- A number is permitted by a lower bound. -/
def IsBelow (b : ExactBound) (q : ℚ) : Prop := if b.isExclusive then b.value < q else b.value ≤ q

/-- A number is permitted by an upper bound. -/
def IsAbove (b : ExactBound) (q : ℚ) : Prop := if b.isExclusive then q < b.value else q ≤ b.value

/-- The bound of one side that is declared first along a chain, if there is one; nothing if it is
not a decimal number. -/
def nearest? (inclusive exclusive : FacetKind) (chain : List SimpleType) :
    Option (Option ExactBound) :=
  match chain.findSome? (NumericRange.declaredBound inclusive exclusive) with
  | some (_, isExclusive, value) => (numberOf? (Text.trim value)).map fun q => some ⟨q, isExclusive⟩
  | none => some none

/-- A bound that is read without loss where whole numbers of 64 bits are drawn: it is a whole
number, and double precision has it or it is at an end of these numbers or beyond. An exclusive one
is not beyond, since it would be moved to an end first and inwards then. -/
def IsWhole (b : ExactBound) : Prop :=
  ∃ z : ℤ, b.value = z
    ∧ (double.Holds z ∨ z ≤ NumericRange.minInt ∨ NumericRange.maxInt ≤ z)
    ∧ (b.isExclusive = true → NumericRange.minInt ≤ z ∧ z ≤ NumericRange.maxInt)

/-- A bound that stays a number of the format when it is moved by one: a whole number with a digit
less than the format has. -/
def IsSmall (f : Format) (b : ExactBound) : Prop := ∃ z : ℤ, b.value = z ∧ |z| < 2 ^ (f.digits - 1)

variable {b : ExactBound} {p q : ℚ}

theorem IsBelow.mono (h : b.IsBelow p) (hpq : p ≤ q) : b.IsBelow q := by
  unfold IsBelow at h ⊢
  split at h
  · next hexclusive =>
    rw [if_pos hexclusive]
    exact lt_of_lt_of_le h hpq
  · next hinclusive =>
    rw [if_neg hinclusive]
    exact h.trans hpq

theorem IsAbove.anti (h : b.IsAbove q) (hpq : p ≤ q) : b.IsAbove p := by
  unfold IsAbove at h ⊢
  split at h
  · next hexclusive =>
    rw [if_pos hexclusive]
    exact lt_of_le_of_lt hpq h
  · next hinclusive =>
    rw [if_neg hinclusive]
    exact hpq.trans h

end ExactBound

/-- The bounds of a type, either of which may be missing. -/
structure ExactRange where
  lower : Option ExactBound
  upper : Option ExactBound

namespace ExactRange

/-- The bounds that are declared along a chain, if they are decimal numbers. -/
def ofChain? (chain : List SimpleType) : Option ExactRange := do
  let lower ← ExactBound.nearest? .minInclusive .minExclusive chain
  let upper ← ExactBound.nearest? .maxInclusive .maxExclusive chain
  return ⟨lower, upper⟩

/-- A number keeps to the bounds. -/
def Has (e : ExactRange) (q : ℚ) : Prop :=
  (∀ b ∈ e.lower, b.IsBelow q) ∧ ∀ b ∈ e.upper, b.IsAbove q

/-- A text denotes a number that keeps to the bounds. -/
def HasText (e : ExactRange) (text : String) : Prop := ∃ q, numberOf? text = some q ∧ e.Has q

/-- Both bounds are read without loss where whole numbers are drawn. -/
def IsWhole (e : ExactRange) : Prop := (∀ b ∈ e.lower, b.IsWhole) ∧ ∀ b ∈ e.upper, b.IsWhole

/-- Both bounds stay numbers of the format when they are moved by one. -/
def IsSmall (f : Format) (e : ExactRange) : Prop :=
  (∀ b ∈ e.lower, b.IsSmall f) ∧ ∀ b ∈ e.upper, b.IsSmall f

/-- What is between two permitted numbers is permitted. -/
theorem Has.between {e : ExactRange} {p q r : ℚ} (hp : e.Has p) (hr : e.Has r)
    (hlow : min p r ≤ q) (hhigh : q ≤ max p r) : e.Has q := by
  rcases le_total p r with h | h
  · rw [min_eq_left h] at hlow
    rw [max_eq_right h] at hhigh
    exact ⟨fun b hb => (hp.1 b hb).mono hlow, fun b hb => (hr.2 b hb).anti hhigh⟩
  · rw [min_eq_right h] at hlow
    rw [max_eq_left h] at hhigh
    exact ⟨fun b hb => (hr.1 b hb).mono hlow, fun b hb => (hp.2 b hb).anti hhigh⟩

end ExactRange

/-! ## The range of a type -/

namespace NumericRange

/-- A bound is read as the fraction that its text denotes. -/
def Reads (b : Bound) (exact : ExactBound) : Prop :=
  b.isExclusive = exact.isExclusive ∧ Rounds double b.value exact.value

variable {e : ExactRange}

/-- A bound that is a decimal number is read. -/
theorem exists_nearestBound {inclusive exclusive : FacetKind} {chain : List SimpleType}
    {exact : Option ExactBound} (h : ExactBound.nearest? inclusive exclusive chain = some exact) :
    ∃ bound, nearestBound inclusive exclusive chain = .ok bound ∧ Option.Rel Reads bound exact := by
  rw [ExactBound.nearest?] at h
  rw [nearestBound]
  cases hfound : chain.findSome? (declaredBound inclusive exclusive) with
  | none =>
    rw [hfound] at h
    cases h
    exact ⟨none, rfl, .none⟩
  | some first =>
    obtain ⟨kind, isExclusive, value⟩ := first
    rw [hfound] at h
    obtain ⟨q, hq, rfl⟩ := Option.map_eq_some_iff.mp h
    obtain ⟨x, hx, hrounds⟩ := exists_read isNarrow_double hq
    simp only [readBound, hx]
    exact ⟨_, rfl, .some ⟨rfl, hrounds⟩⟩

/-- The range of a type whose bounds are decimal numbers. -/
theorem exists_ofType {m : Model} {type : SimpleType} {chain : List SimpleType}
    {fraction : Option ℕ} (hchain : m.chain type = .ok chain)
    (hexact : ExactRange.ofChain? chain = some e) (htotal : m.countFacet type .totalDigits = .ok none)
    (hfraction : m.countFacet type .fractionDigits = .ok fraction) :
    ∃ r, ofType m type = .ok r ∧ r.totalDigits = none ∧ r.fractionDigits = fraction
      ∧ Option.Rel Reads r.min e.lower ∧ Option.Rel Reads r.max e.upper := by
  obtain ⟨lower, hlower, hrest⟩ := Option.bind_eq_some_iff.mp hexact
  obtain ⟨upper, hupper, heq⟩ := Option.bind_eq_some_iff.mp hrest
  cases heq
  obtain ⟨min, hmin, hreads⟩ := exists_nearestBound hlower
  obtain ⟨max, hmax, hreads'⟩ := exists_nearestBound hupper
  refine ⟨⟨min, max, none, fraction⟩, ?_, rfl, rfl, hreads, hreads'⟩
  rw [ofType, hchain, htotal, hfraction]
  simp only [bind, Except.bind, hmin, hmax]
  rfl

end NumericRange

end Specimen

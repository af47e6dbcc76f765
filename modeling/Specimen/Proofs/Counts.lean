import Specimen.Draw.Scripted
import Specimen.Proofs.Draws

/-!
# Counts from two ranges

A count suits the range that a schema declares, whatever the policy asks for, and the range of the
policy as well where the two have a number in common. The bounds of the policy may be reversed. Then
the bounds that are left may be reversed too, but both are still in the declared range, and so is
what lies between them.

If the two bounds that are left are the same, nothing is drawn. Otherwise one number of the unit
interval is, and it does not matter which one it is, or whether it is a number at all: what is made
of it lies between the bounds.
-/

namespace Specimen.Count

variable {σ : Type} [Source σ] {occurs : Occurs} {policyMin policyMax : Nat}

/-! ## Numbers that suit -/

/-- The number is in the declared range. Where that is open above, it is not above the policy unless
the schema asks for as many, and it is in the range of the policy if the two have a number in
common. -/
structure Suits (occurs : Occurs) (policyMin policyMax n : Nat) : Prop where
  declared : occurs.contains n = true
  unbounded : occurs.max = none → n ≤ max occurs.min policyMax
  policy : ∀ common, occurs.contains common = true → policyMin ≤ common → common ≤ policyMax →
    policyMin ≤ n ∧ n ≤ policyMax

/-- What lies between two numbers that suit does so as well. -/
theorem Suits.between {a b n : Nat} (ha : Suits occurs policyMin policyMax a)
    (hb : Suits occurs policyMin policyMax b) (hlow : min a b ≤ n) (hhigh : n ≤ max a b) :
    Suits occurs policyMin policyMax n where
  declared := by
    obtain ⟨hlowA, hhighA⟩ := Occurs.contains_iff.mp ha.declared
    obtain ⟨hlowB, hhighB⟩ := Occurs.contains_iff.mp hb.declared
    refine Occurs.contains_iff.mpr ⟨by omega, fun top htop => ?_⟩
    have := hhighA top htop
    have := hhighB top htop
    omega
  unbounded hnone := by
    have := ha.unbounded hnone
    have := hb.unbounded hnone
    omega
  policy common hcommon hmin hmax := by
    have := ha.policy common hcommon hmin hmax
    have := hb.policy common hcommon hmin hmax
    omega

/-- The bounds that are left of a declared range. -/
def boundsOf (occurs : Occurs) (policyMin policyMax : Nat) : Nat × Nat :=
  bounds occurs.min occurs.max policyMin policyMax

theorem boundsOf_le_of_unbounded (h : occurs.max = none) (policyMin policyMax : Nat) :
    (boundsOf occurs policyMin policyMax).1 ≤ max occurs.min policyMax
      ∧ (boundsOf occurs policyMin policyMax).2 ≤ max occurs.min policyMax := by
  simp only [boundsOf, bounds, h, Option.getD_none]
  split
  · exact ⟨Nat.le_max_left _ _, Nat.le_refl _⟩
  · next hmeet =>
    simp only [Bool.or_eq_true, decide_eq_true_eq, not_or, Nat.not_lt] at hmeet
    exact ⟨Nat.max_le.mpr ⟨Nat.le_max_left _ _, hmeet.2⟩, Nat.min_le_left _ _⟩

/-- Where the two ranges meet, both bounds are in the range of the policy. -/
theorem boundsOf_mem_policy {common : Nat} (h : occurs.contains common = true)
    (hmin : policyMin ≤ common) (hmax : common ≤ policyMax) :
    (policyMin ≤ (boundsOf occurs policyMin policyMax).1
        ∧ (boundsOf occurs policyMin policyMax).1 ≤ policyMax)
      ∧ policyMin ≤ (boundsOf occurs policyMin policyMax).2
        ∧ (boundsOf occurs policyMin policyMax).2 ≤ policyMax := by
  obtain ⟨hfrom, hto⟩ := Occurs.contains_iff.mp h
  have htop : common ≤ occurs.max.getD (Nat.max occurs.min policyMax) := by
    cases ho : occurs.max with
    | none => exact Nat.le_trans hmax (Nat.le_max_right _ _)
    | some top => exact hto top ho
  have hmeet : (decide (policyMax < occurs.min)
      || decide (occurs.max.getD (Nat.max occurs.min policyMax) < policyMin)) = false := by
    rw [Bool.or_eq_false_iff, decide_eq_false_iff_not, decide_eq_false_iff_not]
    omega
  simp only [boundsOf, bounds, hmeet, Bool.false_eq_true, if_false]
  refine ⟨⟨Nat.le_max_right _ _, Nat.max_le.mpr ⟨by omega, by omega⟩⟩, ?_, Nat.min_le_right _ _⟩
  exact Nat.le_min.mpr ⟨by omega, by omega⟩

/-- Both bounds suit, in whatever order they are. -/
theorem suits_boundsOf (h : occurs.InOrder) (policyMin policyMax : Nat) :
    Suits occurs policyMin policyMax (boundsOf occurs policyMin policyMax).1
      ∧ Suits occurs policyMin policyMax (boundsOf occurs policyMin policyMax).2 := by
  obtain ⟨hlow, hhigh⟩ := bounds_mem h policyMin policyMax
  refine ⟨⟨Occurs.contains_iff.mpr hlow, fun hnone => ?_, fun common hcommon hmin hmax => ?_⟩,
    ⟨Occurs.contains_iff.mpr hhigh, fun hnone => ?_, fun common hcommon hmin hmax => ?_⟩⟩
  · exact (boundsOf_le_of_unbounded hnone policyMin policyMax).1
  · exact (boundsOf_mem_policy hcommon hmin hmax).1
  · exact (boundsOf_le_of_unbounded hnone policyMin policyMax).2
  · exact (boundsOf_mem_policy hcommon hmin hmax).2

/-! ## Counts that suit -/

/-- The count always suits the two ranges. If one number only is left between them, it is this one
and the source stays as it is. Otherwise one number of the unit interval is drawn, and the count
suits whatever that is. -/
structure KeepsTo (occurs : Occurs) (policyMin policyMax : Nat) (count : σ → Nat × σ) : Prop where
  settled : (boundsOf occurs policyMin policyMax).1 = (boundsOf occurs policyMin policyMax).2 →
    ∃ n, Suits occurs policyMin policyMax n ∧ ∀ s, count s = (n, s)
  drawn : (boundsOf occurs policyMin policyMax).1 ≠ (boundsOf occurs policyMin policyMax).2 →
    ∃ number : Float → Nat, (∀ u, Suits occurs policyMin policyMax (number u))
      ∧ ∀ s, count s = (number (Draw.unit s).1, (Draw.unit s).2)

theorem keepsTo_within (h : occurs.InOrder) (policyMin policyMax : Nat) :
    KeepsTo (σ := σ) occurs policyMin policyMax
      (within occurs.min occurs.max policyMin policyMax) where
  settled heq := ⟨_, (suits_boundsOf h policyMin policyMax).1, fun _ => if_pos heq⟩
  drawn hne := by
    obtain ⟨hlow, hhigh⟩ := suits_boundsOf h policyMin policyMax
    -- The bounds may be reversed: the draw is between the lower and the higher one.
    refine ⟨_, fun u => ?_, fun s => (if_neg hne).trans (Draw.nat_eq _ _ s)⟩
    obtain ⟨hmin, hmax⟩ := Draw.natAt_mem (boundsOf occurs policyMin policyMax).1
      (boundsOf occurs policyMin policyMax).2 u
    exact hlow.between hhigh hmin hmax

/-- Every range but that of a term which is present or absent. -/
theorem isOptional_eq_false (h : occurs ≠ .optional) : occurs.isOptional = false := by
  rw [Bool.eq_false_iff]
  intro hoptional
  simp only [Occurs.isOptional, Bool.and_eq_true, beq_iff_eq] at hoptional
  obtain ⟨min, max⟩ := occurs
  obtain ⟨rfl, rfl⟩ := hoptional
  exact h rfl

/-- **Counts keep to the declared range and to that of the policy.** So it is for a count from two
ranges, for how often a term occurs that is not just present or absent, and for the number of items
of a list whose length is not fixed. -/
theorem keepsTo_ranges :
    (∀ occurs : Occurs, occurs.InOrder → ∀ policyMin policyMax,
        KeepsTo (σ := σ) occurs policyMin policyMax
          (within occurs.min occurs.max policyMin policyMax))
      ∧ (∀ (policy : Policy) (occurs : Occurs), occurs.InOrder → occurs ≠ .optional →
        KeepsTo (σ := σ) occurs policy.minElements policy.maxElements (ofOccurs policy occurs))
      ∧ ∀ (policy : Policy) (minLength maxLength : Option Nat),
        (⟨minLength.getD 0, maxLength⟩ : Occurs).InOrder →
        KeepsTo (σ := σ) ⟨minLength.getD 0, maxLength⟩ policy.minListItems policy.maxListItems
          (ofLengths policy none minLength maxLength) := by
  refine ⟨fun occurs h => keepsTo_within h, fun policy occurs h hne => ?_,
    fun policy minLength maxLength h => keepsTo_within h _ _⟩
  have hwithin : ofOccurs (σ := σ) policy occurs
      = within occurs.min occurs.max policy.minElements policy.maxElements := by
    funext s
    simp [ofOccurs, isOptional_eq_false hne]
  rw [hwithin]
  exact keepsTo_within h _ _

/-- The bounds of the policy are reversed, and so are the bounds that are left of the range from two
to six. -/
theorem keepsTo_ranges_reversed :
    let policy : Policy :=
      { minElements := 5, maxElements := 3, minListItems := 5, maxListItems := 3 }
    let occurs : Occurs := ⟨2, some 6⟩
    occurs.InOrder ∧ occurs ≠ .optional ∧ boundsOf occurs 5 3 = (5, 3)
      ∧ KeepsTo (σ := Scripted) occurs 5 3 (within 2 (some 6) 5 3)
      ∧ KeepsTo (σ := Scripted) occurs 5 3 (ofOccurs policy occurs)
      ∧ KeepsTo (σ := Scripted) occurs 5 3 (ofLengths policy none (some 2) (some 6)) := by
  intro policy occurs
  have horder : occurs.InOrder := by decide
  have hoptional : occurs ≠ .optional := by decide
  obtain ⟨hwithin, hoccurs, hlengths⟩ := keepsTo_ranges (σ := Scripted)
  exact ⟨horder, hoptional, rfl, hwithin occurs horder 5 3, hoccurs policy occurs horder hoptional,
    hlengths policy (some 2) (some 6) horder⟩

end Specimen.Count

import Mathlib
import Specimen.Proofs.Nearest

/-!
# How double precision rounds

The arithmetic of double precision works on significands that carry two more bits: the next digit,
and whether there is any digit behind it. These two say on which side of the middle between two
numbers the exact result lies, and shifting keeps what they say. So a result that is computed
exactly up to these bits is rounded to a number that is nearest to it.
-/

namespace Specimen.Decimal

open Float.Model (UnpackedFloat totalExponent)
open Float.Model.UnpackedFloat

/-! ## Significands with two more bits -/

/-- The significand is what a fraction is without its own fraction, and the bits say which half of
the way to the next significand it has made. -/
def Marks (em : ExtendedMantissa) (x : ℚ) : Prop :=
  match em.roundBit, em.stickyBit with
  | false, false => x = em.mantissa
  | false, true => em.mantissa < x ∧ x < em.mantissa + 1 / 2
  | true, false => x = em.mantissa + 1 / 2
  | true, true => em.mantissa + 1 / 2 < x ∧ x < em.mantissa + 1

namespace Marks

variable {em : ExtendedMantissa} {x : ℚ}

theorem exact (m : ℕ) : Marks (ExtendedMantissa.ofMantissaAndAccuracy m .exact) m := rfl

theorem le (h : Marks em x) : (em.mantissa : ℚ) ≤ x := by
  rcases em with ⟨m, _ | _, _ | _⟩ <;> simp only [Marks] at h ⊢ <;> linarith

theorem lt (h : Marks em x) : x < em.mantissa + 1 := by
  rcases em with ⟨m, _ | _, _ | _⟩ <;> simp only [Marks] at h ⊢ <;> linarith

/-- Half of a fraction, with the digit that is dropped in the bits. -/
theorem shiftRightOne (h : Marks em x) : Marks em.shiftRightOne (x / 2) := by
  rcases em with ⟨m, r, s⟩
  obtain ⟨k, rfl | rfl⟩ : ∃ k, m = 2 * k ∨ m = 2 * k + 1 := ⟨m / 2, by omega⟩
  · have hhalf : 2 * k / 2 = k := by omega
    have hbit : 2 * k % 2 = 0 := by omega
    cases r <;> cases s <;> simp only [Marks, ExtendedMantissa.shiftRightOne, hhalf, hbit] at h ⊢ <;>
      push_cast at h <;> simp <;> (try constructor) <;> linarith
  · have hhalf : (2 * k + 1) / 2 = k := by omega
    have hbit : (2 * k + 1) % 2 = 1 := by omega
    cases r <;> cases s <;> simp only [Marks, ExtendedMantissa.shiftRightOne, hhalf, hbit] at h ⊢ <;>
      push_cast at h <;> simp <;> (try constructor) <;> linarith

theorem shiftRight (h : Marks em x) (n : ℕ) : Marks (em >>> n) (x / 2 ^ n) := by
  induction n with
  | zero => rwa [pow_zero, div_one]
  | succ n ih =>
    rw [pow_succ, ← div_div]
    exact ih.shiftRightOne

/-- The rounded significand is at most half a step away. -/
theorem abs_rounded_sub_le (h : Marks em x) : |(em.roundedMantissa : ℚ) - x| ≤ 1 / 2 := by
  rw [abs_le]
  rcases em with ⟨m, _ | _, _ | _⟩ <;>
    simp only [Marks, ExtendedMantissa.roundedMantissa, ExtendedMantissa.accuracy,
      Accuracy.roundToNearestEven] at h ⊢
  · constructor <;> linarith
  · constructor <;> linarith
  · -- In the middle, the even one of the two significands is taken.
    obtain hbit | hbit : m % 2 = 0 ∨ m % 2 = 1 := by omega
    · rw [hbit]
      constructor <;> push_cast <;> linarith
    · rw [hbit]
      constructor <;> push_cast <;> linarith
  · constructor <;> push_cast <;> linarith

end Marks

/-! ## Numbers in parts -/

/-- A magnitude with a sign. -/
def withSign (negative : Bool) (q : ℚ) : ℚ := if negative then -q else q

/-- Whether a sign is that of a negative number. -/
def isNegative : Sign → Bool
  | .negative => true
  | .positive => false

/-- The number that parts denote. What is not finite denotes none, and stands at zero here. -/
def number : UnpackedFloat → ℚ
  | .finite s m e _ => withSign (isNegative s) (m * 2 ^ e)
  | _ => 0

/-- Parts with the significand and the exponent that double precision has, if the exponent is not
too large. -/
def IsCanonical : UnpackedFloat → Prop
  | .zero _ => True
  | .finite _ m e _ => m < 2 ^ 53 ∧ -1074 ≤ e ∧ (2 ^ 52 ≤ m ∨ e = -1074)
  | _ => False

/-- The parts of a number that is nearest to a fraction. -/
structure RoundsTo (u : UnpackedFloat) (q : ℚ) : Prop where
  canonical : IsCanonical u
  nearest : double.IsNearest q (number u)

theorem isNearest_withSign {f : Format} {q x : ℚ} (negative : Bool) (h : f.IsNearest q x) :
    f.IsNearest (withSign negative q) (withSign negative x) := by
  cases negative with
  | true => exact h.neg
  | false => exact h

theorem holds_withSign {f : Format} {x : ℚ} (negative : Bool) (h : f.Holds x) :
    f.Holds (withSign negative x) := by
  cases negative with
  | true => exact h.neg
  | false => exact h

@[simp] theorem withSign_zero (negative : Bool) : withSign negative 0 = 0 := by
  cases negative <;> simp [withSign]

@[simp] theorem abs_withSign (negative : Bool) (q : ℚ) : |withSign negative q| = |q| := by
  cases negative <;> simp [withSign]

/-- The sign can be told from a number that is not zero. -/
theorem decide_withSign_lt (negative : Bool) {q : ℚ} (hq : 0 < q) :
    decide (withSign negative q < 0) = negative := by
  cases negative with
  | true => simpa [withSign] using hq
  | false => simpa [withSign] using hq.le

theorem holds_number {u : UnpackedFloat} (h : IsCanonical u) : double.Holds (number u) := by
  cases u with
  | finite s m e hm =>
    obtain ⟨hlt, hleast, -⟩ := h
    exact holds_withSign _ (Format.holds_of_lt hlt hleast)
  | zero s => exact double.holds_zero
  | infinity s => exact h.elim
  | notANumber => exact h.elim

/-- What is a number already is rounded to itself. -/
theorem RoundsTo.of_canonical {u : UnpackedFloat} (h : IsCanonical u) : RoundsTo u (number u) :=
  ⟨h, .of_holds (holds_number h)⟩

/-! ## Rounding -/

/-- The exponent with which a number is rounded, by the place of its first digit. -/
theorem targetExponent_eq_max (total : ℤ) :
    Float.Model.Format.binary64.targetExponent total = max (total - 53) (-1074) := by
  simp only [Float.Model.Format.targetExponent, Float.Model.Format.mantissaBits,
    Float.Model.Format.minExponent]
  norm_num

theorem targetExponent_eq (m : ℕ) (e : ℤ) :
    Float.Model.Format.binary64.targetExponent (totalExponent m e)
      = max ((m.log2 : ℤ) + e - 52) (-1074) := by
  rw [targetExponent_eq_max, totalExponent]
  congr 1
  omega

theorem shiftToTargetExponent_eq {m : ℕ} {e : ℤ} (acc : Accuracy) (t : ℤ)
    (ht : Float.Model.Format.binary64.targetExponent (totalExponent m e) = t) (he : e ≤ t) :
    shiftToTargetExponent .binary64 m e acc
      = (ExtendedMantissa.ofMantissaAndAccuracy m acc >>> (t - e).toNat, t) := by
  rw [shiftToTargetExponent, ht, shiftToExponent]
  simp only [Prod.mk.injEq, true_and]
  omega

/-- What a significand and its bits mark in units of its exponent, it marks in larger units when the
exponent is raised. -/
theorem Marks.shiftTo {em : ExtendedMantissa} {q : ℚ} {e t : ℤ} (h : Marks em (q / 2 ^ e))
    (he : e ≤ t) : Marks (em >>> (t - e).toNat) (q / 2 ^ t) := by
  have hshift := h.shiftRight (t - e).toNat
  have hpow : (2 : ℚ) ^ t = 2 ^ e * 2 ^ (t - e).toNat := by
    rw [← zpow_natCast, ← two_zpow_add]
    congr 1
    omega
  rwa [div_div, ← hpow] at hshift

/-- A significand that is marked in units of an exponent is rounded on the right grid. -/
theorem isGrid_of_marks {m : ℕ} {e t : ℤ} {acc : Accuracy} {q : ℚ}
    (hq : Marks (.ofMantissaAndAccuracy m acc) (q / 2 ^ e)) (hm : 0 < m ∨ e ≤ -1074)
    (ht : Float.Model.Format.binary64.targetExponent (totalExponent m e) = t) :
    double.IsGrid q t := by
  rw [targetExponent_eq] at ht
  have hpos := two_zpow_pos e
  have hmantissa : (ExtendedMantissa.ofMantissaAndAccuracy m acc).mantissa = m := by
    rcases acc with _ | _ | _ | _ <;> rfl
  have hlow : (m : ℚ) * 2 ^ e ≤ q := by
    have := hq.le
    rwa [hmantissa, le_div_iff₀ hpos] at this
  have hhigh : q < (m + 1) * 2 ^ e := by
    have := hq.lt
    rwa [hmantissa, div_lt_iff₀ hpos] at this
  refine ⟨by simp only [double]; omega, ?_, ?_⟩
  · have hdigits : (m : ℚ) + 1 ≤ 2 ^ (m.log2 + 1) := by exact_mod_cast Nat.lt_log2_self
    calc q ≤ (m + 1) * 2 ^ e := hhigh.le
      _ ≤ 2 ^ (m.log2 + 1) * 2 ^ e := mul_le_mul_of_nonneg_right hdigits hpos.le
      _ ≤ 2 ^ double.digits * 2 ^ t := by
        rw [two_pow_mul_zpow, two_pow_mul_zpow]
        refine two_zpow_le ?_
        simp only [double]
        push_cast
        omega
  · by_cases hleast : t = double.least
    · exact .inl hleast
    · right
      simp only [double] at hleast
      have hm' : m ≠ 0 := by
        rintro rfl
        rw [Nat.log2_zero] at ht
        omega
      have hdigits : (2 : ℚ) ^ m.log2 ≤ m := by exact_mod_cast Nat.log2_self_le hm'
      calc (2 : ℚ) ^ (double.digits - 1) * 2 ^ t = 2 ^ m.log2 * 2 ^ e := by
            rw [two_pow_mul_zpow, two_pow_mul_zpow]
            congr 1
            simp only [double]
            push_cast
            omega
        _ ≤ m * 2 ^ e := mul_le_mul_of_nonneg_right hdigits hpos.le
        _ ≤ q := hlow

/-- A significand with few enough digits is not shifted. -/
theorem shiftToTargetExponent_of_lt {r : ℕ} {t : ℤ} (hr : r < 2 ^ 53) (ht : -1074 ≤ t) :
    shiftToTargetExponent .binary64 r t .exact = (⟨r, false, false⟩, t) := by
  have hdigits : r.log2 ≤ 52 := by
    by_cases hzero : r = 0
    · rw [hzero, Nat.log2_zero]
      omega
    · exact Nat.lt_succ_iff.mp ((Nat.log2_lt hzero).mpr hr)
  have hstay : (Float.Model.Format.binary64.targetExponent (totalExponent r t) - t).toNat = 0 := by
    rw [targetExponent_eq]
    omega
  rw [shiftToTargetExponent, shiftToExponent, hstay]
  simp only [Nat.cast_zero, add_zero]
  rfl

/-- The first power of two with too many digits is halved. -/
theorem shiftToTargetExponent_of_eq {t : ℤ} (ht : -1074 ≤ t) :
    shiftToTargetExponent .binary64 (2 ^ 53) t .exact = (⟨2 ^ 52, false, false⟩, t + 1) := by
  have hone : (Float.Model.Format.binary64.targetExponent (totalExponent (2 ^ 53) t) - t).toNat
      = 1 := by
    rw [targetExponent_eq, Nat.log2_two_pow]
    omega
  rw [shiftToTargetExponent, shiftToExponent, hone]
  rfl

/-- A rounded significand becomes a canonical number with the same value. -/
theorem shiftToTargetExponent_canonical (s : Sign) {r : ℕ} {t : ℤ} (hr : r ≤ 2 ^ 53)
    (ht : -1074 ≤ t) (hlow : 2 ^ 52 ≤ r ∨ t = -1074) :
    let shifted := shiftToTargetExponent .binary64 r t .exact
    let u : UnpackedFloat := if h : shifted.1.mantissa = 0 then .zero s
      else .finite s shifted.1.mantissa shifted.2 (Nat.pos_of_ne_zero h)
    IsCanonical u ∧ number u = withSign (isNegative s) (r * 2 ^ t) := by
  rcases hr.lt_or_eq with hlt | rfl
  · simp only [shiftToTargetExponent_of_lt hlt ht]
    by_cases hzero : r = 0
    · rw [dif_pos hzero, hzero]
      exact ⟨trivial, by simp [number]⟩
    · rw [dif_neg hzero]
      exact ⟨⟨hlt, ht, hlow⟩, rfl⟩
  · simp only [shiftToTargetExponent_of_eq ht]
    rw [dif_neg (by decide)]
    refine ⟨⟨by decide, by omega, .inl (le_refl _)⟩, congrArg (withSign (isNegative s)) ?_⟩
    rw [two_zpow_add]
    push_cast
    ring

/-- Rounding what a significand and an accuracy stand for, if the exponent is not too large already.
-/
theorem roundWithAccuracy_roundsTo (s : Sign) {m : ℕ} {e : ℤ} {acc : Accuracy} {q : ℚ}
    (hq : Marks (.ofMantissaAndAccuracy m acc) (q / 2 ^ e)) (hm : 0 < m ∨ e ≤ -1074)
    (he : e ≤ Float.Model.Format.binary64.targetExponent (totalExponent m e)) :
    RoundsTo (roundWithAccuracy .binary64 s m e acc) (withSign (isNegative s) q) := by
  obtain ⟨t, ht⟩ : ∃ t, Float.Model.Format.binary64.targetExponent (totalExponent m e) = t := ⟨_, rfl⟩
  rw [ht] at he
  have hgrid := isGrid_of_marks hq hm ht
  have hhalf := (hq.shiftTo he).abs_rounded_sub_le
  rw [roundWithAccuracy, shiftToTargetExponent_eq acc t ht he]
  simp only
  generalize (ExtendedMantissa.ofMantissaAndAccuracy m acc >>> (t - e).toNat).roundedMantissa = r
    at hhalf ⊢
  obtain ⟨hcanonical, hnumber⟩ := shiftToTargetExponent_canonical s (hgrid.le_pow hhalf) hgrid.least
    (hgrid.full hhalf).symm
  refine ⟨hcanonical, ?_⟩
  rw [hnumber]
  exact isNearest_withSign _ (hgrid.isNearest (by decide) hhalf)

theorem log2_mul_two_pow {m : ℕ} (hm : 0 < m) (n : ℕ) : (m * 2 ^ n).log2 = m.log2 + n := by
  have hne : m ≠ 0 := by omega
  rw [Nat.log2_eq_iff (by positivity), pow_add, Nat.add_right_comm, pow_add]
  exact ⟨Nat.mul_le_mul_right _ (Nat.log2_self_le hne),
    Nat.mul_lt_mul_of_pos_right Nat.lt_log2_self (by positivity)⟩

/-- Rounding a number in parts. -/
theorem round_roundsTo (s : Sign) {m : ℕ} (hm : 0 < m) (e : ℤ) :
    RoundsTo (UnpackedFloat.round .binary64 s m e) (withSign (isNegative s) (m * 2 ^ e)) := by
  rw [UnpackedFloat.round]
  simp only [decreaseExponent, Nat.shiftLeft_eq]
  generalize hn : (e - Float.Model.Format.binary64.targetExponent (totalExponent m e)).toNat = n
  have hvalue : (m : ℚ) * 2 ^ e = ((m * 2 ^ n : ℕ) : ℚ) * 2 ^ (e - n) := by
    rw [show e = n + (e - n) by omega, two_zpow_add, two_zpow_natCast]
    push_cast
    ring_nf
  have hpos : 0 < m * 2 ^ n := by positivity
  rw [hvalue]
  refine roundWithAccuracy_roundsTo s ?_ (.inl hpos) ?_
  · rw [mul_div_assoc, div_self (two_zpow_pos _).ne', mul_one]
    exact Marks.exact _
  · -- Raising the significand and lowering the exponent leaves the exponent that is aimed at.
    have hdigits : (m * 2 ^ n).log2 = m.log2 + n := log2_mul_two_pow hm n
    rw [targetExponent_eq] at hn ⊢
    rw [hdigits]
    push_cast
    omega

/-- Rounding a whole number of units. -/
theorem normalize_roundsTo (m : ℤ) (e : ℤ) (zeroSign : Sign) :
    RoundsTo (UnpackedFloat.normalize .binary64 m e zeroSign) (m * 2 ^ e) := by
  rw [UnpackedFloat.normalize]
  rcases lt_trichotomy m 0 with hlt | rfl | hgt
  · rw [show compare m 0 = .lt from compare_lt_iff_lt.mpr hlt]
    have hround := round_roundsTo .negative (m := (-m).toNat) (by omega) e
    have hcast : (((-m).toNat : ℕ) : ℚ) = -m := by
      exact_mod_cast Int.toNat_of_nonneg (by omega : 0 ≤ -m)
    rw [hcast, neg_mul] at hround
    simpa [isNegative, withSign] using hround
  · rw [show compare (0 : ℤ) 0 = .eq from compare_eq_iff_eq.mpr rfl, Int.cast_zero, zero_mul]
    exact .of_canonical trivial
  · rw [show compare m 0 = .gt from compare_gt_iff_gt.mpr hgt]
    have hround := round_roundsTo .positive (m := m.toNat) (by omega) e
    have hcast : ((m.toNat : ℕ) : ℚ) = m := by
      exact_mod_cast Int.toNat_of_nonneg hgt.le
    rwa [hcast] at hround

end Specimen.Decimal

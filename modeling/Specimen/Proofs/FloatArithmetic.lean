import Specimen.Proofs.FloatParts

/-!
# Double precision arithmetic

Sums, differences, products and quotients of numbers are the exact ones, rounded, and numbers
compare as what they denote. An operation on something that is not finite has no finite result here.
-/

namespace Specimen.Decimal

open Float.Model (UnpackedFloat totalExponent)
open Float.Model.UnpackedFloat

variable {u v : UnpackedFloat} {a b : Float} {p q : ℚ}

/-! ## Sums and differences -/

/-- A number in units of a smaller exponent. -/
theorem number_finite {s : Sign} {m : ℕ} {e t : ℤ} {hm : 0 < m} (ht : t ≤ e) :
    number (.finite s m e hm) = (s.apply ((decreaseExponent m e t).1 : ℤ) : ℤ) * 2 ^ t := by
  have hscale : (m : ℚ) * 2 ^ e = ((m * 2 ^ (e - t).toNat : ℕ) : ℚ) * 2 ^ t := by
    rw [show e = (e - t).toNat + t by omega, two_zpow_add, two_zpow_natCast]
    push_cast
    rw [show ((e - t).toNat + t - t).toNat = (e - t).toNat by omega]
    ring
  rw [number, hscale, decreaseExponent, Nat.shiftLeft_eq]
  cases s with
  | negative => simp [isNegative, withSign, Sign.apply]
  | positive => simp [isNegative, withSign, Sign.apply]

theorem add_roundsTo (hu : IsCanonical u) (hv : IsCanonical v) :
    RoundsTo (UnpackedFloat.add .binary64 u v) (number u + number v) := by
  cases u with
  | zero s =>
    cases v with
    | zero s' =>
      rw [show number (.zero s) + number (.zero s') = 0 from add_zero 0]
      cases s <;> cases s' <;> exact .of_canonical trivial
    | finite s' m e hm =>
      rw [show number (.zero s) = 0 from rfl, zero_add]
      exact .of_canonical hv
    | infinity s' => exact hv.elim
    | notANumber => exact hv.elim
  | finite s m e hm =>
    cases v with
    | zero s' =>
      rw [show number (.zero s') = 0 from rfl, add_zero]
      exact .of_canonical hu
    | finite s' m' e' hm' =>
      -- Both are brought to the smaller exponent and added as whole numbers.
      rw [number_finite (min_le_left e e'), number_finite (min_le_right e e'), ← add_mul,
        ← Int.cast_add]
      exact normalize_roundsTo _ _ _
    | infinity s' => exact hv.elim
    | notANumber => exact hv.elim
  | infinity s => exact hu.elim
  | notANumber => exact hu.elim

theorem number_opposite (s : Sign) (m : ℕ) (e : ℤ) (hm : 0 < m) :
    number (.finite (-s) m e hm) = -number (.finite s m e hm) := by
  cases s with
  | negative => exact (neg_neg ((m : ℚ) * 2 ^ e)).symm
  | positive => rfl

theorem sub_roundsTo (hu : IsCanonical u) (hv : IsCanonical v) :
    RoundsTo (UnpackedFloat.sub .binary64 u v) (number u - number v) := by
  cases u with
  | zero s =>
    cases v with
    | zero s' =>
      rw [show number (.zero s) - number (.zero s') = 0 from sub_zero 0]
      cases s <;> cases s' <;> exact .of_canonical trivial
    | finite s' m e hm =>
      rw [show number (.zero s) = 0 from rfl, zero_sub, ← number_opposite]
      exact .of_canonical hv
    | infinity s' => exact hv.elim
    | notANumber => exact hv.elim
  | finite s m e hm =>
    cases v with
    | zero s' =>
      rw [show number (.zero s') = 0 from rfl, sub_zero]
      exact .of_canonical hu
    | finite s' m' e' hm' =>
      rw [number_finite (min_le_left e e'), number_finite (min_le_right e e'), ← sub_mul,
        ← Int.cast_sub]
      exact normalize_roundsTo _ _ _
    | infinity s' => exact hv.elim
    | notANumber => exact hv.elim
  | infinity s => exact hu.elim
  | notANumber => exact hu.elim

/-! ## Products and quotients -/

theorem withSign_mul (negative negative' : Bool) (p q : ℚ) :
    withSign negative p * withSign negative' q = withSign (negative != negative') (p * q) := by
  cases negative <;> cases negative' <;> simp [withSign]

theorem withSign_div (negative negative' : Bool) (p q : ℚ) :
    withSign negative p / withSign negative' q = withSign (negative != negative') (p / q) := by
  cases negative <;> cases negative' <;> simp [withSign, neg_div, div_neg]

theorem isNegative_mul (s s' : Sign) : isNegative (s * s') = (isNegative s != isNegative s') := by
  cases s <;> cases s' <;> rfl

theorem isNegative_div (s s' : Sign) : isNegative (s / s') = (isNegative s != isNegative s') := by
  cases s <;> cases s' <;> rfl

theorem mul_roundsTo (hu : IsCanonical u) (hv : IsCanonical v) :
    RoundsTo (UnpackedFloat.mul .binary64 u v) (number u * number v) := by
  cases u with
  | zero s =>
    rw [show number (.zero s) = 0 from rfl, zero_mul]
    cases v with
    | infinity s' => exact hv.elim
    | notANumber => exact hv.elim
    | _ => exact .of_canonical trivial
  | finite s m e hm =>
    cases v with
    | zero s' =>
      rw [show number (.zero s') = 0 from rfl, mul_zero]
      exact .of_canonical trivial
    | finite s' m' e' hm' =>
      have hvalue : (m : ℚ) * 2 ^ e * (m' * 2 ^ e') = ((m * m' : ℕ) : ℚ) * 2 ^ (e + e') := by
        rw [two_zpow_add]
        push_cast
        ring
      rw [number, number, withSign_mul, ← isNegative_mul, hvalue]
      refine roundWithAccuracy_roundsTo _ ?_ (.inl (Nat.mul_pos hm hm')) ?_
      · rw [mul_div_assoc, div_self (two_zpow_pos _).ne', mul_one]
        exact Marks.exact _
      · -- One of the factors has all digits, or both have the least exponent.
        obtain ⟨-, hleast, hdigits⟩ := hu
        obtain ⟨-, hleast', hdigits'⟩ := hv
        have hmany (h : 2 ^ 52 ≤ m ∨ 2 ^ 52 ≤ m') : 52 ≤ (m * m').log2 := by
          rw [Nat.le_log2 (Nat.mul_pos hm hm').ne']
          rcases h with h | h
          · exact h.trans (Nat.le_mul_of_pos_right m hm')
          · exact h.trans (Nat.le_mul_of_pos_left m' hm)
        rw [targetExponent_eq]
        rcases hdigits with hfull | hfew
        · have := hmany (.inl hfull)
          omega
        · rcases hdigits' with hfull | hfew'
          · have := hmany (.inr hfull)
            omega
          · omega
    | infinity s' => exact hv.elim
    | notANumber => exact hv.elim
  | infinity s => exact hu.elim
  | notANumber => exact hu.elim

/-- The remainder of a division says which half of the way to the next quotient is made. -/
theorem marks_div (num : ℕ) {den : ℕ} (hden : 0 < den) :
    Marks (.ofMantissaAndAccuracy (num / den) (accuracyOfFraction (num % den) den))
      ((num : ℚ) / den) := by
  have hpos : (0 : ℚ) < den := by exact_mod_cast hden
  have hlt : ((num % den : ℕ) : ℚ) < den := by exact_mod_cast Nat.mod_lt num hden
  rw [div_eq_add_mod_div num hden, accuracyOfFraction]
  generalize num / den = k
  generalize num % den = r at hlt ⊢
  by_cases hzero : r = 0
  · rw [if_pos hzero, hzero]
    simp [Marks, ExtendedMantissa.ofMantissaAndAccuracy]
  · rw [if_neg hzero]
    have hr : (0 : ℚ) < r := by exact_mod_cast Nat.pos_of_ne_zero hzero
    have hstep : (r : ℚ) / den < 1 := (div_lt_one hpos).mpr hlt
    have hstart : 0 < (r : ℚ) / den := div_pos hr hpos
    -- Twice the remainder is compared with the divisor, as the rounding does.
    rcases lt_trichotomy (2 * r) den with hbelow | hmiddle | habove
    · rw [compare_lt_iff_lt.mpr hbelow]
      have : (r : ℚ) / den < 1 / 2 := by
        rw [div_lt_div_iff₀ hpos (by norm_num)]
        have : ((2 * r : ℕ) : ℚ) < den := by exact_mod_cast hbelow
        push_cast at this
        linarith
      show (k : ℚ) < _ ∧ _ < (k : ℚ) + 1 / 2
      exact ⟨by linarith, by linarith⟩
    · rw [compare_eq_iff_eq.mpr hmiddle]
      have : (r : ℚ) / den = 1 / 2 := by
        rw [div_eq_div_iff hpos.ne' (by norm_num)]
        have : ((2 * r : ℕ) : ℚ) = den := by exact_mod_cast hmiddle
        push_cast at this
        linarith
      show _ = (k : ℚ) + 1 / 2
      rw [this]
    · rw [compare_gt_iff_gt.mpr habove]
      have : 1 / 2 < (r : ℚ) / den := by
        rw [div_lt_div_iff₀ (by norm_num) hpos]
        have : (den : ℚ) < ((2 * r : ℕ) : ℚ) := by exact_mod_cast habove
        push_cast at this
        linarith
      show (k : ℚ) + 1 / 2 < _ ∧ _ < (k : ℚ) + 1
      exact ⟨by linarith, by linarith⟩

/-- A quotient is computed with all digits, or with the least exponent. -/
theorem le_log2_div {m m' n : ℕ} (hm : 0 < m) (hm' : 0 < m')
    (hn : m'.log2 + 53 ≤ m.log2 + n) : 52 ≤ (m * 2 ^ n / m').log2 := by
  have hlarge : 2 ^ 52 ≤ m * 2 ^ n / m' := by
    rw [Nat.le_div_iff_mul_le hm']
    calc 2 ^ 52 * m' ≤ 2 ^ 52 * 2 ^ (m'.log2 + 1) := Nat.mul_le_mul_left _ Nat.lt_log2_self.le
      _ = 2 ^ (m'.log2 + 53) := by rw [← pow_add]; congr 1; omega
      _ ≤ 2 ^ (m.log2 + n) := Nat.pow_le_pow_right (by norm_num) hn
      _ = 2 ^ m.log2 * 2 ^ n := pow_add _ _ _
      _ ≤ m * 2 ^ n := Nat.mul_le_mul_right _ (Nat.log2_self_le hm.ne')
  have hpos : m * 2 ^ n / m' ≠ 0 := by omega
  exact (Nat.le_log2 hpos).mpr hlarge

theorem div_finite_roundsTo (s : Sign) {m m' : ℕ} (hm : 0 < m) (hm' : 0 < m') (e e' : ℤ) :
    let quotient := divCore .binary64 m e m' e'
    RoundsTo (roundWithAccuracy .binary64 s quotient.1 quotient.2.1 quotient.2.2)
      (withSign (isNegative s) (m * 2 ^ e / (m' * 2 ^ e'))) := by
  simp only [divCore, Nat.shiftLeft_eq, targetExponent_eq_max, totalExponent]
  obtain ⟨t, ht⟩ : ∃ t, min (e - e')
      (max ((m.log2 : ℤ) + 1 + e - (m'.log2 + 1 + e') - 53) (-1074)) = t := ⟨_, rfl⟩
  obtain ⟨n, hn⟩ : ∃ n : ℕ, e - e' - t = n := ⟨(e - e' - t).toNat, by omega⟩
  rw [ht, hn, Int.toNat_natCast]
  -- The quotient has all digits, or its unit is the least one.
  have hdigits : 52 ≤ (m * 2 ^ n / m').log2 ∨ t ≤ -1074 := by
    by_cases hleast : t ≤ -1074
    · exact .inr hleast
    · exact .inl (le_log2_div hm hm' (by omega))
  have hvalue : (m : ℚ) * 2 ^ e / (m' * 2 ^ e') / 2 ^ t = (m * 2 ^ n : ℕ) / m' := by
    have hexponent : (2 : ℚ) ^ e = 2 ^ n * 2 ^ t * 2 ^ e' := by
      rw [← zpow_natCast, ← two_zpow_add, ← two_zpow_add]
      congr 1
      omega
    have hne := (two_zpow_pos t).ne'
    have hne' := (two_zpow_pos e').ne'
    rw [hexponent]
    push_cast
    field_simp
  refine roundWithAccuracy_roundsTo s ?_ ?_ ?_
  · rw [hvalue]
    exact marks_div _ hm'
  · rcases hdigits with hmany | hleast
    · left
      rw [Nat.pos_iff_ne_zero]
      intro hzero
      rw [hzero, Nat.log2_zero] at hmany
      omega
    · exact .inr hleast
  · rw [targetExponent_eq]
    omega

theorem div_roundsTo (hu : IsCanonical u) (hv : IsCanonical v) (hne : number v ≠ 0) :
    RoundsTo (UnpackedFloat.div .binary64 u v) (number u / number v) := by
  cases v with
  | zero s => exact absurd rfl hne
  | finite s' m' e' hm' =>
    cases u with
    | zero s =>
      rw [show number (.zero s) = 0 from rfl, zero_div]
      exact .of_canonical trivial
    | finite s m e hm =>
      rw [number, number, withSign_div, ← isNegative_div]
      exact div_finite_roundsTo _ hm hm' e e'
    | infinity s => exact hu.elim
    | notANumber => exact hu.elim
  | infinity s => exact hv.elim
  | notANumber => exact hv.elim

/-! ## Operations on numbers -/

theorem rounds_add (ha : Denotes a p) (hb : Denotes b q) : Rounds double (a + b) (p + q) := by
  obtain ⟨hu, rfl⟩ := denotes_iff.mp ha
  obtain ⟨hv, rfl⟩ := denotes_iff.mp hb
  exact rounds_pack (add_roundsTo hu hv)

theorem rounds_sub (ha : Denotes a p) (hb : Denotes b q) : Rounds double (a - b) (p - q) := by
  obtain ⟨hu, rfl⟩ := denotes_iff.mp ha
  obtain ⟨hv, rfl⟩ := denotes_iff.mp hb
  exact rounds_pack (sub_roundsTo hu hv)

theorem rounds_mul (ha : Denotes a p) (hb : Denotes b q) : Rounds double (a * b) (p * q) := by
  obtain ⟨hu, rfl⟩ := denotes_iff.mp ha
  obtain ⟨hv, rfl⟩ := denotes_iff.mp hb
  exact rounds_pack (mul_roundsTo hu hv)

theorem rounds_div (ha : Denotes a p) (hb : Denotes b q) (hq : q ≠ 0) :
    Rounds double (a / b) (p / q) := by
  obtain ⟨hu, rfl⟩ := denotes_iff.mp ha
  obtain ⟨hv, rfl⟩ := denotes_iff.mp hb
  exact rounds_pack (div_roundsTo hu hv hq)

theorem rounds_toFloat (w : UInt64) : Rounds double w.toFloat w.toNat := by
  have hround := normalize_roundsTo w.toNat 0 .positive
  rw [zpow_zero, mul_one, Int.cast_natCast] at hround
  exact rounds_pack hround

/-! ## Operations on what is not finite -/

/-- The parts of a zero or of a finite number. -/
def IsNumber : UnpackedFloat → Prop
  | .zero _ => True
  | .finite _ _ _ _ => True
  | _ => False

theorem isFinite_iff_isNumber {x : Float} : Draw.isFinite x = true ↔ IsNumber (parts x) := by
  rw [Draw.isFinite, decode_eq]
  cases parts x <;> simp [decoded, IsNumber]

theorem isNumber_of_isFinite_pack (h : Draw.isFinite (.ofModel (.pack u)) = true) : IsNumber u := by
  cases u with
  | zero s => trivial
  | finite s m e hm => trivial
  | infinity s => cases s <;> cases h
  | notANumber => cases h

theorem isNumber_of_add (h : IsNumber (UnpackedFloat.add .binary64 u v)) : IsNumber v := by
  cases v with
  | zero s => trivial
  | finite s m e hm => trivial
  | infinity s =>
    cases u with
    | infinity s' => cases s <;> cases s' <;> exact h
    | _ => exact h
  | notANumber => cases u <;> exact h

theorem isNumber_of_mul (h : IsNumber (UnpackedFloat.mul .binary64 u v)) : IsNumber v := by
  cases v with
  | zero s => trivial
  | finite s m e hm => trivial
  | infinity s => cases u <;> exact h
  | notANumber => cases u <;> exact h

theorem isFinite_of_add (h : Draw.isFinite (a + b) = true) : Draw.isFinite b = true :=
  isFinite_iff_isNumber.mpr (isNumber_of_add (isNumber_of_isFinite_pack h))

theorem isFinite_of_mul (h : Draw.isFinite (a * b) = true) : Draw.isFinite b = true :=
  isFinite_iff_isNumber.mpr (isNumber_of_mul (isNumber_of_isFinite_pack h))

/-! ## Comparison -/

/-- Of two canonical magnitudes, the one with the larger exponent is larger. -/
theorem magnitude_lt_of_exponent_lt {s s' : Sign} {m m' : ℕ} {e e' : ℤ} {hm : 0 < m} {hm' : 0 < m'}
    (h : IsCanonical (.finite s m e hm)) (h' : IsCanonical (.finite s' m' e' hm')) (he : e < e') :
    (m : ℚ) * 2 ^ e < m' * 2 ^ e' := by
  have hfull : (2 : ℚ) ^ 52 ≤ m' := by exact_mod_cast h'.2.2.resolve_right (by have := h.2.1; omega)
  have hdigits : (m : ℚ) < 2 ^ 53 := by exact_mod_cast h.1
  calc (m : ℚ) * 2 ^ e < 2 ^ 53 * 2 ^ e := mul_lt_mul_of_pos_right hdigits (two_zpow_pos e)
    _ = 2 ^ 52 * 2 ^ (e + 1) := by rw [two_zpow_add]; ring
    _ ≤ m' * 2 ^ e' :=
      mul_le_mul hfull (two_zpow_le (by omega)) (two_zpow_pos _).le (Nat.cast_nonneg m')

/-- Canonical magnitudes are compared by their exponents first. -/
theorem magnitude_lt_iff {s s' : Sign} {m m' : ℕ} {e e' : ℤ} {hm : 0 < m} {hm' : 0 < m'}
    (h : IsCanonical (.finite s m e hm)) (h' : IsCanonical (.finite s' m' e' hm')) :
    (compare e e').then (compare m m') = .lt ↔ (m : ℚ) * 2 ^ e < m' * 2 ^ e' := by
  rcases lt_trichotomy e e' with hlt | rfl | hgt
  · rw [compare_lt_iff_lt.mpr hlt]
    exact ⟨fun _ => magnitude_lt_of_exponent_lt h h' hlt, fun _ => rfl⟩
  · rw [compare_eq_iff_eq.mpr rfl, Ordering.then, compare_lt_iff_lt,
      mul_lt_mul_iff_left₀ (two_zpow_pos e), Nat.cast_lt]
  · rw [compare_gt_iff_gt.mpr hgt]
    refine ⟨fun h => (by cases h), fun hlt => ?_⟩
    exact absurd hlt (magnitude_lt_of_exponent_lt h' h hgt).not_gt

theorem magnitude_pos {m : ℕ} (hm : 0 < m) (e : ℤ) : (0 : ℚ) < m * 2 ^ e :=
  mul_pos (by exact_mod_cast hm) (two_zpow_pos e)

theorem compare_eq_lt_iff (hu : IsCanonical u) (hv : IsCanonical v) :
    UnpackedFloat.compare u v = some .lt ↔ number u < number v := by
  -- The signs decide unless they are the same; then the magnitudes do, the other way round below
  -- zero.
  cases u with
  | zero s =>
    cases v with
    | zero s' => simp [UnpackedFloat.compare, number]
    | finite s' m' e' hm' =>
      have hpos := magnitude_pos hm' e'
      cases s' with
      | negative => simp [UnpackedFloat.compare, number, isNegative, withSign, hpos.le]
      | positive => simpa [UnpackedFloat.compare, number, isNegative, withSign] using hpos
    | infinity s' => exact hv.elim
    | notANumber => exact hv.elim
  | finite s m e hm =>
    have hpos := magnitude_pos hm e
    cases v with
    | zero s' =>
      cases s with
      | negative => simpa [UnpackedFloat.compare, number, isNegative, withSign] using hpos
      | positive => simp [UnpackedFloat.compare, number, isNegative, withSign, hpos.le]
    | finite s' m' e' hm' =>
      have hpos' := magnitude_pos hm' e'
      cases s with
      | negative =>
        cases s' with
        | negative =>
          simp only [UnpackedFloat.compare, number, isNegative, withSign, Option.some.injEq, if_true,
            neg_lt_neg_iff, ← magnitude_lt_iff hv hu]
          rw [Ordering.swap_then, Int.compare_swap, Nat.compare_swap]
        | positive =>
          simp only [UnpackedFloat.compare, number, isNegative, withSign, if_true,
            Bool.false_eq_true, if_false, true_iff]
          linarith
      | positive =>
        cases s' with
        | negative =>
          simp only [UnpackedFloat.compare, number, isNegative, withSign, if_true,
            Bool.false_eq_true, if_false, Option.some.injEq, reduceCtorEq, false_iff, not_lt]
          linarith
        | positive =>
          simp only [UnpackedFloat.compare, number, isNegative, withSign, Option.some.injEq,
            Bool.false_eq_true, if_false]
          exact magnitude_lt_iff hu hv
    | infinity s' => exact hv.elim
    | notANumber => exact hv.elim
  | infinity s => exact hu.elim
  | notANumber => exact hu.elim

/-- The parts of a number that is not zero are determined by the number. -/
theorem eq_of_number_eq (hu : IsCanonical u) (hv : IsCanonical v) (h : number u = number v)
    (hne : number u ≠ 0) : u = v := by
  cases u with
  | zero s => exact absurd rfl hne
  | finite s m e hm =>
    cases v with
    | zero s' => exact absurd h hne
    | finite s' m' e' hm' =>
      have hpos := magnitude_pos hm e
      have hpos' := magnitude_pos hm' e'
      have hsign : s = s' := by
        simp only [number, withSign] at h
        cases s with
        | negative =>
          cases s' with
          | negative => rfl
          | positive =>
            simp only [isNegative, if_true, Bool.false_eq_true, if_false] at h
            linarith
        | positive =>
          cases s' with
          | negative =>
            simp only [isNegative, if_true, Bool.false_eq_true, if_false] at h
            linarith
          | positive => rfl
      subst hsign
      have hmagnitude : (m : ℚ) * 2 ^ e = m' * 2 ^ e' := by
        cases s <;> simpa [number, isNegative, withSign] using h
      -- Canonical parts with a smaller exponent stand for a smaller magnitude.
      have hexponent : e = e' := by
        rcases lt_trichotomy e e' with hlt | heq | hgt
        · exact absurd hmagnitude (magnitude_lt_of_exponent_lt hu hv hlt).ne
        · exact heq
        · exact absurd hmagnitude (magnitude_lt_of_exponent_lt hv hu hgt).ne'
      subst hexponent
      have : m = m' := by exact_mod_cast mul_right_cancel₀ (two_zpow_pos e).ne' hmagnitude
      subst this
      rfl
    | infinity s' => exact hv.elim
    | notANumber => exact hv.elim
  | infinity s => exact hu.elim
  | notANumber => exact hu.elim

/-- Numbers compare as what they denote. -/
theorem lt_iff (ha : Denotes a p) (hb : Denotes b q) : a < b ↔ p < q := by
  obtain ⟨hu, rfl⟩ := denotes_iff.mp ha
  obtain ⟨hv, rfl⟩ := denotes_iff.mp hb
  rw [← compare_eq_lt_iff hu hv]
  show (decide (UnpackedFloat.lt (parts a) (parts b) = true)) = true ↔ _
  rw [decide_eq_true_iff, UnpackedFloat.lt, beq_iff_eq]

end Specimen.Decimal

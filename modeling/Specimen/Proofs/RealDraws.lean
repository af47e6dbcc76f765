import Specimen.Proofs.FloatArithmetic

/-!
# Drawing a number between two bounds

A number between two bounds is drawn with three operations of double precision, each of which
rounds. It is between the bounds all the same. The distance of the bounds may be rounded up, but the
part of it that is taken is then rounded to less, because a number of the unit interval leaves out
enough; and the sum of the lower bound and a part of the distance is rounded between the bounds.
Where the distance is too large, the bounds are on both sides of zero, and so are the parts of them
that are added up.
-/

namespace Specimen.Draw

open Decimal

/-! ## The unit interval -/

theorem denotes_one : Denotes 1 1 :=
  ⟨false, 4503599627370496, -52, rfl, by norm_num [withSign]⟩

theorem denotes_two_pow : Denotes 9007199254740992 (2 ^ 53) :=
  ⟨false, 4503599627370496, 1, rfl, by norm_num [withSign]⟩

/-- A number of the unit interval: a whole number of units of `2 ^ -53`, and not one. -/
def IsPart (u : Float) (t : ℚ) : Prop := Denotes u t ∧ ∃ k : ℕ, k < 2 ^ 53 ∧ t = k * 2 ^ (-53 : ℤ)

variable {u lo hi : Float} {t p r : ℚ}

theorem IsPart.nonneg (h : IsPart u t) : 0 ≤ t := by
  obtain ⟨-, k, -, rfl⟩ := h
  exact mul_nonneg (Nat.cast_nonneg k) (two_zpow_pos _).le

/-- What is left out. -/
theorem IsPart.one_sub (h : IsPart u t) :
    ∃ k : ℕ, 0 < k ∧ k ≤ 2 ^ 53 ∧ 1 - t = k * 2 ^ (-53 : ℤ) := by
  obtain ⟨-, k, hk, rfl⟩ := h
  refine ⟨2 ^ 53 - k, by omega, by omega, ?_⟩
  rw [Nat.cast_sub hk.le]
  norm_num
  ring

theorem IsPart.le (h : IsPart u t) : t ≤ 1 - 1 / 2 ^ double.digits := by
  obtain ⟨k, hk, -, hrest⟩ := h.one_sub
  have hone : (1 : ℚ) ≤ k := by exact_mod_cast hk
  have hunit : (2 : ℚ) ^ (-53 : ℤ) = 1 / 2 ^ double.digits := by
    rw [zpow_neg, one_div]
    rfl
  rw [hunit] at hrest
  have : 1 / 2 ^ double.digits ≤ (k : ℚ) * (1 / 2 ^ double.digits) :=
    le_mul_of_one_le_left (by positivity) hone
  linarith

theorem one_lt_limit : 1 < double.limit := one_lt_zpow₀ (by norm_num) (by decide)

theorem abs_lt_limit_of_le_one {q : ℚ} (h0 : 0 ≤ q) (h1 : q ≤ 1) : |q| < double.limit := by
  rw [abs_of_nonneg h0]
  exact lt_of_le_of_lt h1 one_lt_limit

theorem isPart_unitOf (w : UInt64) : ∃ t, IsPart (unitOf w) t := by
  -- The upper 53 bits make a whole number, and neither it nor its quotient by `2 ^ 53` is rounded.
  obtain ⟨k, hk⟩ : ∃ k, (w >>> 11).toNat = k := ⟨_, rfl⟩
  have hlt : k < 2 ^ 53 := by
    have hw := w.toNat_lt
    rw [UInt64.toNat_shiftRight] at hk
    simp only [Nat.shiftRight_eq_div_pow] at hk
    change w.toNat / 2 ^ 11 = k at hk
    omega
  have hcast : (k : ℚ) < 2 ^ 53 := by exact_mod_cast hlt
  have hk0 : (0 : ℚ) ≤ k := Nat.cast_nonneg k
  have hlarge : (2 : ℚ) ^ 53 < double.limit := by
    rw [← zpow_natCast]
    exact zpow_lt_zpow_right₀ (by norm_num) (by decide)
  have hnum : Denotes (w >>> 11).toFloat k := by
    have hrounds := rounds_toFloat (w >>> 11)
    rw [hk] at hrounds
    refine hrounds.of_has ⟨?_, by rw [abs_of_nonneg hk0]; linarith⟩
    have := @Format.holds_of_lt double k 0 hlt (by decide)
    rwa [zpow_zero, mul_one] at this
  have hvalue : (k : ℚ) / 2 ^ 53 = k * 2 ^ (-53 : ℤ) := by
    rw [zpow_neg, div_eq_mul_inv]
    rfl
  have hquotient := rounds_div hnum denotes_two_pow (by norm_num)
  rw [hvalue] at hquotient
  refine ⟨k * 2 ^ (-53 : ℤ), hquotient.of_has ⟨?_, ?_⟩, k, hlt, rfl⟩
  · exact @Format.holds_of_lt double k (-53) hlt (by decide)
  · refine abs_lt_limit_of_le_one (mul_nonneg hk0 (two_zpow_pos _).le) ?_
    rw [← hvalue, div_le_one (by norm_num)]
    exact hcast.le

/-! ## Between the bounds -/

/-- The distance of two numbers is a whole number of the least units. -/
theorem exists_units (hlo : Denotes lo p) (hhi : Denotes hi r) (h : p ≤ r) :
    ∃ k : ℕ, r - p = k * 2 ^ double.least := by
  obtain ⟨m, e, -, he, rfl⟩ := hlo.holds
  obtain ⟨m', e', -, he', rfl⟩ := hhi.holds
  have hunits (n : ℤ) {d : ℤ} (hd : double.least ≤ d) :
      (n : ℚ) * 2 ^ d = ((n * 2 ^ (d - double.least).toNat : ℤ) : ℚ) * 2 ^ double.least := by
    rw [show d = (d - double.least).toNat + double.least by omega, two_zpow_add, two_zpow_natCast]
    push_cast
    rw [show ((d - double.least).toNat + double.least - double.least).toNat
      = (d - double.least).toNat by omega]
    ring
  obtain ⟨n, hn⟩ : ∃ n : ℤ, (m' : ℚ) * 2 ^ e' - m * 2 ^ e = n * 2 ^ double.least :=
    ⟨_, by rw [hunits m he, hunits m' he', ← sub_mul, ← Int.cast_sub]⟩
  have hn0 : 0 ≤ n := by
    have : 0 ≤ (n : ℚ) * 2 ^ double.least := hn ▸ sub_nonneg.mpr h
    exact_mod_cast (mul_nonneg_iff_of_pos_right (two_zpow_pos _)).mp this
  obtain ⟨k, rfl⟩ := Int.eq_ofNat_of_zero_le hn0
  exact ⟨k, hn⟩

/-- Where the distance of the bounds is a number, so is the sum, and it is between the bounds. -/
theorem sum_between (hlo : Denotes lo p) (hhi : Denotes hi r) (h : p ≤ r) (hu : IsPart u t)
    (hfinite : isFinite (hi - lo) = true) :
    ∃ y, Denotes (lo + u * (hi - lo)) y ∧ p ≤ y ∧ y ≤ r := by
  obtain ⟨d, hd, hnearest, -⟩ := (rounds_sub hhi hlo).of_isFinite hfinite
  have hd0 : 0 ≤ d := hnearest.nonneg (by linarith)
  have ht := hu.nonneg
  have ht1 : t ≤ 1 := hu.le.trans (sub_le_self _ (by positivity))
  obtain ⟨w, hw, hnearest', hw0, -⟩ := (rounds_mul hu.1 hd).of_between double.has_zero hd.has
    (mul_nonneg ht hd0) (mul_le_of_le_one_left hd0 ht1)
  have hpart := hnearest.part_le hnearest' (by decide) (exists_units hlo hhi h) hu.le
  obtain ⟨y, hy, -, hbetween⟩ := (rounds_add hlo hw).of_between hlo.has hhi.has (by linarith)
    (by linarith)
  exact ⟨y, hy, hbetween⟩

/-- The distance of two bounds on the same side of zero is not too large. -/
theorem isFinite_sub (hlo : Denotes lo p) (hhi : Denotes hi r) (h : p ≤ r) (hside : 0 ≤ p ∨ r ≤ 0) :
    isFinite (hi - lo) = true := by
  rcases hside with hpos | hneg
  · obtain ⟨y, hy, -⟩ := (rounds_sub hhi hlo).of_between double.has_zero hhi.has (by linarith)
      (by linarith)
    exact isFinite_iff.mpr ⟨y, hy⟩
  · obtain ⟨y, hy, -⟩ := (rounds_sub hhi hlo).of_between double.has_zero hlo.has.neg (by linarith)
      (by linarith)
    exact isFinite_iff.mpr ⟨y, hy⟩

/-- The weighted sum of two bounds on both sides of zero is between them. -/
theorem weighted_between (hlo : Denotes lo p) (hhi : Denotes hi r) (hp : p ≤ 0) (hr : 0 ≤ r)
    (hu : IsPart u t) : ∃ y, Denotes (lo * (1 - u) + hi * u) y ∧ p ≤ y ∧ y ≤ r := by
  have ht := hu.nonneg
  have ht1 : t ≤ 1 := hu.le.trans (sub_le_self _ (by positivity))
  have hrest : Denotes (1 - u) (1 - t) := by
    refine (rounds_sub denotes_one hu.1).of_has
      ⟨?_, abs_lt_limit_of_le_one (by linarith) (by linarith)⟩
    obtain ⟨k, -, hk, heq⟩ := hu.one_sub
    rw [heq]
    exact Format.holds_of_le (by decide) hk (by decide)
  obtain ⟨a, ha, -, halow, hahigh⟩ := (rounds_mul hlo hrest).of_between hlo.has double.has_zero
    (by nlinarith) (by nlinarith)
  obtain ⟨b, hb, -, hblow, hbhigh⟩ := (rounds_mul hhi hu.1).of_between double.has_zero hhi.has
    (by nlinarith) (by nlinarith)
  obtain ⟨y, hy, -, hbetween⟩ := (rounds_add ha hb).of_between hlo.has hhi.has (by linarith)
    (by linarith)
  exact ⟨y, hy, hbetween⟩

/-- The number at any part of the way from one bound to another is between them. -/
theorem scale_between (hlo : Denotes lo p) (hhi : Denotes hi r) (h : p ≤ r) (hu : IsPart u t) :
    ∃ y, Denotes (scale lo hi u) y ∧ p ≤ y ∧ y ≤ r := by
  rw [scale]
  by_cases hfinite : isFinite (hi - lo) = true
  · obtain ⟨y, hy, hbetween⟩ := sum_between hlo hhi h hu hfinite
    rw [if_pos (isFinite_iff.mpr ⟨y, hy⟩)]
    exact ⟨y, hy, hbetween⟩
  · rw [if_neg fun hsum => hfinite (isFinite_of_mul (isFinite_of_add hsum))]
    have hsides : p ≤ 0 ∧ 0 ≤ r := by
      constructor <;> by_contra hside <;> rw [not_le] at hside
      · exact hfinite (isFinite_sub hlo hhi h (.inl hside.le))
      · exact hfinite (isFinite_sub hlo hhi h (.inr hside.le))
    exact weighted_between hlo hhi hsides.1 hsides.2 hu

/-- **A number that is drawn between two bounds is between them**, whatever the source, and
whichever of the bounds is the lower one. -/
theorem real_between {σ : Type} [Source σ] (hlo : Denotes lo p) (hhi : Denotes hi r) (s : σ) :
    ∃ y, Denotes (real lo hi s).1 y ∧ min p r ≤ y ∧ y ≤ max p r := by
  obtain ⟨t, hu⟩ := isPart_unitOf (next64 s).1
  show ∃ y, Denotes (if hi < lo then scale hi lo (unitOf (next64 s).1)
    else scale lo hi (unitOf (next64 s).1)) y ∧ _
  by_cases h : hi < lo
  · have hlt := (lt_iff hhi hlo).mp h
    rw [if_pos h, min_eq_right hlt.le, max_eq_left hlt.le]
    exact scale_between hhi hlo hlt.le hu
  · have hle := not_lt.mp fun hlt => h ((lt_iff hhi hlo).mpr hlt)
    rw [if_neg h, min_eq_left hle, max_eq_right hle]
    exact scale_between hlo hhi hle hu

end Specimen.Draw

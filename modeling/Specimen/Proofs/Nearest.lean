import Mathlib.Algebra.Order.Field.Power
import Mathlib.Data.Rat.Cast.Order
import Mathlib.Tactic.FieldSimp
import Mathlib.Tactic.Linarith
import Mathlib.Tactic.NormNum
import Mathlib.Tactic.Positivity
import Mathlib.Tactic.Ring
import Specimen.Decimal.Binary

/-!
# Rounding to the nearest number

The numbers of a format, as if there were no greatest exponent, are the whole numbers with few
enough digits times a power of two. A fraction is rounded to one of them that is nearest to it.
Which of two such is taken does not matter here: what is said of rounding in this development
follows from this alone, above all that a number between two numbers of the format is rounded to one
between them.
-/

namespace Specimen.Decimal

variable {f : Format} {q r x y : ℚ}

theorem two_zpow_pos (e : ℤ) : (0 : ℚ) < 2 ^ e := zpow_pos (by norm_num) e

theorem two_zpow_add (d e : ℤ) : (2 : ℚ) ^ (d + e) = 2 ^ d * 2 ^ e :=
  zpow_add₀ (by norm_num) d e

theorem two_zpow_natCast (n : ℕ) : (2 : ℚ) ^ (n : ℤ) = ((2 ^ n : ℕ) : ℚ) := by
  rw [zpow_natCast, Nat.cast_pow, Nat.cast_ofNat]

theorem two_pow_mul_zpow (n : ℕ) (e : ℤ) : (2 : ℚ) ^ n * 2 ^ e = 2 ^ (n + e) := by
  rw [two_zpow_add, zpow_natCast]

theorem two_zpow_le {d e : ℤ} (h : d ≤ e) : (2 : ℚ) ^ d ≤ 2 ^ e :=
  zpow_le_zpow_right₀ (by norm_num) h

/-- A quotient is the whole one and a part of one. -/
theorem div_eq_add_mod_div (num : ℕ) {den : ℕ} (hden : 0 < den) :
    (num : ℚ) / den = (num / den : ℕ) + (num % den : ℕ) / den := by
  have hpos : (0 : ℚ) < den := by exact_mod_cast hden
  have hsplit : (num : ℚ) = den * (num / den : ℕ) + (num % den : ℕ) := by
    exact_mod_cast (Nat.div_add_mod num den).symm
  rw [hsplit]
  field_simp

/-! ## The numbers of a format -/

/-- A number that a format holds, if its exponent is not too large. -/
def Format.Holds (f : Format) (x : ℚ) : Prop :=
  ∃ (m e : ℤ), |m| < 2 ^ f.digits ∧ f.least ≤ e ∧ x = m * 2 ^ e

theorem Format.Holds.neg (h : f.Holds x) : f.Holds (-x) := by
  obtain ⟨m, e, hm, he, rfl⟩ := h
  exact ⟨-m, e, by rwa [abs_neg], he, by push_cast; ring⟩

theorem Format.holds_zero (f : Format) : f.Holds 0 :=
  ⟨0, f.least, by simp, le_refl _, by simp⟩

theorem Format.holds_of_lt {m : ℕ} {e : ℤ} (hm : m < 2 ^ f.digits) (he : f.least ≤ e) :
    f.Holds (m * 2 ^ e) :=
  ⟨m, e, by rw [Nat.abs_cast]; exact_mod_cast hm, he, by push_cast; rfl⟩

/-- A power of two needs one digit only. -/
theorem Format.holds_of_le {m : ℕ} {e : ℤ} (hpos : 0 < f.digits) (hm : m ≤ 2 ^ f.digits)
    (he : f.least ≤ e) : f.Holds (m * 2 ^ e) := by
  rcases hm.lt_or_eq with hlt | rfl
  · exact holds_of_lt hlt he
  · refine ⟨1, f.digits + e, ?_, by omega, ?_⟩
    · rw [abs_one]
      exact one_lt_pow₀ (by norm_num) (by omega)
    · rw [two_zpow_add, two_zpow_natCast, Int.cast_one, one_mul]

/-- A number of a format is on a grid, or it is below the numbers that have all digits there. -/
theorem Format.Holds.on_grid_or_lt (hy : f.Holds y) (hpos : 0 < f.digits) (t : ℤ) :
    (∃ k : ℤ, y = k * 2 ^ t) ∨ f.least < t ∧ y < 2 ^ (f.digits - 1) * 2 ^ t := by
  obtain ⟨n, e, hn, he, rfl⟩ := hy
  by_cases hte : t ≤ e
  · left
    obtain ⟨k, rfl⟩ := Int.le.dest hte
    refine ⟨n * 2 ^ k, ?_⟩
    rw [two_zpow_add, two_zpow_natCast]
    push_cast
    ring
  · right
    refine ⟨by omega, ?_⟩
    have hdigits : (n : ℚ) < 2 ^ f.digits := by exact_mod_cast lt_of_le_of_lt (le_abs_self n) hn
    calc (n : ℚ) * 2 ^ e < 2 ^ f.digits * 2 ^ e := mul_lt_mul_of_pos_right hdigits (two_zpow_pos e)
      _ ≤ 2 ^ f.digits * 2 ^ (t - 1) :=
        mul_le_mul_of_nonneg_left (two_zpow_le (by omega)) (by positivity)
      _ = 2 ^ (f.digits - 1) * 2 ^ t := by
        rw [two_pow_mul_zpow, two_pow_mul_zpow]
        congr 1
        omega

/-! ## Nearest numbers -/

/-- A number of the format, and none is nearer to `q`. -/
structure Format.IsNearest (f : Format) (q x : ℚ) : Prop where
  holds : f.Holds x
  closest : ∀ y, f.Holds y → |x - q| ≤ |y - q|

namespace Format.IsNearest

theorem neg (h : f.IsNearest q x) : f.IsNearest (-q) (-x) where
  holds := h.holds.neg
  closest y hy := by
    have hclosest := h.closest (-y) hy.neg
    rwa [show -x - -q = -(x - q) by ring, abs_neg, show y - -q = -(-y - q) by ring, abs_neg]

theorem of_holds (h : f.Holds q) : f.IsNearest q q where
  holds := h
  closest y _ := by
    rw [sub_self, abs_zero]
    exact abs_nonneg _

/-- A number of the format stays as it is. -/
theorem eq_of_holds (h : f.IsNearest q x) (hq : f.Holds q) : x = q := by
  have hclosest := h.closest q hq
  rw [sub_self, abs_zero] at hclosest
  exact sub_eq_zero.mp (abs_nonpos_iff.mp hclosest)

/-- Rounding keeps the order. -/
theorem le_of_lt (hx : f.IsNearest q x) (hy : f.IsNearest r y) (h : q < r) : x ≤ y := by
  by_contra hlt
  rw [not_le] at hlt
  have hleft := hx.closest y hy.holds
  have hright := hy.closest x hx.holds
  -- Each of the two is nearer to the fraction that is on the side of the other.
  rw [← sq_le_sq] at hleft hright
  nlinarith

theorem le_of_holds (hx : f.IsNearest q x) (hr : f.Holds r) (h : q ≤ r) : x ≤ r := by
  rcases h.lt_or_eq with hlt | rfl
  · exact hx.le_of_lt (of_holds hr) hlt
  · exact (hx.eq_of_holds hr).le

theorem ge_of_holds (hx : f.IsNearest q x) (hr : f.Holds r) (h : r ≤ q) : r ≤ x := by
  rcases h.lt_or_eq with hlt | rfl
  · exact (of_holds hr).le_of_lt hx hlt
  · exact (hx.eq_of_holds hr).ge

theorem nonneg (hx : f.IsNearest q x) (h : 0 ≤ q) : 0 ≤ x := hx.ge_of_holds f.holds_zero h

end Format.IsNearest

/-! ## Rounding on a grid -/

/-- What is rounded stays on its side of a whole number. -/
theorem le_of_half {m n : ℕ} (h : |(m : ℚ) - q| ≤ 1 / 2) (hq : q ≤ n) : m ≤ n := by
  have := (abs_le.mp h).2
  have : (m : ℚ) < n + 1 := by linarith
  exact Nat.lt_succ_iff.mp (by exact_mod_cast this)

theorem ge_of_half {m n : ℕ} (h : |(m : ℚ) - q| ≤ 1 / 2) (hq : n ≤ q) : n ≤ m := by
  have := (abs_le.mp h).1
  have : (n : ℚ) < m + 1 := by linarith
  exact Nat.lt_succ_iff.mp (by exact_mod_cast this)

/-- A number on a grid whose distance to a fraction is at most half of its step is nearest to it
among all numbers of the grid. -/
theorem abs_sub_le_of_half {t : ℚ} (ht : 0 < t) (m : ℕ) (k : ℤ) (h : |m * t - q| ≤ t / 2) :
    |m * t - q| ≤ |k * t - q| := by
  by_cases hk : k = m
  · rw [hk, Int.cast_natCast]
  · have hstep : t ≤ |(k : ℚ) * t - m * t| := by
      rw [← sub_mul, abs_mul, abs_of_pos ht]
      have hone : (1 : ℚ) ≤ |(k : ℚ) - m| := by
        rw [← Int.cast_natCast, ← Int.cast_sub, ← Int.cast_abs]
        exact_mod_cast Int.one_le_abs (sub_ne_zero.mpr hk)
      nlinarith
    have htriangle : |(k : ℚ) * t - m * t| ≤ |k * t - q| + |m * t - q| := by
      rw [show (k : ℚ) * t - m * t = (k * t - q) - (m * t - q) by ring]
      exact abs_sub _ _
    linarith

/-- The exponent of the grid on which a fraction is rounded: the least one, or one with which the
fraction needs all digits. -/
structure Format.IsGrid (f : Format) (q : ℚ) (t : ℤ) : Prop where
  least : f.least ≤ t
  below : q ≤ 2 ^ f.digits * 2 ^ t
  above : t = f.least ∨ 2 ^ (f.digits - 1) * 2 ^ t ≤ q

namespace Format.IsGrid

variable {m : ℕ} {t : ℤ}

/-- A fraction is rounded to a number with few enough digits, or to the first power of two with too
many. -/
theorem le_pow (h : f.IsGrid q t) (hm : |m - q / 2 ^ t| ≤ 1 / 2) : m ≤ 2 ^ f.digits := by
  refine le_of_half hm ?_
  rw [div_le_iff₀ (two_zpow_pos t)]
  exact_mod_cast h.below

/-- A fraction is rounded to a number with all digits, or on the grid of the least exponent. -/
theorem full (h : f.IsGrid q t) (hm : |m - q / 2 ^ t| ≤ 1 / 2) :
    t = f.least ∨ 2 ^ (f.digits - 1) ≤ m := by
  refine h.above.imp id fun habove => ge_of_half hm ?_
  rw [le_div_iff₀ (two_zpow_pos t)]
  exact_mod_cast habove

/-- What a fraction is rounded to on its grid is nearest to it. -/
theorem isNearest (h : f.IsGrid q t) (hpos : 0 < f.digits) (hm : |m - q / 2 ^ t| ≤ 1 / 2) :
    f.IsNearest q (m * 2 ^ t) where
  holds := holds_of_le hpos (h.le_pow hm) h.least
  closest y hy := by
    have ht := two_zpow_pos t
    have hclose : |m * (2 : ℚ) ^ t - q| ≤ 2 ^ t / 2 := by
      have hscale : m * (2 : ℚ) ^ t - q = (m - q / 2 ^ t) * 2 ^ t := by
        field_simp
      rw [hscale, abs_mul, abs_of_pos ht]
      nlinarith
    rcases hy.on_grid_or_lt hpos t with ⟨k, rfl⟩ | ⟨hleast, hlt⟩
    · exact abs_sub_le_of_half ht m k hclose
    · -- What is on a finer grid only is less than the fraction's greatest power of two.
      have habove := h.above.resolve_left hleast.ne'
      have hround := abs_sub_le_of_half ht m (2 ^ (f.digits - 1)) hclose
      push_cast at hround
      rw [abs_of_nonpos (by linarith : (2 : ℚ) ^ (f.digits - 1) * 2 ^ t - q ≤ 0)] at hround
      rw [abs_of_nonpos (by linarith : y - q ≤ 0)]
      linarith

end Format.IsGrid

/-! ## The number below -/

/-- A positive number of a format with as many digits as its exponent permits. -/
theorem Format.Holds.exists_canonical (h : f.Holds x) (hx : 0 < x) (hpos : 0 < f.digits) :
    ∃ (m : ℕ) (e : ℤ), x = m * 2 ^ e ∧ m < 2 ^ f.digits ∧ f.least ≤ e
      ∧ (2 ^ (f.digits - 1) ≤ m ∨ e = f.least) := by
  obtain ⟨n, e, hn, he, rfl⟩ := h
  have hn0 : 0 < n := by
    have := (mul_pos_iff_of_pos_right (two_zpow_pos e)).mp hx
    exact_mod_cast this
  obtain ⟨m, rfl⟩ := Int.eq_ofNat_of_zero_le hn0.le
  have hm : m < 2 ^ f.digits := by
    rw [Int.abs_natCast] at hn
    exact_mod_cast hn
  have hm0 : m ≠ 0 := by rintro rfl; simp at hn0
  have hlog : m.log2 < f.digits := (Nat.log2_lt hm0).mpr hm
  -- As many digits are added as there is room for, and as the exponent can spare.
  obtain ⟨j, hj⟩ : ∃ j : ℕ, j = min (f.digits - 1 - m.log2) (e - f.least).toNat := ⟨_, rfl⟩
  refine ⟨m * 2 ^ j, e - j, ?_, ?_, by omega, ?_⟩
  · rw [show e = j + (e - j) by omega, two_zpow_add, two_zpow_natCast]
    push_cast
    ring_nf
  · calc m * 2 ^ j < 2 ^ (m.log2 + 1) * 2 ^ j :=
          Nat.mul_lt_mul_of_pos_right Nat.lt_log2_self (by positivity)
      _ = 2 ^ (m.log2 + 1 + j) := (pow_add _ _ _).symm
      _ ≤ 2 ^ f.digits := Nat.pow_le_pow_right (by norm_num) (by omega)
  · by_cases hroom : f.digits - 1 - m.log2 ≤ (e - f.least).toNat
    · left
      calc 2 ^ (f.digits - 1) = 2 ^ m.log2 * 2 ^ j := by
            rw [← pow_add]
            congr 1
            omega
        _ ≤ m * 2 ^ j := Nat.mul_le_mul_right _ (Nat.log2_self_le hm0)
    · right
      omega

/-- Below a number that needs all digits there is another one, less than two parts in `2 ^ digits`
away. -/
theorem Format.Holds.exists_below (h : f.Holds x) (hpos : 0 < f.digits)
    (hlarge : 2 ^ f.digits * 2 ^ f.least < x) :
    ∃ y, f.Holds y ∧ y < x ∧ x - y < 2 * (x / 2 ^ f.digits) := by
  have hx : 0 < x := lt_trans (mul_pos (by positivity) (two_zpow_pos _)) hlarge
  obtain ⟨m, e, rfl, hm, he, hdigits⟩ := h.exists_canonical hx hpos
  have hleast : e ≠ f.least := by
    rintro rfl
    have hcast : (m : ℚ) < 2 ^ f.digits := by exact_mod_cast hm
    exact absurd (mul_lt_mul_of_pos_right hcast (two_zpow_pos _)) hlarge.not_gt
  have hfull := hdigits.resolve_right hleast
  have hm0 : 0 < m := lt_of_lt_of_le (by positivity) hfull
  have hdouble := mul_pow_sub_one hpos.ne' 2
  have hparts : 2 * ((m : ℚ) * 2 ^ e / 2 ^ f.digits) = m / 2 ^ (f.digits - 1) * 2 ^ e := by
    rw [← mul_pow_sub_one hpos.ne' (2 : ℚ)]
    field_simp
  rw [hparts]
  rcases hfull.lt_or_eq with hmore | heq
  · -- The number below has the same exponent.
    refine ⟨((m - 1 : ℕ) : ℚ) * 2 ^ e, holds_of_lt (by omega) he, ?_⟩
    have hstep := two_zpow_pos e
    have hratio : (1 : ℚ) < m / 2 ^ (f.digits - 1) := by
      rw [lt_div_iff₀ (by positivity), one_mul]
      exact_mod_cast hmore
    rw [Nat.cast_sub (by omega), Nat.cast_one]
    constructor <;> nlinarith
  · -- The number is a power of two, and the one below has a smaller exponent.
    refine ⟨((2 * m - 1 : ℕ) : ℚ) * 2 ^ (e - 1), holds_of_lt (by omega) (by omega), ?_⟩
    have hstep := two_zpow_pos (e - 1)
    have hratio : (m : ℚ) / 2 ^ (f.digits - 1) = 1 := by
      rw [← heq]
      push_cast
      exact div_self (by positivity)
    have htwo : (2 : ℚ) ^ e = 2 * 2 ^ (e - 1) := by
      rw [show e = 1 + (e - 1) by omega, two_zpow_add]
      ring_nf
    rw [hratio, htwo, Nat.cast_sub (by omega)]
    push_cast
    constructor <;> linarith

/-- What falls short of a number by one part in `2 ^ digits` is nearer to another number of the
format. -/
theorem Format.Holds.exists_nearer (h : f.Holds x) (hpos : 0 < f.digits)
    (hlarge : 2 ^ f.digits * 2 ^ f.least < x) {z : ℚ} (hz : z ≤ x - x / 2 ^ f.digits) :
    ∃ y, f.Holds y ∧ |y - z| < |x - z| := by
  obtain ⟨y, hy, hlt, hclose⟩ := h.exists_below hpos hlarge
  refine ⟨y, hy, ?_⟩
  rw [abs_of_pos (by linarith : 0 < x - z), abs_lt]
  constructor <;> linarith

/-- A part of a rounded number, rounded again, is not more than the number was before. The part has
to leave out one part in `2 ^ digits`, and the number has to be a whole number of the least units.
-/
theorem Format.IsNearest.part_le {d t w : ℚ} (hd : f.IsNearest q d) (hw : f.IsNearest (t * d) w)
    (hpos : 0 < f.digits) (hq : ∃ k : ℕ, q = k * 2 ^ f.least) (ht : t ≤ 1 - 1 / 2 ^ f.digits) :
    w ≤ q := by
  obtain ⟨k, rfl⟩ := hq
  have hd0 : 0 ≤ d := hd.nonneg (mul_nonneg (Nat.cast_nonneg k) (two_zpow_pos _).le)
  have hpart : t * d ≤ d - d / 2 ^ f.digits := by
    calc t * d ≤ (1 - 1 / 2 ^ f.digits) * d := mul_le_mul_of_nonneg_right ht hd0
      _ = d - d / 2 ^ f.digits := by ring
  have hwd : w ≤ d := hw.le_of_holds hd.holds (hpart.trans (sub_le_self _ (by positivity)))
  rcases le_or_gt d (k * 2 ^ f.least) with hdown | hup
  · exact hwd.trans hdown
  · -- The number was rounded up. It is large then, since it is a number of the format otherwise.
    by_contra hlt
    rw [not_le] at hlt
    have heq : w = d := by
      by_contra hne
      have hbetween : w < d := lt_of_le_of_ne hwd hne
      have hclosest := hd.closest w hw.holds
      rw [abs_of_pos (by linarith), abs_of_pos (by linarith)] at hclosest
      linarith
    have hk : 2 ^ f.digits ≤ k := by
      by_contra hsmall
      have hholds : f.Holds (k * 2 ^ f.least) := holds_of_lt (not_le.mp hsmall) le_rfl
      exact hup.ne' (hd.eq_of_holds hholds)
    have hlarge : 2 ^ f.digits * 2 ^ f.least < d := by
      refine lt_of_le_of_lt (mul_le_mul_of_nonneg_right ?_ (two_zpow_pos _).le) hup
      exact_mod_cast hk
    obtain ⟨y, hy, hnearer⟩ := hd.holds.exists_nearer hpos hlarge hpart
    exact absurd (heq ▸ hw.closest y hy) hnearer.not_ge

end Specimen.Decimal

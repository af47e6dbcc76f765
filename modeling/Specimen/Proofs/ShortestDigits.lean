import Specimen.Decimal.Shortest
import Specimen.Proofs.FormatRounding

/-!
# The digits of a number in shortest notation

The digits that are found for a number are a decimal fraction that the number is nearest to. The
search for them ends on a grid with a point close enough to the number: after forty grids the points
are less than a quarter of a unit apart, since a power of ten is not far from the power of two it is
estimated from. The digits of a whole number that is not too large are its own.
-/

namespace Specimen.Decimal

variable {f : Format} {m : ℕ} {q : ℤ} {i : Interval}

/-! ## The parts of a number in a format -/

/-- The significand and the exponent that a number has in a format. -/
structure Format.IsParts (f : Format) (m : ℕ) (q : ℤ) : Prop where
  pos : 0 < m
  digits : m < 2 ^ f.digits
  least : f.least ≤ q
  full : 2 ^ (f.digits - 1) ≤ m ∨ q = f.least

/-- The parts of a number of double precision are turned into those of a narrower format, if this
has the number. -/
theorem partsIn_eq (hf : f.IsNarrow) (hm : 0 < m) (hfull : 2 ^ 52 ≤ m ∨ q = -1074)
    (hholds : f.Holds (m * 2 ^ q)) : f.IsParts (partsIn f m q).1 (partsIn f m q).2
      ∧ ((partsIn f m q).1 : ℚ) * 2 ^ (partsIn f m q).2 = m * 2 ^ q := by
  have hpos : (0 : ℚ) < m * 2 ^ q := mul_pos (by exact_mod_cast hm) (two_zpow_pos q)
  obtain ⟨n, e, hvalue, hn, he, hfull'⟩ := hholds.exists_canonical hpos hf.digits_pos
  have hn0 : 0 < n := by
    rw [hvalue] at hpos
    exact_mod_cast (mul_pos_iff_of_pos_right (two_zpow_pos e)).mp hpos
  have hdigits := hf.digits_le
  have hleast := hf.least_ge
  -- The significand of double precision has all the digits of the narrower one.
  have hqe : q ≤ e := by
    by_contra hlt
    obtain ⟨k, hk⟩ := Int.le.dest (by omega : e + 1 ≤ q)
    have hm' : 2 ^ 52 ≤ m := hfull.resolve_right (by omega)
    have hmore : (2 ^ 53 : ℚ) * 2 ^ e ≤ m * 2 ^ q := by
      have h52 : (2 ^ 52 : ℚ) ≤ m := by exact_mod_cast hm'
      calc (2 ^ 53 : ℚ) * 2 ^ e = 2 ^ 52 * 2 ^ (e + 1) := by rw [two_zpow_add]; ring
        _ ≤ m * 2 ^ q :=
          mul_le_mul h52 (two_zpow_le (by omega)) (two_zpow_pos _).le (Nat.cast_nonneg m)
    have hless : (n : ℚ) * 2 ^ e < 2 ^ 53 * 2 ^ e := by
      refine mul_lt_mul_of_pos_right ?_ (two_zpow_pos e)
      exact_mod_cast lt_of_lt_of_le hn (Nat.pow_le_pow_right (by norm_num) hdigits)
    rw [← hvalue] at hless
    exact absurd hless hmore.not_gt
  obtain ⟨k, rfl⟩ := Int.le.dest hqe
  have hscale : m = n * 2 ^ k := by
    rw [two_zpow_add, two_zpow_natCast] at hvalue
    have : ((m : ℕ) : ℚ) = ((n * 2 ^ k : ℕ) : ℚ) := by
      have hne := (two_zpow_pos q).ne'
      push_cast
      push_cast at hvalue
      have : (m : ℚ) * 2 ^ q = n * 2 ^ k * 2 ^ q := by rw [hvalue]; ring
      exact mul_right_cancel₀ hne this
    exact_mod_cast this
  have hlog : m.log2 = n.log2 + k := by rw [hscale, log2_mul_two_pow hn0]
  have hlogn : n.log2 < f.digits := (Nat.log2_lt hn0.ne').mpr hn
  have hlogfull : 2 ^ (f.digits - 1) ≤ n → f.digits - 1 ≤ n.log2 := (Nat.le_log2 hn0.ne').mpr
  have hdrop : max (f.least - q) ((m.log2 : ℤ) + 1 - f.digits) = k := by
    rcases hfull' with hall | hend
    · have := hlogfull hall
      omega
    · omega
  have hparts : partsIn f m q = (n, q + k) := by
    rw [partsIn]
    simp only [hdrop, Int.natCast_nonneg, if_true, Int.toNat_natCast, Nat.pow_eq]
    rw [hscale, Nat.mul_div_cancel _ (Nat.two_pow_pos k)]
  rw [hparts]
  exact ⟨⟨hn0, hn, he, hfull'⟩, hvalue.symm⟩

/-! ## The interval of a number -/

/-- A fraction in an interval. -/
def Interval.Contains (i : Interval) (d : ℚ) : Prop :=
  i.low * 2 ^ i.exponent ≤ d ∧ d ≤ i.high * 2 ^ i.exponent

theorem Format.IsParts.full_of_lt (h : f.IsParts m q) (hq : f.least < q) :
    (2 : ℚ) ^ (f.digits - 1) ≤ m := by
  exact_mod_cast h.full.resolve_right hq.ne'

/-- The next number is a whole step above. -/
theorem Format.IsParts.add_le (h : f.IsParts m q) (hpos : 0 < f.digits) {y : ℚ} (hy : f.Holds y)
    (hlt : (m : ℚ) * 2 ^ q < y) : (m : ℚ) * 2 ^ q + 2 ^ q ≤ y := by
  have hq := two_zpow_pos q
  rcases hy.on_grid_or_lt hpos q with ⟨k, rfl⟩ | ⟨hleast, hbelow⟩
  · have hk : (m : ℚ) < k := lt_of_mul_lt_mul_right hlt hq.le
    have hk' : (m : ℚ) + 1 ≤ k := by
      have : (m : ℤ) < k := by exact_mod_cast hk
      exact_mod_cast Int.add_one_le_iff.mpr this
    nlinarith
  · have := mul_le_mul_of_nonneg_right (h.full_of_lt hleast) hq.le
    linarith

/-- The number before is a whole step below, or half of one if the significand is the least with all
digits. -/
theorem Format.IsParts.le_sub (h : f.IsParts m q) (hpos : 0 < f.digits) {y : ℚ} (hy : f.Holds y)
    (hlt : y < m * 2 ^ q) : y ≤ m * 2 ^ q - 2 ^ q
      ∨ (m = 2 ^ (f.digits - 1) ∧ f.least < q) ∧ y ≤ m * 2 ^ q - 2 ^ (q - 1) := by
  have hq := two_zpow_pos q
  have hhalf := two_zpow_pos (q - 1)
  have htwo : (2 : ℚ) ^ q = 2 * 2 ^ (q - 1) := by
    rw [show q = 1 + (q - 1) by omega, two_zpow_add]
    ring_nf
  rcases hy.on_grid_or_lt hpos q with ⟨k, rfl⟩ | ⟨hleast, hbelow⟩
  · left
    have hk : (k : ℚ) < m := lt_of_mul_lt_mul_right hlt hq.le
    have hk' : (k : ℚ) + 1 ≤ m := by
      have : k < (m : ℤ) := by exact_mod_cast hk
      exact_mod_cast Int.add_one_le_iff.mpr this
    nlinarith
  · have hfull := h.full.resolve_right hleast.ne'
    rcases hfull.lt_or_eq with hmore | heq
    · left
      have hm : (2 : ℚ) ^ (f.digits - 1) + 1 ≤ m := by exact_mod_cast hmore
      nlinarith
    · right
      refine ⟨⟨heq.symm, hleast⟩, ?_⟩
      rw [htwo] at hlt ⊢
      have hm1 : (1 : ℚ) ≤ m := by exact_mod_cast h.pos
      -- Below a power of two, the numbers are half as far apart.
      rcases hy.on_grid_or_lt hpos (q - 1) with ⟨k, rfl⟩ | ⟨-, hbelow'⟩
      · have hk : (k : ℚ) < 2 * m := lt_of_mul_lt_mul_right (by linarith) hhalf.le
        have hk' : (k : ℚ) + 1 ≤ 2 * m := by
          have : k < 2 * (m : ℤ) := by exact_mod_cast hk
          exact_mod_cast Int.add_one_le_iff.mpr this
        nlinarith
      · have hm : (2 : ℚ) ^ (f.digits - 1) = m := by exact_mod_cast heq
        rw [hm] at hbelow'
        nlinarith

/-- The nearer one of two numbers lies on the side of the middle. -/
theorem abs_sub_le_of_middle {x y d : ℚ} (h : x < y ∧ 2 * d ≤ x + y ∨ y < x ∧ x + y ≤ 2 * d) :
    |x - d| ≤ |y - d| := by
  rw [← sq_le_sq]
  rcases h with ⟨hlt, hd⟩ | ⟨hlt, hd⟩ <;> nlinarith

/-- A number is nearest to everything in its interval. -/
theorem isNearest_of_contains (h : f.IsParts m q) (hpos : 0 < f.digits) {d : ℚ}
    (hd : (interval f m q).Contains d) : f.IsNearest d (m * 2 ^ q) := by
  have hunit : (2 : ℚ) ^ q = 4 * 2 ^ (q - 2) := by
    rw [show q = 2 + (q - 2) by omega, two_zpow_add]
    norm_num
  have hhalf : (2 : ℚ) ^ (q - 1) = 2 * 2 ^ (q - 2) := by
    rw [show q - 1 = 1 + (q - 2) by omega, two_zpow_add]
    ring_nf
  obtain ⟨hlow, hhigh⟩ := hd
  have hm : 0 < m := h.pos
  refine ⟨Format.holds_of_lt h.digits h.least, fun y hy => ?_⟩
  -- The interval ends in the middle to each neighbour; the lower one may be half as far.
  rcases lt_trichotomy y (m * 2 ^ q) with hlt | heq | hgt
  · refine abs_sub_le_of_middle (.inr ⟨hlt, ?_⟩)
    have hprevious := h.le_sub hpos hy hlt
    simp only [interval, Bool.and_eq_true, beq_iff_eq, decide_eq_true_eq, Nat.pow_eq] at hlow
    by_cases hnearer : m = 2 ^ (f.digits - 1) ∧ f.least < q
    · rw [if_pos hnearer, Nat.cast_sub (by omega)] at hlow
      push_cast at hlow
      rcases hprevious with hfar | ⟨-, hnear⟩ <;> nlinarith
    · rw [if_neg hnearer, Nat.cast_sub (by omega)] at hlow
      push_cast at hlow
      have hfar := hprevious.resolve_right fun hnear => hnearer hnear.1
      nlinarith
  · rw [heq]
  · refine abs_sub_le_of_middle (.inl ⟨hgt, ?_⟩)
    have hnext := h.add_le hpos hy hgt
    simp only [interval] at hhigh
    push_cast at hhigh
    nlinarith

/-! ## Points of decimal grids -/

theorem ten_zpow_pos (e : ℤ) : (0 : ℚ) < 10 ^ e := zpow_pos (by norm_num) e

theorem scaleUp_eq (base n : ℕ) (e : ℤ) : (scaleUp base n e : ℚ) = n * (base : ℚ) ^ e.toNat := by
  rw [scaleUp]
  by_cases he : 0 ≤ e
  · rw [if_pos he, Nat.pow_eq]
    push_cast
    rfl
  · rw [if_neg he, show e.toNat = 0 by omega, pow_zero, mul_one]

/-- The factors are in the ratio of a unit to a step of the grid. -/
theorem factors_eq (exponent power : ℤ) :
    ((factors exponent power).1 : ℚ) * 10 ^ power = (factors exponent power).2 * 2 ^ exponent := by
  have hsplit (b : ℚ) (hb : b ≠ 0) (e : ℤ) : b ^ e = b ^ e.toNat / b ^ (-e).toNat := by
    rw [← zpow_natCast, ← zpow_natCast, ← zpow_sub₀ hb]
    congr 1
    omega
  simp only [factors, scaleUp_eq]
  rw [hsplit 10 (by norm_num) power, hsplit 2 (by norm_num) exponent]
  push_cast
  field_simp

theorem factors_pos (exponent power : ℤ) :
    0 < (factors exponent power).1 ∧ 0 < (factors exponent power).2 := by
  have hpos (base n : ℕ) (e : ℤ) (hbase : 0 < base) (hn : 0 < n) : 0 < scaleUp base n e := by
    rw [scaleUp]
    split
    · exact Nat.mul_pos hn (Nat.pow_pos hbase)
    · exact hn
  simp only [factors]
  exact ⟨hpos _ _ _ (by norm_num) (hpos _ _ _ (by norm_num) (by norm_num)),
    hpos _ _ _ (by norm_num) (hpos _ _ _ (by norm_num) (by norm_num))⟩

/-- Multiplied with their factors, numbers of units and points of a grid have one scale. -/
theorem exists_scale (exponent power : ℤ) : ∃ c : ℚ, 0 < c
    ∧ (∀ n : ℕ, (n : ℚ) * 2 ^ exponent = ((n * (factors exponent power).1 : ℕ) : ℚ) * c)
    ∧ ∀ point : ℕ, (point : ℚ) * 10 ^ power
      = ((point * (factors exponent power).2 : ℕ) : ℚ) * c := by
  have hfactors := factors_eq exponent power
  obtain ⟨hunit, -⟩ := factors_pos exponent power
  generalize (factors exponent power).1 = unit at *
  generalize (factors exponent power).2 = grid at *
  have hunit' : (0 : ℚ) < unit := by exact_mod_cast hunit
  refine ⟨2 ^ exponent / unit, div_pos (two_zpow_pos _) hunit', fun n => ?_, fun point => ?_⟩
  · push_cast
    field_simp
  · push_cast
    rw [mul_assoc, ← mul_div_assoc, ← hfactors]
    field_simp

/-- A point that is rounded to the number is in its interval. -/
theorem contains_of_holds {power : ℤ} {point : ℕ}
    (h : i.holds (factors i.exponent power).1 (point * (factors i.exponent power).2) = true) :
    i.Contains (point * 10 ^ power) := by
  obtain ⟨c, hc, hunits, hpoints⟩ := exists_scale i.exponent power
  rw [Interval.Contains, hunits, hunits, hpoints, mul_le_mul_iff_left₀ hc, mul_le_mul_iff_left₀ hc,
    Nat.cast_le, Nat.cast_le]
  rw [Interval.holds] at h
  split at h <;> simp only [Bool.and_eq_true, decide_eq_true_eq] at h
  · exact h
  · exact ⟨h.1.le, h.2.le⟩

theorem contains_of_gridPoint {power : ℤ} {point : ℕ} (h : gridPoint? i power = some point) :
    i.Contains (point * 10 ^ power) := by
  rw [gridPoint?] at h
  simp only at h
  split at h
  · next hlower =>
    cases h
    exact contains_of_holds (by simp only [Bool.and_eq_true] at hlower; exact hlower.1)
  · split at h
    · next hupper =>
      cases h
      exact contains_of_holds hupper
    · cases h

/-- The point below the number is in the interval if the grid is as fine as the units. -/
theorem contains_below {power : ℤ} (hlow : i.low + 1 ≤ i.value) (hhigh : i.value ≤ i.high)
    (hfine : (10 : ℚ) ^ power ≤ 2 ^ i.exponent) :
    i.Contains ((i.value * (factors i.exponent power).1 / (factors i.exponent power).2 : ℕ)
      * 10 ^ power) := by
  -- One factor makes whole numbers of units and points; the point is a quotient rounded down.
  obtain ⟨c, hc, hunits, hpoints⟩ := exists_scale i.exponent power
  obtain ⟨-, hgrid⟩ := factors_pos i.exponent power
  obtain ⟨point, hpoint⟩ : ∃ point, i.value * (factors i.exponent power).1
    / (factors i.exponent power).2 = point := ⟨_, rfl⟩
  have hbelow : (point : ℚ) * 10 ^ power ≤ i.value * 2 ^ i.exponent := by
    rw [hunits, hpoints, mul_le_mul_iff_left₀ hc, Nat.cast_le, ← hpoint]
    exact Nat.div_mul_le_self _ _
  have habove : (i.value : ℚ) * 2 ^ i.exponent < (point + 1) * 10 ^ power := by
    have hnext := hpoints (point + 1)
    push_cast at hnext
    rw [hunits, hnext]
    refine mul_lt_mul_of_pos_right ?_ hc
    have := Nat.lt_mul_div_succ (i.value * (factors i.exponent power).1) hgrid
    rw [hpoint, mul_comm (factors _ _).2] at this
    exact_mod_cast this
  rw [hpoint]
  have hunit := two_zpow_pos i.exponent
  constructor
  · have : (i.low : ℚ) + 1 ≤ i.value := by exact_mod_cast hlow
    nlinarith
  · have : (i.value : ℚ) ≤ i.high := by exact_mod_cast hhigh
    nlinarith

/-- The search ends with a point in the interval, at the latest on its last grid. -/
theorem contains_search (hlow : i.low + 1 ≤ i.value) (hhigh : i.value ≤ i.high) (steps : ℕ)
    (power : ℤ) (hfine : (10 : ℚ) ^ (power - steps) ≤ 2 ^ i.exponent) :
    i.Contains ((search i steps power).1 * 10 ^ (search i steps power).2) := by
  induction steps generalizing power with
  | zero =>
    rw [Nat.cast_zero, sub_zero] at hfine
    exact contains_below hlow hhigh hfine
  | succ steps ih =>
    rw [search]
    cases hpoint : gridPoint? i power with
    | some point => exact contains_of_gridPoint hpoint
    | none => exact ih (power - 1) (by rwa [show power - 1 - (steps : ℤ) = power - (steps + 1 : ℕ) by
        push_cast; ring])

/-! ## Powers of ten and of two -/

theorem ten_zpow_le_of_nonneg {z e : ℤ} (hz : 0 ≤ z) (h : 10 * z ≤ 3 * e) :
    (10 : ℚ) ^ z ≤ 2 ^ e := by
  obtain ⟨n, rfl⟩ := Int.eq_ofNat_of_zero_le hz
  obtain ⟨k, rfl⟩ := Int.eq_ofNat_of_zero_le (by omega : 0 ≤ e)
  rw [zpow_natCast, zpow_natCast, ← pow_le_pow_iff_left₀ (by positivity) (by positivity) three_ne_zero]
  calc ((10 : ℚ) ^ n) ^ 3 = (10 ^ 3) ^ n := by rw [← pow_mul, ← pow_mul, mul_comm]
    _ ≤ (2 ^ 10) ^ n := pow_le_pow_left₀ (by norm_num) (by norm_num) n
    _ = 2 ^ (10 * n) := by rw [← pow_mul]
    _ ≤ 2 ^ (k * 3) := pow_le_pow_right₀ (by norm_num) (by omega)
    _ = (2 ^ k) ^ 3 := by rw [← pow_mul]

theorem ten_zpow_le_of_nonpos {z e : ℤ} (hz : z ≤ 0) (h : 13 * z ≤ 4 * e) :
    (10 : ℚ) ^ z ≤ 2 ^ e := by
  obtain ⟨n, hn⟩ := Int.eq_ofNat_of_zero_le (by omega : 0 ≤ -z)
  obtain rfl : z = -(n : ℤ) := by omega
  rcases le_total 0 e with he | he
  · calc (10 : ℚ) ^ (-(n : ℤ)) ≤ 10 ^ (0 : ℤ) := zpow_le_zpow_right₀ (by norm_num) (by omega)
      _ = 2 ^ (0 : ℤ) := by norm_num
      _ ≤ 2 ^ e := two_zpow_le he
  · obtain ⟨k, hk⟩ := Int.eq_ofNat_of_zero_le (by omega : 0 ≤ -e)
    obtain rfl : e = -(k : ℤ) := by omega
    rw [zpow_neg, zpow_neg, zpow_natCast, zpow_natCast]
    refine inv_anti₀ (by positivity) ?_
    rw [← pow_le_pow_iff_left₀ (by positivity) (by positivity) four_ne_zero]
    calc ((2 : ℚ) ^ k) ^ 4 = 2 ^ (4 * k) := by rw [← pow_mul, mul_comm]
      _ ≤ 2 ^ (13 * n) := pow_le_pow_right₀ (by norm_num) (by omega)
      _ = (2 ^ 13) ^ n := by rw [← pow_mul]
      _ ≤ (10 ^ 4) ^ n := pow_le_pow_left₀ (by norm_num) (by norm_num) n
      _ = (10 ^ n) ^ 4 := by rw [← pow_mul, ← pow_mul, mul_comm]

/-- After forty grids the points are not farther apart than the units. -/
theorem fine_of_powerAbove (hdigits : i.value < 2 ^ 55) (hleast : -1076 ≤ i.exponent)
    (hgreatest : i.exponent < 1024) :
    (10 : ℚ) ^ (powerAbove i - (40 : ℕ)) ≤ 2 ^ i.exponent := by
  have hlog : i.value.log2 < 55 := by
    by_cases hzero : i.value = 0
    · rw [hzero, Nat.log2_zero]
      omega
    · exact (Nat.log2_lt hzero).mpr hdigits
  rw [powerAbove]
  rcases le_total 0 (((i.value.log2 : ℤ) + 1 + i.exponent) * 1233 / 4096 + 2 - (40 : ℕ)) with hz | hz
  · exact ten_zpow_le_of_nonneg hz (by omega)
  · exact ten_zpow_le_of_nonpos hz (by omega)

/-- **The shortest digits of a number are a decimal fraction that it is nearest to.** -/
theorem isNearest_shortest (hf : f.IsNarrow) (hm : 0 < m) (hfull : 2 ^ 52 ≤ m ∨ q = -1074)
    (hholds : f.Holds (m * 2 ^ q)) (hlimit : (m : ℚ) * 2 ^ q < double.limit) :
    f.IsNearest ((shortest f m q).1 * 10 ^ (shortest f m q).2) (m * 2 ^ q) := by
  obtain ⟨hparts, hvalue⟩ := partsIn_eq hf hm hfull hholds
  rw [← hvalue] at hlimit
  rw [← hvalue, shortest]
  generalize partsIn f m q = parts at hparts hlimit ⊢
  obtain ⟨m', q'⟩ := parts
  have hdigits : m' < 2 ^ 53 :=
    lt_of_lt_of_le hparts.digits (Nat.pow_le_pow_right (by norm_num) hf.digits_le)
  have hpos : 0 < m' := hparts.pos
  refine isNearest_of_contains hparts hf.digits_pos (contains_search ?_ ?_ 40 _ ?_)
  · simp only [interval]
    split <;> omega
  · simp only [interval]
    omega
  · have hexponent : q' < 1024 := by
      have hone : (1 : ℚ) ≤ m' := by exact_mod_cast hpos
      have : (2 : ℚ) ^ q' < 2 ^ (1024 : ℤ) :=
        lt_of_le_of_lt (le_mul_of_one_le_left (two_zpow_pos q').le hone) hlimit
      exact (zpow_lt_zpow_iff_right₀ (by norm_num)).mp this
    have hleast : -1074 ≤ q' := hf.least_ge.trans hparts.least
    refine fine_of_powerAbove ?_ ?_ ?_ <;> simp only [interval] <;> omega

/-! ## Whole numbers -/

/-- The grid of whole numbers has a whole number itself as its point. -/
theorem gridPoint?_of_whole {n : ℕ} (hlow : i.low < i.value) (hhigh : i.value < i.high)
    (hn : (i.value : ℚ) * 2 ^ i.exponent = n) : gridPoint? i 0 = some n := by
  obtain ⟨c, hc, hunits, hpoints⟩ := exists_scale i.exponent 0
  obtain ⟨hunit, hgrid⟩ := factors_pos i.exponent 0
  have hsame : i.value * (factors i.exponent 0).1 = n * (factors i.exponent 0).2 := by
    have hpoint := hpoints n
    rw [zpow_zero, mul_one, ← hn, hunits] at hpoint
    exact_mod_cast mul_right_cancel₀ hc.ne' hpoint
  rw [gridPoint?]
  simp only
  generalize (factors i.exponent 0).1 = unit at *
  generalize (factors i.exponent 0).2 = grid at *
  have hbelow : n * grid / grid = n := Nat.mul_div_cancel _ hgrid
  have hlower : i.holds unit (n * grid) = true := by
    have h1 : i.low * unit < n * grid := hsame ▸ Nat.mul_lt_mul_of_pos_right hlow hunit
    have h2 : n * grid < i.high * unit := hsame ▸ Nat.mul_lt_mul_of_pos_right hhigh hunit
    rw [Interval.holds]
    split
    · simp [h1.le, h2.le]
    · simp [h1, h2]
  have hfar : ¬ (n + 1) * grid - n * grid ≤ n * grid - n * grid := by
    rw [Nat.add_mul, Nat.one_mul]
    omega
  simp only [hsame, hbelow, hlower, hfar, decide_false, Bool.not_false, Bool.or_true, Bool.and_self,
    if_true]

/-- If no other whole number is in the interval of a whole number, the search ends with this one, on
the grid of whole numbers at the latest. -/
theorem search_of_whole {n : ℕ} (hlow : i.low < i.value) (hhigh : i.value < i.high)
    (hn : (i.value : ℚ) * 2 ^ i.exponent = n) (honly : ∀ k : ℕ, i.Contains k → k = n) (steps : ℕ)
    {power : ℤ} (h0 : 0 ≤ power) (hsteps : power < steps) :
    ((search i steps power).1 : ℚ) * 10 ^ (search i steps power).2 = n := by
  -- By the steps: the power goes down, and the grid of power 0 has the number itself.
  induction steps generalizing power with
  | zero => exact absurd hsteps (by push_cast; omega)
  | succ steps ih =>
    rw [search]
    cases hpoint : gridPoint? i power with
    | some point =>
      obtain ⟨k, rfl⟩ := Int.eq_ofNat_of_zero_le h0
      have hcontains := contains_of_gridPoint hpoint
      have hcast : ((point * 10 ^ k : ℕ) : ℚ) = point * 10 ^ (k : ℤ) := by
        push_cast
        rw [zpow_natCast]
      rw [← hcast] at hcontains
      show (point : ℚ) * 10 ^ (k : ℤ) = n
      rw [← hcast, honly _ hcontains]
    | none =>
      have hpower : power ≠ 0 := by
        rintro rfl
        rw [gridPoint?_of_whole hlow hhigh hn] at hpoint
        cases hpoint
      exact ih (by omega) (by push_cast at hsteps; omega)

/-- A number that is whole and has few enough digits has no other whole number in its interval. -/
theorem eq_of_contains_whole (h : f.IsParts m q) (hpos : 0 < f.digits) (hleast : f.least ≤ 0)
    {n k : ℕ} (hn : (m : ℚ) * 2 ^ q = n) (hlt : n < 2 ^ f.digits)
    (hk : (interval f m q).Contains k) : k = n := by
  -- With a unit above 1, the number would have too many digits.
  have hq : q ≤ 0 := by
    by_contra hlarge
    have hfull := h.full_of_lt (by omega)
    have hmany : (2 : ℚ) ^ f.digits ≤ m * 2 ^ q := by
      calc (2 : ℚ) ^ f.digits = 2 ^ (f.digits - 1) * 2 ^ (1 : ℤ) := by
            rw [zpow_one, pow_sub_one_mul hpos.ne']
        _ ≤ m * 2 ^ q :=
          mul_le_mul hfull (two_zpow_le (by omega)) (two_zpow_pos _).le (Nat.cast_nonneg m)
    rw [hn] at hmany
    exact absurd (by exact_mod_cast hmany) hlt.not_ge
  have hm : 0 < m := h.pos
  -- So the interval reaches less than 1 to both sides.
  have hstep : (2 : ℚ) ^ (q - 2) ≤ 1 / 4 := by
    refine (two_zpow_le (by omega : q - 2 ≤ -2)).trans ?_
    norm_num
  have hvalue : (n : ℚ) = 4 * m * 2 ^ (q - 2) := by
    rw [← hn, show q = 2 + (q - 2) by omega, two_zpow_add]
    norm_num
    ring
  obtain ⟨hlow, hhigh⟩ := hk
  have hbelow : (n : ℚ) < k + 1 := by
    have : (4 * m : ℚ) - 2 ≤ (interval f m q).low := by
      have : 4 * m - 2 ≤ (interval f m q).low := by
        simp only [interval]
        split <;> omega
      have hcast : ((4 * m - 2 : ℕ) : ℚ) = 4 * m - 2 := by
        rw [Nat.cast_sub (by omega)]
        push_cast
        rfl
      rw [← hcast]
      exact_mod_cast this
    have hpow := two_zpow_pos (q - 2)
    simp only [interval] at hlow this
    nlinarith
  have habove : (k : ℚ) < n + 1 := by
    simp only [interval] at hhigh
    push_cast at hhigh
    have hpow := two_zpow_pos (q - 2)
    nlinarith
  have h1 : n < k + 1 := by exact_mod_cast hbelow
  have h2 : k < n + 1 := by exact_mod_cast habove
  omega

/-- The search for a whole number begins on a grid of whole numbers, and reaches the grid of all of
them. -/
theorem powerAbove_of_whole {n : ℕ} (hn : (i.value : ℚ) * 2 ^ i.exponent = n) (hpos : 0 < n)
    (hlt : n < 2 ^ 53) : 0 ≤ powerAbove i ∧ powerAbove i < (40 : ℕ) := by
  have hvalue : i.value ≠ 0 := by
    intro hzero
    rw [hzero, Nat.cast_zero, zero_mul] at hn
    exact hpos.ne (by exact_mod_cast hn)
  have hlow : (2 : ℚ) ^ ((i.value.log2 : ℤ) + i.exponent) < 2 ^ (53 : ℤ) := by
    have hdigits : ((2 ^ i.value.log2 : ℕ) : ℚ) ≤ i.value := by exact_mod_cast Nat.log2_self_le hvalue
    calc (2 : ℚ) ^ ((i.value.log2 : ℤ) + i.exponent) ≤ i.value * 2 ^ i.exponent := by
          rw [two_zpow_add, two_zpow_natCast]
          exact mul_le_mul_of_nonneg_right hdigits (two_zpow_pos _).le
      _ = n := hn
      _ < 2 ^ (53 : ℤ) := by exact_mod_cast hlt
  have hhigh : (2 : ℚ) ^ (0 : ℤ) < 2 ^ ((i.value.log2 : ℤ) + 1 + i.exponent) := by
    have hdigits : (i.value : ℚ) < ((2 ^ (i.value.log2 + 1) : ℕ) : ℚ) := by
      exact_mod_cast Nat.lt_log2_self
    calc (2 : ℚ) ^ (0 : ℤ) ≤ n := by
          rw [zpow_zero]
          exact_mod_cast hpos
      _ = i.value * 2 ^ i.exponent := hn.symm
      _ < 2 ^ ((i.value.log2 : ℤ) + 1 + i.exponent) := by
        rw [two_zpow_add, show (i.value.log2 : ℤ) + 1 = ((i.value.log2 + 1 : ℕ) : ℤ) by push_cast; rfl,
          two_zpow_natCast]
        exact mul_lt_mul_of_pos_right hdigits (two_zpow_pos _)
  have h1 := (zpow_lt_zpow_iff_right₀ (by norm_num : (1 : ℚ) < 2)).mp hlow
  have h2 := (zpow_lt_zpow_iff_right₀ (by norm_num : (1 : ℚ) < 2)).mp hhigh
  rw [powerAbove]
  omega

/-- **A whole number with few enough digits is written as itself.** -/
theorem shortest_of_whole (hf : f.IsNarrow) (hm : 0 < m) (hfull : 2 ^ 52 ≤ m ∨ q = -1074) {n : ℕ}
    (hn : (m : ℚ) * 2 ^ q = n) (hlt : n < 2 ^ f.digits) :
    ((shortest f m q).1 : ℚ) * 10 ^ (shortest f m q).2 = n := by
  have hholds : f.Holds (m * 2 ^ q) := by
    rw [hn]
    have := Format.holds_of_lt hlt hf.least_le
    rwa [zpow_zero, mul_one] at this
  obtain ⟨hparts, hvalue⟩ := partsIn_eq hf hm hfull hholds
  rw [shortest]
  rw [hn] at hvalue
  generalize partsIn f m q = parts at hparts hvalue ⊢
  obtain ⟨m', q'⟩ := parts
  have hpos : 0 < m' := hparts.pos
  have hinterval : ((interval f m' q').value : ℚ) * 2 ^ (interval f m' q').exponent = n := by
    rw [← hvalue]
    simp only [interval]
    rw [show q' = 2 + (q' - 2) by omega, two_zpow_add]
    push_cast
    norm_num
    ring
  have honly (k : ℕ) := @eq_of_contains_whole _ _ _ hparts hf.digits_pos hf.least_le n k hvalue hlt
  have hpos' : 0 < n := by
    have : (0 : ℚ) < m' * 2 ^ q' := mul_pos (by exact_mod_cast hpos) (two_zpow_pos q')
    rw [hvalue] at this
    exact_mod_cast this
  have hlarge : n < 2 ^ 53 :=
    lt_of_lt_of_le hlt (Nat.pow_le_pow_right (by norm_num) hf.digits_le)
  obtain ⟨hstart, hsteps⟩ := powerAbove_of_whole hinterval hpos' hlarge
  refine search_of_whole ?_ ?_ hinterval honly 40 hstart hsteps
  · simp only [interval]
    split <;> omega
  · simp only [interval]
    omega

end Specimen.Decimal

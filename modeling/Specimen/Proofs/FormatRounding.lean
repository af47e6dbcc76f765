import Specimen.Proofs.FloatParts

/-!
# Rounding fractions to a format

A fraction is rounded on the grid that leaves it all its digits. Whether the digits fit is seen only
after rounding; if they do not, the fraction is rounded on the next coarser grid, which comes to the
same: it was rounded to the first power of two with too many digits, and still is.
-/

namespace Specimen.Decimal

open Float.Model.UnpackedFloat

variable {f : Format} {num den : ℕ} {q : ℚ} {t : ℤ}

/-! ## Rounding to whole numbers -/

/-- The rounded quotient is at most one half away. -/
theorem abs_divideToEven_sub_le (num : ℕ) (hden : 0 < den) :
    |(divideToEven num den : ℚ) - num / den| ≤ 1 / 2 := by
  have hpos : (0 : ℚ) < den := by exact_mod_cast hden
  have hlt : num % den < den := Nat.mod_lt num hden
  rw [div_eq_add_mod_div num hden, divideToEven]
  generalize num / den = k
  generalize num % den = r at hlt ⊢
  have hr0 : (0 : ℚ) ≤ r / den := by positivity
  rw [abs_le]
  -- Rounded down, the remainder is at most one half of the divisor; rounded up, at least.
  by_cases hdown : (2 * r < den || (2 * r == den && k % 2 == 0)) = true
  · rw [if_pos hdown]
    have hle : 2 * r ≤ den := by
      simp only [Bool.or_eq_true, decide_eq_true_eq, Bool.and_eq_true, beq_iff_eq] at hdown
      omega
    have : (r : ℚ) / den ≤ 1 / 2 := by
      rw [div_le_div_iff₀ hpos (by norm_num)]
      have : ((2 * r : ℕ) : ℚ) ≤ den := by exact_mod_cast hle
      push_cast at this
      linarith
    constructor <;> linarith
  · rw [if_neg hdown]
    have hge : den ≤ 2 * r := by
      simp only [Bool.or_eq_true, decide_eq_true_eq, Bool.and_eq_true, beq_iff_eq] at hdown
      omega
    have : 1 / 2 ≤ (r : ℚ) / den := by
      rw [div_le_div_iff₀ (by norm_num) hpos]
      have : (den : ℚ) ≤ ((2 * r : ℕ) : ℚ) := by exact_mod_cast hge
      push_cast at this
      linarith
    have : (r : ℚ) / den < 1 := (div_lt_one hpos).mpr (by exact_mod_cast hlt)
    push_cast
    constructor <;> linarith

theorem abs_scaleToEven_sub_le (num : ℕ) (hden : 0 < den) (t : ℤ) :
    |(scaleToEven num den t : ℚ) - num / den / 2 ^ t| ≤ 1 / 2 := by
  rw [scaleToEven]
  by_cases ht : 0 ≤ t
  · rw [if_pos ht]
    obtain ⟨n, rfl⟩ := Int.eq_ofNat_of_zero_le ht
    have hround := abs_divideToEven_sub_le num (Nat.mul_pos hden (Nat.two_pow_pos n))
    rw [div_div, zpow_natCast]
    push_cast at hround
    exact hround
  · rw [if_neg ht]
    obtain ⟨n, hn⟩ := Int.eq_ofNat_of_zero_le (by omega : 0 ≤ -t)
    obtain rfl : t = -(n : ℤ) := by omega
    have hround := abs_divideToEven_sub_le (num * 2 ^ n) hden
    rw [zpow_neg, zpow_natCast, div_inv_eq_mul, div_mul_eq_mul_div, neg_neg]
    push_cast at hround
    exact hround

/-! ## The grid of a fraction -/

theorem two_zpow_log2_le (h : 0 < num) : (2 : ℚ) ^ (num.log2 : ℤ) ≤ num := by
  rw [two_zpow_natCast]
  exact_mod_cast Nat.log2_self_le h.ne'

theorem lt_two_zpow_log2 (num : ℕ) : (num : ℚ) < 2 ^ ((num.log2 : ℤ) + 1) := by
  rw [← Nat.cast_succ, two_zpow_natCast]
  exact_mod_cast Nat.lt_log2_self

/-- A fraction has the first digit of the quotient of two powers of two, or one digit less. -/
theorem log2_bracket (hnum : 0 < num) (hden : 0 < den) :
    (2 : ℚ) ^ ((num.log2 : ℤ) - den.log2 - 1) ≤ num / den
      ∧ (num : ℚ) / den ≤ 2 ^ ((num.log2 : ℤ) - den.log2 + 1) := by
  have hpos : (0 : ℚ) < den := by exact_mod_cast hden
  constructor
  · rw [le_div_iff₀ hpos]
    calc (2 : ℚ) ^ ((num.log2 : ℤ) - den.log2 - 1) * den
        ≤ 2 ^ ((num.log2 : ℤ) - den.log2 - 1) * 2 ^ ((den.log2 : ℤ) + 1) :=
          mul_le_mul_of_nonneg_left (lt_two_zpow_log2 den).le (two_zpow_pos _).le
      _ = 2 ^ (num.log2 : ℤ) := by rw [← two_zpow_add]; congr 1; omega
      _ ≤ num := two_zpow_log2_le hnum
  · rw [div_le_iff₀ hpos]
    calc (num : ℚ) ≤ 2 ^ ((num.log2 : ℤ) + 1) := (lt_two_zpow_log2 num).le
      _ = 2 ^ ((num.log2 : ℤ) - den.log2 + 1) * 2 ^ (den.log2 : ℤ) := by
        rw [← two_zpow_add]; congr 1; omega
      _ ≤ 2 ^ ((num.log2 : ℤ) - den.log2 + 1) * den :=
        mul_le_mul_of_nonneg_left (two_zpow_log2_le hden) (two_zpow_pos _).le

/-- A fraction is on the low grid, or on the next one if it needs more digits. -/
theorem isGrid_lowExponent (hpos : 0 < f.digits) (hnum : 0 < num) (hden : 0 < den)
    (hq : q = num / den) : f.IsGrid q (lowExponent f num den)
      ∨ 2 ^ f.digits * 2 ^ lowExponent f num den ≤ q ∧ f.IsGrid q (lowExponent f num den + 1) := by
  obtain ⟨hlow, hhigh⟩ := log2_bracket hnum hden
  rw [← hq] at hlow hhigh
  obtain ⟨low, hlowdef⟩ : ∃ low, lowExponent f num den = low := ⟨_, rfl⟩
  have hmax : low = max f.least ((num.log2 : ℤ) - den.log2 - f.digits) := hlowdef.symm
  rw [hlowdef]
  rcases le_total q (2 ^ f.digits * 2 ^ low) with hfew | hmany
  · left
    refine ⟨by omega, hfew, ?_⟩
    by_cases hleast : low = f.least
    · exact .inl hleast
    · right
      refine le_trans ?_ hlow
      rw [two_pow_mul_zpow]
      exact two_zpow_le (by omega)
  · right
    refine ⟨hmany, by omega, ?_, .inr ?_⟩
    · refine hhigh.trans ?_
      rw [two_pow_mul_zpow]
      exact two_zpow_le (by omega)
    · refine le_trans (le_of_eq ?_) hmany
      rw [two_pow_mul_zpow, two_pow_mul_zpow]
      congr 1
      omega

/-! ## Rounding with the digits of a format -/

/-- The significand and the exponent with which a fraction is rounded to a format. -/
structure Format.IsRounded (f : Format) (q : ℚ) (s : ℕ) (t : ℤ) : Prop where
  nearest : f.IsNearest q (s * 2 ^ t)
  digits : s < 2 ^ f.digits
  least : f.least ≤ t
  full : t = f.least ∨ 2 ^ (f.digits - 1) ≤ s

/-- What is rounded to the first power of two with too many digits is rounded to the same number on
the next grid. -/
theorem scaleToEven_succ (hden : 0 < den) {n : ℕ} (hbelow : (num : ℚ) / den / 2 ^ t ≤ (2 * n : ℕ))
    (heq : scaleToEven num den t = 2 * n) : scaleToEven num den (t + 1) = n := by
  have hround := (abs_le.mp (abs_scaleToEven_sub_le num hden t)).2
  have hnext := abs_scaleToEven_sub_le num hden (t + 1)
  rw [heq] at hround
  rw [two_zpow_add, zpow_one, ← div_div] at hnext
  push_cast at hbelow hround
  refine le_antisymm (le_of_half hnext (by linarith)) ?_
  -- Half of what is rounded up by at most one half is rounded up by less than one.
  have hlow := (abs_le.mp hnext).1
  have hlt : (n : ℚ) < scaleToEven num den (t + 1) + 1 := by linarith
  exact Nat.lt_succ_iff.mp (by exact_mod_cast hlt)

/-- On its grid, a fraction is rounded to a number with few enough digits, or to the first power of
two with too many; this one is rounded to on the next grid, too. -/
theorem isRounded_or (hpos : 0 < f.digits) (hden : 0 < den) (hq : q = num / den)
    (hgrid : f.IsGrid q t) :
    (scaleToEven num den t < 2 ^ f.digits ∧ f.IsRounded q (scaleToEven num den t) t)
      ∨ (2 ^ f.digits ≤ scaleToEven num den t ∧ scaleToEven num den (t + 1) < 2 ^ f.digits
        ∧ f.IsRounded q (scaleToEven num den (t + 1)) (t + 1)) := by
  have hround := abs_scaleToEven_sub_le num hden t
  rw [← hq] at hround
  have hnearest := hgrid.isNearest hpos hround
  rcases (hgrid.le_pow hround).lt_or_eq with hlt | heq
  · exact .inl ⟨hlt, hnearest, hlt, hgrid.least, hgrid.full hround⟩
  · right
    have hdouble := mul_pow_sub_one hpos.ne' 2
    have hsame : scaleToEven num den (t + 1) = 2 ^ (f.digits - 1) := by
      refine scaleToEven_succ hden ?_ (heq.trans hdouble.symm)
      rw [hdouble, ← hq, div_le_iff₀ (two_zpow_pos t)]
      exact_mod_cast hgrid.below
    have hvalue : (scaleToEven num den (t + 1) : ℚ) * 2 ^ (t + 1)
        = scaleToEven num den t * 2 ^ t := by
      rw [hsame, heq, ← hdouble, two_zpow_add, zpow_one]
      push_cast
      ring
    have hdigit : scaleToEven num den (t + 1) < 2 ^ f.digits := by
      have := Nat.two_pow_pos (f.digits - 1)
      omega
    refine ⟨heq.ge, hdigit, ?_, hdigit, by have := hgrid.least; omega, .inr hsame.ge⟩
    rw [hvalue]
    exact hnearest

/-- A fraction is rounded with the exponent that is chosen for it. -/
theorem isRounded_exponentFor (hpos : 0 < f.digits) (hnum : 0 < num) (hden : 0 < den) :
    f.IsRounded (num / den) (scaleToEven num den (exponentFor f num den)) (exponentFor f num den) := by
  obtain ⟨q, hq⟩ : ∃ q : ℚ, q = num / den := ⟨_, rfl⟩
  rw [← hq, exponentFor]
  simp only [Nat.pow_eq]
  -- The exponent that is chosen is the low one or one of the next two: the grid may be the second
  -- one, and rounding on it may give a digit too many.
  rcases isGrid_lowExponent hpos hnum hden hq with hgrid | ⟨hmany, hgrid⟩
  · rcases isRounded_or hpos hden hq hgrid with ⟨hfits, h⟩ | ⟨hnot, hfits, h⟩
    · rw [if_pos hfits]
      exact h
    · rw [if_neg (Nat.not_lt.mpr hnot), if_pos hfits]
      exact h
  · have hnot : 2 ^ f.digits ≤ scaleToEven num den (lowExponent f num den) := by
      have hround := abs_scaleToEven_sub_le num hden (lowExponent f num den)
      rw [← hq] at hround
      refine ge_of_half hround ?_
      rw [le_div_iff₀ (two_zpow_pos _)]
      exact_mod_cast hmany
    rw [if_neg (Nat.not_lt.mpr hnot)]
    rcases isRounded_or hpos hden hq hgrid with ⟨hfits, h⟩ | ⟨hnot', -, h⟩
    · rw [if_pos hfits]
      exact h
    · rw [if_neg (Nat.not_lt.mpr hnot')]
      rwa [show lowExponent f num den + 1 + 1 = lowExponent f num den + 2 by omega] at h

/-! ## Numbers from their parts -/

/-- Bits that stand for a number are those of the number. -/
theorem decode_ofBits {w : UInt64} {negative : Bool} {m : ℕ} {e : ℤ}
    (h : decoded (@unpack .binary64 w.toBitVec) = .finite negative m e) (hplain : IsPlain m e) :
    decode (Float.ofBits w) = .finite negative m e := by
  rw [decode_eq]
  show decoded (@unpack .binary64 (pack .binary64 (@unpack .binary64 w.toBitVec))) = _
  cases hu : @unpack .binary64 w.toBitVec with
  | zero s =>
    rw [hu] at h
    rw [← h]
    cases s <;> rfl
  | finite s m' e' hm =>
    rw [hu] at h
    simp only [decoded, Value.finite.injEq] at h
    obtain ⟨rfl, rfl, rfl⟩ := h
    rw [unpack_pack_finite ⟨hplain.digits, hplain.least, hplain.full⟩, if_pos hplain.greatest]
    rfl
  | infinity s => rw [hu] at h; cases h
  | notANumber => rw [hu] at h; cases h

/-- A number is put together from its parts. -/
theorem decode_encode (negative : Bool) {m : ℕ} {e : ℤ} (h : IsPlain m e) :
    decode (encode negative m e) = .finite negative m e := by
  obtain ⟨hdigits, hleast, hgreatest, hfull⟩ := id h
  refine decode_ofBits ?_ h
  rw [decoded_unpack]
  obtain ⟨n, hn⟩ : ∃ n : ℕ, (e + 1075).toNat = n := ⟨_, rfl⟩
  obtain ⟨bits, hbits⟩ : ∃ bits : ℕ, ((if negative = true then Nat.pow 2 63 else 0)
      + if m < Nat.pow 2 52 then m else (e + 1075).toNat * Nat.pow 2 52 + (m - Nat.pow 2 52)) = bits :=
    ⟨_, rfl⟩
  rw [hbits]
  simp only [Nat.pow_eq, hn] at hbits
  have hsign : (if negative = true then 2 ^ 63 else 0 : ℕ) = 0 ∧ negative = false
      ∨ (if negative = true then 2 ^ 63 else 0 : ℕ) = 2 ^ 63 ∧ negative = true := by
    cases negative <;> simp
  generalize (if negative = true then 2 ^ 63 else 0 : ℕ) = sign at hbits hsign
  -- The three fields do not overlap, so each can be cut out again.
  have hmagnitude : sign ≤ bits ∧ bits < sign + 2 ^ 63 := by
    split at hbits <;> omega
  have htoNat : bits.toUInt64.toBitVec.toNat = bits := Nat.mod_eq_of_lt (by omega)
  rw [htoNat]
  have hnegative : decide (2 ^ 63 ≤ bits) = negative := by
    rcases hsign with ⟨rfl, rfl⟩ | ⟨rfl, rfl⟩
    · rw [decide_eq_false_iff_not]
      omega
    · rw [decide_eq_true_iff]
      omega
  simp only [hnegative]
  by_cases hsmall : m < 2 ^ 52
  · obtain rfl : e = -1074 := hfull.resolve_left (by omega)
    rw [if_pos hsmall] at hbits
    have hexponent : bits / 2 ^ 52 % 2 ^ 11 = 0 := by omega
    have hfraction : bits % 2 ^ 52 = m := by omega
    rw [hexponent, hfraction, if_neg (by decide), if_pos rfl]
  · rw [if_neg hsmall] at hbits
    have hexponent : bits / 2 ^ 52 % 2 ^ 11 = n := by omega
    have hfraction : bits % 2 ^ 52 = m - 2 ^ 52 := by omega
    rw [hexponent, hfraction, if_neg (by omega), if_neg (by omega), Value.finite.injEq]
    exact ⟨rfl, by omega, by omega⟩

/-! ## Formats within double precision -/

/-- A format whose numbers are numbers of double precision as well. -/
structure Format.IsNarrow (f : Format) : Prop where
  digits_pos : 0 < f.digits
  digits_le : f.digits ≤ 53
  least_ge : -1074 ≤ f.least
  least_le : f.least ≤ 0
  greatest_ge : 0 ≤ f.greatest
  greatest_le : f.greatest ≤ 971

theorem isNarrow_single : single.IsNarrow := by
  constructor <;> decide

theorem isNarrow_double : double.IsNarrow := by
  constructor <;> decide

/-- A significand with fewer digits is brought to the parts of a number. -/
theorem denotes_ofParts (negative : Bool) {s : ℕ} {t : ℤ} (hs : s < 2 ^ 53) (hleast : -1074 ≤ t)
    (hgreatest : t ≤ 971) : Denotes (ofParts negative s t) (withSign negative (s * 2 ^ t)) := by
  rw [ofParts]
  by_cases hzero : s = 0
  · rw [if_pos hzero, hzero]
    exact ⟨negative, 0, -1074, decode_encode negative ⟨by omega, by omega, by omega, .inr rfl⟩,
      by simp⟩
  · rw [if_neg hzero]
    have hdigits : s.log2 < 53 := (Nat.log2_lt hzero).mpr hs
    -- It is shifted until it has all digits or the least exponent.
    obtain ⟨n, hn⟩ : ∃ n : ℕ, min (52 - s.log2) (t + 1074).toNat = n := ⟨_, rfl⟩
    simp only [hn, Nat.pow_eq]
    have hlog : (s * 2 ^ n).log2 = s.log2 + n := log2_mul_two_pow (Nat.pos_of_ne_zero hzero) n
    have hne : s * 2 ^ n ≠ 0 := Nat.mul_ne_zero hzero (Nat.two_pow_pos n).ne'
    refine ⟨negative, s * 2 ^ n, t - n, decode_encode negative ⟨?_, by omega, by omega, ?_⟩, ?_⟩
    · rw [← Nat.log2_lt hne]
      omega
    · by_cases hfull : 52 - s.log2 ≤ (t + 1074).toNat
      · left
        rw [← Nat.le_log2 hne]
        omega
      · right
        omega
    · rw [show t = n + (t - n) by omega, two_zpow_add, two_zpow_natCast]
      push_cast
      ring_nf

theorem scaleToEven_zero (hden : 0 < den) (t : ℤ) : scaleToEven 0 den t = 0 := by
  have hround := abs_scaleToEven_sub_le 0 hden t
  refine Nat.eq_zero_of_le_zero (le_of_half hround ?_)
  simp

theorem decode_infinity (negative : Bool) : decode (infinity negative) = .infinite negative := by
  cases negative <;> rfl

/-- A rounded number is within the limit of its format if its exponent is. -/
theorem Format.IsRounded.lt_limit_iff {s : ℕ} (h : f.IsRounded q s t) (hf : f.IsNarrow) :
    t ≤ f.greatest ↔ (s : ℚ) * 2 ^ t < f.limit := by
  have ht := two_zpow_pos t
  constructor
  · intro hle
    have hs : (s : ℚ) < 2 ^ f.digits := by exact_mod_cast h.digits
    calc (s : ℚ) * 2 ^ t < 2 ^ f.digits * 2 ^ t := mul_lt_mul_of_pos_right hs ht
      _ ≤ 2 ^ f.digits * 2 ^ f.greatest :=
        mul_le_mul_of_nonneg_left (two_zpow_le hle) (by positivity)
      _ = f.limit := two_pow_mul_zpow _ _
  · intro hlt
    by_contra hgt
    -- With an exponent that is too large, all digits are there.
    have hfull : (2 : ℚ) ^ (f.digits - 1) ≤ s := by
      have := hf.least_le
      have := hf.greatest_ge
      exact_mod_cast h.full.resolve_left (by omega)
    refine absurd hlt (not_lt.mpr ?_)
    calc f.limit = 2 ^ (f.digits - 1) * 2 ^ (f.greatest + 1) := by
          have := hf.digits_pos
          rw [limit, two_pow_mul_zpow]
          congr 1
          omega
      _ ≤ s * 2 ^ t :=
        mul_le_mul hfull (two_zpow_le (by omega)) (two_zpow_pos _).le (Nat.cast_nonneg s)

/-- Rounding a fraction to a format. -/
theorem rounds_nearest (hf : f.IsNarrow) (negative : Bool) (num : ℕ) (hden : 0 < den) :
    Rounds f (nearest f negative num den) (withSign negative (num / den)) := by
  obtain ⟨hpos, hdigits, hleast, hleast0, hgreatest0, hgreatest⟩ := id hf
  rcases Nat.eq_zero_or_pos num with rfl | hnum
  · have hexponent : exponentFor f 0 den = lowExponent f 0 den := by
      rw [exponentFor]
      simp only [scaleToEven_zero hden, Nat.pow_eq]
      rw [if_pos (Nat.two_pow_pos _)]
    have hlow : f.least ≤ lowExponent f 0 den ∧ lowExponent f 0 den ≤ f.greatest := by
      rw [lowExponent, Nat.log2_zero]
      omega
    have hzero := denotes_ofParts negative (by norm_num : 0 < 2 ^ 53)
      (by omega : -1074 ≤ lowExponent f 0 den) (by omega)
    rw [Nat.cast_zero, zero_mul, withSign_zero] at hzero
    rw [nearest, hexponent, scaleToEven_zero hden, if_neg (by omega), Nat.cast_zero, zero_div,
      withSign_zero]
    exact ⟨0, .of_holds f.holds_zero, .inl ⟨hzero, f.has_zero.abs_lt⟩⟩
  · have hrounded := isRounded_exponentFor hpos hnum hden
    rw [nearest]
    generalize exponentFor f num den = t at hrounded ⊢
    generalize scaleToEven num den t = s at hrounded ⊢
    -- The sign changes neither what is nearest nor what is too large.
    have hvalue : |withSign negative ((s : ℚ) * 2 ^ t)| = s * 2 ^ t := by
      rw [abs_withSign, abs_of_nonneg (mul_nonneg (Nat.cast_nonneg s) (two_zpow_pos t).le)]
    refine ⟨withSign negative (s * 2 ^ t), isNearest_withSign negative hrounded.nearest, ?_⟩
    rw [hvalue]
    by_cases hlarge : f.greatest < t
    · rw [if_pos hlarge]
      have hlimit : f.limit ≤ s * 2 ^ t :=
        not_lt.mp fun hlt => absurd ((hrounded.lt_limit_iff hf).mpr hlt) (by omega)
      refine .inr ⟨?_, hlimit⟩
      rw [decode_infinity, decide_withSign_lt negative (lt_of_lt_of_le f.limit_pos hlimit)]
    · rw [if_neg hlarge]
      refine .inl ⟨denotes_ofParts negative ?_ ?_ ?_, (hrounded.lt_limit_iff hf).mp (by omega)⟩
      · exact lt_of_lt_of_le hrounded.digits (Nat.pow_le_pow_right (by norm_num) hdigits)
      · have := hrounded.least
        omega
      · omega

theorem rounds_mul_pow (hf : f.IsNarrow) (negative : Bool) (digits b k : ℕ) :
    Rounds f (nearest f negative (digits * b ^ k) 1)
      (withSign negative (digits * (b : ℚ) ^ (k : ℤ))) := by
  have hrounds := rounds_nearest hf negative (digits * b ^ k) Nat.one_pos
  push_cast at hrounds
  rwa [div_one, ← zpow_natCast] at hrounds

theorem rounds_div_pow (hf : f.IsNarrow) (negative : Bool) (digits : ℕ) {b : ℕ} (hb : 0 < b)
    (k : ℕ) : Rounds f (nearest f negative digits (b ^ k))
      (withSign negative (digits * (b : ℚ) ^ (-k : ℤ))) := by
  have hrounds := rounds_nearest hf negative digits (Nat.pow_pos hb : 0 < b ^ k)
  push_cast at hrounds
  rwa [div_eq_mul_inv, ← zpow_natCast, ← zpow_neg] at hrounds

/-- Rounding a number to single precision. -/
theorem rounds_toSingle {x : Float} {q : ℚ} (h : Denotes x q) : Rounds single (toSingle x) q := by
  obtain ⟨negative, m, e, hdecode, rfl⟩ := h
  rw [toSingle, hdecode]
  simp only
  by_cases he : 0 ≤ e
  · rw [if_pos he]
    obtain ⟨n, rfl⟩ := Int.eq_ofNat_of_zero_le he
    exact rounds_mul_pow isNarrow_single negative m 2 n
  · rw [if_neg he]
    obtain ⟨n, hn⟩ := Int.eq_ofNat_of_zero_le (by omega : 0 ≤ -e)
    obtain rfl : e = -(n : ℤ) := by omega
    rw [hn]
    exact rounds_div_pow isNarrow_single negative m Nat.two_pos n

/-- What is rounded to single precision is one of its numbers, if it is finite. -/
theorem has_of_denotes_toSingle {x : Float} {q : ℚ} (h : Denotes (toSingle x) q) : single.Has q := by
  have hfinite : Draw.isFinite (toSingle x) = true := isFinite_iff.mpr ⟨q, h⟩
  cases hdecode : decode x with
  | nan =>
    rw [toSingle, hdecode] at hfinite
    cases hfinite
  | infinite negative =>
    rw [toSingle, hdecode, Draw.isFinite, decode_infinity] at hfinite
    cases hfinite
  | finite negative m e =>
    obtain ⟨y, hy, -, hhas⟩ := (rounds_toSingle ⟨negative, m, e, hdecode, rfl⟩).of_isFinite hfinite
    rwa [h.unique hy]

end Specimen.Decimal

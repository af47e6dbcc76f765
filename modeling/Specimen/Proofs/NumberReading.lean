import Mathlib.Algebra.Order.Floor.Semifield
import Mathlib.Data.Rat.Floor
import Specimen.Proofs.DecimalTexts

/-!
# Reading numbers

A text that denotes a fraction is read as a nearest number of the format, or as an infinite one if
the fraction is too large. Powers of ten that are not worked out make no difference: a fraction that
large is infinite in every format, and one that small is zero. So a whole number that double
precision has is read exactly, and cut to whole numbers of 64 bits it is itself; so is one that is
out of their reach, but for the bound that it is moved to.
-/

namespace Specimen.Decimal

open Specimen.Text

variable {f : Format} {x : Float} {q y : ℚ} {l : Literal} {cs : List Char}

/-! ## The size of a literal -/

theorem ten_zpow_le {d e : ℤ} (h : d ≤ e) : (10 : ℚ) ^ d ≤ 10 ^ e :=
  zpow_le_zpow_right₀ (by norm_num) h

theorem Literal.number_lt (l : Literal) :
    l.number < 10 ^ (l.power + (Nat.toDigits 10 l.digits).length) := by
  have hpos : 0 < (Nat.toDigits 10 l.digits).length := Nat.length_toDigits_pos
  have hdigits := (Nat.length_toDigits_le_iff (by norm_num) hpos).mp (le_refl _)
  have hcast : (l.digits : ℚ) < 10 ^ (Nat.toDigits 10 l.digits).length := by exact_mod_cast hdigits
  rw [number, zpow_add₀ (by norm_num), zpow_natCast, mul_comm]
  exact mul_lt_mul_of_pos_left hcast (ten_zpow_pos _)

theorem Literal.le_number (h : l.digits ≠ 0) :
    10 ^ (l.power + (Nat.toDigits 10 l.digits).length - 1) ≤ l.number := by
  obtain ⟨k, hk⟩ : ∃ k, (Nat.toDigits 10 l.digits).length = k + 1 :=
    Nat.exists_eq_succ_of_ne_zero Nat.length_toDigits_pos.ne'
  have hdigits : 10 ^ k ≤ l.digits := by
    by_contra hlt
    rw [not_le] at hlt
    rcases Nat.eq_zero_or_pos k with rfl | hpos
    · omega
    · have := (Nat.length_toDigits_le_iff (by norm_num) hpos).mpr hlt
      omega
  have hcast : (10 : ℚ) ^ k ≤ l.digits := by exact_mod_cast hdigits
  rw [number, hk, show l.power + (k + 1 : ℕ) - 1 = l.power + k by push_cast; ring,
    zpow_add₀ (by norm_num), zpow_natCast, mul_comm]
  exact mul_le_mul_of_nonneg_right hcast (ten_zpow_pos _).le

/-! ## Reading a literal -/

/-- Every fraction has a nearest number. -/
theorem exists_isNearest (hpos : 0 < f.digits) (hq : 0 < q) : ∃ y, f.IsNearest q y := by
  have hnum : 0 < q.num.toNat := by
    have := Rat.num_pos.mpr hq
    omega
  have hvalue : ((q.num.toNat : ℕ) : ℚ) / q.den = q := by
    have hcast : ((q.num.toNat : ℕ) : ℚ) = q.num := by
      exact_mod_cast Int.toNat_of_nonneg (Rat.num_pos.mpr hq).le
    rw [hcast, Rat.num_div_den]
  have hrounded := isRounded_exponentFor hpos hnum q.den_pos
  rw [hvalue] at hrounded
  exact ⟨_, hrounded.nearest⟩

/-- The limit of a format would be its next number. -/
theorem Format.holds_limit (hf : f.IsNarrow) : f.Holds f.limit := by
  have hleast := hf.least_le
  have hgreatest := hf.greatest_ge
  have := @Format.holds_of_le f 1 (f.digits + f.greatest) hf.digits_pos Nat.one_le_two_pow (by omega)
  rwa [Nat.cast_one, one_mul] at this

/-- What is at most half of the least number is nearest to zero. -/
theorem isNearest_zero (h0 : 0 ≤ q) (h : 2 * q ≤ 2 ^ f.least) : f.IsNearest q 0 where
  holds := f.holds_zero
  closest y hy := by
    obtain ⟨n, e, -, he, rfl⟩ := hy
    have hpos := two_zpow_pos e
    have hstep := two_zpow_le he
    rw [zero_sub, abs_neg, abs_of_nonneg h0]
    rcases le_or_gt n 0 with hn | hn
    · have hn' : (n : ℚ) ≤ 0 := by exact_mod_cast hn
      rw [abs_of_nonpos (by nlinarith)]
      nlinarith
    · have hn' : (1 : ℚ) ≤ n := by exact_mod_cast hn
      rw [abs_of_nonneg (by nlinarith)]
      nlinarith

/-- What is beyond the limit of a format is infinite. -/
theorem rounds_infinity (hf : f.IsNarrow) (negative : Bool) (hq : f.limit ≤ q) :
    Rounds f (infinity negative) (withSign negative q) := by
  obtain ⟨y, hy⟩ := exists_isNearest hf.digits_pos (lt_of_lt_of_le f.limit_pos hq)
  have hlarge : f.limit ≤ y := hy.ge_of_holds (Format.holds_limit hf) hq
  have hpos : 0 < y := lt_of_lt_of_le f.limit_pos hlarge
  refine ⟨withSign negative y, isNearest_withSign negative hy, .inr ⟨?_, ?_⟩⟩
  · rw [decide_withSign_lt negative hpos]
    exact decode_infinity negative
  · rwa [abs_withSign, abs_of_pos hpos]

/-- What is at most half of the least number is zero. -/
theorem rounds_zero (hf : f.IsNarrow) (negative : Bool) (h0 : 0 ≤ q) (h : 2 * q ≤ 2 ^ f.least) :
    Rounds f (nearest f negative 0 1) (withSign negative q) := by
  obtain ⟨y, hy, hfinite⟩ := rounds_nearest hf negative 0 Nat.one_pos
  rw [Nat.cast_zero, zero_div, withSign_zero] at hy
  obtain rfl := hy.eq_of_holds f.holds_zero
  have hnearest := isNearest_withSign negative (isNearest_zero h0 h)
  rw [withSign_zero] at hnearest
  exact ⟨0, hnearest, hfinite⟩

/-- What has a power of ten beyond the cap is beyond the limit of every format. -/
theorem limit_le_of_powerCap_lt (hf : f.IsNarrow) {power : ℤ} (hpower : powerCap < power)
    (hq : 10 ^ (power - 1) ≤ q) : f.limit ≤ q := by
  have hcap : powerCap = 100000 := rfl
  have hdigits := hf.digits_le
  have hgreatest := hf.greatest_le
  calc f.limit ≤ 2 ^ (1100 : ℤ) := two_zpow_le (by omega)
    _ ≤ 10 ^ (1100 : ℤ) := zpow_le_zpow_left₀ (by norm_num) (by norm_num) (by norm_num)
    _ ≤ 10 ^ (power - 1) := ten_zpow_le (by omega)
    _ ≤ q := hq

/-- What has so small a power of ten is at most half of the least number of every format. -/
theorem two_mul_le_of_lt_powerCap (hf : f.IsNarrow) {power : ℤ} (hpower : power < -powerCap)
    (hq : q < 10 ^ power) : 2 * q ≤ 2 ^ f.least := by
  have hcap : powerCap = 100000 := rfl
  have hten : q ≤ 2 ^ (-1075 : ℤ) := by
    refine hq.le.trans ((ten_zpow_le (by omega : power ≤ -1075)).trans ?_)
    rw [zpow_neg, zpow_neg]
    refine inv_anti₀ (two_zpow_pos _) ?_
    exact zpow_le_zpow_left₀ (by norm_num) (by norm_num) (by norm_num)
  calc 2 * q ≤ 2 * 2 ^ (-1075 : ℤ) := mul_le_mul_of_nonneg_left hten (by norm_num)
    _ = 2 ^ (-1074 : ℤ) := by
      rw [show (-1074 : ℤ) = 1 + -1075 by norm_num, two_zpow_add, zpow_one]
    _ ≤ 2 ^ f.least := two_zpow_le hf.least_ge

/-- A literal is read as a nearest number. -/
theorem Literal.rounds_toFloat (hf : f.IsNarrow) (negative : Bool) (l : Literal) :
    Rounds f (l.toFloat f negative) (withSign negative l.number) := by
  have hbelow := l.number_lt
  rw [toFloat]
  by_cases hzero : l.digits = 0
  · have hrounds := rounds_nearest hf negative 0 Nat.one_pos
    rw [if_pos hzero, number, hzero]
    simpa using hrounds
  · have habove := l.le_number hzero
    have hpos : 0 < l.number := lt_of_lt_of_le (ten_zpow_pos _) habove
    rw [if_neg hzero]
    simp only [Nat.pow_eq]
    generalize (Nat.toDigits 10 l.digits).length = size at hbelow habove ⊢
    by_cases hlarge : powerCap < l.power + size
    · rw [if_pos hlarge]
      exact rounds_infinity hf negative (limit_le_of_powerCap_lt hf hlarge habove)
    · rw [if_neg hlarge]
      by_cases hsmall : l.power + size < -powerCap
      · rw [if_pos hsmall]
        exact rounds_zero hf negative hpos.le (two_mul_le_of_lt_powerCap hf hsmall hbelow)
      · -- The power of ten is worked out, as a factor or as a divisor.
        rw [if_neg hsmall]
        by_cases hpower : 0 ≤ l.power
        · obtain ⟨k, hk⟩ := Int.eq_ofNat_of_zero_le hpower
          rw [if_pos hpower, number, hk, Int.toNat_natCast]
          exact rounds_mul_pow hf negative l.digits 10 k
        · obtain ⟨k, hk⟩ := Int.eq_ofNat_of_zero_le (by omega : 0 ≤ -l.power)
          rw [if_neg hpower, number, hk, Int.toNat_natCast, show l.power = -(k : ℤ) by omega]
          exact rounds_div_pow hf negative l.digits (by norm_num) k

/-! ## Reading a text -/

/-- A literal begins with a digit or a point. -/
theorem exists_eq_cons_of_readLiteral (h : readLiteral cs = some l) :
    ∃ c rest, cs = c :: rest ∧ (isDigit c = true ∨ c = '.') := by
  cases cs with
  | nil => cases h
  | cons c rest =>
    refine ⟨c, rest, rfl, ?_⟩
    by_contra hnot
    rw [not_or, Bool.not_eq_true] at hnot
    have hspan : (c :: rest).span isDigit = ([], c :: rest) := by
      rw [List.span_eq_takeWhile_dropWhile, List.takeWhile_cons, List.dropWhile_cons, hnot.1]
      rfl
    rw [readLiteral, hspan] at h
    simp [hnot.2] at h

theorem toLower_eq_self {c : Char} (h : isDigit c = true ∨ c = '.') : c.toLower = c := by
  rcases h with h | rfl
  · simp only [isDigit, Bool.and_eq_true, decide_eq_true_eq] at h
    rw [Char.toLower, dif_neg]
    rintro ⟨hupper, -⟩
    exact absurd (UInt32.le_trans hupper h.2) (by decide)
  · rfl

theorem readMagnitude_of_readLiteral (f : Format) (negative : Bool) (h : readLiteral cs = some l) :
    readMagnitude f negative cs = some (l.toFloat f negative) := by
  obtain ⟨c, rest, rfl, hc⟩ := exists_eq_cons_of_readLiteral h
  have hlower := toLower_eq_self hc
  have hword {d : Char} {word : List Char} (hd : isDigit d = false) (hpoint : d ≠ '.') :
      String.ofList ((c :: rest).map Char.toLower) ≠ String.ofList (d :: word) := by
    intro heq
    rw [String.ofList_inj, List.map_cons, List.cons.injEq, hlower] at heq
    rcases hc with hc | hc
    · rw [heq.1, hd] at hc
      cases hc
    · exact hpoint (heq.1.symm.trans hc)
  rw [readMagnitude]
  split
  · next heq => exact absurd heq (hword rfl (by decide))
  · next heq => exact absurd heq (hword rfl (by decide))
  · next heq => exact absurd heq (hword rfl (by decide))
  · rw [h]
    rfl

theorem read_unsigned (f : Format) {s : String} (hminus : ∀ rest, s.toList ≠ '-' :: rest)
    (hplus : ∀ rest, s.toList ≠ '+' :: rest) : read f s = readMagnitude f false s.toList := by
  rw [read]
  split
  · next rest heq => exact absurd heq (hminus rest)
  · next rest heq => exact absurd heq (hplus rest)
  · rfl

/-- **A text is read as a nearest number to the fraction that it denotes.** -/
theorem exists_read {s : String} (hf : f.IsNarrow) (h : numberOf? s = some q) :
    ∃ x, read f s = some x ∧ Rounds f x q := by
  have hread {negative : Bool} {rest : List Char}
      (hrest : (readLiteral rest).map (fun l => withSign negative l.number) = some q) :
      ∃ x, readMagnitude f negative rest = some x ∧ Rounds f x q := by
    obtain ⟨l, hl, rfl⟩ := Option.map_eq_some_iff.mp hrest
    exact ⟨_, readMagnitude_of_readLiteral f negative hl, l.rounds_toFloat hf negative⟩
  rw [numberOf?] at h
  split at h
  · next rest heq =>
    rw [read, heq]
    exact @hread true rest h
  · next rest heq =>
    rw [read, heq]
    exact @hread false rest h
  · next hminus hplus =>
    rw [read_unsigned f hminus hplus]
    exact @hread false _ h

/-! ## Cutting to whole numbers -/

variable {lo hi z : ℤ}

theorem truncateMagnitude_eq (m : ℕ) (e : ℤ) : truncateMagnitude m e = ⌊(m : ℚ) * 2 ^ e⌋₊ := by
  rw [truncateMagnitude]
  by_cases he : 0 ≤ e
  · obtain ⟨k, rfl⟩ := Int.eq_ofNat_of_zero_le he
    rw [if_pos he, Int.toNat_natCast, two_zpow_natCast, ← Nat.cast_mul, Nat.floor_natCast]
    rfl
  · obtain ⟨k, hk⟩ := Int.eq_ofNat_of_zero_le (by omega : 0 ≤ -e)
    rw [if_neg he, hk, show e = -(k : ℤ) by omega, zpow_neg, two_zpow_natCast, ← div_eq_mul_inv,
      Nat.floor_div_eq_div]
    rfl

/-- A number without its fraction. -/
def wholePart (y : ℚ) : ℤ := if y < 0 then ⌈y⌉ else ⌊y⌋

theorem wholePart_intCast (z : ℤ) : wholePart z = z := by
  rw [wholePart, Int.ceil_intCast, Int.floor_intCast, ite_self]

theorem truncateBetween_of_denotes (hx : Denotes x y) :
    truncateBetween lo hi x = max lo (min hi (wholePart y)) := by
  obtain ⟨negative, m, e, hdecode, rfl⟩ := hx
  have hpos : (0 : ℚ) ≤ m * 2 ^ e := mul_nonneg (Nat.cast_nonneg m) (two_zpow_pos e).le
  have hfloor : (⌊(m : ℚ) * 2 ^ e⌋₊ : ℤ) = ⌊(m : ℚ) * 2 ^ e⌋ := Int.natCast_floor_eq_floor hpos
  have hwhole :
      signed negative (truncateMagnitude m e) = wholePart (withSign negative (m * 2 ^ e)) := by
    rw [truncateMagnitude_eq]
    cases negative with
    | true =>
      simp only [signed, withSign, wholePart, if_true, hfloor, Int.ceil_neg]
      split
      · rfl
      · next hnot =>
        have : (m : ℚ) * 2 ^ e = 0 := le_antisymm (by linarith) hpos
        rw [this]
        simp
    | false =>
      simp only [signed, withSign, wholePart, Bool.false_eq_true, if_false, hfloor]
      rw [if_neg hpos.not_gt]
  rw [truncateBetween, hdecode]
  simp only [hwhole]

/-- What is not below a positive upper bound is cut to this bound. -/
theorem truncateBetween_of_le (hbounds : lo ≤ hi) (hhi : 0 < hi) (hy : hi ≤ y)
    (hx : Denotes x y ∨ decode x = .infinite (y < 0)) : truncateBetween lo hi x = hi := by
  have hpos : ¬ y < 0 := by
    have : (0 : ℚ) < hi := by exact_mod_cast hhi
    linarith
  rcases hx with hx | hx
  · have hfloor : hi ≤ ⌊y⌋ := Int.le_floor.mpr hy
    rw [truncateBetween_of_denotes hx, wholePart, if_neg hpos]
    omega
  · rw [truncateBetween, hx, decide_eq_false hpos]

/-- What is not above a negative lower bound is cut to this bound. -/
theorem truncateBetween_of_ge (hlo : lo < 0) (hy : y ≤ lo)
    (hx : Denotes x y ∨ decode x = .infinite (y < 0)) : truncateBetween lo hi x = lo := by
  have hneg : y < 0 := by
    have : (lo : ℚ) < 0 := by exact_mod_cast hlo
    linarith
  rcases hx with hx | hx
  · have hceil : ⌈y⌉ ≤ lo := Int.ceil_le.mpr hy
    rw [truncateBetween_of_denotes hx, wholePart, if_pos hneg]
    omega
  · rw [truncateBetween, hx, decide_eq_true hneg]

/-! ## Whole numbers of 64 bits -/

open NumericRange (minInt maxInt)

theorem minInt_eq : minInt = -2 ^ 63 := rfl

theorem maxInt_eq : maxInt = 2 ^ 63 - 1 := rfl

theorem holds_two_pow (n : ℕ) : double.Holds (2 ^ n) := by
  have := @Format.holds_of_le double 1 n (by decide) Nat.one_le_two_pow (by
    show (-1074 : ℤ) ≤ n
    omega)
  rwa [Nat.cast_one, one_mul, zpow_natCast] at this

/-- The greatest whole number of 64 bits is rounded up, as double precision has not enough digits.
-/
theorem maxInt_le_of_isNearest (hy : double.IsNearest z y) (hz : maxInt ≤ z) : maxInt ≤ y := by
  rw [maxInt_eq] at hz ⊢
  have hpow : ((2 ^ 63 - 1 : ℤ) : ℚ) = 2 ^ 63 - 1 := by norm_num
  rw [hpow]
  rcases le_or_gt (2 ^ 63) z with hlarge | hsmall
  · have hcast : (2 : ℚ) ^ 63 ≤ z := by exact_mod_cast hlarge
    have := hy.ge_of_holds (holds_two_pow 63) hcast
    linarith
  · obtain rfl : z = 2 ^ 63 - 1 := by omega
    have hclose := hy.closest (2 ^ 63) (holds_two_pow 63)
    rw [hpow, show (2 : ℚ) ^ 63 - (2 ^ 63 - 1) = 1 by ring, abs_one] at hclose
    have hnear : (2 : ℚ) ^ 63 - 2 ≤ y := by
      have := (abs_le.mp hclose).1
      linarith
    -- The numbers of this size are multiples of 1024.
    rcases hy.holds.on_grid_or_lt (by decide) 10 with ⟨k, rfl⟩ | ⟨-, hlt⟩
    · have hk : 2 ^ 53 - 1 < k := by
        have : ((2 ^ 53 - 1 : ℤ) : ℚ) < k := by
          push_cast
          norm_num at hnear ⊢
          linarith
        exact_mod_cast this
      have : (2 ^ 53 : ℚ) ≤ k := by exact_mod_cast (by omega : (2 ^ 53 : ℤ) ≤ k)
      norm_num at this ⊢
      linarith
    · change y < 2 ^ 52 * 2 ^ (10 : ℤ) at hlt
      norm_num at hlt hnear
      linarith

/-- **A whole number that double precision has, or that is out of reach, is read as itself**, moved
to the nearest whole number of 64 bits. -/
theorem truncateBetween_of_rounds (hx : Rounds double x z)
    (hz : double.Holds z ∨ z ≤ minInt ∨ maxInt ≤ z) :
    truncateBetween minInt maxInt x = max minInt (min maxInt z) := by
  obtain ⟨y, hnearest, hy⟩ := hx
  have hread := hy.imp And.left And.left
  have hminInt := minInt_eq
  have hmaxInt := maxInt_eq
  -- Both ends are numbers of double precision, so rounding does not carry a number across them.
  rcases le_or_gt z minInt with hlow | hlow
  · have hmin : y ≤ minInt := by
      have hholds : double.Holds minInt := by
        rw [minInt_eq]
        push_cast
        exact (holds_two_pow 63).neg
      exact hnearest.le_of_holds hholds (by exact_mod_cast hlow)
    rw [truncateBetween_of_ge (by omega) hmin hread]
    omega
  · rcases le_or_gt maxInt z with hhigh | hhigh
    · have hmax := maxInt_le_of_isNearest hnearest hhigh
      rw [truncateBetween_of_le (by omega) (by omega) hmax hread]
      omega
    · obtain rfl := hnearest.eq_of_holds (hz.resolve_right (by omega))
      rcases hy with ⟨hdenotes, -⟩ | ⟨-, hlimit⟩
      · rw [truncateBetween_of_denotes hdenotes, wholePart_intCast]
      · -- A whole number of 64 bits is below the limit of double precision.
        have hsmall : |(z : ℚ)| ≤ 2 ^ (63 : ℤ) := by
          rw [← Int.cast_abs]
          exact_mod_cast (by rw [abs_le]; omega : |z| ≤ 2 ^ 63)
        have hlarge : (2 : ℚ) ^ (63 : ℤ) < double.limit :=
          zpow_lt_zpow_right₀ (by norm_num) (by decide)
        exact absurd (hlimit.trans hsmall) hlarge.not_ge

end Specimen.Decimal

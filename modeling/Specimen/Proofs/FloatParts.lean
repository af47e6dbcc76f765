import Specimen.Draw.Range
import Specimen.Proofs.BinaryRounding

/-!
# The parts of a double precision number

The bits of a number are read in two ways: by the conversions between numbers and text, and by the
arithmetic, which takes a number apart and packs the parts of a result. Both see the same parts.
What is packed comes out as it went in, but for a number that is too large, which becomes infinite.
-/

namespace Specimen.Decimal

open Float.Model (UnpackedFloat)
open Float.Model.UnpackedFloat

/-! ## Taking a number apart -/

/-- The parts of a number as they are decoded. -/
def decoded : UnpackedFloat → Value
  | .notANumber => .nan
  | .infinity s => .infinite (isNegative s)
  | .zero s => .finite (isNegative s) 0 (-1074)
  | .finite s m e _ => .finite (isNegative s) m e

/-- The parts of a number as the arithmetic takes them. -/
def parts (x : Float) : UnpackedFloat := x.toModel.unpack

theorem toNat_unpackMantissa (b : BitVec 64) :
    (@unpackMantissa .binary64 b).toNat = b.toNat % 2 ^ 52 := by
  simp [unpackMantissa]

theorem toNat_unpackExponent (b : BitVec 64) :
    (@unpackExponent .binary64 b).toNat = b.toNat / 2 ^ 52 % 2 ^ 11 := by
  simp [unpackExponent, Nat.shiftRight_eq_div_pow]

theorem isNegative_unpackSign (b : BitVec 64) :
    isNegative (Sign.ofBitVec (@unpackSign .binary64 b)) = decide (2 ^ 63 ≤ b.toNat) := by
  have hlt : b.toNat < 2 ^ 64 := b.isLt
  have hsign : (@unpackSign .binary64 b).toNat = b.toNat / 2 ^ 63 % 2 ^ 1 := by
    simp [unpackSign, Nat.shiftRight_eq_div_pow]
  rw [Sign.ofBitVec]
  by_cases hzero : @unpackSign .binary64 b = 0#1
  · rw [if_pos hzero]
    have : b.toNat / 2 ^ 63 % 2 ^ 1 = 0 := by rw [← hsign, hzero]; rfl
    simp only [isNegative]
    symm
    rw [decide_eq_false_iff_not]
    omega
  · rw [if_neg hzero]
    have : b.toNat / 2 ^ 63 % 2 ^ 1 ≠ 0 := by
      rw [← hsign]
      exact fun h => hzero (BitVec.eq_of_toNat_eq h)
    simp only [isNegative]
    symm
    rw [decide_eq_true_iff]
    omega

/-- The significand with the digit that is left out in the bits. -/
theorem toNat_append_one (m : BitVec 52) : (1#1 ++ m).toNat = 2 ^ 52 + m.toNat := by
  rw [BitVec.toNat_append, ← Nat.shiftLeft_add_eq_or_of_lt m.isLt]
  rfl

/-- The fields of a number, and the parts they stand for. -/
theorem decoded_unpack (b : BitVec 64) : decoded (@unpack .binary64 b)
    = let negative : Bool := 2 ^ 63 ≤ b.toNat
      let exponent : ℕ := b.toNat / 2 ^ 52 % 2 ^ 11
      let fraction : ℕ := b.toNat % 2 ^ 52
      if exponent = 2047 then if fraction = 0 then .infinite negative else .nan
      else if exponent = 0 then .finite negative fraction (-1074)
      else .finite negative (2 ^ 52 + fraction) ((exponent : ℤ) - 1075) := by
  simp only [← toNat_unpackMantissa, ← toNat_unpackExponent, ← isNegative_unpackSign]
  generalize hsign : Sign.ofBitVec (@unpackSign .binary64 b) = s
  generalize hmantissa : @unpackMantissa .binary64 b = m
  generalize hexponent : @unpackExponent .binary64 b = e
  have hones : e = -1#_ ↔ e.toNat = 2047 := ⟨fun h => h ▸ rfl, fun h => BitVec.eq_of_toNat_eq h⟩
  have hzeros : e = 0#_ ↔ e.toNat = 0 := ⟨fun h => h ▸ rfl, fun h => BitVec.eq_of_toNat_eq h⟩
  have hnone : m = 0#_ ↔ m.toNat = 0 := ⟨fun h => h ▸ rfl, fun h => BitVec.eq_of_toNat_eq h⟩
  rw [unpack]
  simp only [hsign, hmantissa, hexponent, hones, hzeros, hnone]
  by_cases hinfinite : e.toNat = 2047
  · rw [if_pos hinfinite, if_pos hinfinite]
    by_cases hfraction : m.toNat = 0
    · rw [if_pos hfraction, if_pos hfraction]
      rfl
    · rw [if_neg hfraction, if_neg hfraction]
      rfl
  · rw [if_neg hinfinite, if_neg hinfinite]
    by_cases hsmall : e.toNat = 0
    · rw [if_pos hsmall, if_pos hsmall]
      by_cases hfraction : m.toNat = 0
      · rw [dif_pos hfraction, hfraction]
        rfl
      · rw [dif_neg hfraction, decoded, hsmall]
        rfl
    · rw [if_neg hsmall, if_neg hsmall, decoded, Value.finite.injEq]
      exact ⟨rfl, toNat_append_one m, rfl⟩

/-- A number is decoded to the parts that the arithmetic takes. -/
theorem decode_eq (x : Float) : decode x = decoded (parts x) :=
  (decoded_unpack x.toBits.toBitVec).symm

/-- The significand and the exponent that stand for a number in its bits. -/
structure IsPlain (m : ℕ) (e : ℤ) : Prop where
  digits : m < 2 ^ 53
  least : -1074 ≤ e
  greatest : e ≤ 971
  full : 2 ^ 52 ≤ m ∨ e = -1074

theorem isPlain_of_decode {x : Float} {negative : Bool} {m : ℕ} {e : ℤ}
    (h : decode x = .finite negative m e) : IsPlain m e := by
  simp only [decode] at h
  split at h
  · split at h <;> cases h
  · next hexponent =>
    have hrange : x.toBits.toNat / Nat.pow 2 52 % Nat.pow 2 11 < 2 ^ 11 := Nat.mod_lt _ (by decide)
    have hfraction : x.toBits.toNat % Nat.pow 2 52 < 2 ^ 52 := Nat.mod_lt _ (by decide)
    split at h
    · simp only [Value.finite.injEq] at h
      obtain ⟨-, rfl, rfl⟩ := h
      exact ⟨by omega, by omega, by omega, .inr rfl⟩
    · simp only [Value.finite.injEq] at h
      obtain ⟨-, rfl, rfl⟩ := h
      have hpow : Nat.pow 2 52 = 2 ^ 52 := rfl
      exact ⟨by omega, by omega, by omega, .inl (by omega)⟩

/-- A number with finite parts has the significand and the exponent of its format. -/
theorem isCanonical_parts {x : Float} {s : Sign} {m : ℕ} {e : ℤ} {hm : 0 < m}
    (h : parts x = .finite s m e hm) : IsCanonical (parts x) ∧ e ≤ 971 := by
  have hplain : IsPlain m e := isPlain_of_decode (by rw [decode_eq, h]; rfl)
  rw [h]
  exact ⟨⟨hplain.digits, hplain.least, hplain.full⟩, hplain.greatest⟩

/-! ## Packing -/

theorem unpackSign_packComponents (s : Sign) (e : BitVec 11) (m : BitVec 52) :
    @unpackSign .binary64 (packComponents .binary64 s e m) = s.toBitVec := by
  ext i hi
  obtain rfl : i = 0 := by omega
  have hbit : (s.toBitVec ++ e ++ m).getLsbD 63 = s.toBitVec[0] := by
    rw [BitVec.getLsbD_append, if_neg (by omega), BitVec.getLsbD_append, if_neg (by omega)]
    rfl
  simp only [unpackSign, packComponents, BitVec.extractLsb, BitVec.getElem_cast,
    BitVec.getElem_extractLsb']
  exact hbit

theorem ofBitVec_toBitVec (s : Sign) : Sign.ofBitVec s.toBitVec = s := by
  cases s <;> rfl

/-- What is packed in fields comes out by its fields. -/
theorem unpack_packComponents (s : Sign) (e : BitVec 11) (m : BitVec 52) :
    @unpack .binary64 (packComponents .binary64 s e m)
      = if e = -1#_ then if m = 0#_ then .infinity s else .notANumber
        else if e = 0#_ then
          if h : m = 0#_ then .zero s
          else .finite s m.toNat ((e.toNat : ℤ) - 1075 + 1)
            (Nat.pos_of_ne_zero fun hzero => h (BitVec.eq_of_toNat_eq hzero))
        else .finite s (1#1 ++ m).toNat ((e.toNat : ℤ) - 1075)
          (by rw [toNat_append_one]; omega) := by
  rw [unpack]
  simp only [unpackSign_packComponents, unpackExponent_packComponents, unpackMantissa_packComponents,
    ofBitVec_toBitVec]
  rfl

theorem toNat_ofNat_of_lt {w n : ℕ} (hn : n < 2 ^ w) : (BitVec.ofNat w n).toNat = n :=
  (BitVec.toNat_ofNat n w).trans (Nat.mod_eq_of_lt hn)

theorem ofNat_ne_of_toNat_ne {w n : ℕ} {b : BitVec w} (hn : n < 2 ^ w) (h : n ≠ b.toNat) :
    BitVec.ofNat w n ≠ b := fun heq =>
  h ((toNat_ofNat_of_lt hn).symm.trans (congrArg BitVec.toNat heq))

/-- What has the parts of a number is packed and taken apart again; what is too large becomes
infinite. -/
theorem unpack_pack_finite {s : Sign} {m : ℕ} {e : ℤ} {hm : 0 < m}
    (h : IsCanonical (.finite s m e hm)) :
    @unpack .binary64 (pack .binary64 (.finite s m e hm))
      = if e ≤ 971 then .finite s m e hm else .infinity s := by
  obtain ⟨hlt, hleast, hdigits⟩ := h
  have hbias : (e + (Float.Model.Format.binary64.exponentBias : ℤ)
      + (Float.Model.Format.binary64.mantissaBitsWithoutImplicit : ℤ)).toNat = (e + 1075).toNat := by
    show (e + 1023 + 52).toNat = _
    omega
  rw [pack]
  simp only [hbias]
  by_cases hlarge : e ≤ 971
  · rw [if_pos hlarge, if_neg (by show ¬ 2 ^ 11 ≤ _; omega)]
    by_cases hfull : 2 ^ 52 ≤ m
    · -- With all digits, the first one is left out, and the exponent is neither all ones nor zero.
      have hlog : m.log2 + 1 = Float.Model.Format.binary64.mantissaBits := by
        show m.log2 + 1 = 53
        rw [(Nat.log2_eq_iff (by omega)).mpr ⟨hfull, hlt⟩]
      have hexponent : (e + 1075).toNat < 2 ^ 11 := by omega
      have hones : BitVec.ofNat 11 (e + 1075).toNat ≠ -1#11 :=
        ofNat_ne_of_toNat_ne hexponent (by show _ ≠ 2047; omega)
      have hzeros : BitVec.ofNat 11 (e + 1075).toNat ≠ 0#11 :=
        ofNat_ne_of_toNat_ne hexponent (by show _ ≠ 0; omega)
      rw [if_pos hlog, unpack_packComponents, if_neg hones, if_neg hzeros]
      simp only [toNat_append_one, toNat_ofNat_of_lt hexponent, UnpackedFloat.finite.injEq, true_and]
      rw [BitVec.toNat_ofNat]
      omega
    · -- With fewer digits, the exponent is the least one, and is put as zero.
      obtain rfl : e = -1074 := hdigits.resolve_left hfull
      have hlog : m.log2 + 1 ≠ Float.Model.Format.binary64.mantissaBits := by
        show m.log2 + 1 ≠ 53
        have := (Nat.log2_lt (by omega : m ≠ 0)).mpr (Nat.lt_of_not_le hfull)
        omega
      have hfraction : m < 2 ^ 52 := by omega
      have hnonzero : BitVec.ofNat 52 m ≠ 0#52 := ofNat_ne_of_toNat_ne hfraction hm.ne'
      rw [if_neg hlog, unpack_packComponents, if_neg (by decide), if_pos rfl, dif_neg hnonzero]
      simp only [toNat_ofNat_of_lt hfraction]
      rfl
  · rw [if_neg hlarge, if_pos (by show 2 ^ 11 ≤ _; omega), packedInfinity, unpack_packComponents]
    rfl

/-- The least power of two that is larger than all numbers of a format. -/
def Format.limit (f : Format) : ℚ := 2 ^ (f.digits + f.greatest)

theorem Format.limit_pos (f : Format) : 0 < f.limit := two_zpow_pos _

/-- A number of a format. -/
structure Format.Has (f : Format) (q : ℚ) : Prop where
  holds : f.Holds q
  abs_lt : |q| < f.limit

theorem Format.has_zero (f : Format) : f.Has 0 where
  holds := f.holds_zero
  abs_lt := by
    rw [abs_zero]
    exact f.limit_pos

theorem Format.Has.neg {f : Format} {q : ℚ} (h : f.Has q) : f.Has (-q) where
  holds := h.holds.neg
  abs_lt := by
    rw [abs_neg]
    exact h.abs_lt

/-- A packed zero or finite number, taken apart. -/
theorem parts_pack {u : UnpackedFloat} (h : IsCanonical u) :
    parts (.ofModel (.pack u)) = u
      ∨ decode (.ofModel (.pack u)) = .infinite (number u < 0) ∧ double.limit ≤ |number u| := by
  cases u with
  | zero s => exact .inl (by cases s <;> rfl)
  | finite s m e hm =>
    have hunpack := @unpack_pack_finite s m e hm h
    obtain ⟨hlt, hleast, hdigits⟩ := h
    by_cases hlarge : e ≤ 971
    · rw [if_pos hlarge] at hunpack
      exact .inl hunpack
    · rw [if_neg hlarge] at hunpack
      have hpos : (0 : ℚ) < m * 2 ^ e := mul_pos (by exact_mod_cast hm) (two_zpow_pos e)
      refine .inr ⟨?_, ?_⟩
      · rw [number, decide_withSign_lt _ hpos, decode_eq]
        exact congrArg decoded hunpack
      -- What has a greater exponent has all digits, so it is beyond the limit.
      have hfull : (2 : ℚ) ^ 52 ≤ m := by exact_mod_cast hdigits.resolve_right (by omega)
      have hexponent : (2 : ℚ) ^ (972 : ℤ) ≤ 2 ^ e := two_zpow_le (by omega)
      rw [number, abs_withSign, abs_of_nonneg (by positivity)]
      calc double.limit = 2 ^ 52 * 2 ^ (972 : ℤ) := (two_pow_mul_zpow 52 972).symm
        _ ≤ m * 2 ^ e := mul_le_mul hfull hexponent (two_zpow_pos _).le (Nat.cast_nonneg m)
  | infinity s => exact h.elim
  | notANumber => exact h.elim

/-! ## What a number denotes -/

/-- The fraction that a finite number is. -/
def Denotes (x : Float) (q : ℚ) : Prop :=
  ∃ (negative : Bool) (m : ℕ) (e : ℤ), decode x = .finite negative m e
    ∧ q = withSign negative (m * 2 ^ e)

theorem denotes_iff {x : Float} {q : ℚ} :
    Denotes x q ↔ IsCanonical (parts x) ∧ number (parts x) = q := by
  unfold Denotes
  rw [decode_eq]
  cases hparts : parts x with
  | finite s m e hm =>
    have hcanonical := (isCanonical_parts hparts).1
    rw [hparts] at hcanonical
    simp only [decoded, Value.finite.injEq, number, hcanonical, true_and]
    constructor
    · rintro ⟨negative, m', e', ⟨rfl, rfl, rfl⟩, rfl⟩
      rfl
    · rintro rfl
      exact ⟨_, m, e, ⟨rfl, rfl, rfl⟩, rfl⟩
  | zero s =>
    simp only [decoded, Value.finite.injEq, number, IsCanonical, true_and]
    constructor
    · rintro ⟨negative, m, e, ⟨rfl, rfl, rfl⟩, rfl⟩
      simp
    · rintro rfl
      exact ⟨_, 0, -1074, ⟨rfl, rfl, rfl⟩, by simp⟩
  | infinity s => simp [decoded, IsCanonical]
  | notANumber => simp [decoded, IsCanonical]

theorem Denotes.holds {x : Float} {q : ℚ} (h : Denotes x q) : double.Holds q := by
  obtain ⟨hcanonical, rfl⟩ := denotes_iff.mp h
  exact holds_number hcanonical

theorem Denotes.unique {x : Float} {q r : ℚ} (hq : Denotes x q) (hr : Denotes x r) : q = r := by
  rw [← (denotes_iff.mp hq).2, ← (denotes_iff.mp hr).2]

theorem Denotes.abs_lt {x : Float} {q : ℚ} (h : Denotes x q) : |q| < double.limit := by
  obtain ⟨hcanonical, rfl⟩ := denotes_iff.mp h
  cases hparts : parts x with
  | finite s m e hm =>
    have hexponent := (isCanonical_parts hparts).2
    rw [hparts] at hcanonical
    have hdigits : (m : ℚ) < 2 ^ 53 := by exact_mod_cast hcanonical.1
    have hpos := two_zpow_pos e
    rw [number, abs_withSign, abs_of_nonneg (by positivity)]
    calc (m : ℚ) * 2 ^ e < 2 ^ 53 * 2 ^ e := mul_lt_mul_of_pos_right hdigits hpos
      _ ≤ 2 ^ 53 * 2 ^ (971 : ℤ) := mul_le_mul_of_nonneg_left (two_zpow_le hexponent) (by norm_num)
      _ = double.limit := two_pow_mul_zpow 53 971
  | zero s => simpa [number] using double.limit_pos
  | infinity s => simpa [number] using double.limit_pos
  | notANumber => simpa [number] using double.limit_pos

theorem Denotes.has {x : Float} {q : ℚ} (h : Denotes x q) : double.Has q := ⟨h.holds, h.abs_lt⟩

theorem isFinite_iff {x : Float} : Draw.isFinite x = true ↔ ∃ q, Denotes x q := by
  unfold Draw.isFinite Denotes
  cases decode x <;> simp

/-- The outcome of an operation whose exact result is known: a nearest number of the format, or an
infinite one if this is too large. -/
def Rounds (f : Format) (x : Float) (q : ℚ) : Prop :=
  ∃ y, f.IsNearest q y
    ∧ (Denotes x y ∧ |y| < f.limit ∨ decode x = .infinite (y < 0) ∧ f.limit ≤ |y|)

theorem rounds_pack {u : UnpackedFloat} {q : ℚ} (h : RoundsTo u q) :
    Rounds double (.ofModel (.pack u)) q := by
  refine ⟨number u, h.nearest, ?_⟩
  rcases parts_pack h.canonical with hparts | hinfinite
  · have hdenotes : Denotes (.ofModel (.pack u)) (number u) :=
      denotes_iff.mpr (by rw [hparts]; exact ⟨h.canonical, rfl⟩)
    exact .inl ⟨hdenotes, hdenotes.abs_lt⟩
  · exact .inr hinfinite

namespace Rounds

variable {f : Format} {x : Float} {q p r : ℚ}

/-- A result that is finite is nearest. -/
theorem of_isFinite (h : Rounds f x q) (hx : Draw.isFinite x = true) :
    ∃ y, Denotes x y ∧ f.IsNearest q y ∧ f.Has y := by
  obtain ⟨y, hnearest, ⟨hy, hlt⟩ | ⟨hinfinite, -⟩⟩ := h
  · exact ⟨y, hy, hnearest, hnearest.holds, hlt⟩
  · rw [Draw.isFinite, hinfinite] at hx
    cases hx

/-- A result between two numbers is finite, and nearest. -/
theorem of_between (h : Rounds f x q) (hp : f.Has p) (hr : f.Has r) (hlow : p ≤ q) (hhigh : q ≤ r) :
    ∃ y, Denotes x y ∧ f.IsNearest q y ∧ p ≤ y ∧ y ≤ r := by
  obtain ⟨y, hnearest, hy⟩ := h
  have hpy := hnearest.ge_of_holds hp.holds hlow
  have hyr := hnearest.le_of_holds hr.holds hhigh
  refine ⟨y, (hy.resolve_right fun ⟨_, hlarge⟩ => ?_).1, hnearest, hpy, hyr⟩
  have := abs_lt.mp hp.abs_lt
  have := abs_lt.mp hr.abs_lt
  rcases le_abs.mp hlarge with h | h <;> linarith

/-- A result that is a number already is exact. -/
theorem of_has (h : Rounds f x q) (hq : f.Has q) : Denotes x q := by
  obtain ⟨y, hy, hnearest, -, -⟩ := h.of_between hq hq le_rfl le_rfl
  rwa [hnearest.eq_of_holds hq.holds] at hy

end Rounds

end Specimen.Decimal

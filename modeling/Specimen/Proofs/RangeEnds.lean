import Specimen.Proofs.Draws
import Specimen.Proofs.ExactBounds
import Specimen.Proofs.RealDraws

/-!
# The ends of a range

A number is drawn between two ends: the bounds as double precision has them, moved inwards by one
where they are exclusive, or the outermost numbers there are. What is drawn is written between what
the ends are written as; so where both ends keep to the bounds of the type, every number does. The
ends do where the bounds are whole numbers that can be moved by one without loss, and some whole
number keeps to them.
-/

namespace Specimen

open Decimal

/-! ## What is written for a number between two ends -/

namespace Draw

variable {σ : Type} [Source σ] {lo hi : Float} {a b : ℚ}

/-- A number of double precision is written between the ends of its range. -/
theorem exists_render_real (ha : numberOf? (render double lo) = some a)
    (hb : numberOf? (render double hi) = some b) (s : σ) :
    ∃ n : Numeral, render double (real lo hi s).1 = n.text
      ∧ min a b ≤ n.number ∧ n.number ≤ max a b := by
  obtain ⟨p, hlo⟩ := exists_denotes ha
  obtain ⟨r, hhi⟩ := exists_denotes hb
  obtain ⟨q, hx, hlow, hhigh⟩ := real_between hlo hhi s
  exact exists_render_between isNarrow_double hlo hhi hx hlo.holds hhi.holds hx.holds ha hb hlow hhigh

/-- A number of single precision is between the ends of its range. -/
theorem shortReal_between {p r : ℚ} (hlo : Denotes (toSingle lo) p) (hhi : Denotes (toSingle hi) r)
    (s : σ) : ∃ q, Denotes (shortReal (toSingle lo) (toSingle hi) s).1 q ∧ single.Holds q
      ∧ min p r ≤ q ∧ q ≤ max p r := by
  have hp := has_of_denotes_toSingle hlo
  have hr := has_of_denotes_toSingle hhi
  have hmin : single.Has (min p r) := by rcases min_choice p r with h | h <;> rwa [h]
  have hmax : single.Has (max p r) := by rcases max_choice p r with h | h <;> rwa [h]
  -- The number is drawn in double precision, between the ends, and then rounded to one between them.
  obtain ⟨y, hy, hlow, hhigh⟩ := real_between hlo hhi s
  obtain ⟨q, hx, hnearest, hlow', hhigh'⟩ := (rounds_toSingle hy).of_between hmin hmax hlow hhigh
  exact ⟨q, hx, hnearest.holds, hlow', hhigh'⟩

/-- A number of single precision is written between the ends of its range. -/
theorem exists_render_shortReal (ha : numberOf? (render single (toSingle lo)) = some a)
    (hb : numberOf? (render single (toSingle hi)) = some b) (s : σ) :
    ∃ n : Numeral, render single (shortReal (toSingle lo) (toSingle hi) s).1 = n.text
      ∧ min a b ≤ n.number ∧ n.number ≤ max a b := by
  obtain ⟨p, hlo⟩ := exists_denotes ha
  obtain ⟨r, hhi⟩ := exists_denotes hb
  obtain ⟨q, hx, hholds, hlow, hhigh⟩ := shortReal_between hlo hhi s
  exact exists_render_between isNarrow_single hlo hhi hx (has_of_denotes_toSingle hlo).holds
    (has_of_denotes_toSingle hhi).holds hholds ha hb hlow hhigh

end Draw

/-! ## The ends of a range -/

namespace NumericRange

/-- The ends between which a number is drawn, as they are written: whole numbers if there are no
fraction digits, and numbers of single or of double precision otherwise. -/
def ends (r : NumericRange) (isFloat : Bool) : String × String :=
  if r.fractionDigits = some 0 then (toString r.wholeMin, toString r.wholeMax)
  else if isFloat then
    (render single (toSingle (r.realMin (leastOf single))),
      render single (toSingle (r.realMax (greatestOf single))))
  else (render double (r.realMin (leastOf double)), render double (r.realMax (greatestOf double)))

/-- The text of a number in the range. -/
def drawText {σ : Type} [Source σ] (r : NumericRange) (isFloat : Bool) (s : σ) : String × σ :=
  if isFloat then r.drawFloat s else r.drawNumber s

end NumericRange

/-- **A number is between the ends of its range**, in exact decimals. -/
theorem ExactRange.hasText_drawText {σ : Type} [Source σ] {e : ExactRange} {r : NumericRange}
    {isFloat : Bool} (htotal : r.totalDigits = none)
    (hfraction : r.fractionDigits = none ∨ r.fractionDigits = some 0)
    (hlo : e.HasText (r.ends isFloat).1) (hhi : e.HasText (r.ends isFloat).2) (s : σ) :
    e.HasText (r.drawText isFloat s).1 := by
  obtain ⟨a, ha, hasA⟩ := hlo
  obtain ⟨b, hb, hasB⟩ := hhi
  have hwithin (n : Numeral) (hlow : min a b ≤ n.number) (hhigh : n.number ≤ max a b)
      (hcut : r.fractionDigits = none ∨ n.fraction = []) : e.HasText (r.cutDigits n.text) := by
    rw [n.cutDigits_text htotal hcut]
    exact ⟨_, n.numberOf?_text, hasA.between hasB hlow hhigh⟩
  by_cases hwhole : r.fractionDigits = some 0
  · have hdraw : (r.drawText isFloat s).1
        = r.cutDigits (toString (Draw.int r.wholeMin r.wholeMax s).1) := by
      cases isFloat <;>
        simp [NumericRange.drawText, NumericRange.drawFloat, NumericRange.drawNumber, hwhole]
    simp only [NumericRange.ends, hwhole, if_true, numberOf?_toString, Option.some.injEq]
      at ha hb
    obtain ⟨hlow, hhigh⟩ := Draw.int_mem r.wholeMin r.wholeMax s
    obtain ⟨n, htext, hnone, hnumber⟩ := Numeral.exists_toString (Draw.int r.wholeMin r.wholeMax s).1
    rw [hdraw, htext]
    refine hwithin n ?_ ?_ (.inr hnone)
    · rw [hnumber, ← ha, ← hb]
      exact_mod_cast hlow
    · rw [hnumber, ← ha, ← hb]
      exact_mod_cast hhigh
  · have hnone := hfraction.resolve_right hwhole
    cases isFloat with
    | true =>
      simp only [NumericRange.ends, hwhole, if_false, if_true] at ha hb
      obtain ⟨n, htext, hlow, hhigh⟩ := Draw.exists_render_shortReal ha hb s
      rw [NumericRange.drawText, if_pos rfl, NumericRange.drawFloat, if_neg hwhole]
      simp only [htext]
      exact hwithin n hlow hhigh (.inl hnone)
    | false =>
      simp only [NumericRange.ends, hwhole, if_false, Bool.false_eq_true] at ha hb
      obtain ⟨n, htext, hlow, hhigh⟩ := Draw.exists_render_real ha hb s
      rw [NumericRange.drawText, if_neg Bool.false_ne_true, NumericRange.drawNumber, if_neg hwhole]
      simp only [htext]
      exact hwithin n hlow hhigh (.inl hnone)

/-! ## The ends of whole numbers -/

namespace NumericRange

/-- A bound that is read without loss is itself, unless it is moved to an end of the whole numbers.
-/
theorem truncateBetween_of_reads {b : Bound} {exact : ExactBound} (h : Reads b exact) {z : ℤ}
    (hvalue : exact.value = z) (hz : double.Holds z ∨ z ≤ minInt ∨ maxInt ≤ z) :
    truncateBetween minInt maxInt b.value = Max.max minInt (Min.min maxInt z) := by
  refine truncateBetween_of_rounds ?_ hz
  rw [← hvalue]
  exact h.2

variable {r : NumericRange} {e : ExactRange} {v : ℤ}

/-- The lower end keeps to the lower bound, and is not above any number that does. -/
theorem wholeMin_spec (hmin : Option.Rel Reads r.min e.lower) (hwhole : ∀ b ∈ e.lower, b.IsWhole)
    (hlow : minInt ≤ v) (hhigh : v ≤ maxInt) (hv : ∀ b ∈ e.lower, b.IsBelow v) :
    r.wholeMin ≤ v ∧ ∀ b ∈ e.lower, b.IsBelow r.wholeMin := by
  unfold wholeMin
  generalize r.min = min at hmin ⊢
  generalize e.lower = lower at hmin hwhole hv ⊢
  cases hmin with
  | none => exact ⟨hlow, by simp⟩
  | @some bound exact hreads =>
    obtain ⟨z, hvalue, hz, hinside⟩ := hwhole exact rfl
    have hbelow := hv exact rfl
    simp only [Option.mem_def, Option.some.injEq, forall_eq', hreads.1,
      truncateBetween_of_reads hreads hvalue hz]
    unfold ExactBound.IsBelow at hbelow ⊢
    rw [hvalue] at hbelow ⊢
    split at hbelow
    · next hexclusive =>
      have hlt : z < v := by exact_mod_cast hbelow
      obtain ⟨hfirst, hlast⟩ := hinside hexclusive
      rw [if_pos hexclusive, if_pos hexclusive]
      refine ⟨by omega, ?_⟩
      exact_mod_cast (by omega : z < Min.min maxInt (Max.max minInt (Min.min maxInt z) + 1))
    · next hinclusive =>
      have hle : z ≤ v := by exact_mod_cast hbelow
      rw [if_neg hinclusive, if_neg hinclusive]
      refine ⟨by omega, ?_⟩
      exact_mod_cast (by omega : z ≤ Max.max minInt (Min.min maxInt z))

/-- The upper end keeps to the upper bound, and is not below any number that does. -/
theorem wholeMax_spec (hmax : Option.Rel Reads r.max e.upper) (hwhole : ∀ b ∈ e.upper, b.IsWhole)
    (hlow : minInt ≤ v) (hhigh : v ≤ maxInt) (hv : ∀ b ∈ e.upper, b.IsAbove v) :
    v ≤ r.wholeMax ∧ ∀ b ∈ e.upper, b.IsAbove r.wholeMax := by
  unfold wholeMax
  generalize r.max = max at hmax ⊢
  generalize e.upper = upper at hmax hwhole hv ⊢
  cases hmax with
  | none => exact ⟨hhigh, by simp⟩
  | @some bound exact hreads =>
    obtain ⟨z, hvalue, hz, hinside⟩ := hwhole exact rfl
    have habove := hv exact rfl
    simp only [Option.mem_def, Option.some.injEq, forall_eq', hreads.1,
      truncateBetween_of_reads hreads hvalue hz]
    unfold ExactBound.IsAbove at habove ⊢
    rw [hvalue] at habove ⊢
    split at habove
    · next hexclusive =>
      have hlt : v < z := by exact_mod_cast habove
      obtain ⟨hfirst, hlast⟩ := hinside hexclusive
      rw [if_pos hexclusive, if_pos hexclusive]
      refine ⟨by omega, ?_⟩
      exact_mod_cast (by omega : Max.max minInt (Max.max minInt (Min.min maxInt z) - 1) < z)
    · next hinclusive =>
      have hle : v ≤ z := by exact_mod_cast habove
      rw [if_neg hinclusive, if_neg hinclusive]
      refine ⟨by omega, ?_⟩
      exact_mod_cast (by omega : Max.max minInt (Min.min maxInt z) ≤ z)

/-- If some whole number keeps to the bounds, both ends do. -/
theorem hasText_ends (hmin : Option.Rel Reads r.min e.lower) (hmax : Option.Rel Reads r.max e.upper)
    (hfraction : r.fractionDigits = some 0) (hwhole : e.IsWhole) (hlow : minInt ≤ v)
    (hhigh : v ≤ maxInt) (hv : e.Has v) (isFloat : Bool) :
    e.HasText (r.ends isFloat).1 ∧ e.HasText (r.ends isFloat).2 := by
  obtain ⟨hle, hbelow⟩ := wholeMin_spec hmin hwhole.1 hlow hhigh hv.1
  obtain ⟨hge, habove⟩ := wholeMax_spec hmax hwhole.2 hlow hhigh hv.2
  rw [ends, if_pos hfraction]
  refine ⟨⟨r.wholeMin, numberOf?_toString _, hbelow, fun b hb => ?_⟩,
    ⟨r.wholeMax, numberOf?_toString _, fun b hb => ?_, habove⟩⟩
  · exact (hv.2 b hb).anti (by exact_mod_cast hle)
  · exact (hv.1 b hb).mono (by exact_mod_cast hge)

/-! ## The ends of real numbers -/

/-- The format in which real numbers are drawn. -/
def formatOf (isFloat : Bool) : Format := if isFloat then single else double

theorem isNarrow_formatOf (isFloat : Bool) : (formatOf isFloat).IsNarrow := by
  cases isFloat
  · exact isNarrow_double
  · exact isNarrow_single

variable {f : Format} {lo hi : Float} {p q : ℚ}

/-- A whole number with few enough digits is a number of the format. -/
theorem has_of_abs_lt (hf : f.IsNarrow) {z : ℤ} (hz : |z| < 2 ^ f.digits) : f.Has z where
  holds := ⟨z, 0, hz, hf.least_le, by rw [zpow_zero, mul_one]⟩
  abs_lt := by
    have hgreatest := hf.greatest_ge
    calc |(z : ℚ)| < ((2 ^ f.digits : ℤ) : ℚ) := by exact_mod_cast hz
      _ = 2 ^ (f.digits : ℤ) := by rw [zpow_natCast]; push_cast; rfl
      _ ≤ f.limit := two_zpow_le (by omega)

theorem has_double (hf : f.IsNarrow) {z : ℤ} (hz : |z| < 2 ^ f.digits) : double.Has z :=
  has_of_abs_lt isNarrow_double
    (lt_of_lt_of_le hz (pow_le_pow_right₀ (by norm_num) hf.digits_le))

/-- A number with a digit to spare can be moved by one. -/
theorem abs_lt_of_small (hf : f.IsNarrow) {z : ℤ} (hz : |z| < 2 ^ (f.digits - 1)) :
    |z| < 2 ^ f.digits ∧ |z + 1| < 2 ^ f.digits ∧ |z - 1| < 2 ^ f.digits := by
  rw [← mul_pow_sub_one hf.digits_pos.ne' (2 : ℤ)]
  simp only [abs_lt] at hz ⊢
  omega

/-- A bound that is a number of the format is read as this number. -/
theorem denotes_of_reads (hf : f.IsNarrow) {b : Bound} {exact : ExactBound} (h : Reads b exact)
    {z : ℤ} (hvalue : exact.value = z) (hz : |z| < 2 ^ f.digits) : Denotes b.value z := by
  have hrounds := h.2
  rw [hvalue] at hrounds
  exact hrounds.of_has (has_double hf hz)

/-- The least positive number of a format. -/
theorem has_leastOf (hf : f.IsNarrow) : Denotes (leastOf f) (2 ^ f.least) ∧ f.Has (2 ^ f.least) := by
  obtain ⟨hpos, hdigits, hleast, hleast0, hgreatest0, hgreatest⟩ := hf
  constructor
  · have hdenotes :=
      denotes_ofParts false (by norm_num : 1 < 2 ^ 53) hleast (by omega : f.least ≤ 971)
    rwa [Nat.cast_one, one_mul] at hdenotes
  · constructor
    · have hholds := @Format.holds_of_le f 1 f.least hpos Nat.one_le_two_pow le_rfl
      rwa [Nat.cast_one, one_mul] at hholds
    · rw [abs_of_pos (two_zpow_pos _)]
      exact zpow_lt_zpow_right₀ (by norm_num) (by omega)

/-- The greatest number of a format. -/
theorem has_greatestOf (hf : f.IsNarrow) :
    Denotes (greatestOf f) ((2 ^ f.digits - 1) * 2 ^ f.greatest)
    ∧ f.Has ((2 ^ f.digits - 1) * 2 ^ f.greatest) := by
  obtain ⟨hpos, hdigits, hleast, hleast0, hgreatest0, hgreatest⟩ := hf
  have hone : 1 ≤ 2 ^ f.digits := Nat.one_le_two_pow
  have hcast : ((2 ^ f.digits - 1 : ℕ) : ℚ) = 2 ^ f.digits - 1 := by
    rw [Nat.cast_sub hone]
    push_cast
    rfl
  have hlt : 2 ^ f.digits - 1 < 2 ^ f.digits := by omega
  have hlarge : 2 ^ f.digits ≤ 2 ^ 53 := Nat.pow_le_pow_right (by norm_num) hdigits
  rw [← hcast]
  refine ⟨denotes_ofParts false (lt_of_lt_of_le hlt hlarge) (by omega) (by omega),
    Format.holds_of_lt hlt (by omega), ?_⟩
  rw [abs_of_nonneg (mul_nonneg (Nat.cast_nonneg _) (two_zpow_pos _).le), Format.limit, two_zpow_add,
    two_zpow_natCast]
  exact mul_lt_mul_of_pos_right (by exact_mod_cast hlt) (two_zpow_pos _)

/-- A whole number with few enough digits is not beyond the others. -/
theorem intCast_le {n : ℤ} (hn : |n| < 2 ^ f.digits) : (n : ℚ) ≤ 2 ^ f.digits - 1 := by
  have := (abs_lt.mp hn).2
  exact_mod_cast (by omega : n ≤ 2 ^ f.digits - 1)

/-- The lower end keeps to the lower bound, and is not above any whole number that does. -/
theorem realMin_spec (hf : f.IsNarrow) (hmin : Option.Rel Reads r.min e.lower)
    (hsmall : ∀ b ∈ e.lower, b.IsSmall f) (hv : ∀ b ∈ e.lower, b.IsBelow v)
    (hpos : e.lower = none → 0 < v) :
    ∃ p, Denotes (r.realMin (leastOf f)) p ∧ f.Has p ∧ p ≤ v ∧ p ≤ 2 ^ f.digits - 1
      ∧ ∀ b ∈ e.lower, ∃ z : ℤ, p = z ∧ |z| < 2 ^ f.digits ∧ b.IsBelow z := by
  unfold realMin
  generalize r.min = min at hmin ⊢
  generalize e.lower = lower at hmin hsmall hv hpos ⊢
  -- Without a bound the end is the least positive number of the format.
  cases hmin with
  | none =>
    obtain ⟨hdenotes, hhas⟩ := has_leastOf hf
    have hone : (2 : ℚ) ^ f.least ≤ 1 := by
      have := two_zpow_le hf.least_le
      rwa [zpow_zero] at this
    refine ⟨_, hdenotes, hhas, ?_, ?_, by simp⟩
    · have : (1 : ℚ) ≤ v := by exact_mod_cast hpos rfl
      linarith
    · have : (2 : ℚ) ≤ 2 ^ f.digits := by
        exact_mod_cast Nat.pow_le_pow_right (by norm_num : 0 < 2) hf.digits_pos
      linarith
  | @some bound exact hreads =>
    obtain ⟨z, hvalue, hz⟩ := hsmall exact rfl
    have hbelow := hv exact rfl
    obtain ⟨hdigits, hnext, -⟩ := abs_lt_of_small hf hz
    have hdenotes := denotes_of_reads hf hreads hvalue hdigits
    simp only [Option.mem_def, Option.some.injEq, forall_eq', hreads.1]
    unfold ExactBound.IsBelow at hbelow ⊢
    rw [hvalue] at hbelow ⊢
    split at hbelow
    · -- The next whole number is in the format too, so adding one is exact.
      next hexclusive =>
      have hlt : z < v := by exact_mod_cast hbelow
      have hmoved : Denotes (bound.value + 1) ((z + 1 : ℤ) : ℚ) := by
        refine Rounds.of_has ?_ (has_double hf hnext)
        push_cast
        exact rounds_add hdenotes Draw.denotes_one
      simp only [hexclusive, if_true]
      refine ⟨_, hmoved, has_of_abs_lt hf hnext, ?_, intCast_le hnext, z + 1, rfl, hnext, ?_⟩
      · exact_mod_cast hlt
      · exact_mod_cast Int.lt_succ z
    · next hinclusive =>
      simp only [hinclusive]
      exact ⟨_, hdenotes, has_of_abs_lt hf hdigits, hbelow, intCast_le hdigits, z, rfl, hdigits,
        le_rfl⟩

/-- The upper end keeps to the upper bound, and is not below any whole number that does, or is not
below any with few enough digits. -/
theorem realMax_spec (hf : f.IsNarrow) (hmax : Option.Rel Reads r.max e.upper)
    (hsmall : ∀ b ∈ e.upper, b.IsSmall f) (hv : ∀ b ∈ e.upper, b.IsAbove v) :
    ∃ q, Denotes (r.realMax (greatestOf f)) q ∧ f.Has q ∧ (v ≤ q ∨ 2 ^ f.digits - 1 ≤ q)
      ∧ ∀ b ∈ e.upper, ∃ z : ℤ, q = z ∧ |z| < 2 ^ f.digits ∧ b.IsAbove z := by
  unfold realMax
  generalize r.max = max at hmax ⊢
  generalize e.upper = upper at hmax hsmall hv ⊢
  cases hmax with
  | none =>
    obtain ⟨hdenotes, hhas⟩ := has_greatestOf hf
    refine ⟨_, hdenotes, hhas, .inr ?_, by simp⟩
    have hone : (1 : ℚ) ≤ 2 ^ f.greatest := by
      have := two_zpow_le hf.greatest_ge
      rwa [zpow_zero] at this
    have hdigits : (1 : ℚ) ≤ 2 ^ f.digits := one_le_pow₀ (by norm_num)
    exact le_mul_of_one_le_right (by linarith) hone
  | @some bound exact hreads =>
    obtain ⟨z, hvalue, hz⟩ := hsmall exact rfl
    have habove := hv exact rfl
    obtain ⟨hdigits, -, hprevious⟩ := abs_lt_of_small hf hz
    have hdenotes := denotes_of_reads hf hreads hvalue hdigits
    simp only [Option.mem_def, Option.some.injEq, forall_eq', hreads.1]
    unfold ExactBound.IsAbove at habove ⊢
    rw [hvalue] at habove ⊢
    split at habove
    · next hexclusive =>
      have hlt : v < z := by exact_mod_cast habove
      have hmoved : Denotes (bound.value - 1) ((z - 1 : ℤ) : ℚ) := by
        refine Rounds.of_has ?_ (has_double hf hprevious)
        push_cast
        exact rounds_sub hdenotes Draw.denotes_one
      simp only [hexclusive, if_true]
      refine ⟨_, hmoved, has_of_abs_lt hf hprevious, .inl ?_, z - 1, rfl, hprevious, ?_⟩
      · exact_mod_cast Int.le_sub_one_of_lt hlt
      · exact_mod_cast Int.sub_one_lt_of_le le_rfl
    · next hinclusive =>
      simp only [hinclusive]
      exact ⟨_, hdenotes, has_of_abs_lt hf hdigits, .inl habove, z, rfl, hdigits, le_rfl⟩

/-- Ends that keep to their own bounds and are in order keep to both. -/
theorem hasText_render (hf : f.IsNarrow) (hlo : Denotes lo p) (hhi : Denotes hi q) (hp : f.Has p)
    (hq : f.Has q) (hpq : p ≤ q)
    (hlower : ∀ b ∈ e.lower, ∃ z : ℤ, p = z ∧ |z| < 2 ^ f.digits ∧ b.IsBelow z)
    (hupper : ∀ b ∈ e.upper, ∃ z : ℤ, q = z ∧ |z| < 2 ^ f.digits ∧ b.IsAbove z) :
    e.HasText (render f lo) ∧ e.HasText (render f hi) := by
  obtain ⟨n, hn, -, -⟩ := exists_render hf hlo hp.holds
  obtain ⟨n', hn', -, -⟩ := exists_render hf hhi hq.holds
  have ha : numberOf? (render f lo) = some n.number := by rw [hn, n.numberOf?_text]
  have hb : numberOf? (render f hi) = some n'.number := by rw [hn', n'.numberOf?_text]
  -- Writing keeps the order, so the lower end stays below what the upper one is below.
  have hab := render_le hf hlo hhi hp.holds hq.holds ha hb hpq
  have hbelow : ∀ b ∈ e.lower, b.IsBelow n.number := by
    intro b hmem
    obtain ⟨z, rfl, hz, hb⟩ := hlower b hmem
    rw [numberOf?_render_of_whole hf hlo hz, Option.some.injEq] at ha
    rwa [← ha]
  have habove : ∀ b ∈ e.upper, b.IsAbove n'.number := by
    intro b hmem
    obtain ⟨z, rfl, hz, hb'⟩ := hupper b hmem
    rw [numberOf?_render_of_whole hf hhi hz, Option.some.injEq] at hb
    rwa [← hb]
  exact ⟨⟨_, ha, hbelow, fun b hmem => (habove b hmem).anti hab⟩,
    ⟨_, hb, fun b hmem => (hbelow b hmem).mono hab, habove⟩⟩

/-- If some whole number keeps to the bounds, both ends do; it has to be positive if there is no
lower bound. -/
theorem hasText_realEnds {isFloat : Bool} (hmin : Option.Rel Reads r.min e.lower)
    (hmax : Option.Rel Reads r.max e.upper) (hfraction : r.fractionDigits = none)
    (hsmall : e.IsSmall (formatOf isFloat)) (hv : e.Has v) (hpos : e.lower = none → 0 < v) :
    e.HasText (r.ends isFloat).1 ∧ e.HasText (r.ends isFloat).2 := by
  have hf := isNarrow_formatOf isFloat
  obtain ⟨p, hlo, hp, hpv, hpmost, hlower⟩ := realMin_spec hf hmin hsmall.1 hv.1 hpos
  obtain ⟨q, hhi, hq, hvq, hupper⟩ := realMax_spec hf hmax hsmall.2 hv.2
  have hpq : p ≤ q := hvq.elim hpv.trans hpmost.trans
  rw [ends, if_neg (by rw [hfraction]; decide)]
  cases isFloat with
  | true =>
    exact hasText_render isNarrow_single ((rounds_toSingle hlo).of_has hp)
      ((rounds_toSingle hhi).of_has hq) hp hq hpq hlower hupper
  | false => exact hasText_render isNarrow_double hlo hhi hp hq hpq hlower hupper

end NumericRange

end Specimen

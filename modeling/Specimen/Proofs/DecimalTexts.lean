import Specimen.Proofs.DigitFacets
import Specimen.Proofs.FloatArithmetic
import Specimen.Proofs.ShortestDigits

/-!
# The numbers that texts denote

A decimal text denotes a fraction exactly, whatever double precision makes of it. The texts that are
written for numbers have a digit before the point and no power of ten. What is written for a number
of a format denotes a fraction that the number is nearest to, so larger numbers are written as
larger fractions.
-/

namespace Specimen.Decimal

open Specimen.Text

/-! ## What a text denotes -/

/-- The fraction that a literal stands for. -/
def Literal.number (l : Literal) : ℚ := l.digits * 10 ^ l.power

/-- The fraction that a text denotes: an optional sign, digits with an optional point, and an
optional power of ten. -/
def numberOf? (s : String) : Option ℚ :=
  match s.toList with
  | '-' :: rest => (readLiteral rest).map fun l => -l.number
  | '+' :: rest => (readLiteral rest).map Literal.number
  | cs => (readLiteral cs).map Literal.number

/-! ## Numerals -/

/-- A number in positional notation: its sign, and its digits before and after the point. -/
structure Numeral where
  negative : Bool
  whole : List Char
  fraction : List Char
  whole_ne_nil : whole ≠ []
  isDigit_whole : ∀ c ∈ whole, isDigit c = true
  isDigit_fraction : ∀ c ∈ fraction, isDigit c = true

namespace Numeral

/-- The digits with the point between them, which a whole number does not have. -/
def chars (n : Numeral) : List Char :=
  n.whole ++ if n.fraction.isEmpty then [] else '.' :: n.fraction

/-- How the number is written. -/
def text (n : Numeral) : String := String.ofList (if n.negative then '-' :: n.chars else n.chars)

/-- The number without its sign. -/
def magnitude (n : Numeral) : ℚ :=
  digitsValue (n.whole ++ n.fraction) * 10 ^ (-(n.fraction.length : ℤ))

/-- The number. -/
def number (n : Numeral) : ℚ := withSign n.negative n.magnitude

theorem exists_chars_eq_cons (n : Numeral) :
    ∃ c rest, n.chars = c :: rest ∧ isDigit c = true := by
  obtain ⟨c, rest, hwhole⟩ := List.exists_cons_of_ne_nil n.whole_ne_nil
  refine ⟨c, _, by rw [chars, hwhole, List.cons_append], n.isDigit_whole c ?_⟩
  rw [hwhole]
  exact List.mem_cons_self

theorem readLiteral_chars (n : Numeral) :
    readLiteral n.chars = some ⟨digitsValue (n.whole ++ n.fraction), -(n.fraction.length : ℤ)⟩ := by
  have hne : n.whole.isEmpty = false := List.isEmpty_eq_false_iff.mpr n.whole_ne_nil
  rw [readLiteral, chars]
  cases hfraction : n.fraction with
  | nil =>
    rw [List.isEmpty_nil, if_pos rfl, span_isDigit n.isDigit_whole (by simp)]
    simp [hne]
  | cons c rest =>
    have hspan : (n.whole ++ '.' :: c :: rest).span isDigit = (n.whole, '.' :: c :: rest) :=
      span_isDigit n.isDigit_whole (by simp; rfl)
    have hdigits : (c :: rest).span isDigit = (c :: rest, []) := by
      have hall := n.isDigit_fraction
      rw [hfraction] at hall
      have := @span_isDigit (c :: rest) [] hall (by simp)
      rwa [List.append_nil] at this
    simp only [List.isEmpty_cons, Bool.false_eq_true, if_false, hspan, hdigits]
    simp

/-- A numeral denotes its number. -/
theorem numberOf?_text (n : Numeral) : numberOf? n.text = some n.number := by
  obtain ⟨c, rest, hchars, hc⟩ := n.exists_chars_eq_cons
  have hread := n.readLiteral_chars
  rw [numberOf?, text, String.toList_ofList, number, magnitude]
  cases n.negative with
  | true =>
    simp only [if_true, hread, Option.map_some, withSign, Literal.number]
  | false =>
    simp only [Bool.false_eq_true, if_false, hchars, withSign]
    rw [hchars] at hread
    split
    · next heq =>
      cases heq
      cases hc
    · next heq =>
      cases heq
      cases hc
    · rw [hread]
      rfl

/-- A numeral is a number in figures. -/
def figures (n : Numeral) : Figures where
  negative := n.negative
  whole := n.whole
  behindPoint := pointed n.fraction
  isDigit_whole := n.isDigit_whole
  isDigit_behindPoint := isDigit_pointed n.isDigit_fraction

theorem fraction_figures (n : Numeral) : n.figures.fraction = n.fraction := getD_pointed _

theorem text_figures (n : Numeral) : n.figures.text = n.text := by
  have hchars : n.figures.unsigned = n.chars := by
    rw [chars, ← elim_pointed]
    rfl
  have hnegative : n.figures.negative = n.negative := rfl
  rw [Figures.text, text, hchars, hnegative]
  cases n.negative <;> rfl

/-- A numeral whose digits are not counted is not cut. -/
theorem cutDigits_text (n : Numeral) {r : NumericRange} (htotal : r.totalDigits = none)
    (hfraction : r.fractionDigits = none ∨ n.fraction = []) : r.cutDigits n.text = n.text := by
  have hcut : n.figures.cut r = n.figures := by
    ext1
    · rfl
    · simp [Figures.cut, htotal, NumericRange.kept]
    · rw [Figures.behindPoint_cut, Figures.fraction_cut, fraction_figures]
      rcases hfraction with hnone | hnil
      · simp [hnone, NumericRange.kept, figures]
      · simp [hnil, figures]
  rw [← text_figures, Figures.cutDigits_text, hcut]

/-! ## Whole numbers -/

/-- A whole number with its sign. -/
def ofNat (negative : Bool) (n : ℕ) : Numeral where
  negative := negative
  whole := Nat.toDigits 10 n
  fraction := []
  whole_ne_nil := Nat.toDigits_ne_nil
  isDigit_whole _ hc := isDigit_of_mem_toDigits hc
  isDigit_fraction _ hc := absurd hc List.not_mem_nil

theorem number_ofNat (negative : Bool) (n : ℕ) : (ofNat negative n).number = withSign negative n := by
  simp [number, magnitude, ofNat, digitsValue_toDigits]

theorem text_ofNat (n : ℕ) : (ofNat false n).text = toString n := by
  rw [Nat.toString_eq_ofList_toDigits]
  simp [text, chars, ofNat]

theorem text_ofNat_negative (n : ℕ) : (ofNat true n).text = "-" ++ toString n := by
  rw [Nat.toString_eq_ofList_toDigits, ← String.toList_inj]
  simp [text, chars, ofNat]

/-- A whole number is written as a numeral without a fraction. -/
theorem exists_toString (z : ℤ) :
    ∃ n : Numeral, toString z = n.text ∧ n.fraction = [] ∧ n.number = z := by
  cases z with
  | ofNat m => exact ⟨ofNat false m, (text_ofNat m).symm, rfl, by rw [number_ofNat]; simp [withSign]⟩
  | negSucc m =>
    exact ⟨ofNat true (m + 1), (text_ofNat_negative (m + 1)).symm, rfl, by
      rw [number_ofNat]; simp [withSign, Int.negSucc_eq]⟩

/-! ## Positional notation -/

/-- Digits and a power of ten in positional notation are a numeral. -/
theorem exists_positional (negative : Bool) (digits : ℕ) (power : ℤ) :
    ∃ n : Numeral, n.negative = negative ∧ n.chars = positional digits power
      ∧ n.magnitude = digits * 10 ^ power := by
  have htext {c : Char} (hc : c ∈ Nat.toDigits 10 digits) : isDigit c = true :=
    isDigit_of_mem_toDigits hc
  have hzeros {k : ℕ} {c : Char} (hc : c ∈ List.replicate k '0') : isDigit c = true := by
    rw [List.eq_of_mem_replicate hc]
    rfl
  have hne : Nat.toDigits 10 digits ≠ [] := Nat.toDigits_ne_nil
  have hvalue (k : ℕ) := digitsValue_append_zeros digits k
  have hvalue' (k : ℕ) := digitsValue_zeros_append digits k
  rw [positional]
  generalize Nat.toDigits 10 digits = text at *
  -- Zeros are put behind the digits for a power that is not negative.
  by_cases hpower : 0 ≤ power
  · obtain ⟨k, rfl⟩ := Int.eq_ofNat_of_zero_le hpower
    simp only [hpower, if_true, Int.toNat_natCast]
    refine ⟨⟨negative, text ++ List.replicate k '0', [], by simp [hne],
      fun c hc => (List.mem_append.mp hc).elim htext hzeros, by simp⟩, rfl, by simp [chars], ?_⟩
    rw [magnitude, List.append_nil, hvalue]
    push_cast
    simp
  · obtain ⟨k, hk⟩ := Int.eq_ofNat_of_zero_le (by omega : 0 ≤ -power)
    obtain rfl : power = -(k : ℤ) := by omega
    simp only [hpower, if_false, neg_neg, Int.toNat_natCast]
    by_cases hplaces : k < text.length
    · -- The point is put between the digits.
      have hlength : (text.drop (text.length - k)).length = k := by
        rw [List.length_drop]
        omega
      rw [if_pos hplaces]
      refine ⟨⟨negative, text.take (text.length - k), text.drop (text.length - k), ?_,
        fun c hc => htext (List.mem_of_mem_take hc), fun c hc => htext (List.mem_of_mem_drop hc)⟩,
        rfl, ?_, ?_⟩
      · rw [← List.length_pos_iff, List.length_take]
        omega
      · rw [chars, if_neg]
        rw [List.isEmpty_iff, ← List.length_eq_zero_iff, hlength]
        omega
      · have hsame := hvalue 0
        rw [List.replicate_zero, List.append_nil, pow_zero, Nat.mul_one] at hsame
        rw [magnitude, List.take_append_drop, hlength, hsame]
    · -- There are zeros between the point and the digits.
      have hlength : (List.replicate (k - text.length) '0' ++ text).length = k := by
        rw [List.length_append, List.length_replicate]
        omega
      rw [if_neg hplaces]
      refine ⟨⟨negative, ['0'], List.replicate (k - text.length) '0' ++ text, List.cons_ne_nil _ _,
        fun c hc => @hzeros 1 c hc, fun c hc => (List.mem_append.mp hc).elim hzeros htext⟩,
        rfl, by simp [chars, hne], ?_⟩
      have hsame := hvalue' (k - text.length + 1)
      rw [List.replicate_succ] at hsame
      rw [magnitude, hlength]
      exact congrArg (fun digits : ℕ => (digits : ℚ) * 10 ^ (-(k : ℤ))) hsame

end Numeral

theorem numberOf?_toString (n : ℤ) : numberOf? (toString n) = some (n : ℚ) := by
  obtain ⟨numeral, htext, -, hnumber⟩ := Numeral.exists_toString n
  rw [htext, numeral.numberOf?_text, hnumber]

/-! ## Numbers of a format -/

variable {f : Format} {x x' lo hi : Float} {q q' d d' a b p r : ℚ}

/-- A number that is not zero is written with its sign and its shortest digits. -/
theorem exists_render_of_pos (f : Format) {negative : Bool} {m : ℕ} {e : ℤ}
    (hdecode : decode x = .finite negative m e) (hm : 0 < m) :
    ∃ n : Numeral, render f x = n.text
      ∧ n.number = withSign negative ((shortest f m e).1 * 10 ^ (shortest f m e).2) := by
  obtain ⟨n, hnegative, hchars, hmagnitude⟩ :=
    Numeral.exists_positional negative (shortest f m e).1 (shortest f m e).2
  refine ⟨n, ?_, by rw [Numeral.number, hnegative, hmagnitude]⟩
  simp only [render, hdecode]
  rw [if_neg hm.ne', Numeral.text, hnegative, hchars]

theorem render_zero (f : Format) {negative : Bool} {e : ℤ}
    (hdecode : decode x = .finite negative 0 e) :
    render f x = (Numeral.ofNat negative 0).text := by
  simp only [render, hdecode]
  cases negative <;> rfl

/-- A number of a format is written as a numeral, which it is nearest to. -/
theorem exists_render (hf : f.IsNarrow) (hx : Denotes x q) (hq : f.Holds q) :
    ∃ n : Numeral, render f x = n.text ∧ f.IsNearest n.number q ∧ (q = 0 → n.number = 0) := by
  have hlimit := hx.abs_lt
  obtain ⟨negative, m, e, hdecode, rfl⟩ := id hx
  rcases Nat.eq_zero_or_pos m with rfl | hpos
  · refine ⟨.ofNat negative 0, render_zero f hdecode, ?_, fun _ => by simp [Numeral.number_ofNat]⟩
    rw [Numeral.number_ofNat, Nat.cast_zero, zero_mul]
    exact .of_holds (holds_withSign negative f.holds_zero)
  · have hvalue : (0 : ℚ) < m * 2 ^ e := magnitude_pos hpos e
    -- The sign is taken off, as the shortest digits are those of a positive number.
    have hholds : f.Holds (m * 2 ^ e) := by
      have := holds_withSign negative hq
      cases negative with
      | true => simpa [withSign] using this
      | false => exact hq
    rw [abs_withSign, abs_of_pos hvalue] at hlimit
    have hfull := (isPlain_of_decode hdecode).full
    obtain ⟨n, htext, hnumber⟩ := exists_render_of_pos f hdecode hpos
    refine ⟨n, htext, ?_, fun hzero => ?_⟩
    · rw [hnumber]
      exact isNearest_withSign negative (isNearest_shortest hf hpos hfull hholds hlimit)
    · rw [← abs_eq_zero, abs_withSign, abs_of_pos hvalue] at hzero
      exact absurd hzero hvalue.ne'

/-- A whole number with few enough digits is written as itself. -/
theorem numberOf?_render_of_whole (hf : f.IsNarrow) {z : ℤ} (hx : Denotes x z)
    (hz : |z| < 2 ^ f.digits) : numberOf? (render f x) = some (z : ℚ) := by
  obtain ⟨negative, m, e, hdecode, hvalue⟩ := hx
  rcases Nat.eq_zero_or_pos m with rfl | hpos
  · rw [render_zero f hdecode, Numeral.numberOf?_text, Numeral.number_ofNat, hvalue]
    simp
  · have hn : (m : ℚ) * 2 ^ e = z.natAbs := by
      rw [← abs_of_pos (magnitude_pos hpos e), ← abs_withSign negative, ← hvalue, Nat.cast_natAbs,
        Int.cast_abs]
    have hlt : z.natAbs < 2 ^ f.digits := by
      rw [Int.abs_eq_natAbs] at hz
      exact_mod_cast hz
    have hfull := (isPlain_of_decode hdecode).full
    obtain ⟨n, htext, hnumber⟩ := exists_render_of_pos f hdecode hpos
    rw [htext, n.numberOf?_text, hnumber, shortest_of_whole hf hpos hfull hn hlt, ← hn, ← hvalue]

/-- What a written number denotes is rounded to the number. -/
theorem isNearest_of_render (hf : f.IsNarrow) (hx : Denotes x q) (hq : f.Holds q)
    (hd : numberOf? (render f x) = some d) : f.IsNearest d q := by
  obtain ⟨n, htext, hnearest, -⟩ := exists_render hf hx hq
  rw [htext, n.numberOf?_text] at hd
  cases hd
  exact hnearest

/-- **Larger numbers are written as larger fractions**, or as the same one. -/
theorem render_le (hf : f.IsNarrow) (hx : Denotes x q) (hx' : Denotes x' q') (hq : f.Holds q)
    (hq' : f.Holds q') (hd : numberOf? (render f x) = some d)
    (hd' : numberOf? (render f x') = some d') (h : q ≤ q') : d ≤ d' := by
  rcases h.lt_or_eq with hlt | rfl
  · by_contra hgt
    have hle := (isNearest_of_render hf hx' hq' hd').le_of_lt (isNearest_of_render hf hx hq hd)
      (not_le.mp hgt)
    exact absurd hle hlt.not_ge
  · -- Zero has two signs; any other number is decoded in one way only.
    by_cases hzero : q = 0
    · have hnumber {y : Float} {t : ℚ} (hy : Denotes y q) (ht : numberOf? (render f y) = some t) :
          t = 0 := by
        obtain ⟨n, htext, -, hn⟩ := exists_render hf hy hq
        rw [htext, n.numberOf?_text] at ht
        cases ht
        exact hn hzero
      rw [hnumber hx hd, hnumber hx' hd']
    · obtain ⟨hu, hnumber⟩ := denotes_iff.mp hx
      obtain ⟨hu', hnumber'⟩ := denotes_iff.mp hx'
      have hparts : parts x = parts x' :=
        eq_of_number_eq hu hu' (hnumber.trans hnumber'.symm) (hnumber ▸ hzero)
      rw [render, decode_eq, hparts, ← decode_eq, ← render, hd'] at hd
      cases hd
      exact le_rfl

/-- What is written as a number is a number. -/
theorem exists_denotes (h : numberOf? (render f x) = some a) : ∃ q, Denotes x q := by
  cases hdecode : decode x with
  | nan =>
    have hnone : numberOf? "NaN" = none := rfl
    rw [render, hdecode, hnone] at h
    cases h
  | infinite negative =>
    have hnone : numberOf? (if negative then "-inf" else "inf") = none := by cases negative <;> rfl
    rw [render, hdecode, hnone] at h
    cases h
  | finite negative m e => exact ⟨_, negative, m, e, hdecode, rfl⟩

/-- A number between two others is written between them. -/
theorem exists_render_between (hf : f.IsNarrow) (hlo : Denotes lo p) (hhi : Denotes hi r)
    (hx : Denotes x q) (hp : f.Holds p) (hr : f.Holds r) (hq : f.Holds q)
    (ha : numberOf? (render f lo) = some a) (hb : numberOf? (render f hi) = some b)
    (hlow : min p r ≤ q) (hhigh : q ≤ max p r) :
    ∃ n : Numeral, render f x = n.text ∧ min a b ≤ n.number ∧ n.number ≤ max a b := by
  obtain ⟨n, htext, -, -⟩ := exists_render hf hx hq
  have hd : numberOf? (render f x) = some n.number := by rw [htext, n.numberOf?_text]
  refine ⟨n, htext, ?_, ?_⟩
  · rcases min_le_iff.mp hlow with hpq | hrq
    · exact (min_le_left a b).trans (render_le hf hlo hx hp hq ha hd hpq)
    · exact (min_le_right a b).trans (render_le hf hhi hx hr hq hb hd hrq)
  · rcases le_max_iff.mp hhigh with hqp | hqr
    · exact (render_le hf hx hlo hq hp hd ha hqp).trans (le_max_left a b)
    · exact (render_le hf hx hhi hq hr hd hb hqr).trans (le_max_right a b)

end Specimen.Decimal

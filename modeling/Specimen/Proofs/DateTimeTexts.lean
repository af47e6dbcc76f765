import Specimen.DateTime
import Specimen.Proofs.DigitRows

/-!
# Reading dates and times that were written

A clock reading is read back from its text. Each part of the text is read up to its end, whatever
follows: fields of two digits, because they are read with their width; a year, because no digit
stands behind it; and a fraction, which has 3, 6 or 9 digits and stands for nanoseconds.
-/

namespace Specimen

open Text

namespace Text

/-- No digit is a blank. -/
theorem isBlank_eq_false_of_isDigit {c : Char} (h : isDigit c = true) : isBlank c = false := by
  simp only [isDigit, Bool.and_eq_true, decide_eq_true_eq, Char.le_def, UInt32.le_iff_toNat_le] at h
  have hfirst : 48 ≤ c.toNat := h.1
  have hlast : c.toNat ≤ 57 := h.2
  simp only [isBlank, blankRuns, List.any_cons, List.any_nil, Bool.or_false, Bool.or_eq_false_iff,
    Bool.and_eq_false_iff, decide_eq_false_iff_not]
  omega

theorem trimStartChars_cons {c : Char} (h : isBlank c = false) (cs : List Char) :
    trimStartChars (c :: cs) = c :: cs := by
  rw [trimStartChars, List.dropWhile_cons_of_neg (by simp [h])]

/-- There is no blank in front of a row of digits. -/
theorem trimStartChars_digits {ds : List Char} (hne : ds ≠ []) (hds : ∀ c ∈ ds, isDigit c = true)
    (rest : List Char) : trimStartChars (ds ++ rest) = ds ++ rest := by
  obtain ⟨c, cs, rfl⟩ := List.exists_cons_of_ne_nil hne
  exact trimStartChars_cons (isBlank_eq_false_of_isDigit (hds c List.mem_cons_self)) _

end Text

namespace DateTime

variable {rest : List Char}

/-! ## Numbers of a width -/

theorem isDigit_padded (width n : ℕ) : ∀ c ∈ padded width n, isDigit c = true := by
  intro c hc
  rcases List.mem_append.mp hc with hc | hc
  · rw [List.eq_of_mem_replicate hc]
    decide
  · exact isDigit_of_mem_toDigits hc

theorem padded_ne_nil (width n : ℕ) : padded width n ≠ [] :=
  List.append_ne_nil_of_right_ne_nil _ Nat.toDigits_ne_nil

theorem digitsValue_padded (width n : ℕ) : digitsValue (padded width n) = n :=
  digitsValue_zeros_append n _

theorem takeWhile_padded (width n : ℕ) : (padded width n).takeWhile isDigit = padded width n := by
  have hall : (padded width n ++ []).takeWhile isDigit = padded width n ++ [].takeWhile isDigit :=
    List.takeWhile_append_of_pos (isDigit_padded width n)
  simpa using hall

section

variable {width n : ℕ} (hwidth : 0 < width) (h : n < 10 ^ width)

include hwidth h

/-- A number that is small enough takes up its width. -/
theorem length_padded : (padded width n).length = width := by
  have hle := (Nat.length_toDigits_le_iff (by decide) hwidth).mpr h
  rw [padded, List.length_append, List.length_replicate]
  omega

/-- **A field is read with its width**, whatever follows. -/
theorem readField_padded (rest : List Char) :
    readField width (padded width n ++ rest) = some (n, rest) := by
  have hlength := length_padded hwidth h
  rw [readField, trimStartChars_digits (padded_ne_nil width n) (isDigit_padded width n)]
  simp only [List.take_left' hlength, takeWhile_padded, List.drop_left, digitsValue_padded,
    List.isEmpty_iff, padded_ne_nil, if_false]

/-- Some digits behind the point, which are read to the end. -/
theorem readFraction_padded (hnine : width ≤ 9) :
    readFraction ('.' :: padded width n) = some (n * 10 ^ (9 - width), []) := by
  have hlength := length_padded hwidth h
  have hcounted : (padded width n).take 9 = padded width n :=
    List.take_of_length_le (by rwa [hlength])
  simp only [readFraction, takeWhile_padded, hcounted, digitsValue_padded, List.isEmpty_iff,
    padded_ne_nil, if_false, List.drop_length]
  rw [hlength]
  rfl

end

/-- A row of digits is read up to what is no digit. -/
theorem readLong_padded (width n : ℕ) (hrest : ∀ c ∈ rest.head?, isDigit c = false) :
    readLong (padded width n ++ rest) = some (n, rest) := by
  have hspan := span_isDigit (isDigit_padded width n) hrest
  rw [List.span_eq_takeWhile_dropWhile, Prod.mk.injEq] at hspan
  simp only [readLong, hspan.1, List.drop_left, digitsValue_padded, List.isEmpty_iff,
    padded_ne_nil, if_false]

/-! ## Marks and years -/

theorem readMark_cons {mark : Char} (h : isBlank mark = false) (rest : List Char) :
    readMark mark (mark :: rest) = some rest := by
  rw [readMark, trimStartChars_cons h]
  exact if_pos rfl

/-- A year without a sign is a field. -/
theorem readYear_of_isDigit {c : Char} (h : isDigit c = true) (cs : List Char) :
    readYear (c :: cs) = (readField 4 (c :: cs)).map fun (n, rest) => ((n : Int), rest) := by
  rw [readYear, trimStartChars_cons (isBlank_eq_false_of_isDigit h)]
  split
  · next heq =>
    cases heq
    exact absurd h (by decide)
  · next heq =>
    cases heq
    exact absurd h (by decide)
  · rfl

/-- **A year is read up to what is no digit.** -/
theorem readYear_yearText (year : Int) (hrest : ∀ c ∈ rest.head?, isDigit c = false) :
    readYear (yearText year ++ rest) = some (year, rest) := by
  have hlong := readLong_padded 4 year.natAbs hrest
  unfold yearText
  split
  · next hneg =>
    rw [readYear, List.cons_append, trimStartChars_cons (by decide)]
    simp only [hlong, Option.map_some]
    rw [show -(year.natAbs : Int) = year by omega]
  · next hnonneg =>
    split
    · rw [readYear, List.cons_append, trimStartChars_cons (by decide)]
      simp only [hlong, Option.map_some]
      rw [show (year.natAbs : Int) = year by omega]
    · -- There are four digits, and the first of them is not taken for a sign.
      have hread := readField_padded (by decide) (show year.natAbs < 10 ^ 4 by omega) rest
      obtain ⟨c, cs, hcs⟩ := List.exists_cons_of_ne_nil (padded_ne_nil 4 year.natAbs)
      have hc : isDigit c = true := isDigit_padded 4 year.natAbs c (hcs ▸ List.mem_cons_self)
      rw [hcs, List.cons_append] at hread ⊢
      rw [readYear_of_isDigit hc, hread, Option.map_some]
      simp only
      rw [show (year.natAbs : Int) = year by omega]

/-! ## Fractions -/

/-- **A fraction is read to its end**, as a number of nanoseconds. -/
theorem readFraction_fractionText {nanosecond : ℕ} (h : nanosecond < 1000000000) :
    readFraction (fractionText nanosecond) = some (nanosecond, []) := by
  unfold fractionText
  split
  · next hzero =>
    rw [hzero]
    rfl
  · split
    · rw [readFraction_padded (by decide) (by omega) (by decide)]
      congr 2
      omega
    · split
      · rw [readFraction_padded (by decide) (by omega) (by decide)]
        congr 2
        omega
      · rw [readFraction_padded (by decide) h (by decide)]
        congr 2
        omega

/-! ## Dates and times -/

theorem text_toList (t : DateTime) : t.text.toList
    = yearText t.year ++ '-' :: (padded 2 t.month ++ '-' :: (padded 2 t.day ++ 'T'
      :: (padded 2 t.hour ++ ':' :: (padded 2 t.minute ++ ':'
      :: (padded 2 t.second ++ fractionText t.nanosecond))))) := by
  simp [text, plainText, dateText, timeText]

theorem daysIn_le (year : Int) (month : ℕ) : daysIn year month ≤ 31 := by
  unfold daysIn
  split
  · split <;> decide
  · split <;> decide

/-- **A clock reading is read back from its text.** -/
theorem read?_text {t : DateTime} (h : t.isValid = true) : read? t.text = some t := by
  have hvalid := h
  simp only [isValid, Bool.and_eq_true, decide_eq_true_eq] at h
  obtain ⟨⟨⟨⟨⟨⟨⟨⟨⟨-, -⟩, -⟩, hmonth⟩, -⟩, hday⟩, hhour⟩, hminute⟩, hsecond⟩, hnanosecond⟩ := h
  have hdays := daysIn_le t.year t.month
  have hfield {n : ℕ} (hn : n < 100) (rest : List Char) :
      readField 2 (padded 2 n ++ rest) = some (n, rest) := readField_padded (by decide) hn rest
  have hmark (rest : List Char) : readMark '-' ('-' :: rest) = some rest ∧
      readMark 'T' ('T' :: rest) = some rest ∧ readMark ':' (':' :: rest) = some rest :=
    ⟨readMark_cons (by decide) rest, readMark_cons (by decide) rest, readMark_cons (by decide) rest⟩
  have hyear (rest : List Char) :
      readYear (yearText t.year ++ '-' :: rest) = some (t.year, '-' :: rest) :=
    readYear_yearText t.year (by simp [isDigit])
  simp only [read?, text_toList, Option.bind_eq_bind, Option.bind_some, hyear, hmark,
    hfield (show t.month < 100 by omega), hfield (show t.day < 100 by omega),
    hfield (show t.hour < 100 by omega), hfield (show t.minute < 100 by omega),
    hfield (show t.second < 100 by omega), readFraction_fractionText hnanosecond]
  rw [hvalid]
  rfl

end DateTime

end Specimen

import Mathlib.Algebra.Ring.Nat
import Mathlib.Data.List.TakeDrop
import Specimen.Text.Numeral

/-!
# Rows of digits

The number that a row of digits denotes, with or without zeros around it, and where a row of digits
ends in a text. The same rows stand in decimal numbers, in dates and in counts.
-/

namespace Specimen.Text

theorem isDigit_eq (c : Char) : isDigit c = c.isDigit := rfl

theorem digitsValue_eq (ds : List Char) : digitsValue ds = Nat.ofDigitChars 10 ds 0 := by
  simp only [digitsValue, Nat.ofDigitChars, digitValue, Nat.mul_comm]

theorem digitsValue_toDigits (n : ℕ) : digitsValue (Nat.toDigits 10 n) = n := by
  rw [digitsValue_eq, Nat.ofDigitChars_ten_toDigits]

theorem digitsValue_append_zeros (n k : ℕ) :
    digitsValue (Nat.toDigits 10 n ++ List.replicate k '0') = n * 10 ^ k := by
  rw [digitsValue_eq, Nat.ofDigitChars_append, Nat.ofDigitChars_ten_toDigits,
    Nat.ofDigitChars_replicate_zero, Nat.mul_comm]

theorem digitsValue_zeros_append (n k : ℕ) :
    digitsValue (List.replicate k '0' ++ Nat.toDigits 10 n) = n := by
  rw [digitsValue_eq, Nat.ofDigitChars_append, Nat.ofDigitChars_replicate_zero, Nat.mul_zero,
    Nat.ofDigitChars_ten_toDigits]

theorem isDigit_of_mem_toDigits {n : ℕ} {c : Char} (h : c ∈ Nat.toDigits 10 n) :
    isDigit c = true := by
  rw [isDigit_eq]
  exact Nat.isDigit_of_mem_toDigits (by decide) (by decide) h

/-- A positive number is written without a zero in front. -/
theorem head?_toDigits_ne (n : ℕ) (h : 0 < n) : (Nat.toDigits 10 n).head? ≠ some '0' := by
  induction n using Nat.strongRecOn with
  | ind n ih =>
    by_cases hsmall : n < 10
    · rw [Nat.toDigits_of_lt_base hsmall, List.head?_cons, ne_eq, Option.some_inj,
        Nat.digitChar_eq_zero]
      omega
    · have htens := ih (n / 10) (by omega) (by omega)
      have hne : Nat.toDigits 10 (n / 10) ≠ [] := Nat.toDigits_ne_nil
      obtain ⟨c, cs, hcs⟩ := List.exists_cons_of_ne_nil hne
      rw [Nat.toDigits_of_base_le (by decide) (by omega), hcs]
      rwa [hcs] at htens

theorem ne_of_isDigit {c d : Char} (hc : isDigit c = true) (hd : isDigit d = false) : c ≠ d := by
  rintro rfl
  rw [hc] at hd
  cases hd

/-- Digits are read up to the first character that is none. -/
theorem span_isDigit {ds rest : List Char} (hds : ∀ c ∈ ds, isDigit c = true)
    (hrest : ∀ c ∈ rest.head?, isDigit c = false) : (ds ++ rest).span isDigit = (ds, rest) := by
  rw [List.span_eq_takeWhile_dropWhile, List.takeWhile_append_of_pos hds,
    List.dropWhile_append_of_pos hds]
  cases rest with
  | nil => simp
  | cons c rest =>
    have hc := hrest c rfl
    simp [hc]

end Specimen.Text

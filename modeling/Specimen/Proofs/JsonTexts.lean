import Specimen.Json.Text
import Specimen.Proofs.DigitRows

/-!
# Reading JSON texts that were written

Strings and whole numbers are read back as they were written. A string ends with its closing quote,
whatever follows: each of its characters is read back from what is written for it, which is an
escape for quotes, backslashes and control characters. A number ends where it cannot go on.
-/

namespace Specimen.Json

variable {rest : List Char}

/-! ## Strings -/

/-- The digits below 16 are read back. -/
theorem hexValue?_hexDigit {n : ℕ} (h : n < 16) : hexValue? (hexDigit n) = some n := by
  have hall : ∀ n < 16, hexValue? (hexDigit n) = some n := by decide
  exact hall n h

/-- A control character is read back from four digits. -/
theorem unitChar?_hexQuad? {c : Char} (h : c.toNat < 0x20) :
    (hexQuad? '0' '0' (hexDigit (c.toNat / 16)) (hexDigit (c.toNat % 16))).bind unitChar?
      = some c := by
  have hzero : hexValue? '0' = some 0 := by decide
  have hquad : hexQuad? '0' '0' (hexDigit (c.toNat / 16)) (hexDigit (c.toNat % 16))
      = some c.toNat := by
    simp only [hexQuad?, hzero, hexValue?_hexDigit (show c.toNat / 16 < 16 by omega),
      hexValue?_hexDigit (show c.toNat % 16 < 16 by omega), Option.bind_eq_bind, Option.bind_some]
    congr 1
    omega
  rw [hquad, Option.bind_some, unitChar?, if_neg (by simp; omega), Char.ofNat_toNat]

/-- A character that needs no escape stands for itself. -/
theorem readChars_cons {c : Char} (hquote : c ≠ '"') (hslash : c ≠ '\\') (h : ¬c.toNat < 0x20) :
    readChars (c :: rest) = (readChars rest).map (consChar c) := by
  rw [readChars.eq_def]
  split
  · next heq => cases heq
  · next heq => cases heq; exact absurd rfl hquote
  · next heq => cases heq; exact absurd rfl hslash
  · next heq => cases heq; exact absurd rfl hslash
  · next heq =>
    cases heq
    rw [if_neg (by simp [h, hslash])]

/-- A letter behind a backslash stands for another character. -/
theorem readChars_escaped {letter c : Char} (h : escaped? letter = some c) :
    readChars ('\\' :: letter :: rest) = (readChars rest).map (consChar c) := by
  rw [readChars.eq_def]
  split
  · next heq => cases heq
  · next heq => cases heq
  · next heq => cases heq; cases h
  · next heq => cases heq; simp only [h]
  · next hne heq => cases heq; exact (hne letter rest rfl rfl).elim

/-- **A character is read back from what is written for it**, whatever follows. -/
theorem readChars_escapeChar (c : Char) (rest : List Char) :
    readChars (escapeChar c ++ rest) = (readChars rest).map (consChar c) := by
  unfold escapeChar
  -- Seven characters have a letter of their own, and the other control characters have four digits.
  split
  · next h =>
    rw [h]
    exact readChars_escaped rfl
  split
  · next h =>
    rw [h]
    exact readChars_escaped rfl
  split
  · next h =>
    rw [h]
    exact readChars_escaped rfl
  split
  · next h =>
    rw [h]
    exact readChars_escaped rfl
  split
  · next h =>
    rw [h]
    exact readChars_escaped rfl
  split
  · next h =>
    rw [← Char.ofNat_toNat c, h]
    exact readChars_escaped rfl
  split
  · next h =>
    rw [← Char.ofNat_toNat c, h]
    exact readChars_escaped rfl
  split
  · next h =>
    simp only [List.cons_append, List.nil_append]
    rw [readChars.eq_def]
    simp only [unitChar?_hexQuad? h]
  · next hquote hslash _ _ _ _ _ h => exact readChars_cons hquote hslash h

/-- The characters of a string are read back up to the closing quote. -/
theorem readChars_flatMap_escapeChar (cs rest : List Char) :
    readChars (cs.flatMap escapeChar ++ '"' :: rest) = some (cs, rest) := by
  induction cs with
  | nil => rw [List.flatMap_nil, List.nil_append, readChars]
  | cons c cs ih =>
    rw [List.flatMap_cons, List.append_assoc, readChars_escapeChar, ih]
    rfl

theorem quote_toList (s : String) :
    (quote s).toList = '"' :: (s.toList.flatMap escapeChar ++ ['"']) := by
  rw [quote, String.toList_ofList, List.cons_append]

/-- **A string is read back**, whatever follows. -/
theorem readString_quote (s : String) (rest : List Char) :
    readString ((quote s).toList ++ rest) = some (s, rest) := by
  have hread := readChars_flatMap_escapeChar s.toList rest
  rw [quote_toList, List.cons_append, List.append_assoc, List.singleton_append, readString, hread,
    Option.map_some]
  simp only [String.ofList_toList]

/-! ## Numbers -/

/-- No number goes on here. -/
def EndsNumber (cs : List Char) : Prop :=
  ∀ c ∈ cs.head?, isDigit c = false ∧ c ≠ '.' ∧ c ≠ 'e' ∧ c ≠ 'E'

/-- **A number is read back**, if it does not go on. -/
theorem readNat_toString (n : ℕ) (hrest : EndsNumber rest) :
    readNat ((toString n).toList ++ rest) = some (n, rest) := by
  have hspan : (Nat.toDigits 10 n ++ rest).span isDigit = (Nat.toDigits 10 n, rest) :=
    Text.span_isDigit (fun c hc => Text.isDigit_of_mem_toDigits hc) fun c hc => (hrest c hc).1
  have hvalue : (Nat.toDigits 10 n).foldl (fun n d => n * 10 + (d.toNat - '0'.toNat)) 0 = n :=
    Text.digitsValue_toDigits n
  rw [Nat.toString_eq_ofList_toDigits, String.toList_ofList, readNat, hspan]
  simp only [hvalue]
  split
  · next hnil => exact absurd hnil Nat.toDigits_ne_nil
  · next hzero =>
    -- Only the number zero begins with a zero, and it has no other digit.
    rcases Nat.eq_zero_or_pos n with rfl | hpos
    · cases hzero
    · exact absurd (congrArg List.head? hzero) (Text.head?_toDigits_ne n hpos)
  · next c rest _ _ =>
    obtain ⟨-, hpoint, hlower, hupper⟩ := hrest c rfl
    rw [if_neg (by simp [hpoint, hlower, hupper])]
  · rfl

end Specimen.Json

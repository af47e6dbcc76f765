/-!
# Blanks

The characters that separate words in attribute values: those with the Unicode property
White_Space. Texts are cut and trimmed at them, character by character, so each statement about a
trimmed text is one about a list of characters.
-/

namespace Specimen.Text

/-! ## The character class -/

/-- The first and the last code point of each run of characters with the property White_Space. -/
def blankRuns : List (Nat × Nat) :=
  [(0x09, 0x0D), (0x20, 0x20), (0x85, 0x85), (0xA0, 0xA0), (0x1680, 0x1680), (0x2000, 0x200A),
   (0x2028, 0x2029), (0x202F, 0x202F), (0x205F, 0x205F), (0x3000, 0x3000)]

/-- A character with the Unicode property White_Space. -/
def isBlank (c : Char) : Bool :=
  blankRuns.any fun run => run.1 ≤ c.toNat && c.toNat ≤ run.2

/-! ## Trimming -/

/-- Drops the blanks in front. -/
def trimStartChars (cs : List Char) : List Char := cs.dropWhile isBlank

/-- Drops the blanks at both ends. -/
def trimChars (cs : List Char) : List Char :=
  ((trimStartChars cs).reverse.dropWhile isBlank).reverse

/-- Drops the blanks at both ends of a text. -/
def trim (s : String) : String := String.ofList (trimChars s.toList)

/-! ## Words -/

/-- The words of what is still to read, where `word` holds, last character first, the word that has
been begun. -/
def wordsFrom (word : List Char) : List Char → List (List Char)
  | [] => if word.isEmpty then [] else [word.reverse]
  | c :: cs =>
    if isBlank c then
      if word.isEmpty then wordsFrom [] cs else word.reverse :: wordsFrom [] cs
    else wordsFrom (c :: word) cs

/-- The longest pieces of a text without a blank, from left to right. -/
def words (s : String) : List String := (wordsFrom [] s.toList).map String.ofList

end Specimen.Text

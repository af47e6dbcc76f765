import Specimen.Xml.Scan

/-!
# Markup

The text of tags, character data and comments. Five characters are replaced by references in
character data and attribute values, and two hyphens side by side in a comment are parted by a
space.
-/

namespace Specimen.Markup

/-! ## Character data -/

/-- What is written for a character. -/
def escapeChar (c : Char) : List Char :=
  if c = '<' then ['&', 'l', 't', ';']
  else if c = '>' then ['&', 'g', 't', ';']
  else if c = '&' then ['&', 'a', 'm', 'p', ';']
  else if c = '\'' then ['&', 'a', 'p', 'o', 's', ';']
  else if c = '"' then ['&', 'q', 'u', 'o', 't', ';']
  else [c]

/-- A text with references for the five characters. -/
def escape (s : String) : String := String.ofList (s.toList.flatMap escapeChar)

/-! ## Tags -/

/-- A name with its prefix, if it has one. -/
def qualify (pfx name : String) : String := if pfx = "" then name else pfx ++ ":" ++ name

/-- An attribute in a tag. -/
def attributeText (attr : String × String) : String :=
  " " ++ attr.1 ++ "=\"" ++ escape attr.2 ++ "\""

/-- What stands in a start tag between its brackets. -/
def tagText (name : String) (attributes : List (String × String)) : String :=
  name ++ String.join (attributes.map attributeText)

/-- A start tag. -/
def startTag (name : String) (attributes : List (String × String)) : String :=
  "<" ++ tagText name attributes ++ ">"

/-- The tag of an element without content. -/
def emptyTag (name : String) (attributes : List (String × String)) : String :=
  "<" ++ tagText name attributes ++ "/>"

/-- An end tag. -/
def endTag (name : String) : String := "</" ++ name ++ ">"

/-- The declaration that a document begins with. -/
def declaration : String := "<?xml version=\"1.0\" encoding=\"UTF-8\"?>"

/-! ## Comments -/

/-- Puts a space into each pair of hyphens, from the left. A hyphen belongs to one pair at most, so
that there may be pairs again between the hyphens that have been parted. -/
def partPairs : List Char → List Char
  | '-' :: '-' :: rest => '-' :: ' ' :: '-' :: partPairs rest
  | c :: rest => c :: partPairs rest
  | [] => []

/-- How many hyphens have a hyphen right behind them. -/
def countPairs : List Char → Nat
  | [] => 0
  | c :: rest => (if c = '-' ∧ rest.head? = some '-' then 1 else 0) + countPairs rest

theorem head?_partPairs (cs : List Char) : (partPairs cs).head? = cs.head? := by
  fun_cases partPairs cs <;> rfl

theorem countPairs_partPairs_le (cs : List Char) : countPairs (partPairs cs) ≤ countPairs cs := by
  fun_induction partPairs cs with
  | case1 rest ih => grind [countPairs, head?_partPairs]
  | case2 c rest _ ih => grind [countPairs, head?_partPairs]
  | case3 => exact Nat.le_refl _

/-- Each round leaves fewer pairs. -/
theorem countPairs_partPairs_lt {cs : List Char} (h : Xml.hasDoubleHyphen cs = true) :
    countPairs (partPairs cs) < countPairs cs := by
  fun_induction partPairs cs with
  | case1 rest => grind [countPairs, head?_partPairs, countPairs_partPairs_le rest]
  | case2 c rest hnot ih =>
    have hrest : Xml.hasDoubleHyphen rest = true := by rwa [Xml.hasDoubleHyphen] at h; exact hnot
    grind [countPairs, head?_partPairs]
  | case3 => cases h

/-- Puts a space between every two hyphens that stand side by side, in as many rounds as it takes. -/
def partHyphens (cs : List Char) : List Char :=
  if Xml.hasDoubleHyphen cs then partHyphens (partPairs cs) else cs
termination_by countPairs cs
decreasing_by exact countPairs_partPairs_lt ‹_›

/-- A comment, with a space at each end of its text. -/
def comment (text : String) : String :=
  "<!-- " ++ String.ofList (partHyphens text.toList) ++ " -->"

end Specimen.Markup

import Mathlib.Logic.Function.Iterate
import Specimen.Proofs.Indentation
import Specimen.Proofs.Scanning

/-!
# Hyphens in comments

A comment may neither hold two hyphens side by side nor end in one. The writer parts pairs of hyphens
in rounds until there is none left. A round takes the pairs from the left and leaves new ones between
them: `-----` becomes `- -- --`, and `- - - - -` in the next round. No row of three hyphens is left by
a round, so two rounds are always enough.

A round puts no space where the rounds together would not put one. So they come to the text with one
space between every two hyphens that stood side by side, and nothing else is changed.
-/

namespace Specimen.Markup

open Xml

/-- What stands in a comment, between its ends. -/
theorem comment_eq (text : String) : comment text
    = "<!--" ++ (" " ++ String.ofList (partHyphens text.toList) ++ " ") ++ "-->" := by
  rw [comment, show "<!-- " = "<!--" ++ " " from rfl, show " -->" = " " ++ "-->" from rfl]
  simp only [String.append_assoc]

/-! ## Pairs of hyphens -/

theorem pair_prefix_cons_iff (c : Char) (cs : List Char) :
    ['-', '-'] <+: c :: cs ↔ c = '-' ∧ cs.head? = some '-' := by
  cases cs with
  | nil => simp [List.cons_prefix_cons]
  | cons d cs => simp [List.cons_prefix_cons, eq_comm]

theorem hasDoubleHyphen_iff (cs : List Char) :
    hasDoubleHyphen cs = true ↔ ['-', '-'] <:+: cs := by
  induction cs with
  | nil => simp [hasDoubleHyphen]
  | cons c cs ih =>
    rw [hasDoubleHyphen_cons, Bool.or_eq_true, decide_eq_true_iff, ih, List.infix_cons_iff,
      pair_prefix_cons_iff]

/-! ## One space between two hyphens -/

/-- What is put behind the character at a place: a space, if it is a hyphen and another one
follows. -/
def gap (cs : List Char) (i : Nat) : List Char :=
  if cs[i]? = some '-' ∧ cs[i + 1]? = some '-' then [' '] else []

/-- The characters of a text, each with what is put behind it. -/
def spaced (cs : List Char) : List Char :=
  (List.range cs.length).flatMap fun i => cs[i]?.toList ++ gap cs i

theorem gap_zero (c : Char) (cs : List Char) :
    gap (c :: cs) 0 = if c = '-' ∧ cs.head? = some '-' then [' '] else [] := by
  simp [gap, List.head?_eq_getElem?]

theorem spaced_cons (c : Char) (cs : List Char) :
    spaced (c :: cs) = c :: (gap (c :: cs) 0 ++ spaced cs) := by
  rw [spaced, List.length_cons, List.range_succ_eq_map, List.flatMap_cons, List.flatMap_map]
  rfl

/-- Where no two hyphens stand side by side, nothing is put. -/
theorem spaced_of_not {cs : List Char} (h : hasDoubleHyphen cs = false) : spaced cs = cs := by
  induction cs with
  | nil => rfl
  | cons c cs ih =>
    rw [hasDoubleHyphen_cons, Bool.or_eq_false_iff, decide_eq_false_iff_not] at h
    rw [spaced_cons, gap_zero, if_neg h.1, ih h.2]
    rfl

/-- A round puts spaces only where they belong. -/
theorem spaced_partPairs (cs : List Char) : spaced (partPairs cs) = spaced cs := by
  fun_induction partPairs cs with
  | case1 rest ih => simp [spaced_cons, gap_zero, head?_partPairs, ih]
  | case2 c rest _ ih => rw [spaced_cons, spaced_cons, gap_zero, gap_zero, head?_partPairs, ih]
  | case3 => rfl

/-- **The rounds put one space between every two hyphens that stand side by side**, and nothing
else. -/
theorem partHyphens_eq_spaced (cs : List Char) : partHyphens cs = spaced cs := by
  fun_induction partHyphens cs with
  | case1 cs _ ih => rw [ih, spaced_partPairs]
  | case2 cs h => exact (spaced_of_not (eq_false_of_ne_true h)).symm

example : spaced "(a--b, c---d?)".toList = "(a- -b, c- - -d?)".toList := by decide

theorem partHyphens_of_not {cs : List Char} (h : hasDoubleHyphen cs = false) :
    partHyphens cs = cs := by
  rw [partHyphens_eq_spaced, spaced_of_not h]

/-! ## Rounds -/

/-- The rounds that are made: there is a pair before each of them, and none at the end. -/
structure RunsFor (n : Nat) (cs : List Char) : Prop where
  before : ∀ k < n, ['-', '-'] <:+: partPairs^[k] cs
  behind : ¬['-', '-'] <:+: partPairs^[n] cs

/-- The rounds come to an end. -/
theorem exists_runsFor (cs : List Char) :
    ∃ n, RunsFor n cs ∧ partHyphens cs = partPairs^[n] cs := by
  fun_induction partHyphens cs with
  | case1 cs h ih =>
    obtain ⟨n, ⟨hbefore, hbehind⟩, heq⟩ := ih
    refine ⟨n + 1, ⟨fun k hk => ?_, hbehind⟩, heq⟩
    cases k with
    | zero => exact (hasDoubleHyphen_iff cs).mp h
    | succ k => exact hbefore k (by omega)
  | case2 cs h =>
    have hbefore : ∀ k < 0, ['-', '-'] <:+: partPairs^[k] cs := fun k hk => absurd hk k.not_lt_zero
    exact ⟨0, ⟨hbefore, mt (hasDoubleHyphen_iff cs).mpr h⟩, rfl⟩

/-- A round passes over a character that is no hyphen with another one behind it. -/
theorem not_pair {c : Char} {rest : List Char}
    (h : ∀ behind, c = '-' → rest = '-' :: behind → False) : ¬(c = '-' ∧ rest.head? = some '-') := by
  rintro ⟨hc, hrest⟩
  obtain ⟨behind, hrest⟩ := List.head?_eq_some_iff.mp hrest
  exact h behind hc hrest

/-- A round leaves no pair at the front. -/
theorem not_prefix_partPairs (cs : List Char) : ¬['-', '-'] <+: partPairs cs := by
  fun_cases partPairs cs with
  | case1 rest => simp
  | case2 c rest hnot =>
    rw [pair_prefix_cons_iff, head?_partPairs]
    exact not_pair hnot
  | case3 => simp

/-- A round leaves no three hyphens in a row. -/
theorem not_infix_partPairs (cs : List Char) : ¬['-', '-', '-'] <:+: partPairs cs := by
  fun_induction partPairs cs with
  | case1 rest ih =>
    have hfront := not_prefix_partPairs rest
    simp [List.infix_cons_iff, List.cons_prefix_cons, hfront, ih]
  | case2 c rest _ ih =>
    rw [List.infix_cons_iff, List.cons_prefix_cons]
    exact not_or.mpr ⟨fun h => not_prefix_partPairs rest h.2, ih⟩
  | case3 => simp

/-- Where no three hyphens stand in a row, one round parts all pairs. -/
theorem hasDoubleHyphen_partPairs {cs : List Char} (h : ¬['-', '-', '-'] <:+: cs) :
    hasDoubleHyphen (partPairs cs) = false := by
  fun_induction partPairs cs with
  | case1 rest ih =>
    rw [List.infix_cons_iff, List.cons_prefix_cons, pair_prefix_cons_iff, not_or] at h
    have hhead : rest.head? ≠ some '-' := fun hhead => h.1 ⟨rfl, rfl, hhead⟩
    have hrest : ¬['-', '-', '-'] <:+: rest := fun hrest => h.2 (List.infix_cons hrest)
    simp [hasDoubleHyphen_cons, head?_partPairs, hhead, ih hrest]
  | case2 c rest hnot ih =>
    rw [List.infix_cons_iff, not_or] at h
    rw [hasDoubleHyphen_cons, head?_partPairs, decide_eq_false (not_pair hnot), ih h.2]
    rfl
  | case3 => rfl

/-- **Two rounds are enough.** -/
theorem RunsFor.le_two {n : Nat} {cs : List Char} (h : RunsFor n cs) : n ≤ 2 := by
  -- The first round leaves no three hyphens in a row, and so the second one no pair.
  refine Nat.le_of_not_lt fun hlt => ?_
  have hpair := (hasDoubleHyphen_iff _).mpr (h.before 2 hlt)
  rw [Function.iterate_succ_apply', Function.iterate_one,
    hasDoubleHyphen_partPairs (not_infix_partPairs cs)] at hpair
  cases hpair

end Specimen.Markup

namespace Specimen.XmlWriter

open Markup Xml

variable {w : XmlWriter}

theorem exists_openHeld_of_hasSpace (h : w.HasSpace) :
    ∃ opened, w.openHeld = (.ok (), opened) ∧ opened.HasSpace := by
  have hunheld : ({ w with held := none } : XmlWriter).HasSpace := h
  cases hheld : w.held with
  | none => exact ⟨w, by simp only [openHeld, hheld], h⟩
  | some tag =>
    simp only [openHeld, hheld, putMarkup_of_hasSpace hunheld]
    exact ⟨_, rfl, h⟩

/-- A comment is taken where there is room for every text. -/
theorem addComment_of_hasSpace (h : w.HasSpace) (text : String) :
    (w.addComment text).1 = .ok () := by
  obtain ⟨opened, hopened, hspace⟩ := exists_openHeld_of_hasSpace h
  rw [addComment, hopened, andThen, putMarkup_of_hasSpace hspace]

/-- A comment is put behind the tag that has been held back, unless the sink has no room. -/
theorem proceeds_addComment (w : XmlWriter) (text : String) :
    Proceeds (w.addComment text) fun w' => ∃ opened, w.openHeld = (.ok (), opened)
      ∧ w'.text = opened.text ++ opened.lead ++ comment text := by
  have hends : Proceeds (w.addComment text) fun _ => True :=
    w.proceeds_openHeld.andThen fun opened _ => (opened.proceeds_putMarkup _).imp fun _ _ => trivial
  obtain ⟨w', hput, -⟩ | hfull := hends
  · obtain ⟨opened, sink, hopened, rfl, hsink⟩ := addComment_ok hput
    refine .inl ⟨_, hput, opened, hopened, hsink.trans ?_⟩
    rw [textOf_append, textOf_leadPieces, textOf_singleton, Piece.toText, String.append_assoc]
  · exact .inr hfull

/-- **Comments are safe and lose nothing.** The text is parted in two rounds at most, by one space
between every two hyphens that stand side by side, and is not changed otherwise or by being parted
again. What stands in a comment has no two hyphens side by side and does not end in one. The writer
puts it behind the tag it has held back, if the sink has room. -/
theorem addComment_parted (text : String) :
    let parted := partHyphens text.toList
    let inside := " " ++ String.ofList parted ++ " "
    (∃ n ≤ 2, RunsFor n text.toList ∧ parted = partPairs^[n] text.toList)
      ∧ parted = spaced text.toList ∧ partHyphens parted = parted
      ∧ ¬['-', '-'] <:+: inside.toList ∧ inside.toList.getLast? ≠ some '-'
      ∧ ∀ w : XmlWriter, (w.HasSpace → (w.addComment text).1 = .ok ())
        ∧ Proceeds (w.addComment text) fun w' => ∃ opened, w.openHeld = (.ok (), opened)
          ∧ w'.text = opened.text ++ opened.lead ++ ("<!--" ++ inside ++ "-->") := by
  intro parted inside
  have hparted : hasDoubleHyphen parted = false := hasDoubleHyphen_partHyphens text.toList
  have hinside : inside.toList = ' ' :: (parted ++ [' ']) := by simp [inside]
  refine ⟨?_, partHyphens_eq_spaced _, partHyphens_of_not hparted, ?_, ?_, fun w => ⟨?_, ?_⟩⟩
  · obtain ⟨n, hruns, heq⟩ := exists_runsFor text.toList
    exact ⟨n, hruns.le_two, hruns, heq⟩
  · rw [← hasDoubleHyphen_iff, hinside, hasDoubleHyphen_cons, hasDoubleHyphen_blank, hparted]
    simp
  · rw [hinside, List.getLast?_cons, List.getLast?_concat]
    decide
  · exact fun hspace => addComment_of_hasSpace hspace text
  · rw [← comment_eq]
    exact w.proceeds_addComment text

end Specimen.XmlWriter

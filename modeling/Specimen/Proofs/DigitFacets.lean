import Specimen.Generate.Numeric
import Specimen.Proofs.DigitRows

/-!
# Digit facets

What the digit facets do to the text of a number, said of its digits: the sign stays, the first
digits on each side of the point stay, and the point stays if a digit is left behind it. Nothing
else is changed. So a text that is cut once is not changed by cutting it again, and cutting it for
two pairs of digit counts comes to cutting it for the smaller count on each side, in either order.

Both follow from `Figures.cut_cut`, because the text that is left is a number in figures again.
-/

namespace Specimen

open Text

/-! ## Numbers in figures -/

namespace Decimal

/-- A number in figures: an optional minus, digits, and perhaps a point with digits behind it. There
may be no digits at all on either side. -/
@[ext]
structure Figures where
  negative : Bool
  whole : List Char
  behindPoint : Option (List Char)
  isDigit_whole : ∀ c ∈ whole, isDigit c = true
  isDigit_behindPoint : ∀ ds ∈ behindPoint, ∀ c ∈ ds, isDigit c = true

/-- Digits as they stand behind a point, which is only there before digits. -/
def pointed (ds : List Char) : Option (List Char) := if ds.isEmpty then none else some ds

theorem getD_pointed (ds : List Char) : (pointed ds).getD [] = ds := by
  cases ds <;> rfl

theorem elim_pointed (ds : List Char) :
    (pointed ds).elim [] ('.' :: ·) = if ds.isEmpty then [] else '.' :: ds := by
  cases ds <;> rfl

theorem pointed_eq_none_iff {ds : List Char} : pointed ds = none ↔ ds = [] := by
  cases ds <;> simp [pointed]

theorem isDigit_pointed {ds : List Char} (h : ∀ c ∈ ds, isDigit c = true) :
    ∀ ds' ∈ pointed ds, ∀ c ∈ ds', isDigit c = true := by
  intro ds' hds'
  unfold pointed at hds'
  split at hds'
  · simp at hds'
  · obtain rfl := Option.some.inj hds'
    exact h

namespace Figures

/-- The digits of the fraction. -/
def fraction (n : Figures) : List Char := n.behindPoint.getD []

/-- The number without its sign. -/
def unsigned (n : Figures) : List Char := n.whole ++ n.behindPoint.elim [] ('.' :: ·)

/-- How the number is written. -/
def text (n : Figures) : String :=
  String.ofList ((if n.negative then ['-'] else []) ++ n.unsigned)

theorem isDigit_fraction (n : Figures) : ∀ c ∈ n.fraction, isDigit c = true := by
  intro c hc
  unfold fraction at hc
  cases hpoint : n.behindPoint with
  | none => simp [hpoint] at hc
  | some ds =>
    rw [hpoint] at hc
    exact n.isDigit_behindPoint ds hpoint c hc

theorem head?_unsigned (n : Figures) : n.unsigned.head? ≠ some '-' := by
  unfold unsigned
  cases hwhole : n.whole with
  | nil => cases n.behindPoint <;> simp
  | cons c rest =>
    have hc := n.isDigit_whole c (by simp [hwhole])
    simpa using ne_of_isDigit hc (by decide)

end Figures

end Decimal

namespace NumericRange

open Decimal

/-! ## Taking a text apart -/

theorem splitSign_eq_self {cs : List Char} (h : cs.head? ≠ some '-') :
    splitSign cs = (false, cs) := by
  unfold splitSign
  split
  · simp at h
  · rfl

theorem splitSign_figures (n : Figures) :
    splitSign n.text.toList = (n.negative, n.unsigned) := by
  rw [Figures.text, String.toList_ofList]
  cases n.negative with
  | true => rfl
  | false => exact splitSign_eq_self n.head?_unsigned

/-- The point is found behind the digits. -/
theorem splitPoint_figures (n : Figures) : splitPoint n.unsigned = (n.whole, n.fraction) := by
  have hwhole : ∀ c ∈ n.whole, decide (c ≠ '.') = true := fun c hc =>
    decide_eq_true (ne_of_isDigit (n.isDigit_whole c hc) (by decide))
  rw [splitPoint, Figures.unsigned, List.span_eq_takeWhile_dropWhile,
    List.takeWhile_append_of_pos hwhole, List.dropWhile_append_of_pos hwhole, Figures.fraction]
  cases n.behindPoint <;> simp

/-! ## Cutting digits -/

/-- How many of `n` digits are left by a digit count, which may be missing. -/
def kept (count : Option ℕ) (n : ℕ) : ℕ := count.elim n (Min.min n)

theorem kept_le {count : Option ℕ} {k : ℕ} (h : k ∈ count) (n : ℕ) : kept count n ≤ k := by
  obtain rfl := Option.mem_def.mp h
  exact Nat.min_le_right n k

/-- A digit takes up one byte. -/
theorem utf8Size_of_isDigit {c : Char} (h : isDigit c = true) : c.utf8Size = 1 := by
  have hlast : c.val ≤ '9'.val := by
    simp only [isDigit, Bool.and_eq_true, decide_eq_true_eq] at h
    exact h.2
  refine Char.utf8Size_eq_one_iff.mpr (UInt32.le_trans hlast (by decide))

theorem takeBytes_eq_take {ds : List Char} (h : ∀ c ∈ ds, isDigit c = true) (n : ℕ) :
    takeBytes n ds = ds.take n := by
  induction ds generalizing n with
  | nil => simp [takeBytes]
  | cons c rest ih =>
    have hsize := utf8Size_of_isDigit (h c List.mem_cons_self)
    rw [takeBytes, hsize]
    cases n with
    | zero => simp
    | succ n =>
      have hrest := ih (fun d hd => h d (List.mem_cons_of_mem c hd)) n
      simp [hrest]

theorem cutTo_eq_take {ds : List Char} (h : ∀ c ∈ ds, isDigit c = true) (count : Option ℕ) :
    cutTo count ds = ds.take (kept count ds.length) := by
  cases count with
  | none => simp [cutTo, kept]
  | some k =>
    rw [cutTo, takeBytes_eq_take h, List.take_eq_take_min, kept, Option.elim_some, Nat.min_comm]

/-- The range with the smaller digit counts of two. A count that is missing sets no limit. -/
def meet (r r' : NumericRange) : NumericRange :=
  { r with
    totalDigits := Option.merge Min.min r.totalDigits r'.totalDigits
    fractionDigits := Option.merge Min.min r.fractionDigits r'.fractionDigits }

/-- Taking the first digits twice. -/
theorem take_kept_take (ds : List Char) (count count' : Option ℕ) :
    (ds.take (kept count ds.length)).take (kept count' (ds.take (kept count ds.length)).length)
      = ds.take (kept (Option.merge Min.min count count') ds.length) := by
  rw [List.take_take, List.length_take]
  congr 1
  cases count <;> cases count' <;> simp only [kept, Option.elim, Option.merge]
  all_goals omega

end NumericRange

namespace Decimal.Figures

open NumericRange

/-- What is left of a number in figures by the digit counts of a range. -/
def cut (n : Figures) (r : NumericRange) : Figures where
  negative := n.negative
  whole := n.whole.take (kept r.totalDigits n.whole.length)
  behindPoint := pointed (n.fraction.take (kept r.fractionDigits n.fraction.length))
  isDigit_whole c hc := n.isDigit_whole c (List.mem_of_mem_take hc)
  isDigit_behindPoint :=
    isDigit_pointed fun c hc => n.isDigit_fraction c (List.mem_of_mem_take hc)

variable (n : Figures) (r r' : NumericRange)

@[simp] theorem fraction_cut :
    (n.cut r).fraction = n.fraction.take (kept r.fractionDigits n.fraction.length) :=
  getD_pointed _

/-- The point goes with the last digit behind it. -/
theorem behindPoint_cut : (n.cut r).behindPoint = pointed (n.cut r).fraction := by
  rw [fraction_cut]
  rfl

/-- **Digit facets keep the sign and the first digits on each side of the point.** -/
theorem cutDigits_text : r.cutDigits n.text = (n.cut r).text := by
  rw [cutDigits, splitSign_figures]
  simp only [splitPoint_figures, cutTo_eq_take n.isDigit_whole, cutTo_eq_take n.isDigit_fraction]
  rw [join, ← elim_pointed, List.append_assoc]
  rfl

/-- **Cutting twice is cutting for the smaller counts.** -/
theorem cut_cut : (n.cut r).cut r' = n.cut (r.meet r') := by
  have hfraction : ((n.cut r).cut r').fraction = (n.cut (r.meet r')).fraction := by
    simp only [fraction_cut]
    exact take_kept_take n.fraction r.fractionDigits r'.fractionDigits
  ext1
  · rfl
  · exact take_kept_take n.whole r.totalDigits r'.totalDigits
  · rw [behindPoint_cut, behindPoint_cut, hfraction]

/-- Only the digit counts matter. -/
theorem cut_congr (htotal : r.totalDigits = r'.totalDigits)
    (hfraction : r.fractionDigits = r'.fractionDigits) : n.cut r = n.cut r' := by
  simp only [cut, htotal, hfraction]

/-- What is cut stays as it is. -/
theorem cut_cut_self : (n.cut r).cut r = n.cut r := by
  rw [cut_cut]
  refine n.cut_congr _ _ ?_ ?_
  · cases h : r.totalDigits <;> simp [meet, h]
  · cases h : r.fractionDigits <;> simp [meet, h]

/-- It does not matter for which counts a number is cut first. -/
theorem cut_comm : (n.cut r).cut r' = (n.cut r').cut r := by
  rw [cut_cut, cut_cut]
  refine n.cut_congr _ _ ?_ ?_
  · cases h : r.totalDigits <;> cases h' : r'.totalDigits <;> simp [meet, h, h', Nat.min_comm]
  · cases h : r.fractionDigits <;> cases h' : r'.fractionDigits <;> simp [meet, h, h', Nat.min_comm]

end Decimal.Figures

end Specimen

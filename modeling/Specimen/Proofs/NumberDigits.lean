import Specimen.Proofs.NumberBounds

/-!
# Digits of numeric leaves

A number that is drawn for a leaf is written in figures, if it is finite, and then cut for the digit
facets of the type. So the leaf has no more digits before the point and behind it than these allow,
whatever its bounds are and whatever the source yields. It is finite as long as both ends of its
range are.
-/

namespace Specimen

open Decimal

namespace NumericRange

variable {σ : Type} [Source σ] {r : NumericRange} {isFloat : Bool} {s : σ}

/-- The real number that is drawn from a range, of single or of double precision. -/
def drawnReal (r : NumericRange) (isFloat : Bool) (s : σ) : Float :=
  if isFloat then
    (Draw.shortReal (toSingle (r.realMin (leastOf single)))
      (toSingle (r.realMax (greatestOf single))) s).1
  else (Draw.real (r.realMin (leastOf double)) (r.realMax (greatestOf double)) s).1

/-- The number that is drawn is finite. A whole number always is. -/
def DrawsFinite (r : NumericRange) (isFloat : Bool) (s : σ) : Prop :=
  r.fractionDigits = some 0 ∨ Draw.isFinite (r.drawnReal isFloat s) = true

/-- Where there are digits behind the point, the text is made of the real number. -/
theorem drawText_of_ne (h : r.fractionDigits ≠ some 0) (isFloat : Bool) (s : σ) :
    (r.drawText isFloat s).1
      = r.cutDigits (render (formatOf isFloat) (r.drawnReal isFloat s)) := by
  cases isFloat with
  | true =>
    rw [drawText, if_pos rfl, drawFloat, if_neg h]
    rfl
  | false =>
    rw [drawText, if_neg Bool.false_ne_true, drawNumber, if_neg h]
    rfl

/-- Where there are none, the text is made of a whole number. -/
theorem drawText_of_eq (h : r.fractionDigits = some 0) (isFloat : Bool) (s : σ) :
    (r.drawText isFloat s).1
      = r.cutDigits (toString (Draw.int r.wholeMin r.wholeMax s).1) := by
  cases isFloat <;> simp [drawText, drawFloat, drawNumber, h]

/-- Between two finite ends, finite numbers are drawn. -/
theorem drawsFinite_of_ends {a b : ℚ} (ha : numberOf? (r.ends isFloat).1 = some a)
    (hb : numberOf? (r.ends isFloat).2 = some b) (s : σ) : r.DrawsFinite isFloat s := by
  by_cases hwhole : r.fractionDigits = some 0
  · exact .inl hwhole
  · refine .inr (isFinite_iff.mpr ?_)
    cases isFloat with
    | true =>
      simp only [ends, hwhole, if_false, if_true] at ha hb
      obtain ⟨p, hlo⟩ := exists_denotes ha
      obtain ⟨q, hhi⟩ := exists_denotes hb
      obtain ⟨x, hx, -⟩ := Draw.shortReal_between hlo hhi s
      exact ⟨x, hx⟩
    | false =>
      simp only [ends, hwhole, if_false, Bool.false_eq_true] at ha hb
      obtain ⟨p, hlo⟩ := exists_denotes ha
      obtain ⟨q, hhi⟩ := exists_denotes hb
      obtain ⟨x, hx, -⟩ := Draw.real_between hlo hhi s
      exact ⟨x, hx⟩

end NumericRange

namespace Decimal

/-- A finite number is written as a numeral. -/
theorem exists_numeral (f : Format) {x : Float} (h : Draw.isFinite x = true) :
    ∃ n : Numeral, render f x = n.text := by
  obtain ⟨q, negative, m, e, hdecode, -⟩ := isFinite_iff.mp h
  rcases Nat.eq_zero_or_pos m with rfl | hpos
  · exact ⟨_, render_zero f hdecode⟩
  · obtain ⟨n, htext, -⟩ := exists_render_of_pos f hdecode hpos
    exact ⟨n, htext⟩

end Decimal

/-- The text for a finite number is what the digit facets leave of a numeral. -/
theorem NumericRange.exists_numeral_drawText {σ : Type} [Source σ] {r : NumericRange}
    {isFloat : Bool} {s : σ} (h : r.DrawsFinite isFloat s) :
    ∃ n : Numeral, (r.drawText isFloat s).1 = r.cutDigits n.text := by
  by_cases hwhole : r.fractionDigits = some 0
  · obtain ⟨n, htext, -, -⟩ := Numeral.exists_toString (Draw.int r.wholeMin r.wholeMax s).1
    exact ⟨n, by rw [drawText_of_eq hwhole, htext]⟩
  · obtain ⟨n, htext⟩ := exists_numeral (formatOf isFloat) (h.resolve_left hwhole)
    exact ⟨n, by rw [drawText_of_ne hwhole, htext]⟩

namespace Leaf

open NumericRange

/-- A text has no more digits on either side of its point than the digit counts allow. -/
def FitsDigits (r : NumericRange) (text : String) : Prop :=
  ∃ n : Figures, text = n.text ∧ (∀ count ∈ r.totalDigits, n.whole.length ≤ count)
    ∧ ∀ count ∈ r.fractionDigits, n.fraction.length ≤ count

/-- What is cut fits. -/
theorem fitsDigits_cut (r : NumericRange) (n : Figures) : FitsDigits r (n.cut r).text := by
  refine ⟨n.cut r, rfl, fun count hcount => ?_, fun count hcount => ?_⟩
  · have hlength : (n.cut r).whole.length ≤ kept r.totalDigits n.whole.length :=
      List.length_take_le _ _
    exact hlength.trans (kept_le hcount _)
  · rw [Figures.fraction_cut]
    exact (List.length_take_le _ _).trans (kept_le hcount _)

/-- The digit counts of a range are those of the type. -/
theorem countFacet_of_ofType {m : Model} {type : SimpleType} {r : NumericRange}
    (h : NumericRange.ofType m type = .ok r) :
    m.countFacet type .totalDigits = .ok r.totalDigits
      ∧ m.countFacet type .fractionDigits = .ok r.fractionDigits := by
  obtain ⟨chain, -, h⟩ := exists_of_bind_eq_ok h
  obtain ⟨min, -, h⟩ := exists_of_bind_eq_ok h
  obtain ⟨max, -, h⟩ := exists_of_bind_eq_ok h
  obtain ⟨totalDigits, htotal, h⟩ := exists_of_bind_eq_ok h
  obtain ⟨fractionDigits, hfraction, h⟩ := exists_of_bind_eq_ok h
  obtain rfl := Except.ok.inj h
  exact ⟨htotal, hfraction⟩

/-- What the digit counts of a range leave of a number in figures: the sign, the first digits on
each side of the point, and the point itself as long as a digit stands behind it. -/
structure IsCut (r : NumericRange) (n cut : Figures) : Prop where
  negative : cut.negative = n.negative
  whole : cut.whole = n.whole.take (kept r.totalDigits n.whole.length)
  fraction : cut.fraction = n.fraction.take (kept r.fractionDigits n.fraction.length)
  point : cut.behindPoint = none ↔ cut.fraction = []

theorem isCut_cut (r : NumericRange) (n : Figures) : IsCut r n (n.cut r) where
  negative := rfl
  whole := rfl
  fraction := n.fraction_cut r
  point := by rw [n.behindPoint_cut, pointed_eq_none_iff]

/-- **Digit facets cut digits and do nothing else.** Of a number in figures they leave the sign and
the first digits on each side of the point. Cutting again changes nothing, and cutting for two pairs
of digit counts is cutting for the smaller ones, in either order. So every number that is made up
for a type has no more digits than the digit counts of the type allow, if the number that is drawn
is finite, as it is between finite ends. -/
theorem number_keeps_digits :
    (∀ (r : NumericRange) (n : Figures), ∃ cut : Figures, IsCut r n cut
        ∧ r.cutDigits n.text = cut.text ∧ r.cutDigits cut.text = cut.text)
      ∧ (∀ (r r' : NumericRange) (n : Figures),
        r'.cutDigits (r.cutDigits n.text) = (r.meet r').cutDigits n.text
          ∧ r.cutDigits (r'.cutDigits n.text) = (r.meet r').cutDigits n.text)
      ∧ ∀ {σ : Type} [Source σ] (w : Setting) (type : SimpleType) (name : String)
          (r : NumericRange), ComesFrom w.model type name → BuiltinKind.ofName name = .numeric →
        NumericRange.ofType w.model type = .ok r →
        w.model.countFacet type .totalDigits = .ok r.totalDigits
          ∧ w.model.countFacet type .fractionDigits = .ok r.fractionDigits
          ∧ ∀ (hint : String) (steps : ℕ) (s : Supply σ), ∃ text,
            (valueWithin w hint (steps + 1) type s).1 = .ok text
              ∧ (r.DrawsFinite (name = "float") s.source → FitsDigits r text)
              ∧ ((∃ a, numberOf? (r.ends (name = "float")).1 = some a) →
                (∃ b, numberOf? (r.ends (name = "float")).2 = some b) →
                r.DrawsFinite (name = "float") s.source) := by
  refine ⟨fun r n => ?_, fun r r' n => ?_, fun w type name r hfrom hkind hrange => ?_⟩
  · refine ⟨n.cut r, isCut_cut r n, n.cutDigits_text r, ?_⟩
    rw [Figures.cutDigits_text, n.cut_cut_self]
  · simp only [Figures.cutDigits_text]
    constructor
    · rw [n.cut_cut]
    · rw [n.cut_comm, n.cut_cut]
  · obtain ⟨htotal, hfraction⟩ := countFacet_of_ofType hrange
    refine ⟨htotal, hfraction, fun hint steps s => ?_⟩
    rw [valueWithin_of_comesFrom hfrom, atomicValue_of_numeric hfrom hkind hrange]
    refine ⟨_, rfl, fun hfinite => ?_, fun ⟨a, ha⟩ ⟨b, hb⟩ => drawsFinite_of_ends ha hb s.source⟩
    obtain ⟨n, htext⟩ := exists_numeral_drawText hfinite
    rw [htext, ← n.text_figures, Figures.cutDigits_text]
    exact fitsDigits_cut r n.figures

/-- Decimal numbers from `least` to `most` whose digits are counted. -/
def countedDecimal (least most : String) (total fraction : ℕ) : SimpleType :=
  ((((SimpleType.restriction (.builtin "decimal")).withFacet (.bound .minInclusive least)).withFacet
    (.bound .maxInclusive most)).withFacet (.count .totalDigits total)).withFacet
      (.count .fractionDigits fraction)

variable {least most : String} {total fraction : ℕ}

theorem chain_countedDecimal : Model.builtin.chain (countedDecimal least most total fraction)
    = .ok [countedDecimal least most total fraction,
        BuiltinType.definition ⟨"decimal", some "anySimpleType", none, []⟩,
        BuiltinType.definition ⟨"anySimpleType", none, none, []⟩] := by
  rfl

theorem comesFrom_countedDecimal :
    ComesFrom Model.builtin (countedDecimal least most total fraction) "decimal" where
  enumeration := by simp only [Model.enumeration, Model.facet, chain_countedDecimal]; rfl
  variety := by simp only [Model.variety, chain_countedDecimal]; exact .inl rfl
  builtin := by simp only [Model.builtinAncestor, chain_countedDecimal]; exact ⟨_, rfl, rfl⟩

theorem ofType_countedDecimal {x y : Float} (hx : Decimal.read double (Text.trim least) = some x)
    (hy : Decimal.read double (Text.trim most) = some y) :
    NumericRange.ofType Model.builtin (countedDecimal least most total fraction)
      = .ok ⟨some ⟨x, false⟩, some ⟨y, false⟩, some total, some fraction⟩ := by
  have hlower (chain : List SimpleType) : NumericRange.nearestBound .minInclusive .minExclusive
      (countedDecimal least most total fraction :: chain) = .ok (some ⟨x, false⟩) := by
    show some <$> NumericRange.readBound .minInclusive false least = _
    rw [NumericRange.readBound, hx]
    rfl
  have hupper (chain : List SimpleType) : NumericRange.nearestBound .maxInclusive .maxExclusive
      (countedDecimal least most total fraction :: chain) = .ok (some ⟨y, false⟩) := by
    show some <$> NumericRange.readBound .maxInclusive false most = _
    rw [NumericRange.readBound, hy]
    rfl
  rw [NumericRange.ofType, chain_countedDecimal]
  simp only [bind, Except.bind, hlower, hupper, Model.countFacet, Model.facet, chain_countedDecimal]
  rfl

/-- From ten to two hundred there are two or three digits before the point, and one is left. -/
theorem number_keeps_digits_one :
    let w : Setting := ⟨Model.builtin, {}, default⟩
    let s : Supply Scripted := ⟨{}, ⟨[], 0⟩⟩
    let r : NumericRange := ⟨some ⟨10, false⟩, some ⟨200, false⟩, some 1, some 2⟩
    ComesFrom w.model (countedDecimal "10" "200" 1 2) "decimal"
      ∧ BuiltinKind.ofName "decimal" = .numeric
      ∧ NumericRange.ofType w.model (countedDecimal "10" "200" 1 2) = .ok r
      ∧ r.ends false = ("10", "200") ∧ r.DrawsFinite false s.source
      ∧ ∃ text, (valueWithin w "x" 33 (countedDecimal "10" "200" 1 2) s).1 = .ok text
        ∧ FitsDigits r text := by
  intro w s r
  have hfrom : ComesFrom w.model (countedDecimal "10" "200" 1 2) "decimal" :=
    comesFrom_countedDecimal
  have hkind : BuiltinKind.ofName "decimal" = .numeric := by decide
  have hrange : NumericRange.ofType w.model (countedDecimal "10" "200" 1 2) = .ok r :=
    ofType_countedDecimal rfl rfl
  have hends : r.ends ("decimal" = "float") = ("10", "200") := by decide +kernel
  obtain ⟨text, htext, hfits, hfinite⟩ := (number_keeps_digits.2.2 w
    (countedDecimal "10" "200" 1 2) "decimal" r hfrom hkind hrange).2.2 "x" 32 s
  have hdraws : r.DrawsFinite ("decimal" = "float") s.source :=
    hfinite ⟨10, by rw [hends]; exact numberOf?_toString 10⟩
      ⟨200, by rw [hends]; exact numberOf?_toString 200⟩
  exact ⟨hfrom, hkind, hrange, hends, hdraws, text, htext, hfits hdraws⟩

end Leaf

end Specimen

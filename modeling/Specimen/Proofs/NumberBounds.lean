import Specimen.Draw.Scripted
import Specimen.Proofs.Leaves
import Specimen.Proofs.RangeEnds

/-!
# Numbers between the bounds of their type

The text that is made up for a numeric type denotes a number that keeps to the bounds of the type,
in exact decimals, if the ends of the range do that it is drawn from. They do not always: an
exclusive bound is moved by one, which may be beyond the other bound.
-/

namespace Specimen

open Decimal

namespace Leaf

variable {σ : Type} [Source σ] {w : Setting} {type : SimpleType} {name : String} {e : ExactRange}
  {fraction : Option ℕ}

/-- A type that is filled with numbers. Its bounds are decimal numbers, and its digits are not
counted but for those after the point. -/
structure IsNumeric (m : Model) (type : SimpleType) (name : String) (e : ExactRange)
    (fraction : Option ℕ) : Prop extends ComesFrom m type name where
  kind : BuiltinKind.ofName name = .numeric
  bounds : ∃ chain, m.chain type = .ok chain ∧ ExactRange.ofChain? chain = some e
  totalDigits : m.countFacet type .totalDigits = .ok none
  fractionDigits : m.countFacet type .fractionDigits = .ok fraction

/-- The text for a type of numbers. -/
theorem atomicValue_of_numeric (h : ComesFrom w.model type name)
    (hkind : BuiltinKind.ofName name = .numeric) {r : NumericRange}
    (hrange : NumericRange.ofType w.model type = .ok r) (hint : String) (s : Supply σ) :
    (atomicValue w type hint s).1 = .ok (r.drawText (name = "float") s.source).1 := by
  obtain ⟨builtin, hbuiltin, hname⟩ := h.builtin
  obtain ⟨qname, hqname, rfl⟩ := Option.map_eq_some_iff.mp hname
  unfold atomicValue
  rw [hbuiltin, Filling.ask_ok_bind]
  simp only [hqname, hkind]
  rw [hrange, Filling.ask_ok_bind, NumericRange.drawText]
  by_cases hfloat : qname.localName = "float"
  · rw [if_pos hfloat, if_pos (decide_eq_true hfloat)]
    rfl
  · rw [if_neg hfloat, if_neg (by simpa using hfloat)]
    rfl

/-- Reasons why the ends of the range of a type keep to its bounds. -/
inductive EndsKeep (m : Model) (type : SimpleType) (isFloat : Bool) (e : ExactRange) :
    Option ℕ → Prop where
  /-- Whole numbers are drawn, the bounds are read without loss, and some whole number of 64 bits
  keeps to them. -/
  | whole (hwhole : e.IsWhole) (z : ℤ) (hlow : NumericRange.minInt ≤ z)
    (hhigh : z ≤ NumericRange.maxInt) (hz : e.Has z) : EndsKeep m type isFloat e (some 0)
  /-- Real numbers are drawn, the bounds are whole numbers with a digit to spare, and some whole
  number keeps to them, a positive one if there is no lower bound. -/
  | real (hsmall : e.IsSmall (NumericRange.formatOf isFloat)) (z : ℤ) (hz : e.Has z)
    (hpositive : e.lower = none → 0 < z) : EndsKeep m type isFloat e none
  /-- The ends, as they are written, keep to the bounds. -/
  | ends {fraction : Option ℕ} (hends : ∀ r, NumericRange.ofType m type = .ok r →
      e.HasText (r.ends isFloat).1 ∧ e.HasText (r.ends isFloat).2) :
    EndsKeep m type isFloat e fraction

/-- Decimal numbers between two bounds that are excluded. -/
def openDecimal (least most : String) : SimpleType :=
  ((SimpleType.restriction (.builtin "decimal")).withFacet (.bound .minExclusive least)).withFacet
    (.bound .maxExclusive most)

theorem chain_openDecimal (least most : String) : Model.builtin.chain (openDecimal least most)
    = .ok [openDecimal least most,
        BuiltinType.definition ⟨"decimal", some "anySimpleType", none, []⟩,
        BuiltinType.definition ⟨"anySimpleType", none, none, []⟩] := by
  rfl

theorem isNumeric_openDecimal {least most : String} {p q : ℚ}
    (hp : numberOf? (Text.trim least) = some p) (hq : numberOf? (Text.trim most) = some q) :
    IsNumeric Model.builtin (openDecimal least most) "decimal" ⟨some ⟨p, true⟩, some ⟨q, true⟩⟩
      none where
  enumeration := by simp only [Model.enumeration, Model.facet, chain_openDecimal]; rfl
  variety := by simp only [Model.variety, chain_openDecimal]; exact .inl rfl
  builtin := by simp only [Model.builtinAncestor, chain_openDecimal]; exact ⟨_, rfl, rfl⟩
  kind := by decide
  bounds := by
    have hlower (chain : List SimpleType) : ExactBound.nearest? .minInclusive .minExclusive
        (openDecimal least most :: chain) = some (some ⟨p, true⟩) := by
      show (numberOf? (Text.trim least)).map _ = _
      rw [hp]
      rfl
    have hupper (chain : List SimpleType) : ExactBound.nearest? .maxInclusive .maxExclusive
        (openDecimal least most :: chain) = some (some ⟨q, true⟩) := by
      show (numberOf? (Text.trim most)).map _ = _
      rw [hq]
      rfl
    exact ⟨_, chain_openDecimal least most, by rw [ExactRange.ofChain?, hlower, hupper]; rfl⟩
  totalDigits := by simp only [Model.countFacet, Model.facet, chain_openDecimal]; rfl
  fractionDigits := by simp only [Model.countFacet, Model.facet, chain_openDecimal]; rfl

theorem ofType_openDecimal {least most : String} {x y : Float}
    (hx : Decimal.read double (Text.trim least) = some x)
    (hy : Decimal.read double (Text.trim most) = some y) :
    NumericRange.ofType Model.builtin (openDecimal least most)
      = .ok ⟨some ⟨x, true⟩, some ⟨y, true⟩, none, none⟩ := by
  have hlower (chain : List SimpleType) : NumericRange.nearestBound .minInclusive .minExclusive
      (openDecimal least most :: chain) = .ok (some ⟨x, true⟩) := by
    show some <$> NumericRange.readBound .minExclusive true least = _
    rw [NumericRange.readBound, hx]
    rfl
  have hupper (chain : List SimpleType) : NumericRange.nearestBound .maxInclusive .maxExclusive
      (openDecimal least most :: chain) = .ok (some ⟨y, true⟩) := by
    show some <$> NumericRange.readBound .maxExclusive true most = _
    rw [NumericRange.readBound, hy]
    rfl
  rw [NumericRange.ofType, chain_openDecimal]
  simp only [bind, Except.bind, hlower, hupper, Model.countFacet, Model.facet, chain_openDecimal]
  rfl

end Leaf

end Specimen

import Specimen.Proofs.Leaves
import Specimen.Draw.Scripted

/-!
# How long a text made up from a hint is

The text for a hint never has more characters than its type allows. It has as many as its type asks
for, unless the number is left out: then nothing is put in its place, and a hint that is too short
by itself stays so.
-/

namespace Specimen

namespace Hint

/-! ## Lengths -/

/-- The number of digits behind a hint that is used for the `n`-th time. -/
def digits (n : Nat) : Nat := (Nat.toDigits 10 n).length

theorem length_stretch (minLength : Option Nat) (hint number : List Char) :
    (stretch minLength hint number).length
      = hint.length + (minLength.getD 0 - (hint.length + number.length)) := by
  cases minLength <;> simp [stretch]

theorem length_value (hint : String) (n : Nat) (minLength maxLength : Option Nat) :
    (value hint n minLength maxLength).length
      = (cut maxLength (stretch minLength hint.toList (Nat.toDigits 10 n))
          (Nat.toDigits 10 n)).length := by
  simp [value]

/-- A text that there is room for is stretched, if need be, and not cut. -/
theorem length_value_of_le {hint : String} {n : Nat} {minLength maxLength : Option Nat}
    (h : ∀ most, maxLength = some most →
      minLength.getD 0 ≤ most ∧ hint.length + digits n ≤ most) :
    (value hint n minLength maxLength).length
      = max (minLength.getD 0) (hint.length + digits n) := by
  have hstretch := length_stretch minLength hint.toList (Nat.toDigits 10 n)
  rw [String.length_toList] at hstretch
  rw [length_value]
  unfold digits at *
  cases maxLength with
  | none =>
    simp only [cut, List.length_append]
    omega
  | some most =>
    obtain ⟨hleast, hroom⟩ := h most rfl
    simp only [cut]
    rw [if_pos (by omega), List.length_append]
    omega

/-- A text that there is no room for was not stretched. It is cut to what it may have at most, or it
is the hint without the number. -/
theorem length_value_of_lt {hint : String} {n most : Nat} {minLength : Option Nat}
    (hleast : minLength.getD 0 ≤ most) (h : most < hint.length + digits n) :
    (value hint n minLength (some most)).length
      = if digits n < most then most else min most hint.length := by
  have hstretch := length_stretch minLength hint.toList (Nat.toDigits 10 n)
  rw [String.length_toList] at hstretch
  rw [length_value]
  unfold digits at *
  simp only [cut]
  rw [if_neg (by omega)]
  by_cases hroom : (Nat.toDigits 10 n).length < most
  · rw [if_pos (by omega), if_pos hroom, List.length_append, List.length_take]
    omega
  · rw [if_neg (by omega), if_neg hroom, List.length_take]
    omega

/-! ## Bounds -/

/-- The number is left out and the hint alone does not do: there is no room for a character of the
hint before the digits, and the hint has fewer characters than are asked for. -/
def FallsShort (hint : String) (n : Nat) (minLength maxLength : Option Nat) : Prop :=
  ∃ least most, minLength = some least ∧ maxLength = some most
    ∧ most ≤ digits n ∧ hint.length < least

theorem fallsShort_iff {hint : String} {n least most : Nat} :
    FallsShort hint n (some least) (some most) ↔ most ≤ digits n ∧ hint.length < least := by
  simp [FallsShort]

theorem not_fallsShort_none {hint : String} {n : Nat} {minLength : Option Nat} :
    ¬ FallsShort hint n minLength none := by
  simp [FallsShort]

/-- What the bounds of a type come to for the text of a hint. -/
structure Keeps (hint : String) (n : Nat) (minLength maxLength : Option Nat) : Prop where
  atMost : ∀ most, maxLength = some most → (value hint n minLength maxLength).length ≤ most
  atLeast_iff : minLength.getD 0 ≤ (value hint n minLength maxLength).length
    ↔ ¬ FallsShort hint n minLength maxLength

theorem keeps {hint : String} (hne : hint ≠ "") (n : Nat) {minLength maxLength : Option Nat}
    (h : ∀ most, maxLength = some most → minLength.getD 0 ≤ most) :
    Keeps hint n minLength maxLength := by
  have hpos : 0 < hint.length := Nat.pos_of_ne_zero fun h0 => hne (String.length_eq_zero_iff.mp h0)
  cases maxLength with
  | none =>
    refine ⟨by simp, iff_of_true ?_ not_fallsShort_none⟩
    rw [length_value_of_le (by simp)]
    exact Nat.le_max_left _ _
  | some most =>
    have hleast := h most rfl
    -- A text that there is no room for is not stretched, so only there can it fall short.
    by_cases hroom : hint.length + digits n ≤ most
    · have hlength : (value hint n minLength (some most)).length
          = max (minLength.getD 0) (hint.length + digits n) :=
        length_value_of_le (by simp [hleast, hroom])
      constructor
      · simp only [Option.some.injEq, forall_eq']
        omega
      · refine iff_of_true (by omega) fun ⟨_, _, _, hmost, hdigits, _⟩ => ?_
        obtain rfl := Option.some.inj hmost
        omega
    · have hlength := length_value_of_lt hleast (Nat.lt_of_not_le hroom)
      constructor
      · simp only [Option.some.injEq, forall_eq']
        split at hlength <;> omega
      · cases minLength with
        | none => simp [FallsShort]
        | some least =>
          rw [fallsShort_iff]
          simp only [Option.getD_some] at *
          split at hlength <;> omega

end Hint

/-! ## Leaves -/

namespace Leaf

/-- **The length facets are kept, unless the number is left out and the hint alone is too short.**
The text for a hint that is used for the `n`-th time has no more characters than its type allows,
and it has as many as its type asks for if and only if it does not fall short. This is the text of
every leaf that is filled by its hint, with the effective facets of its type, wherever the leaf
stands and however often the hint has been used. -/
theorem length_hinted {hint : String} (hne : hint ≠ "") (n : Nat) {minLength maxLength : Option Nat}
    (h : ∀ least most, minLength = some least → maxLength = some most → least ≤ most) :
    Hint.Keeps hint n minLength maxLength
      ∧ ∀ {σ : Type} [Source σ] (w : Setting) (type : SimpleType) (name : String),
        ComesFrom w.model type name → BuiltinKind.ofName name = .other →
        w.model.countFacet type .minLength = .ok minLength →
        w.model.countFacet type .maxLength = .ok maxLength →
        ∀ (steps : Nat) (s : Supply σ), s.counters.get hint + 1 = n →
          valueWithin w hint (steps + 1) type s
            = (.ok (Hint.value hint n minLength maxLength),
                { s with counters := (s.counters.next hint).2 }) := by
  constructor
  · refine Hint.keeps hne n fun most hmost => ?_
    cases minLength with
    | none => exact Nat.zero_le most
    | some least => exact h least most rfl hmost
  · rintro σ _ w type name hfrom hother hmin hmax steps s rfl
    rw [valueWithin_of_comesFrom hfrom]
    exact atomicValue_of_other hfrom hother hmin hmax hint s

/-- Strings between two lengths. -/
def sized (least most : Nat) : SimpleType :=
  ((SimpleType.restriction (.builtin "string")).withFacet (.count .minLength least)).withFacet
    (.count .maxLength most)

/-- The built-in type with a name that is derived from another one without facets of its own. -/
def builtinType (name base : String) : SimpleType :=
  BuiltinType.definition ⟨name, some base, none, []⟩

theorem chain_sized (least most : Nat) : Model.builtin.chain (sized least most)
    = .ok [sized least most, builtinType "string" "anySimpleType",
        BuiltinType.definition ⟨"anySimpleType", none, none, []⟩] := by
  rfl

theorem comesFrom_sized (least most : Nat) :
    ComesFrom Model.builtin (sized least most) "string" where
  enumeration := by simp only [Model.enumeration, Model.facet, chain_sized]; rfl
  variety := by simp only [Model.variety, chain_sized]; exact .inl rfl
  builtin := by simp only [Model.builtinAncestor, chain_sized]; exact ⟨_, rfl, rfl⟩

theorem countFacet_sized (least most : Nat) :
    Model.builtin.countFacet (sized least most) .minLength = .ok (some least)
      ∧ Model.builtin.countFacet (sized least most) .maxLength = .ok (some most) := by
  simp only [Model.countFacet, Model.facet, chain_sized]
  exact ⟨rfl, rfl⟩

/-- The text for a hint of three letters and a number of four digits in a type for five. -/
theorem length_hinted_five :
    let w : Setting := ⟨Model.builtin, {}, default⟩
    let s : Supply Scripted := ⟨⟨[("abc", 999)]⟩, ⟨[], 0⟩⟩
    "abc" ≠ "" ∧ ComesFrom w.model (sized 4 5) "string" ∧ BuiltinKind.ofName "string" = .other
      ∧ w.model.countFacet (sized 4 5) .minLength = .ok (some 4)
      ∧ w.model.countFacet (sized 4 5) .maxLength = .ok (some 5)
      ∧ s.counters.get "abc" + 1 = 1000
      ∧ (valueWithin w "abc" 33 (sized 4 5) s).1 = .ok "a1000"
      ∧ Hint.Keeps "abc" 1000 (some 4) (some 5) ∧ ¬ Hint.FallsShort "abc" 1000 (some 4) (some 5) := by
  intro w s
  have hother : BuiltinKind.ofName "string" = .other := by decide
  obtain ⟨hmin, hmax⟩ := countFacet_sized 4 5
  obtain ⟨hkeeps, hleaf⟩ := @length_hinted "abc" (by decide) 1000 (some 4) (some 5) (by simp)
  have hvalue := hleaf w (sized 4 5) "string" (comesFrom_sized 4 5) hother hmin hmax 32 s (by decide)
  refine ⟨by decide, comesFrom_sized 4 5, hother, hmin, hmax, by decide, ?_, hkeeps, ?_⟩
  · rw [hvalue]
    exact congrArg Except.ok (by decide)
  · rw [Hint.fallsShort_iff]
    decide

/-- **Where the number is left out, the text may be shorter than its type asks for.** The tenth text
for a hint of one letter has one character in a type for two. -/
theorem not_keeps_of_tenth :
    let w : Setting := ⟨Model.builtin, {}, default⟩
    let s : Supply Scripted := ⟨⟨[("a", 9)]⟩, ⟨[], 0⟩⟩
    ComesFrom w.model (sized 2 2) "string" ∧ BuiltinKind.ofName "string" = .other
      ∧ w.model.countFacet (sized 2 2) .minLength = .ok (some 2)
      ∧ (value w (sized 2 2) "a" s).1 = .ok "a" ∧ Hint.value "a" 10 (some 2) (some 2) = "a"
      ∧ "a".length < 2 := by
  intro w s
  have hother : BuiltinKind.ofName "string" = .other := by decide
  have hfrom : ComesFrom w.model (sized 2 2) "string" := comesFrom_sized 2 2
  obtain ⟨hmin, hmax⟩ := countFacet_sized 2 2
  refine ⟨hfrom, hother, hmin, ?_, by decide, by decide⟩
  rw [value, valueWithin_of_comesFrom hfrom, atomicValue_of_other hfrom hother hmin hmax]
  exact congrArg Except.ok (by decide)

end Leaf

end Specimen

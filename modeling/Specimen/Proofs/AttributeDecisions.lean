import Specimen.Proofs.Contents

/-!
# Decisions on attributes

Each attribute in effect is decided on by itself: one with a fixed or a default value by a flag of the
policy, one that is optional by another flag and, where it is passed over, by a third one, and one
that is required not at all.
-/

namespace Specimen

/-! ## Flags -/

namespace TriState

/-- A flag settles whether a text is written: surely, surely not, or by a coin. -/
structure Settles (flag : TriState) (text : String) (value : Option String) : Prop where
  exact : value = some text ∨ value = none
  always : flag = .always → value = some text
  never : flag = .never → value = none

theorem settles_draw {σ : Type} [Source σ] (flag : TriState) (text : String) (source : σ) :
    flag.Settles text (if (flag.draw source).1 then some text else none) := by
  refine ⟨?_, ?_, ?_⟩
  · split <;> simp
  · intro h
    simp [h, draw]
  · intro h
    simp [h, draw]

/-- What comes out is not what the flag rules out. -/
theorem ne_ofBool_not_draw {σ : Type} [Source σ] (flag : TriState) (source : σ) :
    flag ≠ .ofBool (!(flag.draw source).1) := by
  cases flag with
  | always => simp [draw, ofBool]
  | never => simp [draw, ofBool]
  | random =>
    -- Either way the other side is settled, and a coin is not.
    cases (draw random source).1 <;> simp [ofBool]

end TriState

namespace Document

open Walk

variable {σ : Type} [Source σ] {w : Leaf.Setting} {s s' : Supply σ} {st : List (Step (Supply σ))}

/-! ## Decisions -/

/-- The text is filled in for the type of an attribute. -/
def Synthesized (σ : Type) [Source σ] (w : Leaf.Setting) (attr : EffectiveAttribute)
    (text : String) : Prop :=
  ∃ type, w.model.resolveSimple attr.decl.type = .ok type
    ∧ Leaf.Fills σ w type attr.decl.name.localName text

/-- What is decided on an attribute in effect: the value that it is written with, or that it is left
out. -/
inductive Decided (σ : Type) [Source σ] (w : Leaf.Setting) (attr : EffectiveAttribute) :
    Option String → Prop
  | fixed {text : String} {value : Option String} (hc : attr.constraint = .fixed text)
      (h : w.policy.fixedAttributes.Settles text value) : Decided σ w attr value
  | default {text : String} {value : Option String} (hc : attr.constraint = .default text)
      (h : w.policy.defaultAttributes.Settles text value) : Decided σ w attr value
  | required {text : String} (hc : attr.constraint = .free) (hr : attr.isRequired = true)
      (h : Synthesized σ w attr text) : Decided σ w attr (some text)
  | optional {text : String} (hc : attr.constraint = .free) (hr : attr.isRequired = false)
      (ho : w.policy.optionalAttributes ≠ .never) (h : Synthesized σ w attr text) :
      Decided σ w attr (some text)
  | skipped {value : Option String} (hc : attr.constraint = .free) (hr : attr.isRequired = false)
      (ho : w.policy.optionalAttributes ≠ .always)
      (h : w.policy.optionalAttributeAsEmptyString.Settles "" value) : Decided σ w attr value

/-- What is written for an attribute is one of the texts that it may have. -/
theorem Decided.attributeText {attr : EffectiveAttribute} {value : Option String}
    (h : Decided σ w attr value) : AttributeText σ w attr value := by
  have homitted (hc : attr.constraint ≠ .free) : AttributeText σ w attr none :=
    .omitted fun h => absurd h hc
  cases h with
  | fixed hc h =>
    rcases h.exact with rfl | rfl
    · exact .fixed hc
    · exact homitted (by simp [hc])
  | default hc h =>
    rcases h.exact with rfl | rfl
    · exact .default hc
    · exact homitted (by simp [hc])
  | required hc _ h | optional hc _ _ h =>
    obtain ⟨type, htype, htext⟩ := h
    exact .filled hc htype htext
  | skipped hc hr _ h =>
    rcases h.exact with rfl | rfl
    · exact .blank hc hr
    · exact .omitted fun _ => hr

/-! ## Runs -/

theorem settles_of_runs {flag : TriState} {text : String} {value : Option String}
    (h : (draw flag.draw >>= fun isWritten => pure (if isWritten then some text else none)
      : Walk σ (Option String)).Runs s st (.ok value) s') : flag.Settles text value := by
  obtain ⟨isWritten, hdraw, rfl⟩ := runs_bind_pure_ok h
  obtain ⟨-, hdrawn, -⟩ := runs_draw hdraw
  cases hdrawn
  exact flag.settles_draw text s.source

theorem isFilled_of_runs {attr : EffectiveAttribute} {filled : Bool}
    (h : (isFilled w attr : Walk σ Bool).Runs s st (.ok filled) s')
    (hr : attr.isRequired = false) :
    w.policy.optionalAttributes ≠ .ofBool (!filled) := by
  rw [isFilled, if_neg (by simp [hr])] at h
  obtain ⟨-, hdrawn, -⟩ := runs_draw h
  cases hdrawn
  exact w.policy.optionalAttributes.ne_ofBool_not_draw s.source

theorem synthesized_of_runs {attr : EffectiveAttribute} {value : Option String}
    (h : (do
      let type ← ask (w.model.resolveSimple attr.decl.type)
      let value ← fill (Leaf.value w type attr.decl.name.localName)
      return some value : Walk σ (Option String)).Runs s st (.ok value) s') :
    ∃ text, value = some text ∧ Synthesized σ w attr text := by
  obtain ⟨type, s₁, st₁, st₂, hask, hrest, -⟩ := runs_bind_ok h
  obtain ⟨-, htype, -⟩ := runs_ask hask
  obtain ⟨text, hfill, rfl⟩ := runs_bind_pure_ok hrest
  obtain ⟨-, htext, -⟩ := runs_fill hfill
  exact ⟨text, rfl, type, htype.symm, _, _, Prod.ext htext.symm rfl⟩

/-- An attribute without a constraint is filled, or passed over if it is optional. -/
theorem decided_of_runs_free {attr : EffectiveAttribute} {value : Option String}
    (h : (freeValue w attr : Walk σ (Option String)).Runs s st (.ok value) s')
    (hc : attr.constraint = .free) : Decided σ w attr value := by
  obtain ⟨filled, s₁, st₁, st₂, hfilled, hvalue, -⟩ := runs_bind_ok h
  cases hr : attr.isRequired with
  | true =>
    rw [isFilled, if_pos hr] at hfilled
    obtain ⟨-, hfilled, -⟩ := runs_pure hfilled
    cases hfilled
    obtain ⟨text, rfl, htext⟩ := synthesized_of_runs hvalue
    exact .required hc hr htext
  | false =>
    have hflag := isFilled_of_runs hfilled hr
    cases filled with
    | true =>
      obtain ⟨text, rfl, htext⟩ := synthesized_of_runs hvalue
      exact .optional hc hr hflag htext
    | false => exact .skipped hc hr hflag (settles_of_runs hvalue)

/-- **The value of an attribute is decided on by its constraint and by the flags of the policy.** -/
theorem decided_of_runs {attr : EffectiveAttribute} {value : Option String}
    (h : (attributeValue w attr : Walk σ (Option String)).Runs s st (.ok value) s') :
    Decided σ w attr value := by
  unfold attributeValue at h
  split at h
  · rename_i text hc
    exact .fixed hc (settles_of_runs h)
  · rename_i text hc
    exact .default hc (settles_of_runs h)
  · rename_i hc
    exact decided_of_runs_free h hc

end Document

end Specimen

import Mathlib.Data.List.Forall2
import Mathlib.Data.List.Nodup
import Specimen.Policy.Json
import Specimen.Proofs.DateTimeTexts
import Specimen.Proofs.JsonTexts

/-!
# Policies read back from their JSON texts

A policy is written as an object with one member for each setting, and reading this text gives the
policy back. The value of each setting is read back by itself, whatever follows it in the object,
and sets that setting in the policy that has been read so far. So reading some members sets these
settings. All settings are written but for a clock reading that is not set, which is not set in the
default policy either.
-/

namespace Specimen.Policy

open Json

variable {p q : Policy} {field : Field} {text : String} {rest : List Char}

/-! ## Values -/

/-- The policy can be written: its counts are below the limit, and its clock reading is one of the
calendar. -/
structure IsWritable (p : Policy) : Prop where
  minElements : p.minElements < Text.countLimit
  maxElements : p.maxElements < Text.countLimit
  minListItems : p.minListItems < Text.countLimit
  maxListItems : p.maxListItems < Text.countLimit
  now : ∀ t ∈ p.now, t.isValid = true

theorem readCount_toString {n : ℕ} (h : n < Text.countLimit) (hrest : EndsNumber rest) :
    readCount ((toString n).toList ++ rest) = .ok (n, rest) := by
  rw [readCount, readNat_toString n hrest, Option.filter_some, if_pos (decide_eq_true h)]
  rfl

theorem readBool_word (b : Bool) (rest : List Char) :
    readBool ((if b then "true" else "false").toList ++ rest) = .ok (b, rest) := by
  cases b <;> rfl

/-- A string is not `null`. -/
theorem readNull_quote (s : String) (rest : List Char) :
    readNull ((quote s).toList ++ rest) = none := by
  rw [quote_toList]
  rfl

theorem ofWord?_word (flag : TriState) : TriState.ofWord? flag.word = some flag := by
  cases flag <;> rfl

/-- A flag is written as a word, although it may also be read from a truth value or from `null`. -/
theorem readTriState_quote (flag : TriState) (rest : List Char) :
    readTriState ((quote flag.word).toList ++ rest) = .ok (flag, rest) := by
  simp only [readTriState, readNull_quote, readString_quote, ofWord?_word]

theorem readNow_quote {t : DateTime} (h : t.isValid = true) (rest : List Char) :
    readNow ((quote t.text).toList ++ rest) = .ok (some t, rest) := by
  simp only [readNow, readNull_quote, readString_quote, Option.bind_some, DateTime.read?_text h,
    Option.map_some]
  rfl

/-- The second policy with a setting of the first one. -/
def copyField (p : Policy) (q : Policy) : Field → Policy
  | .minElements => { q with minElements := p.minElements }
  | .maxElements => { q with maxElements := p.maxElements }
  | .minListItems => { q with minListItems := p.minListItems }
  | .maxListItems => { q with maxListItems := p.maxListItems }
  | .optionalElements => { q with optionalElements := p.optionalElements }
  | .optionalAttributes => { q with optionalAttributes := p.optionalAttributes }
  | .fixedAttributes => { q with fixedAttributes := p.fixedAttributes }
  | .defaultAttributes => { q with defaultAttributes := p.defaultAttributes }
  | .optionalAttributeAsEmptyString =>
    { q with optionalAttributeAsEmptyString := p.optionalAttributeAsEmptyString }
  | .exhaustiveChoices => { q with exhaustiveChoices := p.exhaustiveChoices }
  | .annotateContentModel => { q with annotateContentModel := p.annotateContentModel }
  | .fixedNow => { q with now := p.now }

/-- **The value of a setting is read back**, whatever follows. -/
theorem readField_fieldText (hp : p.IsWritable) (h : p.fieldText field = some text)
    (hrest : EndsNumber rest) :
    q.readField field (text.toList ++ rest) = .ok (p.copyField q field, rest) := by
  -- A count ends where no digit follows; every other value shows its end itself.
  cases field with
  | minElements =>
    obtain rfl := Option.some.inj h
    rw [readField, readCount_toString hp.minElements hrest]
    rfl
  | maxElements =>
    obtain rfl := Option.some.inj h
    rw [readField, readCount_toString hp.maxElements hrest]
    rfl
  | minListItems =>
    obtain rfl := Option.some.inj h
    rw [readField, readCount_toString hp.minListItems hrest]
    rfl
  | maxListItems =>
    obtain rfl := Option.some.inj h
    rw [readField, readCount_toString hp.maxListItems hrest]
    rfl
  | exhaustiveChoices =>
    obtain rfl := Option.some.inj h
    rw [readField, readBool_word]
    rfl
  | annotateContentModel =>
    obtain rfl := Option.some.inj h
    rw [readField, readBool_word]
    rfl
  | fixedNow =>
    obtain ⟨t, ht, rfl⟩ := Option.map_eq_some_iff.mp h
    rw [readField, readNow_quote (hp.now t ht), copyField, ht]
    rfl
  | _ =>
    obtain rfl := Option.some.inj h
    rw [readField, readTriState_quote]
    rfl

/-! ## Members -/

theorem skip_cons {c : Char} (h : isSpace c = false) (cs : List Char) :
    skip (c :: cs) = c :: cs := by
  rw [skip, List.dropWhile_cons_of_neg (by simp [h])]

theorem skip_quote (s : String) (rest : List Char) :
    skip ((quote s).toList ++ rest) = (quote s).toList ++ rest := by
  rw [quote_toList, List.cons_append, skip_cons (by decide)]

theorem skip_toString (n : ℕ) (rest : List Char) :
    skip ((toString n).toList ++ rest) = (toString n).toList ++ rest := by
  rw [Nat.toString_eq_ofList_toDigits, String.toList_ofList]
  obtain ⟨c, cs, hcs⟩ := List.exists_cons_of_ne_nil (Nat.toDigits_ne_nil (b := 10) (n := n))
  have hdigit : Text.isDigit c = true :=
    Text.isDigit_of_mem_toDigits (n := n) (hcs ▸ List.mem_cons_self)
  have hspace : isSpace c = false := by
    simp only [isSpace, Bool.or_eq_false_iff, beq_eq_false_iff_ne]
    refine ⟨⟨⟨?_, ?_⟩, ?_⟩, ?_⟩ <;> exact Text.ne_of_isDigit hdigit (by decide)
  rw [hcs, List.cons_append, skip_cons hspace]

/-- No value begins with a blank. -/
theorem skip_fieldText (h : p.fieldText field = some text) (rest : List Char) :
    skip (text.toList ++ rest) = text.toList ++ rest := by
  cases field with
  | minElements | maxElements | minListItems | maxListItems =>
    obtain rfl := Option.some.inj h
    exact skip_toString _ rest
  | exhaustiveChoices =>
    obtain rfl := Option.some.inj h
    cases p.exhaustiveChoices <;> rfl
  | annotateContentModel =>
    obtain rfl := Option.some.inj h
    cases p.annotateContentModel <;> rfl
  | fixedNow =>
    obtain ⟨t, -, rfl⟩ := Option.map_eq_some_iff.mp h
    exact skip_quote _ rest
  | _ =>
    obtain rfl := Option.some.inj h
    exact skip_quote _ rest

theorem ofKey?_key (field : Field) : Field.ofKey? field.key = some field := by
  cases field <;> decide

/-- **A member is read back**, if its setting has not been given yet. -/
theorem readMember_memberText (hp : p.IsWritable) (h : p.memberText field = some text)
    {unset : List Field} (hunset : field ∈ unset) (hrest : EndsNumber rest) :
    q.readMember unset (text.toList ++ rest) = .ok ((p.copyField q field, field), rest) := by
  obtain ⟨value, hvalue, rfl⟩ := Option.map_eq_some_iff.mp h
  have htext : (quote field.key ++ ":" ++ value).toList ++ rest
      = (quote field.key).toList ++ ':' :: (value.toList ++ rest) := by simp
  have hkey : (Field.ofKey? field.key).filter unset.contains = some field := by
    rw [ofKey?_key, Option.filter_some, if_pos (List.contains_iff_mem.mpr hunset)]
  have hfield := readField_fieldText (q := q) hp hvalue hrest
  rw [htext, readMember, skip_quote, readString_quote]
  simp only [part, bind, Except.bind, hkey, skip_cons (show isSpace ':' = false by decide),
    skip_fieldText hvalue, hfield]
  rfl

theorem endsNumber_cons {c : Char} (h : isDigit c = false ∧ c ≠ '.' ∧ c ≠ 'e' ∧ c ≠ 'E')
    (cs : List Char) : EndsNumber (c :: cs) := by
  intro d hd
  obtain rfl := Option.some.inj hd
  exact h

/-- **Reading some members sets their settings**, and goes on behind the closing brace. -/
theorem readMembers_memberTexts (hp : p.IsWritable) {fields : List Field} {texts : List String}
    (h : List.Forall₂ (fun field text => p.memberText field = some text) fields texts)
    (hne : texts ≠ []) {unset : List Field} (hnodup : fields.Nodup) (hunset : fields ⊆ unset)
    {steps : ℕ} (hsteps : fields.length ≤ steps) :
    readMembers steps q unset ((",".intercalate texts).toList ++ '}' :: rest)
      = .ok (fields.foldl p.copyField q, rest) := by
  induction h generalizing steps q unset with
  | nil => exact absurd rfl hne
  | @cons field text fields texts hfirst hrest ih =>
    cases steps with
    | zero => simp at hsteps
    | succ steps =>
      obtain ⟨hfield, hfields⟩ := List.cons_subset.mp hunset
      obtain ⟨hnew, hnodup⟩ := List.nodup_cons.mp hnodup
      have hends : ∀ c ∈ [',', '}'], ∀ cs, EndsNumber (c :: cs) := by
        intro c hc cs
        refine endsNumber_cons ?_ cs
        rcases List.mem_pair.mp hc with rfl | rfl <;> decide
      cases hrest with
      | nil =>
        have hmember := readMember_memberText (q := q) hp hfirst hfield (hends '}' (by decide) rest)
        rw [readMembers, String.intercalate_singleton, hmember]
        simp only [bind, Except.bind, skip_cons (show isSpace '}' = false by decide)]
        rfl
      | @cons second more fields texts hsecond hmore =>
        have hmember := readMember_memberText (q := q) hp hfirst hfield (hends ',' (by decide)
          ((",".intercalate (more :: texts)).toList ++ '}' :: rest))
        have htext : (",".intercalate (text :: more :: texts)).toList ++ '}' :: rest
            = text.toList ++ ',' :: ((",".intercalate (more :: texts)).toList ++ '}' :: rest) := by
          simp
        -- What is still to be set is not the setting that has just been given.
        have hlater : second :: fields ⊆ unset.erase field := by
          intro other hother
          have hne : other ≠ field := fun heq => hnew (heq ▸ hother)
          exact (List.mem_erase_of_ne hne).mpr (hfields hother)
        rw [readMembers, htext, hmember]
        simp only [bind, Except.bind, skip_cons (show isSpace ',' = false by decide)]
        exact ih (List.cons_ne_nil _ _) hnodup hlater (Nat.le_of_succ_le_succ hsteps)

/-! ## Policies -/

/-- The settings that are written. -/
def written (p : Policy) : List Field := Field.all.filter fun field => (p.fieldText field).isSome

theorem forall₂_written (p : Policy) :
    List.Forall₂ (fun field text => p.memberText field = some text) p.written
      (Field.all.filterMap p.memberText) := by
  unfold written
  induction Field.all with
  | nil => exact .nil
  | cons field fields ih =>
    cases htext : p.fieldText field with
    | none => simpa [htext, memberText] using ih
    | some text => simpa [htext, memberText] using ih

/-- The settings that are not written are those of the default policy. -/
theorem foldl_copyField_written (p : Policy) : p.written.foldl p.copyField {} = p := by
  -- Which settings are written depends on whether there is a clock reading, and on nothing else.
  cases p with
  | mk _ _ _ _ _ _ _ _ _ _ _ now => cases now <;> rfl

/-- The object begins with the key of a member. -/
theorem exists_members_eq (p : Policy) :
    ∃ cs, (",".intercalate (Field.all.filterMap p.memberText)).toList = '"' :: cs := by
  obtain ⟨texts, htexts⟩ : ∃ texts, Field.all.filterMap p.memberText
      = (quote "minElements" ++ ":" ++ toString p.minElements) :: texts := ⟨_, rfl⟩
  rw [htexts]
  cases texts with
  | nil =>
    rw [String.intercalate_singleton, String.toList_append, String.toList_append, quote_toList]
    exact ⟨_, rfl⟩
  | cons second more =>
    simp only [String.intercalate_cons_cons, String.toList_append, quote_toList]
    exact ⟨_, rfl⟩

theorem readBody_toJson (hp : p.IsWritable) : readBody p.toJson.toList = .ok (p, []) := by
  have htexts := forall₂_written p
  obtain ⟨cs, hcs⟩ := exists_members_eq p
  have hne : Field.all.filterMap p.memberText ≠ [] := by
    intro hnil
    rw [hnil] at hcs
    cases hcs
  have hread : readMembers Field.all.length {} Field.all
      ((",".intercalate (Field.all.filterMap p.memberText)).toList ++ ['}'])
        = .ok (p.written.foldl p.copyField {}, []) :=
    readMembers_memberTexts hp htexts hne (List.Nodup.filter _ (by decide))
      (List.filter_subset_self _) (List.length_filter_le _ _)
  have htext : p.toJson.toList
      = '{' :: ((",".intercalate (Field.all.filterMap p.memberText)).toList ++ ['}']) := by
    simp [toJson]
  rw [foldl_copyField_written] at hread
  rw [htext, readBody, skip_cons (by decide)]
  rw [hcs, List.cons_append] at hread ⊢
  simp only [skip_cons (show isSpace '"' = false by decide)]
  exact hread

theorem readText_toJson (hp : p.IsWritable) : readText p.toJson = .ok p := by
  rw [readText, readBody_toJson hp]
  rfl

/-- **A policy survives its JSON form.** This holds of every policy whose bounds are in order and
below the limit of counts, with or without a clock reading. The years of the calendar go from
-262143 to 262142, and a second may be the 60th. -/
theorem read_toJson (p : Policy) (helements : p.minElements ≤ p.maxElements)
    (hlist : p.minListItems ≤ p.maxListItems) (hmaxElements : p.maxElements < Text.countLimit)
    (hmaxList : p.maxListItems < Text.countLimit) (hnow : ∀ t ∈ p.now, t.isValid = true) :
    read p.toJson = .ok p := by
  have hp : p.IsWritable :=
    ⟨by omega, hmaxElements, by omega, hmaxList, hnow⟩
  have hcheck : p.check = .ok () := by
    rw [check, if_neg (by omega), if_neg (by omega)]
  rw [read, readText_toJson hp]
  simp only [hcheck]
  rfl

/-- A policy whose clock reads the last nanosecond of a leap second. -/
theorem read_toJson_leap :
    let p : Policy := { maxElements := 4294967295, optionalElements := .always,
                        exhaustiveChoices := false,
                        now := some ⟨-4, 2, 29, 23, 59, 60, 999999999⟩ }
    p.maxElements < Text.countLimit ∧ (∀ t ∈ p.now, t.isValid = true) ∧ read p.toJson = .ok p := by
  intro p
  have hmax : p.maxElements < Text.countLimit := by decide
  have hnow : ∀ t ∈ p.now, t.isValid = true := by
    intro t ht
    obtain rfl := Option.some.inj ht
    decide
  exact ⟨hmax, hnow, read_toJson p (by decide) (by decide) hmax (by decide) hnow⟩

end Specimen.Policy

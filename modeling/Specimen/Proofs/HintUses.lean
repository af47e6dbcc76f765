import Specimen.Proofs.Leaves
import Specimen.Draw.Scripted

/-!
# Uses of hints

Where a type has no better source of values, a text is made up from the hint and the number of its
uses so far. To speak of these texts one by one, also where they are the items of a list or where the
list comes to nothing in the end, values are filled in once more by a computation that writes the uses
down. It does the same in all else.

The texts for one hint are numbered from one on, whatever else is filled in between. If they are not
cut, the number can be read off their end, so no two of them are the same.
-/

namespace Specimen

/-! ## Counters -/

namespace HintCounters

theorem lookup_setUses (hint other : String) (n : Nat) (uses : List (String × Nat)) :
    (setUses hint n uses).lookup other = if other = hint then some n else uses.lookup other := by
  induction uses with
  | nil =>
    by_cases h : other = hint
    · simp [setUses, h]
    · simp [setUses, List.lookup_cons, beq_false_of_ne h, h]
  | cons entry rest ih =>
    obtain ⟨key, k⟩ := entry
    by_cases hkey : key = hint
    · subst hkey
      by_cases h : other = key
      · simp [setUses, h]
      · simp [setUses, List.lookup_cons, beq_false_of_ne h, h]
    · by_cases h : other = key
      · subst h
        simp [setUses, hkey]
      · simp [setUses, List.lookup_cons, hkey, beq_false_of_ne h, ih]

/-- One more use of a hint, and of no other one. -/
theorem get_next (c : HintCounters) (hint other : String) :
    (c.next hint).2.get other = c.get other + if other = hint then 1 else 0 := by
  simp only [next, get, lookup_setUses]
  by_cases h : other = hint
  · simp [h]
  · simp [h]

end HintCounters

/-! ## Texts that are not cut -/

namespace Hint

theorem toList_value_none (hint : String) (n : Nat) (minLength : Option Nat) :
    ∃ padding, (value hint n minLength none).toList
      = hint.toList ++ (List.replicate padding '_' ++ Nat.toDigits 10 n) := by
  simp only [value, cut, String.toList_ofList]
  cases minLength with
  | none => exact ⟨0, rfl⟩
  | some least => exact ⟨_, List.append_assoc _ _ _⟩

/-- A text that is not cut is the hint, some underscores and the number. -/
theorem value_none (hint : String) (n : Nat) (minLength : Option Nat) :
    ∃ padding, value hint n minLength none
      = hint ++ String.ofList (List.replicate padding '_') ++ toString n := by
  obtain ⟨padding, h⟩ := toList_value_none hint n minLength
  refine ⟨padding, String.toList_injective ?_⟩
  rw [h, String.toList_append, String.toList_append, String.toList_ofList,
    Nat.toString_eq_ofList_toDigits, String.toList_ofList, List.append_assoc]

/-- The number is what is no underscore. -/
theorem filter_padded (padding n : Nat) :
    (List.replicate padding '_' ++ Nat.toDigits 10 n).filter (· != '_') = Nat.toDigits 10 n := by
  have hdigits : ∀ c ∈ Nat.toDigits 10 n, (c != '_') = true := by
    intro c hc
    have hdigit := Nat.isDigit_of_mem_toDigits (by decide) (by decide) hc
    refine bne_iff_ne.mpr ?_
    rintro rfl
    exact absurd hdigit (by decide)
  rw [List.filter_append, List.filter_eq_self.mpr hdigits]
  simp

/-- **The number of a text that is not cut can be read off its end.** -/
theorem value_none_injective {hint : String} {n k : Nat} {minLength minLength' : Option Nat}
    (h : value hint n minLength none = value hint k minLength' none) : n = k := by
  obtain ⟨padding, hn⟩ := toList_value_none hint n minLength
  obtain ⟨padding', hk⟩ := toList_value_none hint k minLength'
  have hpadded := List.append_cancel_left (hn.symm.trans ((congrArg String.toList h).trans hk))
  have hdigits := congrArg (List.filter (· != '_')) hpadded
  rw [filter_padded, filter_padded] at hdigits
  have hvalue := congrArg (fun digits => Nat.ofDigitChars 10 digits 0) hdigits
  simpa [Nat.ofDigitChars_ten_toDigits] using hvalue

end Hint

/-! ## Writing down the uses of hints -/

/-- A text that is made up from a hint, with the type that it is for. -/
structure HintUse where
  type : SimpleType
  hint : String
  text : String

/-- The texts follow each other: each has the number of the next use of its hint. -/
inductive Counted (m : Model) : HintCounters → List HintUse → HintCounters → Prop
  | nil (c : HintCounters) : Counted m c [] c
  | cons {c c' : HintCounters} {use : HintUse} {uses : List HintUse} {least most : Option Nat}
      (hleast : m.countFacet use.type .minLength = .ok least)
      (hmost : m.countFacet use.type .maxLength = .ok most)
      (htext : use.text = Hint.value use.hint (c.get use.hint + 1) least most)
      (h : Counted m (c.next use.hint).2 uses c') : Counted m c (use :: uses) c'

namespace Counted

variable {m : Model} {c c' c'' : HintCounters} {uses uses' : List HintUse}

theorem append (h : Counted m c uses c') (h' : Counted m c' uses' c'') :
    Counted m c (uses ++ uses') c'' := by
  induction h with
  | nil => exact h'
  | cons hleast hmost htext _ ih => exact .cons hleast hmost htext (ih h')

/-- The counter of a hint has counted its uses, and those of no other hint. -/
theorem get (h : Counted m c uses c') (hint : String) :
    c'.get hint = c.get hint + uses.countP (·.hint = hint) := by
  induction h with
  | nil => rfl
  | @cons c c' use uses _ _ _ _ _ _ ih =>
    rw [ih, HintCounters.get_next, List.countP_cons]
    by_cases hhint : use.hint = hint
    · simp [hhint]
      omega
    · simp [hhint, Ne.symm hhint]

theorem split {before behind : List HintUse} (h : Counted m c (before ++ behind) c'') :
    ∃ c', Counted m c before c' ∧ Counted m c' behind c'' := by
  induction before generalizing c with
  | nil => exact ⟨c, .nil c, h⟩
  | cons use before ih =>
    cases h with
    | cons hleast hmost htext h =>
      obtain ⟨c', hbefore, hbehind⟩ := ih h
      exact ⟨c', .cons hleast hmost htext hbefore, hbehind⟩

/-- A text has the number that follows those of the earlier uses of its hint. -/
theorem text {use : HintUse} {before behind : List HintUse}
    (h : Counted m c (before ++ use :: behind) c') :
    ∃ least most, m.countFacet use.type .maxLength = .ok most
      ∧ use.text = Hint.value use.hint
        (c.get use.hint + before.countP (·.hint = use.hint) + 1) least most := by
  obtain ⟨c'', hbefore, hbehind⟩ := h.split
  cases hbehind with
  | cons hleast hmost htext => exact ⟨_, _, hmost, by rw [htext, hbefore.get]⟩

/-- Texts for one hint that are not cut are different. -/
theorem pairwise_ne (h : Counted m c uses c') :
    uses.Pairwise fun use other => use.hint = other.hint →
      m.countFacet use.type .maxLength = .ok none → m.countFacet other.type .maxLength = .ok none →
        use.text ≠ other.text := by
  induction h with
  | nil => exact .nil
  | @cons c _ use uses least most _ hmost htext h ih =>
    refine List.pairwise_cons.mpr ⟨fun other hother hhint huncut huncut' heq => ?_, ih⟩
    obtain ⟨before, behind, rfl⟩ := List.append_of_mem hother
    obtain ⟨least', most', hmost', htext'⟩ := h.text
    cases hmost.symm.trans huncut
    cases hmost'.symm.trans huncut'
    -- The later text has a greater number.
    rw [htext, htext', ← hhint] at heq
    have hnumber := Hint.value_none_injective heq
    rw [HintCounters.get_next, if_pos rfl] at hnumber
    omega

end Counted

/-- A computation that fills in values and writes down the uses of hints. They stay written down when
it fails. -/
abbrev Recording (σ : Type) := ExceptT Error (StateM (Supply σ × List HintUse))

namespace Recording

variable {σ α β : Type}

/-- Fills in something without a use of a hint. -/
def lift (filling : Filling σ α) : Recording σ α := fun state =>
  let (result, s) := filling state.1
  (result, s, state.2)

/-- Writes down a use of a hint. -/
def record (use : HintUse) : Recording σ Unit := fun state => (.ok (), state.1, state.2 ++ [use])

/-- The results of a computation that is done `n` times. -/
def times (n : Nat) (fill : Recording σ α) : Recording σ (List α) :=
  match n with
  | 0 => pure []
  | n + 1 => do
    let a ← fill
    let rest ← times n fill
    return a :: rest

end Recording

/-! ## Filling in with a record -/

namespace Leaf

open Filling Recording

variable {σ α β : Type} {m : Model}

/-- The computation does what another one does, and writes down the uses of hints that this one
counts. -/
def Records (m : Model) (recording : Recording σ α) (filling : Filling σ α) : Prop :=
  ∀ s log, ∃ uses, recording (s, log) = ((filling s).1, (filling s).2, log ++ uses)
    ∧ Counted m s.counters uses (filling s).2.counters

namespace Records

variable {recording : Recording σ α} {filling : Filling σ α}

theorem pure (a : α) : Records m (Pure.pure a : Recording σ α) (Pure.pure a) :=
  fun s log => ⟨[], by rw [List.append_nil]; rfl, .nil _⟩

theorem bind {f : α → Recording σ β} {g : α → Filling σ β} (h : Records m recording filling)
    (hf : ∀ a, Records m (f a) (g a)) : Records m (recording >>= f) (filling >>= g) := by
  intro s log
  obtain ⟨uses, hrecording, huses⟩ := h s log
  cases hr : filling s with
  | mk result s' =>
    rw [hr] at hrecording huses
    cases result with
    | error e =>
      refine ⟨uses, ?_, ?_⟩
      · rw [bind_apply_of_error hrecording, bind_apply_of_error hr]
      · rw [bind_apply_of_error hr]
        exact huses
    | ok a =>
      obtain ⟨others, hothers, hcounted⟩ := hf a s' (log ++ uses)
      rw [bind_apply_of_ok hrecording, bind_apply_of_ok hr]
      exact ⟨uses ++ others, by rw [hothers, List.append_assoc], huses.append hcounted⟩

theorem map (f : α → β) (h : Records m recording filling) :
    Records m (f <$> recording) (f <$> filling) := by
  rw [map_eq_pure_bind, map_eq_pure_bind]
  exact h.bind fun a => pure (f a)

theorem times (n : Nat) (h : Records m recording filling) :
    Records m (Recording.times n recording) (Filling.times n filling) := by
  induction n with
  | zero => exact pure []
  | succ n ih => exact h.bind fun _ => ih.bind fun _ => pure _

end Records

/-- The counters are as before, whatever comes out. -/
def KeepsCounters (filling : Filling σ α) : Prop := ∀ s, (filling s).2.counters = s.counters

namespace KeepsCounters

variable {filling : Filling σ α}

theorem pure (a : α) : KeepsCounters (Pure.pure a : Filling σ α) := fun _ => rfl

theorem ask (answer : Except Error α) : KeepsCounters (Filling.ask answer : Filling σ α) :=
  fun _ => rfl

theorem draw (f : σ → α × σ) : KeepsCounters (Filling.draw f) := fun _ => rfl

theorem bind {f : α → Filling σ β} (h : KeepsCounters filling) (hf : ∀ a, KeepsCounters (f a)) :
    KeepsCounters (filling >>= f) := by
  intro s
  have hs := h s
  cases hr : filling s with
  | mk result s' =>
    rw [hr] at hs
    cases result with
    | error e =>
      rw [bind_apply_of_error hr]
      exact hs
    | ok a =>
      rw [bind_apply_of_ok hr, hf a s']
      exact hs

/-- What uses no hint is recorded without a use. -/
theorem records (h : KeepsCounters filling) : Records m (lift filling) filling := by
  intro s log
  refine ⟨[], ?_, ?_⟩
  · rw [List.append_nil]
    rfl
  · rw [h s]
    exact .nil _

end KeepsCounters

variable [Source σ] (w : Setting)

/-- The built-in type that a type comes from has no values of its own, so its texts are made up from
hints. -/
def isHinted (m : Model) (type : SimpleType) : Bool :=
  match m.builtinAncestor type with
  | .ok builtin => BuiltinKind.ofName (builtin.name.elim "" QName.localName) = .other
  | .error _ => false

/-- The value of an atomic type. If it is made up from the hint, the use is written down. -/
def recordAtomic (type : SimpleType) (hint : String) : Recording σ String :=
  if isHinted w.model type then do
    let text ← lift (atomicValue w type hint)
    record ⟨type, hint, text⟩
    return text
  else lift (atomicValue w type hint)

/-- The value of a simple type, as `valueWithin` fills it in. -/
def recordWithin (hint : String) : Nat → SimpleType → Recording σ String
  | 0, _ => lift (ask (.error (.shape (.nestedTooDeep hint))))
  | steps + 1, type => do
    match ← lift (ask (w.model.enumeration type)) with
    | some values => lift (pickValue values)
    | none =>
      match ← lift (ask (w.model.variety type)) with
      | .list item => do
        let itemType ← lift (ask (w.model.resolveSimple item))
        let n ← lift (listLength w type)
        match ← lift (ask (w.model.enumeration itemType)) with
        | some values => lift (enumeratedList values n)
        | none => " ".intercalate <$> Recording.times n (recordWithin hint steps itemType)
      | .union (first :: others) => do
        let i ← lift (draw (Draw.index (others.length + 1)))
        let member ← lift (ask (w.model.resolveSimple ((first :: others).getD i first)))
        recordWithin hint steps member
      | _ => recordAtomic w type hint

/-- The value of a simple type, with the uses of the hint. -/
def record (type : SimpleType) (hint : String) : Recording σ String :=
  recordWithin w hint (nestingLimit + 1) type

theorem keepsCounters_listLength (type : SimpleType) :
    KeepsCounters (listLength w type : Filling σ Nat) :=
  (KeepsCounters.ask _).bind fun _ => (KeepsCounters.ask _).bind fun _ =>
    (KeepsCounters.ask _).bind fun _ => .draw _

theorem keepsCounters_pickValue (values : List String) :
    KeepsCounters (pickValue values : Filling σ String) :=
  (KeepsCounters.draw _).bind fun _ => .pure _

theorem keepsCounters_enumeratedList (values : List String) (n : Nat) :
    KeepsCounters (enumeratedList values n : Filling σ String) :=
  (KeepsCounters.draw _).bind fun _ => .pure _

theorem exists_builtin_of_isHinted {type : SimpleType} (h : isHinted m type = true) :
    ∃ builtin, m.builtinAncestor type = .ok builtin
      ∧ BuiltinKind.ofName (builtin.name.elim "" QName.localName) = .other := by
  unfold isHinted at h
  split at h
  · next builtin hbuiltin => exact ⟨builtin, hbuiltin, of_decide_eq_true h⟩
  · cases h

/-- A hint is used once for an atomic type, or its lengths cannot be told. -/
theorem atomicValue_of_isHinted {type : SimpleType} (h : isHinted w.model type = true)
    (hint : String) (s : Supply σ) :
    (∃ e, atomicValue w type hint s = (.error e, s))
      ∨ ∃ least most, w.model.countFacet type .minLength = .ok least
        ∧ w.model.countFacet type .maxLength = .ok most
        ∧ atomicValue w type hint s = (.ok (Hint.value hint (s.counters.get hint + 1) least most),
          { s with counters := (s.counters.next hint).2 }) := by
  obtain ⟨builtin, hbuiltin, hkind⟩ := exists_builtin_of_isHinted h
  rw [atomicValue_eq_hinted hbuiltin hkind]
  cases hleast : w.model.countFacet type .minLength with
  | error e => exact .inl ⟨e, rfl⟩
  | ok least =>
    rw [ask_ok_bind]
    cases hmost : w.model.countFacet type .maxLength with
    | error e => exact .inl ⟨e, rfl⟩
    | ok most => exact .inr ⟨least, most, rfl, rfl, rfl⟩

/-- Other atomic types use no hint. -/
theorem keepsCounters_atomicValue {type : SimpleType} (h : isHinted w.model type = false)
    (hint : String) : KeepsCounters (atomicValue w type hint : Filling σ String) := by
  unfold isHinted at h
  unfold atomicValue
  cases hbuiltin : w.model.builtinAncestor type with
  | error e => exact fun _ => rfl
  | ok builtin =>
    simp only [hbuiltin, decide_eq_false_iff_not] at h
    rw [ask_ok_bind]
    -- A type that is not hinted has a built-in ancestor of another kind, and its value is drawn or
    -- fixed.
    cases hname : builtin.name with
    | none =>
      rw [hname] at h
      exact absurd (by decide) h
    | some name =>
      rw [hname, Option.elim_some] at h
      simp only
      split
      · exact (KeepsCounters.draw _).bind fun _ => .pure _
      · refine (KeepsCounters.ask _).bind fun range => ?_
        split
        · exact .draw _
        · exact .draw _
      · exact .pure _
      · exact .pure _
      · exact .pure _
      · next hother => exact absurd hother h

theorem records_atomic (type : SimpleType) (hint : String) :
    Records w.model (recordAtomic w type hint : Recording σ String) (atomicValue w type hint) := by
  unfold recordAtomic
  by_cases h : isHinted w.model type = true
  · rw [if_pos h]
    intro s log
    have hlift : (lift (atomicValue w type hint) : Recording σ String) (s, log)
        = ((atomicValue w type hint s).1, (atomicValue w type hint s).2, log) := rfl
    rcases atomicValue_of_isHinted w h hint s with ⟨e, hvalue⟩ | ⟨least, most, hleast, hmost, hvalue⟩
    · rw [hvalue] at hlift ⊢
      exact ⟨[], by rw [bind_apply_of_error hlift, List.append_nil], .nil _⟩
    · rw [hvalue] at hlift ⊢
      refine ⟨[⟨type, hint, Hint.value hint (s.counters.get hint + 1) least most⟩], ?_, ?_⟩
      · rw [bind_apply_of_ok hlift]
        rfl
      · exact .cons hleast hmost rfl (.nil _)
  · rw [if_neg h]
    exact (keepsCounters_atomicValue w (Bool.eq_false_iff.mpr h) hint).records

theorem records_within (hint : String) (steps : Nat) (type : SimpleType) :
    Records w.model (recordWithin w hint steps type : Recording σ String)
      (valueWithin w hint steps type) := by
  -- Both go through the same questions, and only an atomic value records a use.
  induction steps generalizing type with
  | zero => exact (KeepsCounters.ask _).records
  | succ steps ih =>
    unfold recordWithin valueWithin
    refine (KeepsCounters.ask _).records.bind fun found => ?_
    split
    · exact (keepsCounters_pickValue _).records
    · refine (KeepsCounters.ask _).records.bind fun variety => ?_
      cases variety with
      | atomic => exact records_atomic w type hint
      | list item =>
        refine (KeepsCounters.ask _).records.bind fun itemType => ?_
        refine (keepsCounters_listLength (σ := σ) w type).records.bind fun n => ?_
        refine (KeepsCounters.ask _).records.bind fun values => ?_
        cases values with
        | some values => exact (keepsCounters_enumeratedList _ _).records
        | none => exact (Records.times n (ih itemType)).map _
      | union members =>
        cases members with
        | nil => exact records_atomic w type hint
        | cons first others =>
          refine (KeepsCounters.draw _).records.bind fun i => ?_
          exact (KeepsCounters.ask _).records.bind fun member => ih member

/-! ## Values in turn -/

/-- A value that is asked for, and the source to draw it from. -/
structure Request (σ : Type) where
  type : SimpleType
  hint : String
  source : σ

/-- The values that are filled in one after the other, with the counters behind the last one. -/
def answers : HintCounters → List (Request σ) → List (Except Error String) × HintCounters
  | c, [] => ([], c)
  | c, request :: rest =>
    let filled := value w request.type request.hint ⟨c, request.source⟩
    let others := answers filled.2.counters rest
    (filled.1 :: others.1, others.2)

/-- The values that are filled in one after the other, with the counters behind the last one, and
with all uses of hints. -/
def recordings :
    HintCounters → List (Request σ) → (List (Except Error String) × HintCounters) × List HintUse
  | c, [] => (([], c), [])
  | c, request :: rest =>
    let filled := record w request.type request.hint (⟨c, request.source⟩, [])
    let others := recordings filled.2.1.counters rest
    ((filled.1 :: others.1.1, others.1.2), filled.2.2 ++ others.2)

theorem recordings_eq (c : HintCounters) (requests : List (Request σ)) :
    (recordings w c requests).1 = answers w c requests
      ∧ Counted w.model c (recordings w c requests).2 (answers w c requests).2 := by
  induction requests generalizing c with
  | nil => exact ⟨rfl, .nil c⟩
  | cons request rest ih =>
    obtain ⟨uses, hrecord, hcounted⟩ := records_within w request.hint (nestingLimit + 1) request.type
      (⟨c, request.source⟩ : Supply σ) []
    rw [List.nil_append, ← record, ← value] at hrecord
    rw [← value] at hcounted
    obtain ⟨hresults, hothers⟩ :=
      ih (value w request.type request.hint (⟨c, request.source⟩ : Supply σ)).2.counters
    rw [recordings, answers, hrecord]
    exact ⟨by rw [← hresults], hcounted.append hothers⟩

/-- **Texts that are made up from a hint are never made up again.** Whatever values are asked for in
turn, and in whatever order, writing down the uses of hints changes nothing, texts for the same hint
are different if they are not cut, and a text that is not cut is the hint, some underscores and the
number of its use, the earlier uses of the same hint all counted. -/
theorem uses_differ (requests : List (Request σ)) :
    (recordings w {} requests).1 = answers w {} requests
      ∧ (recordings w {} requests).2.Pairwise (fun use other => use.hint = other.hint →
        w.model.countFacet use.type .maxLength = .ok none →
          w.model.countFacet other.type .maxLength = .ok none → use.text ≠ other.text)
      ∧ ∀ before use behind, (recordings w {} requests).2 = before ++ use :: behind →
        w.model.countFacet use.type .maxLength = .ok none →
          ∃ padding, use.text = use.hint ++ String.ofList (List.replicate padding '_')
            ++ toString (before.countP (·.hint = use.hint) + 1) := by
  obtain ⟨hanswers, hcounted⟩ := recordings_eq w {} requests
  refine ⟨hanswers, hcounted.pairwise_ne, fun before use behind huses huncut => ?_⟩
  rw [huses] at hcounted
  obtain ⟨least, most, hmost, htext⟩ := hcounted.text
  cases hmost.symm.trans huncut
  obtain ⟨padding, hpadding⟩ :=
    Hint.value_none use.hint (before.countP (·.hint = use.hint) + 1) least
  refine ⟨padding, ?_⟩
  rw [htext, ← hpadding]
  simp [HintCounters.get]

/-- Texts of which some lengths are given. -/
def textType (facets : List Facet) : SimpleType :=
  facets.foldl SimpleType.withFacet (SimpleType.restriction (.builtin "string"))

/-- A list of two texts, texts with lengths of their own between others without, and another hint. -/
def mixedRequests : List (Request Scripted) :=
  let pair := (SimpleType.restriction (.anonymous (.simple
    (.listOf (.anonymous (.simple (textType []))))))).withFacet (.count .length 2)
  [⟨pair, "a", ⟨[], 0⟩⟩, ⟨textType [.count .minLength 4], "a", ⟨[], 0⟩⟩, ⟨textType [], "b", ⟨[], 0⟩⟩,
    ⟨textType [.count .maxLength 1], "a", ⟨[], 0⟩⟩, ⟨textType [], "a", ⟨[], 0⟩⟩]

theorem uses_differ_mixed :
    let w : Setting := ⟨Model.builtin, {}, default⟩
    (recordings w {} mixedRequests).2.map (·.text) = ["a1", "a2", "a__3", "b1", "a", "a5"]
      ∧ (recordings w {} mixedRequests).1 = answers w {} mixedRequests
      ∧ (recordings w {} mixedRequests).2.Pairwise (fun use other => use.hint = other.hint →
        w.model.countFacet use.type .maxLength = .ok none →
          w.model.countFacet other.type .maxLength = .ok none → use.text ≠ other.text) := by
  intro w
  obtain ⟨hanswers, hdiffer, -⟩ := uses_differ w mixedRequests
  exact ⟨by decide +kernel, hanswers, hdiffer⟩

end Leaf

end Specimen

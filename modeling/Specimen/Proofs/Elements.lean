import Specimen.Proofs.Laws
import Specimen.Proofs.Written

/-!
# Runs of elements

Each element of a document is written in a run of its own: the annotation of its declared type, the
start, what the type that it is generated for asks for, its text and the end. The supply goes from
one of these parts to the next, so what is drawn for an attribute or a leaf can be followed from the
supply with which the element is started.

An attribute that is required may be left out all the same: if its value is fixed or a default, a
flag of the policy decides on it.
-/

namespace Specimen

/-! ## Rows of walks -/

theorem Script.bind_assoc {σ α β γ : Type} (script : Script σ α) (f : α → σ → Script σ β)
    (g : β → σ → Script σ γ) :
    (script.bind f).bind g = script.bind fun a s => (f a s).bind g := by
  induction script with
  | stop result s => cases result <;> rfl
  | call c s next ih => simp only [bind, ih]
  | note n next ih => simp only [bind, ih]

namespace Walk

variable {σ β : Type} {s s' : Supply σ} {st : List (Step (Supply σ))}

theorem each_append (front back : List β) (walk : β → Walk σ Unit) :
    each (front ++ back) walk = (each front walk >>= fun _ => each back walk) := by
  induction front with
  | nil => rfl
  | cons b front ih =>
    simp only [List.cons_append, each, ih]
    exact funext fun s => (Script.bind_assoc (walk b s) _ _).symm

/-- The turn of an item comes when those before it have been walked through. -/
theorem runs_each_turn {front back : List β} {b : β} {walk : β → Walk σ Unit}
    (h : (each (front ++ b :: back) walk).Runs s st (.ok ()) s') :
    ∃ s₁ s₂ st₁ own st₂, (each front walk).Runs s st₁ (.ok ()) s₁
      ∧ (walk b).Runs s₁ own (.ok ()) s₂ ∧ st = st₁ ++ (own ++ st₂) := by
  rw [each_append] at h
  obtain ⟨_, s₁, st₁, rest, hfront, hrest, rfl⟩ := runs_bind_ok h
  obtain ⟨_, s₂, own, st₂, hown, -, rfl⟩ := runs_bind_ok hrest
  exact ⟨s₁, s₂, st₁, own, st₂, hfront, hown, rfl⟩

end Walk

namespace Document

open Walk Stretch

variable {σ : Type} [Source σ] {w : Leaf.Setting}

/-! ## Runs of elements -/

/-- The runs that the run of an element is made of: the annotation of its declared type, what the
type that it is generated for asks for, and its text. The element is started with the supply `s` and
ended with `s'`. -/
structure ElementRun (w : Leaf.Setting) (decl : ElementDecl) (declared type : TypeDef)
    (remarks inner words : List (Step (Supply σ))) (s s' : Supply σ) : Prop where
  resolveType : w.model.resolveType decl.type = .ok declared
  generates : w.model.Generates declared type
  annotate : ∃ s₀, (annotate w declared : Walk σ Unit).Runs s₀ remarks (.ok ()) s
  inside : ∃ steps, ∃ path : Path, ∃ isSubstitute s₁, (isSubstitute = true ↔ declared.IsAbstract)
    ∧ (structured w (visit w steps) (path.push (.element decl)) type isSubstitute).Runs s inner
      (.ok ()) s₁
    ∧ (text w decl type).Runs s₁ words (.ok ()) s'

/-- The note on an element of a declaration that is generated for a type, with the steps before it
and behind it. It stands in a run of the element, between the annotation and the start. -/
inductive HasRun (w : Leaf.Setting) (decl : ElementDecl) (type : TypeDef) :
    List (Step (Supply σ)) → List (Step (Supply σ)) → Prop
  | run {declared : TypeDef} {s s' : Supply σ} {answer answer' : String}
      {before remarks inner words rest : List (Step (Supply σ))}
      (h : ElementRun w decl declared type remarks inner words s s') :
      HasRun w decl type (before ++ remarks)
        (.made (.startElement decl.name.namespaceUri decl.name.localName) s answer
          :: (inner ++ (words ++ .made .endElement s' answer' :: rest)))

/-- The note on an element stands in a run of this element. -/
def runLaw (σ : Type) [Source σ] (w : Leaf.Setting) : PlaceLaw (Step (Supply σ)) :=
  fun before step after =>
    ∀ decl type, step = .noted (.element decl type) → HasRun w decl type before after

theorem isLocal_runLaw : (runLaw σ w).IsLocal := by
  intro before step after h outer more decl type heq
  obtain ⟨hrun⟩ := h decl type heq
  simp only [← List.append_assoc outer, List.append_assoc _ _ more, List.cons_append]
  exact .run hrun

/-- There is no note among calls. -/
theorem eachPlace_made (c : Call) (s : Supply σ) (answer : String) :
    EachPlace (runLaw σ w) [.made c s answer] :=
  .of_forall fun step hmem before after decl type heq => by
    rw [heq] at hmem
    cases List.mem_singleton.mp hmem

theorem eachPlace_of_isPlain {st : List (Step (Supply σ))} (h : ∀ step ∈ st, step.IsPlain) :
    EachPlace (runLaw σ w) st :=
  .of_forall fun step hmem before after decl type heq => by
    have hplain := h step hmem
    rw [heq] at hplain
    exact hplain.elim

theorem isWalkLaw_runLaw : IsWalkLaw (EachPlace (runLaw σ w)) where
  toIsRowLaw := isRowLaw_eachPlace isLocal_runLaw
  plain := fun st h _ => eachPlace_of_isPlain h
  leftOut := fun decl => .of_forall fun step hmem before after decl' type heq => by
    rw [heq] at hmem
    cases List.mem_singleton.mp hmem
  wildcard := fun _ s answer s' answer' =>
    .append isLocal_runLaw (eachPlace_made _ s answer) (eachPlace_made _ s' answer')

/-- What an element is written by, one run after another. -/
theorem runs_wholeElement {steps : Nat} {path : Path} {decl : ElementDecl} {s s' : Supply σ}
    {st : List (Step (Supply σ))}
    (h : (wholeElement w (visit w steps) path decl).Runs s st (.ok ()) s') :
    ∃ declared type remarks inner words s₁ answer answer',
      ElementRun w decl declared type remarks inner words s₁ s'
      ∧ (∃ isSubstitute s₂, (structured w (visit w steps) (path.push (.element decl)) type
        isSubstitute).Runs s₁ inner (.ok ()) s₂)
      ∧ (∃ s₂, (text w decl type).Runs s₂ words (.ok ()) s')
      ∧ st = remarks ++ .noted (.element decl type)
        :: .made (.startElement decl.name.namespaceUri decl.name.localName) s₁ answer
        :: (inner ++ (words ++ [.made .endElement s' answer'])) := by
  obtain ⟨declared, type, isSubstitute, remarks, inner, words, s₀, s₁, s₂, answer, answer',
    hdeclared, hgenerates, hflag, hremarks, hstructured, htext, rfl⟩ := runs_wholeElement_ok h
  have hrun : ElementRun w decl declared type remarks inner words s₁ s' :=
    ⟨hdeclared, hgenerates, ⟨_, hremarks⟩, steps, path, isSubstitute, s₂, hflag, hstructured, htext⟩
  exact ⟨declared, type, remarks, inner, words, s₁, answer, answer', hrun, ⟨_, _, hstructured⟩,
    ⟨_, htext⟩, rfl⟩

/-- **An element is written in a run of its own.** -/
theorem makes_wholeElement {steps : Nat}
    (hv : ∀ path p, (visit w steps path p).Makes (EachPlace (runLaw σ w))) (path : Path)
    (decl : ElementDecl) :
    (wholeElement w (visit w steps) path decl).Makes (EachPlace (runLaw σ w)) := by
  have hlaw : IsWalkLaw (EachPlace (runLaw σ w)) := isWalkLaw_runLaw
  intro s st _ s' hr
  obtain ⟨declared, type, remarks, inner, words, s₁, answer, answer', hrun, ⟨_, _, hstructured⟩,
    ⟨_, htext⟩, rfl⟩ := runs_wholeElement hr
  obtain ⟨_, hremarks⟩ := hrun.annotate
  have hplain : EachPlace (runLaw σ w) remarks :=
    eachPlace_of_isPlain (isPlain_annotate declared _ _ _ _ hremarks).1
  have hinner := makes_structured hlaw hv _ _ _ _ _ _ _ hstructured
  have hwords : EachPlace (runLaw σ w) words :=
    eachPlace_of_isPlain (isPlain_text decl type _ _ _ _ htext).1
  have hrow := hlaw.toIsRowLaw
  have hasRun : HasRun w decl type ([] ++ remarks)
      (.made (.startElement decl.name.namespaceUri decl.name.localName) s₁ answer
        :: (inner ++ (words ++ [.made .endElement s' answer']))) := .run hrun
  -- The note of the element is the only place in it that the law says something new about.
  refine .around isLocal_runLaw ?_ hplain ?_
  · rintro _ _ ⟨⟩
    exact hasRun
  · exact hrow.append (eachPlace_made _ s₁ answer)
      (hrow.append hinner (hrow.append hwords (eachPlace_made _ s' answer')))

/-- **In a run that succeeds, every element is written in a run of its own.** -/
theorem makes_runs (w : Leaf.Setting) (root : QName) :
    (walk w root : Walk σ Unit).Makes (EachPlace (runLaw σ w)) :=
  makes_walk isWalkLaw_runLaw (fun _ path decl hv => makes_wholeElement hv path decl) root

theorem hasRun_of_steps {ω : Type} [Writer ω] {root : QName} {source : σ} {writer : ω}
    (hok : (generate w root source writer).result = .ok ()) {decl : ElementDecl} {type : TypeDef}
    {before after : List (Step (Supply σ))}
    (h : steps w root source writer = before ++ .noted (.element decl type) :: after) :
    HasRun w decl type before after := by
  have hruns := Script.runs_steps (walk w root { source }) writer
  rw [show ((walk w root { source }).run writer).1.1 = .ok () from hok] at hruns
  exact makes_runs w root _ _ _ _ hruns _ _ _ h _ _ rfl

/-! ## Inside a tag -/

variable {s s' : Supply σ} {st : List (Step (Supply σ))}

omit [Source σ] in
/-- Nothing is drawn for an announcement. -/
theorem supply_announce {type : ComplexType} {isSubstitute : Bool} {r : Except Error Unit}
    (h : (announce type isSubstitute : Walk σ Unit).Runs s st r s') : s' = s := by
  unfold announce announceType at h
  split at h
  · split at h
    · exact (runs_fail h).2.2
    · rcases runs_bind h with ⟨e, -, hcall⟩ | ⟨pfx, s₁, st₁, st₂, hcall, htell, -⟩
      · exact (runs_call hcall).1
      · rw [(runs_tell htell).1, (runs_call hcall).1]
  · exact (runs_pure h).2.2

/-- The runs that are made for a complex type, one after another. -/
theorem runs_structured {visit : Visit σ} {path : Path} {type : ComplexType} {isSubstitute : Bool}
    (h : (structured w visit path (.complex type) isSubstitute).Runs s st (.ok ()) s') :
    ∃ own attrs s₁ s₂ announcement row wild inside,
      w.model.wildcardOf type = .ok own ∧ w.model.attributesOf type = .ok attrs
      ∧ (announce type isSubstitute : Walk σ Unit).Runs s announcement (.ok ()) s
      ∧ (each attrs (writeAttribute w)).Runs s row (.ok ()) s₁
      ∧ (attributeWildcard (path.push (.complexType type own)) own).Runs s₁ wild (.ok ()) s₂
      ∧ (content w visit (path.push (.complexType type own)) type).Runs s₂ inside (.ok ()) s'
      ∧ st = announcement ++ (row ++ (wild ++ inside)) := by
  simp only [structured, complexType] at h
  split at h
  · cases (runs_fail h).2.1
  · obtain ⟨_, s₁, announcement, st₁, hannounce, h₁, rfl⟩ := runs_bind_ok h
    obtain rfl := supply_announce hannounce
    obtain ⟨own, s₂, st₂, st₃, hask, h₃, rfl⟩ := runs_bind_ok h₁
    obtain ⟨rfl, hown, rfl⟩ := runs_ask hask
    obtain ⟨attrs, s₃, st₄, st₅, hask', h₅, rfl⟩ := runs_bind_ok h₃
    obtain ⟨rfl, hattrs, rfl⟩ := runs_ask hask'
    obtain ⟨_, s₄, row, st₆, hrow, h₆, rfl⟩ := runs_bind_ok h₅
    obtain ⟨_, s₅, wild, inside, hwild, hinside, rfl⟩ := runs_bind_ok h₆
    exact ⟨own, attrs, s₄, s₅, announcement, row, wild, inside, hown.symm, hattrs.symm, hannounce,
      hrow, hwild, hinside, rfl⟩

/-! ## Required attributes -/

/-- Whether an attribute with this constraint is written when it is required: always without a
constraint, and with a fixed or a default value if the flag for it is in favour. -/
def keepsRequired (policy : Policy) (source : σ) : ValueConstraint → Bool
  | .free => true
  | .fixed _ => (policy.fixedAttributes.draw source).1
  | .default _ => (policy.defaultAttributes.draw source).1

theorem exists_value_of_required {attr : EffectiveAttribute} {value : Option String}
    (h : (attributeValue w attr : Walk σ (Option String)).Runs s st (.ok value) s')
    (hr : attr.isRequired = true) (hk : keepsRequired w.policy s.source attr.constraint = true) :
    ∃ text, value = some text := by
  unfold attributeValue at h
  split at h
  · rename_i text hc
    rw [hc, keepsRequired] at hk
    obtain ⟨isWritten, s₁, st₁, st₂, hdraw, hpure, -⟩ := runs_bind_ok h
    cases (runs_draw hdraw).2.1
    rw [hk, if_pos rfl] at hpure
    exact ⟨text, Except.ok.inj (runs_pure hpure).2.1⟩
  · rename_i text hc
    rw [hc, keepsRequired] at hk
    obtain ⟨isWritten, s₁, st₁, st₂, hdraw, hpure, -⟩ := runs_bind_ok h
    cases (runs_draw hdraw).2.1
    rw [hk, if_pos rfl] at hpure
    exact ⟨text, Except.ok.inj (runs_pure hpure).2.1⟩
  · -- Without a fixed value and a default, a required attribute is filled without asking a flag.
    obtain ⟨filled, s₁, st₁, st₂, hfilled, hvalue, -⟩ := runs_bind_ok h
    rw [isFilled, if_pos hr] at hfilled
    cases (runs_pure hfilled).2.1
    obtain ⟨type, s₂, st₃, st₄, -, hfill, -⟩ := runs_bind_ok hvalue
    obtain ⟨text, s₃, st₅, st₆, -, hpure, -⟩ := runs_bind_ok hfill
    exact ⟨text, Except.ok.inj (runs_pure hpure).2.1⟩

/-- The attribute stands in a tag, with a value that it may have. Behind the start of an element,
the tag goes as far as there are attributes and requests for prefixes. -/
def Carries (w : Leaf.Setting) (attr : EffectiveAttribute) (behind : List (Step (Supply σ))) :
    Prop :=
  ∃ value, AttributeText σ w attr (some value)
    ∧ .attribute attr.decl.name.namespaceUri attr.decl.name.localName value
      ∈ (eventsOf behind).takeWhile Event.isTagPart

omit [Source σ] in
/-- An event belongs to a tag with everything before it. -/
theorem mem_takeWhile_isTagPart {front back : List (Step (Supply σ))} {e : Event}
    (h : ∀ e ∈ eventsOf front, e.isTagPart = true) (he : e ∈ eventsOf front) :
    e ∈ (eventsOf (front ++ back)).takeWhile Event.isTagPart := by
  rw [eventsOf_append, List.takeWhile_append_of_pos h]
  exact List.mem_append_left _ he

theorem eventsOf_writeAttribute {attr : EffectiveAttribute}
    (h : (writeAttribute w attr : Walk σ Unit).Runs s st (.ok ()) s') (hr : attr.isRequired = true)
    (hk : keepsRequired w.policy s.source attr.constraint = true) :
    ∃ value, AttributeText σ w attr (some value)
      ∧ eventsOf st
        = [.attribute attr.decl.name.namespaceUri attr.decl.name.localName value] := by
  obtain ⟨value, s₁, st₁, st₂, hvalue, htell, rfl⟩ := runs_bind_ok h
  obtain ⟨text, rfl⟩ := exists_value_of_required hvalue hr hk
  obtain rfl := isSilent_attributeValue attr _ _ _ _ hvalue
  obtain ⟨answer, rfl, -⟩ := runs_tell_ok htell
  exact ⟨text, (decided_of_runs hvalue).attributeText, rfl⟩

/-- **A required attribute is missing only if a flag is against it.** In a run that succeeds, take
any element that is generated for a complex type, which is its declared type or one that stands for
it, and any attribute that this type requires. The attribute is written when its turn comes behind
the attributes before it, unless its value is fixed or a default and the flag for such values is
against it then. The flag `always` never is, and if the flag is left to chance, a coin is tossed
with the source as it is at this turn. -/
theorem generate_required {ω : Type} [Writer ω] (w : Leaf.Setting) (root : QName) (source : σ)
    (writer : ω) (hok : (generate w root source writer).result = .ok ()) :
    ∀ before decl type uri name s answer behind,
      steps w root source writer = before ++ .noted (.element decl (.complex type))
        :: .made (.startElement uri name) s answer :: behind →
      ∃ declared attrs, w.model.resolveType decl.type = .ok declared
        ∧ w.model.Generates declared (.complex type) ∧ w.model.attributesOf type = .ok attrs
        ∧ ∀ front attr back, attrs = front ++ attr :: back → attr.isRequired = true →
          ∃ announcement row rest s₁, behind = announcement ++ (row ++ rest)
            ∧ (each front (writeAttribute w)).Runs s row (.ok ()) s₁
            ∧ (keepsRequired w.policy s₁.source attr.constraint = true → Carries w attr behind) := by
  intro before decl type uri name s answer behind heq
  have hhas := hasRun_of_steps hok heq
  generalize hafter : Step.made (.startElement uri name) s answer :: behind = after at hhas
  obtain @⟨declared, _, s', _, answer', outer, remarks, inner, words, rest, hrun⟩ := hhas
  cases hafter
  obtain ⟨steps, path, isSubstitute, s₁, -, hstructured, -⟩ := hrun.inside
  obtain ⟨own, attrs, s₂, s₃, announcement, row, wild, inside, -, hattrs, hannounce, hrow, -, -,
    rfl⟩ := runs_structured hstructured
  refine ⟨declared, attrs, hrun.resolveType, hrun.generates, hattrs, ?_⟩
  rintro front attr back rfl hrequired
  obtain ⟨s₄, s₅, row₁, own, row₂, hfront, hown, rfl⟩ := runs_each_turn hrow
  let more := row₂ ++ (wild ++ (inside ++ (words ++ .made .endElement s' answer' :: rest)))
  refine ⟨announcement, row₁, own ++ more, s₄, by simp [more], hfront, fun hkeeps => ?_⟩
  obtain ⟨value, htext, hevents⟩ := eventsOf_writeAttribute hown hrequired hkeeps
  refine ⟨value, htext, ?_⟩
  -- What comes before the attribute, and the attribute itself, belongs to the tag.
  have htag : ∀ e ∈ eventsOf (announcement ++ (row₁ ++ own)), e.isTagPart = true := by
    simp only [eventsOf_append, List.forall_mem_append]
    refine ⟨(forms_announce type isSubstitute _ _ _ _ hannounce).2 () rfl, ?_, ?_⟩
    · exact (Forms.each isRow_tagParts (fun attr _ => forms_writeAttribute attr)
        _ _ _ _ hfront).2 () rfl
    · exact (forms_writeAttribute attr _ _ _ _ hown).2 () rfl
  have hmem : .attribute attr.decl.name.namespaceUri attr.decl.name.localName value
      ∈ eventsOf (announcement ++ (row₁ ++ own)) := by
    simp [hevents]
  have htaken : Event.attribute attr.decl.name.namespaceUri attr.decl.name.localName value
      ∈ (eventsOf ((announcement ++ (row₁ ++ own)) ++ more)).takeWhile Event.isTagPart :=
    mem_takeWhile_isTagPart htag hmem
  simpa [more] using htaken

/-- The type of an element with three attributes that are required: one without a constraint, one
whose value is fixed, and one with a default value. -/
def requiringType : ComplexType :=
  let use (name : String) (constraint : ValueConstraint) : AttributeItem :=
    .use ⟨.required, constraint, .inline ⟨.bare name, .builtin "string", .free⟩⟩
  ⟨none, false, .empty, [use "x" .free, use "y" (.fixed "v"), use "z" (.default "w")], none, none⟩

/-- What is in effect of these attributes. -/
def requiredAttributes : List EffectiveAttribute :=
  let attr (name : String) (constraint : ValueConstraint) : EffectiveAttribute :=
    ⟨⟨.bare name, .builtin "string", .free⟩, true, constraint⟩
  [attr "x" .free, attr "y" (.fixed "v"), attr "z" (.default "w")]

/-- The element of this type. -/
def requiringRoot : ElementDecl :=
  ⟨0, .bare "a", .anonymous (.complex requiringType), .global, false, none⟩

/-- The schema that declares this element, with a flag for values that are fixed and defaults. -/
def requiring (flag : TriState) : Leaf.Setting where
  model := Model.builtin.addElement requiringRoot
  policy := { fixedAttributes := flag, defaultAttributes := flag }
  now := default

/-- The steps before the element. -/
def requiringSteps (s : Supply Scripted) : List (Step (Supply Scripted)) :=
  [.made .startDocument s "", .made (.declarePrefix Namespace.xsi) s "xsi"]

/-- Where the flags are always in favour, all three attributes are written. -/
theorem generate_required_always :
    let w := requiring .always
    let s : Supply Scripted := { source := ⟨[], 0⟩ }
    (generate w (.bare "a") s.source ({} : Recorder)).result = .ok ()
      ∧ w.model.attributesOf requiringType = .ok requiredAttributes
      ∧ ∃ decl behind, steps w (.bare "a") s.source ({} : Recorder) = requiringSteps s
          ++ .noted (.element decl (.complex requiringType))
            :: .made (.startElement "" "a") s "" :: behind
        ∧ ∀ attr ∈ requiredAttributes, attr.isRequired = true ∧ Carries w attr behind := by
  intro w s
  have hok : (generate w (.bare "a") s.source ({} : Recorder)).result = .ok () := by decide +kernel
  obtain ⟨declared, attrs, -, -, hattrs, hcarries⟩ :=
    generate_required w (.bare "a") s.source ({} : Recorder) hok (requiringSteps s) _
      requiringType "" "a" s "" _ rfl
  obtain rfl : requiredAttributes = attrs := Except.ok.inj hattrs
  have hall : ∀ attr ∈ requiredAttributes, attr.isRequired = true
      ∧ ∀ s : Supply Scripted, keepsRequired w.policy s.source attr.constraint = true :=
    List.forall_mem_cons.mpr ⟨⟨rfl, fun _ => rfl⟩, List.forall_mem_cons.mpr ⟨⟨rfl, fun _ => rfl⟩,
      List.forall_mem_singleton.mpr ⟨rfl, fun _ => rfl⟩⟩⟩
  refine ⟨hok, rfl, _, _, rfl, fun attr hmem => ?_⟩
  obtain ⟨hrequired, hkeeps⟩ := hall attr hmem
  -- Each attribute in effect has its own place in the row, at which the flags are asked.
  obtain ⟨front, back, hsplit⟩ := List.append_of_mem hmem
  obtain ⟨announcement, row, rest, s₁, -, -, hkept⟩ := hcarries front attr back hsplit hrequired
  exact ⟨hrequired, hkept (hkeeps s₁)⟩

/-- **A required attribute may be missing.** Where the flags are never in favour, the attributes
with a fixed or a default value are left out. -/
theorem not_carried_never :
    let w := requiring .never
    let s : Supply Scripted := { source := ⟨[], 0⟩ }
    w.model.Built ∧ (generate w (.bare "a") s.source ({} : Recorder)).result = .ok ()
      ∧ w.model.attributesOf requiringType = .ok requiredAttributes
      ∧ ∃ decl behind, steps w (.bare "a") s.source ({} : Recorder) = requiringSteps s
          ++ .noted (.element decl (.complex requiringType))
            :: .made (.startElement "" "a") s "" :: behind
        ∧ eventsOf behind = [.attribute "" "x" "x1", .endElement, .endDocument]
        ∧ (∃ attr ∈ requiredAttributes, attr.isRequired = true ∧ attr.constraint = .fixed "v"
          ∧ ¬Carries w attr behind)
        ∧ ∃ attr ∈ requiredAttributes, attr.isRequired = true ∧ attr.constraint = .default "w"
          ∧ ¬Carries w attr behind := by
  intro w s
  have hevents : eventsOf ((steps w (.bare "a") s.source ({} : Recorder)).drop 4)
      = [.attribute "" "x" "x1", .endElement, .endDocument] := by
    decide +kernel
  have hnot {attr : EffectiveAttribute} {behind : List (Step (Supply Scripted))}
      (h : eventsOf behind = [.attribute "" "x" "x1", .endElement, .endDocument])
      (hname : attr.decl.name.localName ≠ "x") : ¬Carries w attr behind := by
    rintro ⟨value, -, hmem⟩
    rw [h] at hmem
    exact hname (Event.attribute.inj (List.mem_singleton.mp hmem)).2.1
  have hm : w.model.Built := Model.built_builtin.element requiringRoot
  refine ⟨hm, by decide +kernel, rfl, _, _, rfl, hevents,
    ⟨_, List.mem_cons_of_mem _ List.mem_cons_self, rfl, rfl, hnot hevents (by decide)⟩,
    ⟨_, List.mem_cons_of_mem _ (List.mem_cons_of_mem _ List.mem_cons_self), rfl, rfl,
      hnot hevents (by decide)⟩⟩

end Document

end Specimen

import Specimen.Proofs.Order
import Specimen.Proofs.Places

/-!
# Laws of the steps of a walk

What is said of the steps of a walk is often a law of rows. Such a law only has to be shown where an
element is written: the other parts of a walk make plain steps, or are put together from shorter
walks. Comments are only written for elements, so there are none among these plain steps.
-/

namespace Specimen

/-! ## Comments -/

/-- A comment. -/
def Event.isComment : Event → Bool
  | comment _ => true
  | _ => false

/-- There is no comment. -/
def Stretch.uncommented : Stretch := fun l => ∀ e ∈ l, e.isComment = false

theorem Stretch.uncommented_of_tagParts {l : List Event} (h : tagParts l) : uncommented l := by
  intro e hmem
  have htag := h e hmem
  cases e <;> first | rfl | cases htag

/-! ## Walks that keep to a law -/

namespace Walk

variable {σ α β : Type} {Q : List (Step (Supply σ)) → Prop} {walk : Walk σ α}

/-- Wherever the walk succeeds, its steps are as described. -/
def Makes (walk : Walk σ α) (Q : List (Step (Supply σ)) → Prop) : Prop :=
  ∀ s st a s', walk.Runs s st (.ok a) s' → Q st

namespace Makes

theorem of_isSilent (hQ : IsRowLaw Q) (h : walk.IsSilent) : walk.Makes Q := by
  intro s st a s' hr
  rw [h _ _ _ _ hr]
  exact hQ.nil

theorem of_isPlain
    (hQ : ∀ st, (∀ step ∈ st, step.IsPlain) → Stretch.uncommented (eventsOf st) → Q st)
    (h : walk.IsPlain) (hforms : Forms walk Stretch.uncommented) : walk.Makes Q :=
  fun _ st a _ hr => hQ st (h _ _ _ _ hr).1 ((hforms _ _ _ _ hr).2 a rfl)

theorem pure (hQ : IsRowLaw Q) (a : α) : Makes (Pure.pure a : Walk σ α) Q :=
  of_isSilent hQ (.pure a)

theorem fail (e : Error) : Makes (fail e : Walk σ α) Q := by
  intro s st a s' hr
  cases (runs_fail hr).2.1

theorem note {n : Note} (h : Q [.noted n]) : Makes (Walk.note n : Walk σ Unit) Q := by
  intro s st a s' hr
  rwa [(runs_note hr).1]

theorem bind {f : α → Walk σ β} (hQ : IsRowLaw Q) (h : walk.Makes Q) (hf : ∀ a, (f a).Makes Q) :
    (walk >>= f).Makes Q := by
  intro s st b s' hr
  obtain ⟨a, s₁, st₁, st₂, hr₁, hr₂, rfl⟩ := runs_bind_ok hr
  exact hQ.append (h _ _ _ _ hr₁) (hf a _ _ _ _ hr₂)

/-- What comes before a walk may have no steps. -/
theorem silent_bind {f : α → Walk σ β} (hQ : IsRowLaw Q) (h : walk.IsSilent)
    (hf : ∀ a, (f a).Makes Q) : (walk >>= f).Makes Q :=
  bind hQ (of_isSilent hQ h) hf

theorem each {walk : β → Walk σ Unit} (hQ : IsRowLaw Q) (h : ∀ b, (walk b).Makes Q) (l : List β) :
    (each l walk).Makes Q := by
  induction l with
  | nil => exact pure hQ ()
  | cons b rest ih => exact bind hQ (h b) fun _ => ih

theorem times {walk : Walk σ Unit} (hQ : IsRowLaw Q) (h : walk.Makes Q) (n : Nat) :
    (times n walk).Makes Q := by
  induction n with
  | zero => exact pure hQ ()
  | succ n ih => exact bind hQ h fun _ => ih

end Makes

end Walk

/-! ## Documents -/

namespace Document

open Walk Stretch

variable {σ : Type} [Source σ] {w : Leaf.Setting} {visit : Visit σ}

/-- A law of rows that holds of steps that are plain and no comments, of elements that are left out
and of those that stand for a wildcard. -/
structure IsWalkLaw (Q : List (Step (Supply σ)) → Prop) : Prop extends IsRowLaw Q where
  plain : ∀ st, (∀ step ∈ st, step.IsPlain) → uncommented (eventsOf st) → Q st
  leftOut : ∀ decl, Q [.noted (.leftOut decl)]
  wildcard : ∀ uri s answer s' answer',
    Q [.made (.startElement uri wildcardElement) s answer, .made .endElement s' answer']

variable {Q : List (Step (Supply σ)) → Prop}

omit [Source σ] in
theorem makes_tell {c : Call} (hQ : IsWalkLaw Q) (hc : c.isTag = false)
    (h : ∀ answer, (c.event answer).isComment = false) : (tell c : Walk σ Unit).Makes Q :=
  .of_isPlain hQ.plain (.tell hc) (.tell fun answer => List.forall_mem_singleton.mpr (h answer))

theorem makes_wildcard (hQ : IsWalkLaw Q) (path : Path) (own : Wildcard) :
    (wildcard path own : Walk σ Unit).Makes Q := by
  refine Makes.silent_bind hQ.toIsRowLaw (.of_decides (decides_chooseNamespace _)) fun uri => ?_
  split
  · exact makes_tell hQ rfl fun _ => rfl
  · intro s st a s' hr
    obtain ⟨_, s₁, st₁, st₂, hstart, hend, rfl⟩ := runs_bind_ok hr
    obtain ⟨answer, rfl, rfl⟩ := runs_tell_ok hstart
    obtain ⟨answer', rfl, rfl⟩ := runs_tell_ok hend
    exact hQ.wildcard uri _ _ _ _

omit [Source σ] in
theorem makes_declareRoot (hQ : IsWalkLaw Q) (root : QName) :
    (declareRoot root : Walk σ Unit).Makes Q := by
  unfold declareRoot
  split
  · exact makes_tell hQ rfl fun _ => rfl
  · exact .pure hQ.toIsRowLaw ()

theorem makes_structured (hQ : IsWalkLaw Q) (hv : ∀ path p, (visit path p).Makes Q) (path : Path)
    (type : TypeDef) (isSubstitute : Bool) :
    (structured w visit path type isSubstitute).Makes Q := by
  -- Attributes and announcements write tag parts only; what the content writes is what `visit`
  -- does.
  have hrow := hQ.toIsRowLaw
  have hattributes (attrs : List EffectiveAttribute) :
      (each attrs (writeAttribute w) : Walk σ Unit).Makes Q :=
    Makes.each hrow (fun attr => .of_isPlain hQ.plain (isPlain_writeAttribute attr)
      ((forms_writeAttribute attr).imp fun _ => uncommented_of_tagParts)) attrs
  have hcontent (path : Path) (type : ComplexType) : (content w visit path type).Makes Q := by
    refine Makes.silent_bind hrow (.ask _) fun content => ?_
    split
    · exact hv _ _
    · exact .pure hrow ()
  cases type with
  | simple type => exact .pure hrow ()
  | complex type =>
    simp only [structured, complexType]
    split
    · exact .fail _
    · refine Makes.bind hrow (.of_isPlain hQ.plain (isPlain_announce _ _)
        ((forms_announce _ _).imp fun _ => uncommented_of_tagParts)) fun _ => ?_
      refine Makes.silent_bind hrow (.ask _) fun own => ?_
      refine Makes.silent_bind hrow (.ask _) fun attrs => ?_
      refine Makes.bind hrow (hattributes attrs) fun _ => Makes.bind hrow ?_ fun _ => hcontent _ _
      exact .of_isPlain hQ.plain (isPlain_attributeWildcard path type own)
        ((forms_attributeWildcard type own).imp fun _ => uncommented_of_tagParts)

theorem makes_element (hQ : IsWalkLaw Q) {path : Path}
    (h : ∀ decl, (wholeElement w visit path decl).Makes Q) (decl : ElementDecl) :
    (element w visit path decl).Makes Q := by
  have hconcrete (decl : ElementDecl) : (concreteElement w visit path decl).Makes Q := by
    unfold concreteElement
    split
    · exact .note (hQ.leftOut decl)
    · exact h decl
  unfold element
  split
  · exact Makes.silent_bind hQ.toIsRowLaw (.of_decides (decides_chooseSubstitute decl)) hconcrete
  · exact hconcrete decl

theorem makes_repeated (hQ : IsRowLaw Q) {walk : Walk σ Unit} (h : walk.Makes Q) (occurs : Occurs) :
    (repeated w occurs walk).Makes Q :=
  Makes.silent_bind hQ (.draw _) (Makes.times hQ h)

theorem makes_modelGroup (hQ : IsRowLaw Q) (hv : ∀ path p, (visit path p).Makes Q) (path : Path)
    (group : ModelGroup) (occurs : Occurs) : (modelGroup w visit path group occurs).Makes Q := by
  unfold modelGroup
  split
  · exact Makes.silent_bind hQ (.draw _) fun shuffled => Makes.each hQ (hv _) _
  · refine makes_repeated hQ (Makes.silent_bind hQ (.of_decides (decides_order group)) ?_) occurs
    exact fun particles => Makes.each hQ (hv _) _

/-- **A law that is kept where an element is written is kept by all walks through particles.** -/
theorem makes_visit (hQ : IsWalkLaw Q)
    (h : ∀ steps path decl, (∀ path p, (Document.visit w steps path p).Makes Q) →
      (wholeElement w (Document.visit w steps) path decl).Makes Q) (steps : Nat) (path : Path)
    (p : Particle) : (Document.visit w steps path p).Makes Q := by
  have hrow := hQ.toIsRowLaw
  induction steps generalizing path p with
  | zero => exact .fail _
  | succ steps ih =>
    have helement (path : Path) (decl : ElementDecl) :
        (element w (Document.visit w steps) path decl).Makes Q :=
      makes_element hQ (fun decl => h steps path decl ih) decl
    simp only [Document.visit, particle]
    split
    · exact makes_modelGroup hrow ih path _ _
    · exact Makes.silent_bind hrow (.ask _) fun group => makes_modelGroup hrow ih path group _
    · exact makes_repeated hrow (helement path _) _
    · exact makes_repeated hrow (Makes.silent_bind hrow (.ask _) (helement path)) _
    · exact makes_repeated hrow (makes_wildcard hQ path _) _

/-- **A law that is kept where an element is written is kept by documents.** -/
theorem makes_walk (hQ : IsWalkLaw Q)
    (h : ∀ steps path decl, (∀ path p, (Document.visit w steps path p).Makes Q) →
      (wholeElement w (Document.visit w steps) path decl).Makes Q) (root : QName) :
    (walk w root : Walk σ Unit).Makes Q := by
  have hrow := hQ.toIsRowLaw
  refine Makes.silent_bind hrow (.ask _) fun decl => ?_
  refine Makes.bind hrow (makes_tell hQ rfl fun _ => rfl) fun _ => ?_
  refine Makes.bind hrow (makes_tell hQ rfl fun _ => rfl) fun _ => ?_
  refine Makes.bind hrow (makes_declareRoot hQ root) fun _ => ?_
  refine Makes.bind hrow (makes_element hQ (fun decl => ?_) decl) fun _ =>
    makes_tell hQ rfl fun _ => rfl
  exact h _ _ decl (makes_visit hQ h _)

end Document

end Specimen

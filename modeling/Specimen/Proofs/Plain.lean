import Specimen.Proofs.Parts
import Specimen.Proofs.Wildcards

/-!
# What is decided and written inside an element

Between the tags of two elements a walk makes decisions, which are no steps, and writes attributes,
texts, comments and prefixes, which are plain steps: they open no element and end none. The part of
a walk that goes from a start tag to the content of the element is plain as a whole.
-/

namespace Specimen

/-! ## Plain steps -/

/-- The call starts or ends an element. -/
def Call.isTag : Call → Bool
  | startElement _ _ => true
  | endElement => true
  | _ => false

/-- The step is a call that neither starts nor ends an element. -/
def Step.IsPlain {σ : Type} : Step σ → Prop
  | made c _ _ => c.isTag = false
  | refused c _ _ => c.isTag = false
  | noted _ => False

namespace Walk

variable {σ α β : Type} {walk : Walk σ α}

/-- Where the run of a walk ends because a bound is reached, it is a refused call that says so. -/
def EndsWell (st : List (Step (Supply σ))) (r : Except Error α) : Prop :=
  r = .error .endless → ∃ c s, .refused c s .endless ∈ st

theorem EndsWell.of_notEndless {st : List (Step (Supply σ))} {r : Except Error α}
    (h : NotEndless r) : EndsWell st r := fun hr => absurd hr h

/-- The walk has only plain steps, whatever the answers to its calls, and ends well. -/
def IsPlain (walk : Walk σ α) : Prop :=
  ∀ s st r s', walk.Runs s st r s' → (∀ step ∈ st, step.IsPlain) ∧ EndsWell st r

namespace IsPlain

theorem of_decides {P : α → Prop} (h : walk.Decides P) : walk.IsPlain := by
  intro s st r s' hr
  obtain ⟨rfl, hend, -⟩ := h _ _ _ _ hr
  exact ⟨by simp, .of_notEndless hend⟩

theorem pure (a : α) : IsPlain (Pure.pure a : Walk σ α) :=
  of_decides (P := fun _ => True) (.pure trivial)

theorem fail {e : Error} (h : NotEndless (.error e : Except Error α)) :
    IsPlain (fail e : Walk σ α) :=
  of_decides (P := fun _ => True) (.fail h)

theorem draw (f : σ → α × σ) : IsPlain (draw f) :=
  of_decides (P := fun _ => True) (.draw fun _ => trivial)

theorem ask {answer : Except Error α} (h : NotEndless answer) :
    IsPlain (ask answer : Walk σ α) := by
  intro s st r s' hr
  obtain ⟨rfl, rfl, -⟩ := runs_ask hr
  exact ⟨by simp, .of_notEndless h⟩

theorem fill {filling : Filling σ α} (h : filling.FailsByShape) : IsPlain (fill filling) := by
  intro s st r s' hr
  obtain ⟨rfl, rfl, -⟩ := runs_fill hr
  exact ⟨by simp, .of_notEndless (h s).notEndless⟩

theorem call {c : Call} (hc : c.isTag = false) : IsPlain (call c : Walk σ String) := by
  intro s st r s' h
  obtain ⟨-, ⟨answer, rfl, rfl⟩ | ⟨e, rfl, rfl⟩⟩ := runs_call h
  · exact ⟨by simpa [Step.IsPlain] using hc, .of_notEndless (.ok _)⟩
  · refine ⟨by simpa [Step.IsPlain] using hc, fun he => ⟨c, s, ?_⟩⟩
    rw [Except.error.inj he]
    exact List.mem_singleton_self _

theorem tell {c : Call} (hc : c.isTag = false) : IsPlain (tell c : Walk σ Unit) := by
  intro s st r s' h
  obtain ⟨-, ⟨answer, rfl, rfl⟩ | ⟨e, rfl, rfl⟩⟩ := runs_tell h
  · exact ⟨by simpa [Step.IsPlain] using hc, .of_notEndless (.ok _)⟩
  · refine ⟨by simpa [Step.IsPlain] using hc, fun he => ⟨c, s, ?_⟩⟩
    rw [Except.error.inj he]
    exact List.mem_singleton_self _

theorem bind {f : α → Walk σ β} (h : walk.IsPlain) (hf : ∀ a, (f a).IsPlain) :
    (walk >>= f).IsPlain := by
  intro s st r s' hr
  rcases runs_bind hr with ⟨e, rfl, hr₁⟩ | ⟨a, s₁, st₁, st₂, hr₁, hr₂, rfl⟩
  · obtain ⟨hplain, hend⟩ := h _ _ _ _ hr₁
    exact ⟨hplain, fun he => hend (congrArg Except.error (Except.error.inj he))⟩
  · obtain ⟨hplain, -⟩ := h _ _ _ _ hr₁
    obtain ⟨hplain', hend⟩ := hf a _ _ _ _ hr₂
    refine ⟨List.forall_mem_append.mpr ⟨hplain, hplain'⟩, fun he => ?_⟩
    obtain ⟨c, t, hmem⟩ := hend he
    exact ⟨c, t, List.mem_append_right _ hmem⟩

theorem each {walk : β → Walk σ Unit} {l : List β} (h : ∀ b ∈ l, (walk b).IsPlain) :
    (each l walk).IsPlain := by
  induction l with
  | nil => exact pure ()
  | cons b rest ih =>
    exact (h b List.mem_cons_self).bind fun _ => ih fun c hc => h c (List.mem_cons_of_mem _ hc)

end IsPlain

end Walk

/-! ## Content models -/

namespace ContentModel

open Walk

variable {σ : Type}

theorem isPlain_renderName (name : QName) : (renderName name : Walk σ String).IsPlain := by
  unfold renderName
  split
  · exact .pure _
  · exact (IsPlain.call rfl).bind fun _ => .pure _

theorem isPlain_renderAll {render : Particle → Walk σ String} {particles : List Particle}
    (h : ∀ p, (render p).IsPlain) : (renderAll render particles).IsPlain := by
  induction particles with
  | nil => exact .pure _
  | cons p rest ih => exact (h p).bind fun _ => ih.bind fun _ => .pure _

theorem isPlain_renderParticle {m : Model} {render : ModelGroup → Walk σ String}
    (h : ∀ group, (render group).IsPlain) (p : Particle) : (renderParticle m render p).IsPlain := by
  refine IsPlain.bind ?_ fun _ => .pure _
  cases p.term with
  | elementRef name => exact isPlain_renderName _
  | element decl => exact isPlain_renderName _
  | group group => exact h group
  | groupRef name => exact (IsPlain.ask (m.failsByShape_resolveGroup name).notEndless).bind h
  | any wildcard => exact .pure _

theorem isPlain_renderWithin (m : Model) (steps : Nat) (p : Particle) :
    (renderWithin m steps p : Walk σ String).IsPlain := by
  induction steps generalizing p with
  | zero => exact isPlain_renderParticle (fun _ => .fail (.shape _)) p
  | succ steps ih =>
    exact isPlain_renderParticle (fun _ => (isPlain_renderAll ih).bind fun _ => .pure _) p

end ContentModel

/-! ## Inside an element -/

namespace Document

open Walk

variable {σ : Type} {w : Leaf.Setting}

theorem isPlain_announce (type : ComplexType) (isSubstitute : Bool) :
    (announce type isSubstitute : Walk σ Unit).IsPlain := by
  unfold announce announceType
  split
  · split
    · exact .fail (.invariant _)
    · exact (IsPlain.call rfl).bind fun _ => .tell rfl
  · exact .pure _

theorem isPlain_annotate (declared : TypeDef) : (annotate w declared : Walk σ Unit).IsPlain := by
  unfold annotate
  split
  · exact .pure _
  · split
    · refine (IsPlain.ask (w.model.failsByShape_contentOf _).notEndless).bind fun content => ?_
      split
      · exact .pure _
      · refine (ContentModel.isPlain_renderWithin _ _ _).bind fun model => ?_
        unfold comment
        split
        · exact .tell rfl
        · exact .pure _
    · exact .pure _

theorem isPlain_declareRoot (root : QName) : (declareRoot root : Walk σ Unit).IsPlain := by
  unfold declareRoot
  split
  · exact .tell rfl
  · exact .pure _

variable [Source σ]

theorem isPlain_attributeValue (attr : EffectiveAttribute) :
    (attributeValue w attr : Walk σ (Option String)).IsPlain := by
  unfold attributeValue
  split
  · exact (IsPlain.draw _).bind fun _ => .pure _
  · exact (IsPlain.draw _).bind fun _ => .pure _
  · unfold freeValue isFilled
    refine IsPlain.bind ?_ fun filled => ?_
    · split
      · exact .pure _
      · exact .draw _
    · split
      · refine (IsPlain.ask (w.model.failsByShape_resolveSimple _).notEndless).bind fun type => ?_
        exact (IsPlain.fill (Leaf.failsByShape_value w type _)).bind fun _ => .pure _
      · exact (IsPlain.draw _).bind fun _ => .pure _

theorem isPlain_writeAttribute (attr : EffectiveAttribute) :
    (writeAttribute w attr : Walk σ Unit).IsPlain := by
  refine (isPlain_attributeValue attr).bind fun value => ?_
  split
  · exact .tell rfl
  · exact .pure _

/-- The attribute wildcard of a type is written as an attribute. -/
theorem attributeWildcard_own (path : Path) (type : ComplexType) (own : Wildcard) :
    (attributeWildcard (path.push (.complexType type (some own))) (some own) : Walk σ Unit)
      = chooseNamespace own.namespaces >>= fun uri =>
        tell (.attribute uri wildcardAttribute wildcardValue) := by
  have hpath : ((path.push (.complexType type (some own))).push
      (.wildcard own)).isAttributeWildcard = true := by
    simp [Path.isAttributeWildcard, Path.current, Path.parent, Path.push]
  simp only [attributeWildcard, wildcard, hpath, if_true]

theorem isPlain_attributeWildcard (path : Path) (type : ComplexType) (own : Option Wildcard) :
    (attributeWildcard (path.push (.complexType type own)) own : Walk σ Unit).IsPlain := by
  cases own with
  | none => exact .pure _
  | some own =>
    rw [attributeWildcard_own]
    exact (IsPlain.of_decides (decides_chooseNamespace _)).bind fun uri => .tell rfl

theorem isPlain_text (decl : ElementDecl) (type : TypeDef) :
    (text w decl type : Walk σ Unit).IsPlain := by
  refine (IsPlain.ask (w.model.failsByShape_textType type).notEndless).bind fun textType => ?_
  split
  · exact (IsPlain.fill (Leaf.failsByShape_value w _ _)).bind fun _ => .tell rfl
  · exact .pure _

end Document

end Specimen

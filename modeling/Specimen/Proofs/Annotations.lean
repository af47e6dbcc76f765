import Mathlib.Data.List.DropRight
import Specimen.Proofs.Elements

/-!
# Comments before elements

Where the policy asks for it, a comment with a content model stands before an element. The model is
that of the type that the element is *declared* with. If this type is abstract, another one stands
for it, and the element is generated for a content that the comment says nothing of.

A comment is always the last thing that is written before a start tag. So the steps of a walk never
end with a comment, except in front of a start tag, and no comment before an element is left from
what is written further in front.

## Main results

- `generate_annotated`: the comments before an element describe the content of its declared type
- `not_isDescribed_restriction`: they do not describe the content that it is generated for
-/

namespace Specimen

/-- A complex type is only generated for a complex type. -/
theorem Model.Generates.exists_complex {m : Model} {declared : TypeDef} {type : ComplexType}
    (h : m.Generates declared (.complex type)) : ∃ own, declared = .complex own := by
  cases h with
  | own _ ht => exact ⟨type, ht.symm⟩
  | subtype hd => exact ⟨_, hd⟩

namespace Document

open Walk Stretch

/-! ## The end of what is written -/

section

variable {σ : Type} {st st' : List (Step σ)} {s : σ} {answer : String}

/-- The comments behind everything else that is written. A request for a prefix writes nothing. -/
def commentsBefore (st : List (Step σ)) : List Event :=
  ((eventsOf st).filter fun e => !e.isRequest).rtakeWhile Event.isComment

theorem commentsBefore_of_uncommented (h : uncommented (eventsOf st)) : commentsBefore st = [] := by
  refine List.rtakeWhile_eq_nil_iff.mpr fun hne => ?_
  rw [h _ (List.mem_of_mem_filter (List.getLast_mem hne))]
  exact Bool.false_ne_true

theorem commentsBefore_append (h : commentsBefore st = []) (h' : commentsBefore st' = []) :
    commentsBefore (st ++ st') = [] := by
  unfold commentsBefore at h h' ⊢
  rw [eventsOf_append, List.filter_append]
  rcases List.eq_nil_or_concat' ((eventsOf st').filter fun e => !e.isRequest) with
    hnil | ⟨l, e, heq⟩
  · rwa [hnil, List.append_nil]
  · -- It is the last of these events that counts, and it is no comment.
    rw [heq, List.rtakeWhile_concat] at h'
    have he : ¬e.isComment = true := fun he => by simp [he] at h'
    rw [heq, ← List.append_assoc, List.rtakeWhile_concat_neg _ _ _ he]

theorem commentsBefore_append_requests (h : ∀ e ∈ eventsOf st', e.isRequest = true) :
    commentsBefore (st ++ st') = commentsBefore st := by
  have hnone : (eventsOf st').filter (fun e => !e.isRequest) = [] :=
    List.filter_eq_nil_iff.mpr fun e hmem => by simp [h e hmem]
  simp only [commentsBefore, eventsOf_append, List.filter_append, hnone, List.append_nil]

/-- A call that writes something comes last. -/
theorem commentsBefore_made {c : Call} (hc : (c.event answer).isRequest = false) :
    commentsBefore (st ++ [.made c s answer])
      = if (c.event answer).isComment then commentsBefore st ++ [c.event answer] else [] := by
  have hwritten : (eventsOf [Step.made c s answer]).filter (fun e => !e.isRequest)
      = [c.event answer] := List.filter_eq_self.mpr (List.forall_mem_singleton.mpr (by simp [hc]))
  rw [commentsBefore, eventsOf_append, List.filter_append, hwritten]
  exact List.rtakeWhile_concat _ _ _

end

/-! ## Annotations -/

variable {σ : Type} {w : Leaf.Setting} {s s₀ : Supply σ}
  {st before after outer remarks : List (Step (Supply σ))} {decl : ElementDecl} {type : TypeDef}

/-- The comments right before an element describe a content. The element is started with the supply
`s`. If the content has a particle, the model of this particle is rendered before the start, and
there is one comment with the model if it allows more than one row of elements. Otherwise there is
no comment. -/
def IsDescribed (m : Model) (content : Content) (before : List (Step (Supply σ))) (s : Supply σ) :
    Prop :=
  match content.particle with
  | none => commentsBefore before = []
  | some p => ∃ outer asked remark model, before = outer ++ (asked ++ remark)
    ∧ (ContentModel.render m p).Runs s asked (.ok model) s
    ∧ eventsOf remark = (if ContentModel.isVariable model then [.comment model] else [])
    ∧ commentsBefore before = eventsOf remark

theorem runs_comment {model : String} {s' : Supply σ}
    (h : (comment model : Walk σ Unit).Runs s st (.ok ()) s') :
    s' = s ∧ eventsOf st = (if ContentModel.isVariable model then [.comment model] else [])
      ∧ ∀ outer, commentsBefore outer = [] → commentsBefore (outer ++ st) = eventsOf st := by
  unfold comment at h
  split at h
  · obtain ⟨answer, rfl, rfl⟩ := runs_tell_ok h
    refine ⟨rfl, by simp_all [Call.event], fun outer houter => ?_⟩
    rw [commentsBefore_made rfl, houter]
    rfl
  · obtain ⟨rfl, -, rfl⟩ := runs_pure h
    refine ⟨rfl, by simp_all, fun outer houter => ?_⟩
    rw [List.append_nil, houter]
    rfl

/-- A content that allows one row of elements only is not described by a comment. -/
theorem not_isDescribed {m : Model} {content : Content} {p : Particle}
    (hp : content.particle = some p)
    (hmodel : ∀ asked model, (ContentModel.render m p).Runs s asked (.ok model) s →
      ContentModel.isVariable model = false)
    (hbefore : commentsBefore before ≠ []) : ¬IsDescribed m content before s := by
  intro h
  rw [IsDescribed, hp] at h
  obtain ⟨outer, asked, remark, model, -, hrender, hremark, hcomments⟩ := h
  rw [hcomments, hremark, hmodel asked model hrender] at hbefore
  exact hbefore rfl

/-- **An annotation describes the content of the type that is annotated.** -/
theorem isDescribed_of_annotate {declared : ComplexType}
    (hw : w.policy.annotateContentModel = true)
    (h : (annotate w (.complex declared) : Walk σ Unit).Runs s₀ remarks (.ok ()) s)
    (houter : commentsBefore outer = []) :
    ∃ content, w.model.contentOf declared = .ok content
      ∧ IsDescribed w.model content (outer ++ remarks) s := by
  simp only [annotate, hw, if_true] at h
  obtain ⟨content, s₁, st₁, st₂, hask, hr, rfl⟩ := runs_bind_ok h
  obtain ⟨rfl, hcontent, rfl⟩ := runs_ask hask
  refine ⟨content, hcontent.symm, ?_⟩
  -- Without a particle there is nothing to comment on.
  unfold IsDescribed
  cases hp : content.particle with
  | none =>
    simp only [hp] at hr
    obtain ⟨rfl, -, -⟩ := runs_pure hr
    rwa [List.append_nil, List.append_nil]
  | some p =>
    simp only [hp] at hr
    obtain ⟨model, s₂, asked, remark, hrender, hcomment, rfl⟩ := runs_bind_ok hr
    obtain ⟨rfl, -⟩ := ContentModel.onlyAsks_render _ _ _ _ _ _ hrender
    obtain ⟨rfl, hremark, hends⟩ := runs_comment hcomment
    -- While the model is rendered, only prefixes are asked for, which are no comments.
    have hrequests := ((ContentModel.onlyAsks_render _ _).forms _ _ _ _ hrender).2 model rfl
    have hlast := hends (outer ++ asked) (by rw [commentsBefore_append_requests hrequests, houter])
    rw [List.append_assoc] at hlast
    exact ⟨outer, asked, remark, model, rfl, hrender, hremark, hlast⟩

/-! ## Elements with their annotations -/

/-- The note on an element of a declaration that is generated for a type, with the steps before it
and behind it. Before the note, the declared type is annotated, and in front of the annotation no
comment is left. -/
inductive IsAnnotated (w : Leaf.Setting) (decl : ElementDecl) (type : TypeDef) :
    List (Step (Supply σ)) → List (Step (Supply σ)) → Prop
  | annotated {declared : TypeDef} {outer remarks rest : List (Step (Supply σ))}
      {s₀ s : Supply σ} {answer : String} (hd : w.model.resolveType decl.type = .ok declared)
      (hg : w.model.Generates declared type) (ho : commentsBefore outer = [])
      (hr : (annotate w declared : Walk σ Unit).Runs s₀ remarks (.ok ()) s) :
      IsAnnotated w decl type (outer ++ remarks)
        (.made (.startElement decl.name.namespaceUri decl.name.localName) s answer :: rest)

theorem IsAnnotated.behind (h : IsAnnotated w decl type before after)
    (hst : commentsBefore st = []) : IsAnnotated w decl type (st ++ before) after := by
  obtain ⟨hd, hg, ho, hr⟩ := h
  rw [← List.append_assoc]
  exact .annotated hd hg (commentsBefore_append hst ho) hr

theorem IsAnnotated.followed (h : IsAnnotated w decl type before after)
    (st : List (Step (Supply σ))) : IsAnnotated w decl type before (after ++ st) := by
  obtain ⟨hd, hg, ho, hr⟩ := h
  exact .annotated hd hg ho hr

/-- The note on an element stands behind its annotation. -/
def noteLaw (σ : Type) (w : Leaf.Setting) : PlaceLaw (Step (Supply σ)) :=
  fun before step after =>
    ∀ decl type, step = .noted (.element decl type) → IsAnnotated w decl type before after

/-- The steps end with no comment, and each note on an element stands behind its annotation. -/
structure IsCommented (w : Leaf.Setting) (st : List (Step (Supply σ))) : Prop where
  ends : commentsBefore st = []
  places : EachPlace (noteLaw σ w) st

namespace IsCommented

/-- Steps without comments and notes on elements. -/
theorem of_forall (hst : uncommented (eventsOf st))
    (h : ∀ step ∈ st, ∀ decl type, step ≠ .noted (.element decl type)) : IsCommented w st where
  ends := commentsBefore_of_uncommented hst
  places := .of_forall fun step hmem _ _ decl type heq => absurd heq (h step hmem decl type)

theorem append {st' : List (Step (Supply σ))} (h : IsCommented w st) (h' : IsCommented w st') :
    IsCommented w (st ++ st') where
  ends := commentsBefore_append h.ends h'.ends
  places := .of_append
    (fun _ _ _ heq decl type hnote => (h.places _ _ _ heq decl type hnote).followed st')
    (fun _ _ _ heq decl type hnote => (h'.places _ _ _ heq decl type hnote).behind h.ends)

theorem isRowLaw : IsRowLaw (IsCommented (σ := σ) w) :=
  ⟨⟨rfl, .nil⟩, append⟩

theorem made (c : Call) (s : Supply σ) (answer : String)
    (h : (c.event answer).isComment = false) : IsCommented w [.made c s answer] :=
  .of_forall (List.forall_mem_singleton.mpr h)
    (List.forall_mem_singleton.mpr fun _ _ heq => nomatch heq)

/-- What stands before an element and its start. -/
theorem opening {declared : TypeDef} (hd : w.model.resolveType decl.type = .ok declared)
    (hg : w.model.Generates declared type)
    (hr : (annotate w declared : Walk σ Unit).Runs s₀ remarks (.ok ()) s) (answer : String) :
    IsCommented w (remarks ++ [.noted (.element decl type),
      .made (.startElement decl.name.namespaceUri decl.name.localName) s answer]) where
  ends := by
    rw [List.append_cons, commentsBefore_made rfl]
    rfl
  places := by
    have hplain := (isPlain_annotate declared _ _ _ _ hr).1
    refine .of_append (fun before note after heq _ _ hnote => ?_)
      fun before note after heq _ _ hnote => ?_
    · -- There are no notes in the annotation.
      have hstep := hplain note (heq ▸ List.mem_append_right _ List.mem_cons_self)
      rw [hnote] at hstep
      exact hstep.elim
    · -- The one note behind the annotation is that of the element, in front of its start.
      cases before with
      | nil =>
        obtain ⟨rfl, rfl⟩ := List.cons.inj heq
        cases hnote
        rw [List.append_nil]
        have hnone : commentsBefore ([] : List (Step (Supply σ))) = [] := rfl
        exact .annotated hd hg hnone hr
      | cons first before =>
        obtain ⟨-, hlast⟩ := List.cons.inj heq
        have hmem : note ∈ before ++ note :: after := List.mem_append_right _ List.mem_cons_self
        rw [← List.append_eq, ← hlast, hnote] at hmem
        cases List.mem_singleton.mp hmem

end IsCommented

variable [Source σ]

omit [Source σ] in
theorem isWalkLaw_isCommented : IsWalkLaw (IsCommented (σ := σ) w) where
  toIsRowLaw := IsCommented.isRowLaw
  plain := fun st hplain hst => .of_forall hst fun step hmem decl type heq => by
    have hstep := hplain step hmem
    rw [heq] at hstep
    exact hstep
  leftOut := fun decl => .of_forall nofun (List.forall_mem_singleton.mpr nofun)
  wildcard := fun uri s answer s' answer' =>
    (IsCommented.made (.startElement uri wildcardElement) s answer rfl).append
      (.made .endElement s' answer' rfl)

theorem uncommented_of_textOf {m : Model} {l : List Event} (h : textOf m type l) :
    uncommented l := by
  rcases h with rfl | ⟨-, value, rfl⟩
  · nofun
  · exact List.forall_mem_singleton.mpr rfl

theorem isCommented_wholeElement {steps : Nat}
    (hv : ∀ path p, (visit w steps path p : Walk σ Unit).Makes (IsCommented w)) (path : Path)
    (decl : ElementDecl) :
    (wholeElement w (visit w steps) path decl : Walk σ Unit).Makes (IsCommented w) := by
  have hlaw : IsWalkLaw (IsCommented (σ := σ) w) := isWalkLaw_isCommented
  intro s st _ s' hr
  obtain ⟨declared, type, remarks, inner, words, s₁, answer, answer', hrun, ⟨_, _, hstructured⟩,
    ⟨_, htext⟩, rfl⟩ := runs_wholeElement hr
  obtain ⟨_, hremarks⟩ := hrun.annotate
  have hopening := IsCommented.opening hrun.resolveType hrun.generates hremarks answer
  have hinner := makes_structured hlaw hv _ _ _ _ _ _ _ hstructured
  have hwords : IsCommented w words := hlaw.plain words (isPlain_text decl type _ _ _ _ htext).1
    (uncommented_of_textOf ((forms_text decl type _ _ _ _ htext).2 () rfl))
  have hrest := hinner.append (hwords.append (.made .endElement s' answer' rfl))
  simpa using hopening.append hrest

/-- **In a run that succeeds, every element stands behind its annotation**, and no other comment is
left in front of it. -/
theorem makes_commented (w : Leaf.Setting) (root : QName) :
    (walk w root : Walk σ Unit).Makes (IsCommented w) :=
  makes_walk isWalkLaw_isCommented
    (fun _ path decl hv => isCommented_wholeElement hv path decl) root

/-- **The comments before an element describe the content of its declared type.** In a run that
succeeds, take any element that is generated for a complex type. It is declared with a complex type
as well, which is the same one unless it is abstract, and the comments right before the element
describe the content of this declared type. -/
theorem generate_annotated {ω : Type} [Writer ω] (w : Leaf.Setting) (root : QName) (source : σ)
    (writer : ω) (hw : w.policy.annotateContentModel = true)
    (hok : (generate w root source writer).result = .ok ()) :
    ∀ before decl type uri name s answer behind,
      steps w root source writer = before ++ .noted (.element decl (.complex type))
        :: .made (.startElement uri name) s answer :: behind →
      ∃ declared content, w.model.resolveType decl.type = .ok (.complex declared)
        ∧ w.model.Generates (.complex declared) (.complex type)
        ∧ w.model.contentOf declared = .ok content ∧ IsDescribed w.model content before s := by
  intro before decl type uri name s answer behind heq
  have hruns := Script.runs_steps (walk w root { source }) writer
  rw [show ((walk w root { source }).run writer).1.1 = .ok () from hok] at hruns
  have hplace := (makes_commented w root _ _ _ _ hruns).places _ _ _ heq _ _ rfl
  generalize hafter : Step.made (.startElement uri name) s answer :: behind = after at hplace
  obtain @⟨declared, outer, remarks, rest, s₀, s₁, answer', hd, hg, ho, hr⟩ := hplace
  cases hafter
  obtain ⟨own, rfl⟩ := hg.exists_complex
  obtain ⟨content, hcontent, hdescribed⟩ := isDescribed_of_annotate hw hr ho
  exact ⟨own, content, hd, hg, hcontent, hdescribed⟩

/-- The content of an element `b` that occurs as often as this. -/
def loneContent (occurs : Occurs) : Content :=
  let b : ElementDecl := ⟨0, .bare "b", .builtin "string", .local, false, none⟩
  .elements ⟨.once, .group ⟨.sequence, [⟨occurs, .element b⟩]⟩⟩

/-- A schema whose root has an abstract type with the content `(b?)`. The type that stands for it
restricts the content to `(b)`. -/
def restricting : Leaf.Setting :=
  let base : ComplexType := ⟨some (.bare "Base"), true, loneContent ⟨0, some 1⟩, [], none, none⟩
  let sub : ComplexType :=
    ⟨some (.bare "Sub"), false, loneContent .once, [], none, some ⟨.restriction, .bare "Base"⟩⟩
  let root : ElementDecl := ⟨0, .bare "a", .named (.bare "Base"), .global, false, none⟩
  { model := ((Model.builtin.addNamedType (.bare "Base") (.complex base)).addNamedType (.bare "Sub")
      (.complex sub)).addElement root
    policy := {}
    now := default }

/-- A run for its root. -/
def restrictingRun : Outcome Scripted Recorder := generate restricting (.bare "a") ⟨[], 0⟩ {}

/-- The steps of this run. -/
def restrictingSteps : List (Step (Supply Scripted)) :=
  steps restricting (.bare "a") (⟨[], 0⟩ : Scripted) ({} : Recorder)

theorem built_restricting : restricting.model.Built := by
  dsimp only [restricting]
  exact ((Model.built_builtin.type _ _).type _ _).element _

theorem result_restrictingRun : restrictingRun.result = .ok () := by decide +kernel

set_option maxRecDepth 4000 in
/-- The root of this schema stands behind a comment with the content of the abstract type. -/
theorem generate_annotated_restriction :
    restricting.model.Built ∧ restricting.policy.annotateContentModel = true
      ∧ restrictingRun.result = .ok ()
      ∧ ∃ before decl type s behind, restrictingSteps = before
          ++ .noted (.element decl (.complex type)) :: .made (.startElement "" "a") s "" :: behind
        ∧ commentsBefore before = [.comment "(b?)"]
        ∧ ∃ declared content, restricting.model.resolveType decl.type = .ok (.complex declared)
          ∧ restricting.model.Generates (.complex declared) (.complex type)
          ∧ restricting.model.contentOf declared = .ok content
          ∧ IsDescribed restricting.model content before s := by
  refine ⟨built_restricting, rfl, result_restrictingRun, [_, _, _], _, _, _, _, rfl,
    by decide +kernel, ?_⟩
  exact generate_annotated restricting (.bare "a") _ _ rfl result_restrictingRun _ _ _ "" "a" _ "" _
    rfl

set_option maxRecDepth 4000 in
/-- **A comment may describe another content than that of the element.** The content for which the
root of this schema is generated has the model `(b)`, which allows one row of elements only. The
comment before it says `(b?)`. -/
theorem not_isDescribed_restriction :
    restricting.model.Built ∧ restricting.policy.annotateContentModel = true
      ∧ restrictingRun.result = .ok ()
      ∧ ∃ before decl type s behind, restrictingSteps = before
          ++ .noted (.element decl (.complex type)) :: .made (.startElement "" "a") s "" :: behind
        ∧ commentsBefore before = [.comment "(b?)"]
        ∧ ∃ content p, restricting.model.contentOf type = .ok content ∧ content.particle = some p
          ∧ (∀ asked model, (ContentModel.render restricting.model p).Runs s asked (.ok model) s →
            model = "(b)")
          ∧ ¬IsDescribed restricting.model content before s := by
  refine ⟨built_restricting, rfl, result_restrictingRun, [_, _, _], _, _, _, _, rfl,
    by decide +kernel, _, _, rfl, rfl, ?_⟩
  have hmodel {p : Particle} {s : Supply Scripted} {text : String}
      (hp : ContentModel.render restricting.model p s = .stop (.ok text) s) (htext : text = "(b)")
      (asked : List (Step (Supply Scripted))) (model : String)
      (hrender : (ContentModel.render restricting.model p).Runs s asked (.ok model) s) :
      model = "(b)" := by
    rw [Runs, hp] at hrender
    rw [← htext]
    exact Except.ok.inj (runs_pure hrender).2.1
  -- The comment is the rendering of another model, and a rendering has one outcome.
  refine ⟨hmodel rfl (by decide +kernel), not_isDescribed rfl (fun asked model hrender => ?_) ?_⟩
  · rw [hmodel rfl (by decide +kernel) asked model hrender]
    decide +kernel
  · decide +kernel

end Document

end Specimen

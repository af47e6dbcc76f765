import Specimen.Proofs.AttributeDecisions

/-!
# Elements are written for their types

Each part of a walk leads to steps that are described by the schema, and so does the walk through a
particle if the walk through the particles inside it does. Together with the order of what is
reported this is the grammar of documents: which events there are and where each of them comes from.
-/

namespace Specimen.Document

open Walk

variable {σ : Type} [Source σ] {w : Leaf.Setting} {st : List (Step (Supply σ))} {m : Model} {α : Type}

/-! ## Parts of a walk -/

/-- Wherever the walk succeeds, its steps are as described, and every element that is begun in them
is written for its type. -/
def Leads (w : Leaf.Setting) (walk : Walk σ Unit) (P : List (Step (Supply σ)) → Prop) : Prop :=
  ∀ s st s', walk.Runs s st (.ok ()) s' → P st ∧ EachWritten w st

namespace Leads

variable {P Q R : List (Step (Supply σ)) → Prop} {walk : Walk σ Unit}

theorem imp (h : Leads w walk P) (hPQ : ∀ st, P st → Q st) : Leads w walk Q := by
  intro s st s' hr
  obtain ⟨hP, heach⟩ := h _ _ _ hr
  exact ⟨hPQ st hP, heach⟩

theorem pure (h : P []) : Leads w (Pure.pure () : Walk σ Unit) P := by
  intro s st s' hr
  obtain ⟨rfl, -, -⟩ := runs_pure hr
  exact ⟨h, .nil⟩

theorem fail (e : Error) : Leads w (fail e : Walk σ Unit) P := by
  intro s st s' hr
  obtain ⟨-, hr, -⟩ := runs_fail hr
  cases hr

theorem of_isPlain (h : walk.IsPlain) (hP : ∀ s st s', walk.Runs s st (.ok ()) s' → P st) :
    Leads w walk P :=
  fun s st s' hr => ⟨hP s st s' hr, .of_isPlain (h _ _ _ _ hr).1⟩

theorem tell {c : Call} (hc : ∀ uri name, c ≠ .startElement uri name)
    (h : ∀ s answer, P [.made c s answer]) : Leads w (tell c : Walk σ Unit) P := by
  intro s st s' hr
  obtain ⟨answer, rfl, rfl⟩ := runs_tell_ok hr
  exact ⟨h _ _, .made hc _ _⟩

/-- What is known of the events of a walk holds besides. -/
theorem forms {S : Stretch} (h : Leads w walk P) (h' : Forms walk S) :
    Leads w walk fun st => P st ∧ S (eventsOf st) := by
  intro s st s' hr
  obtain ⟨hP, heach⟩ := h _ _ _ hr
  exact ⟨⟨hP, (h' _ _ _ _ hr).2 () rfl⟩, heach⟩

theorem andThen {next : Unit → Walk σ Unit} (h : Leads w walk P) (h' : Leads w (next ()) Q)
    (hR : ∀ st st', P st → Q st' → R (st ++ st')) : Leads w (walk >>= next) R := by
  intro s st s' hr
  obtain ⟨_, s₁, st₁, st₂, hr₁, hr₂, rfl⟩ := runs_bind_ok hr
  obtain ⟨hP, heach⟩ := h _ _ _ hr₁
  obtain ⟨hQ, heach'⟩ := h' _ _ _ hr₂
  exact ⟨hR _ _ hP hQ, heach.append heach'⟩

/-- A decision before a walk. -/
theorem decide {decision : Walk σ α} {A : α → Prop} {next : α → Walk σ Unit}
    (h : Decides decision A) (h' : ∀ a, A a → Leads w (next a) P) :
    Leads w (decision >>= next) P := by
  intro s st s' hr
  obtain ⟨a, s₁, st₁, st₂, hr₁, hr₂, rfl⟩ := runs_bind_ok hr
  obtain ⟨rfl, -, ha⟩ := h _ _ _ _ hr₁
  exact h' a (ha a rfl) _ _ _ hr₂

/-- A question about the schema before a walk. -/
theorem ask {answer : Except Error α} {next : α → Walk σ Unit}
    (h : ∀ a, answer = .ok a → Leads w (next a) P) : Leads w (ask answer >>= next) P := by
  intro s st s' hr
  obtain ⟨a, s₁, st₁, st₂, hr₁, hr₂, rfl⟩ := runs_bind_ok hr
  obtain ⟨rfl, ha, -⟩ := runs_ask hr₁
  exact h a ha.symm _ _ _ hr₂

theorem each {ι : Type} {walk : ι → Walk σ Unit} {P : List ι → List (Step (Supply σ)) → Prop}
    {Q : ι → List (Step (Supply σ)) → Prop} {l : List ι} (h : ∀ i ∈ l, Leads w (walk i) (Q i))
    (hnil : P [] []) (hcons : ∀ i rest st st', Q i st → P rest st' → P (i :: rest) (st ++ st')) :
    Leads w (each l walk) (P l) := by
  induction l with
  | nil => exact pure hnil
  | cons i rest ih =>
    exact andThen (h i List.mem_cons_self) (ih fun j hj => h j (List.mem_cons_of_mem _ hj))
      (hcons i rest)

theorem times {t : Term} (n : Nat) (h : Leads w walk (YieldsOnce w t)) :
    Leads w (times n walk) (YieldsTimes w t n) := by
  induction n with
  | zero => exact pure .zero
  | succ n ih => exact andThen h ih fun _ _ hst hst' => .succ hst hst'

end Leads

/-! ### Start tags -/

theorem AttributeRow.append {attr : EffectiveAttribute} {attrs : List EffectiveAttribute}
    {l l' : List Event} (h : AttributeRow σ w [attr] l) (h' : AttributeRow σ w attrs l') :
    AttributeRow σ w (attr :: attrs) (l ++ l') := by
  cases h with
  | omitted h hl =>
    cases hl
    exact .omitted h h'
  | written h hl =>
    cases hl
    exact .written h h'

theorem leads_writeAttribute (attr : EffectiveAttribute) :
    Leads w (writeAttribute w attr : Walk σ Unit) fun st => AttributeRow σ w [attr] (eventsOf st) := by
  refine .of_isPlain (isPlain_writeAttribute attr) fun s st s' hr => ?_
  obtain ⟨value, s₁, st₁, st₂, hvalue, hr₂, rfl⟩ := runs_bind_ok hr
  have htext := (decided_of_runs hvalue).attributeText
  obtain rfl := isSilent_attributeValue attr _ _ _ _ hvalue
  cases value with
  | none =>
    obtain ⟨rfl, -, -⟩ := runs_pure hr₂
    exact .omitted htext .nil
  | some value =>
    obtain ⟨answer, rfl, -⟩ := runs_tell_ok hr₂
    exact .written htext .nil

theorem leads_attributes (attrs : List EffectiveAttribute) :
    Leads w (each attrs (writeAttribute w) : Walk σ Unit)
      fun st => AttributeRow σ w attrs (eventsOf st) :=
  Leads.each (P := fun attrs st => AttributeRow σ w attrs (eventsOf st))
    (fun attr _ => leads_writeAttribute attr) .nil fun attr rest st st' h h' => by
      rw [eventsOf_append]
      exact h.append h'

/-- **The attribute wildcard of a type is written as an attribute.** -/
theorem leads_attributeWildcard (path : Path) (type : ComplexType) (own : Option Wildcard) :
    Leads w (attributeWildcard (path.push (.complexType type own)) own : Walk σ Unit)
      fun st => WildcardAttribute own (eventsOf st) := by
  cases own with
  | none => exact .pure .none
  | some own =>
    rw [attributeWildcard_own]
    refine Leads.decide (decides_chooseNamespace own.namespaces) fun uri huri => ?_
    exact .tell (by simp) fun s answer => .some huri

/-- The type that stands for an abstract one is announced. -/
theorem leads_announce {declared : TypeDef} {type : ComplexType} {isSubstitute : Bool}
    (h : isSubstitute = true ↔ declared.IsAbstract) :
    Leads w (announce type isSubstitute : Walk σ Unit)
      fun st => Announces declared type (eventsOf st) := by
  refine .of_isPlain (isPlain_announce type isSubstitute) fun s st s' hr => ?_
  unfold announce announceType at hr
  split at hr
  · rename_i hsubstitute
    split at hr
    · cases (runs_fail hr).2.1
    · rename_i name hname
      obtain ⟨pfx, s₁, st₁, st₂, hcall, htell, rfl⟩ := runs_bind_ok hr
      obtain ⟨answer, rfl, -⟩ := runs_tell_ok htell
      obtain ⟨-, ⟨answer', rfl, hpfx⟩ | ⟨e, -, he⟩⟩ := runs_call hcall
      · cases hpfx
        exact .subtype (h.mp hsubstitute) hname pfx
      · cases he
  · rename_i hsubstitute
    obtain ⟨rfl, -, -⟩ := runs_pure hr
    exact .own (mt h.mpr hsubstitute)

/-- Where a type is declared abstract, another one stands for it. -/
theorem decides_isSubstitute (declared : TypeDef) :
    Decides (effectiveType m declared : Walk σ (TypeDef × Bool))
      fun chosen => m.Generates declared chosen.1 ∧ (chosen.2 = true ↔ declared.IsAbstract) := by
  intro s st r s' hr
  obtain ⟨rfl, hend, hgenerates⟩ := decides_effectiveType declared s st r s' hr
  refine ⟨rfl, hend, fun chosen hchosen => ⟨hgenerates chosen hchosen, ?_⟩⟩
  subst hchosen
  unfold effectiveType at hr
  cases declared with
  | simple type =>
    cases (runs_pure hr).2.1
    exact iff_of_false nofun fun ⟨_, h, _⟩ => nomatch h
  | complex type =>
    simp only at hr
    split at hr
    · rename_i ha
      obtain ⟨sub, s₁, st₁, st₂, -, hr₂, -⟩ := runs_bind_ok hr
      cases (runs_pure hr₂).2.1
      exact iff_of_true rfl ⟨type, rfl, ha⟩
    · rename_i ha
      cases (runs_pure hr).2.1
      refine iff_of_false nofun ?_
      rintro ⟨_, h, ha'⟩
      cases h
      exact ha ha'

/-! ### Elements -/

variable {visit : Visit σ}

/-- Particles are walked through as they should be: what is written for each may stand for it. -/
def VisitsYield (w : Leaf.Setting) (visit : Visit σ) : Prop :=
  ∀ path p, w.model.Covers p.parts → IsInContent path p.term →
    Leads w (visit path p) (Yields w p)

/-- The steps are the content of a type, and their events are elements. -/
def IsContent (w : Leaf.Setting) (type : TypeDef) (st : List (Step (Supply σ))) : Prop :=
  ContentOf w type st ∧ elementsOf w.model type (eventsOf st)

theorem leads_content (hm : w.model.Numbered) (hv : VisitsYield w visit) (ho : VisitsInOrder visit)
    {path : Path} {type : ComplexType} {own : Option Wildcard} (ht : w.model.Covers type.parts)
    (hown : w.model.wildcardOf type = .ok own) :
    Leads w (content w visit (path.push (.complexType type own)) type)
      (IsContent w (.complex type)) := by
  refine Leads.ask fun content hc => ?_
  cases hp : content.particle with
  | none => exact .pure ⟨.noElements hc hp, elementsOf_nil _ _⟩
  | some p =>
    have hin : IsInContent (path.push (.complexType type own)) p.term :=
      isInContent_of_contentOf hm ht hown hc hp
    refine ((hv _ p (Model.covers_of_contentOf hc hp ht) hin).forms
      (forms_contentParticle ho hc hp hin)).imp ?_
    rintro st ⟨hst, hevents⟩
    exact ⟨.elements hc hp hst, hevents⟩

theorem leads_structured (hm : w.model.Numbered) (hv : VisitsYield w visit)
    (ho : VisitsInOrder visit) {path : Path} {declared type : TypeDef} {isSubstitute : Bool}
    (ht : w.model.Covers type.parts) (h : isSubstitute = true ↔ declared.IsAbstract) :
    Leads w (structured w visit path type isSubstitute) fun st => ∃ tag content,
      st = tag ++ content ∧ TagOf σ w declared type (eventsOf tag) ∧ IsContent w type content := by
  cases type with
  | simple type => exact .pure ⟨[], [], rfl, .simple, .simple, elementsOf_nil _ _⟩
  | complex type =>
    rw [TypeDef.parts] at ht
    simp only [structured, complexType]
    split
    · exact .fail _
    · -- Announcement, attributes, attribute wildcard and content follow each other in this order.
      refine Leads.andThen (leads_announce h) (Q := fun st => ∃ own attrs tag content,
        st = tag ++ content ∧ w.model.wildcardOf type = .ok own
          ∧ w.model.attributesOf type = .ok attrs
          ∧ (∃ attributes wildcard, eventsOf tag = attributes ++ wildcard
            ∧ AttributeRow σ w attrs attributes ∧ WildcardAttribute own wildcard)
          ∧ IsContent w (.complex type) content) ?_ ?_
      · refine Leads.ask fun own hown => Leads.ask fun attrs hattrs => ?_
        refine (leads_attributes attrs).andThen
          ((leads_attributeWildcard path type own).andThen (leads_content hm hv ho ht hown)
            (R := fun st => ∃ wildcard content, st = wildcard ++ content
              ∧ WildcardAttribute own (eventsOf wildcard) ∧ IsContent w (.complex type) content)
            fun st st' h h' => ⟨st, st', rfl, h, h'⟩) ?_
        rintro st _ hrow ⟨wildcard, content, rfl, hw, hcontent⟩
        exact ⟨own, attrs, st ++ wildcard, content, (List.append_assoc _ _ _).symm, hown, hattrs,
          ⟨_, _, eventsOf_append, hrow, hw⟩, hcontent⟩
      · rintro st _ ha ⟨own, attrs, tag, content, rfl, hown, hattrs, ⟨l, l', htag, hrow, hw⟩, hcontent⟩
        refine ⟨st ++ tag, content, (List.append_assoc _ _ _).symm, ?_, hcontent⟩
        rw [eventsOf_append, htag]
        exact .complex ha hattrs hrow hown hw

theorem leads_text (decl : ElementDecl) (type : TypeDef) :
    Leads w (text w decl type : Walk σ Unit) (TextOf w decl type) := by
  refine .of_isPlain (isPlain_text decl type) fun s st s' hr => ?_
  obtain ⟨textType, s₁, st₁, st₂, hask, hr₂, rfl⟩ := runs_bind_ok hr
  obtain ⟨rfl, htype, -⟩ := runs_ask hask
  cases textType with
  | none =>
    obtain ⟨rfl, -, -⟩ := runs_pure hr₂
    exact .none htype.symm
  | some textType =>
    obtain ⟨value, s₂, st₃, st₄, hfill, htell, rfl⟩ := runs_bind_ok hr₂
    obtain ⟨rfl, hvalue, -⟩ := runs_fill hfill
    obtain ⟨answer, rfl, -⟩ := runs_tell_ok htell
    exact .filled htype.symm ⟨_, _, Prod.ext hvalue.symm rfl⟩

/-- The runs that the run of an element is made of, one after another: the annotation of its declared
type, what the type that it is generated for asks for, and its text. -/
theorem runs_wholeElement_ok {path : Path} {decl : ElementDecl} {s s' : Supply σ}
    {st : List (Step (Supply σ))}
    (h : (wholeElement w visit path decl).Runs s st (.ok ()) s') :
    ∃ declared type isSubstitute remarks inner words s₀ s₁ s₂ answer answer',
      w.model.resolveType decl.type = .ok declared ∧ w.model.Generates declared type
      ∧ (isSubstitute = true ↔ declared.IsAbstract)
      ∧ (annotate w declared : Walk σ Unit).Runs s₀ remarks (.ok ()) s₁
      ∧ (structured w visit (path.push (.element decl)) type isSubstitute).Runs s₁ inner (.ok ()) s₂
      ∧ (text w decl type).Runs s₂ words (.ok ()) s'
      ∧ st = remarks ++ .noted (.element decl type)
        :: .made (.startElement decl.name.namespaceUri decl.name.localName) s₁ answer
        :: (inner ++ (words ++ [.made .endElement s' answer'])) := by
  -- First what is settled before the element is begun; no step is made for it.
  obtain ⟨declared, s₁, st₁, st₂, hask, hr₂, rfl⟩ := runs_bind_ok h
  obtain ⟨rfl, hdeclared, -⟩ := runs_ask hask
  obtain ⟨⟨type, isSubstitute⟩, s₂, st₃, st₄, htype, hr₄, rfl⟩ := runs_bind_ok hr₂
  obtain ⟨rfl, -, hchosen⟩ := decides_isSubstitute declared _ _ _ _ htype
  obtain ⟨hgenerates, hflag⟩ := hchosen _ rfl
  -- Then the comment, the note and the start tag.
  obtain ⟨_, s₃, remarks, st₅, hremarks, hr₅, rfl⟩ := runs_bind_ok hr₄
  obtain ⟨_, s₄, st₆, st₇, hnote, hr₇, rfl⟩ := runs_bind_ok hr₅
  obtain ⟨rfl, -, rfl⟩ := runs_note hnote
  obtain ⟨_, s₅, st₈, st₉, hstart, hr₉, rfl⟩ := runs_bind_ok hr₇
  obtain ⟨answer, rfl, rfl⟩ := runs_tell_ok hstart
  -- And then what stands up to the end tag.
  obtain ⟨_, s₆, inner, st₁₀, hstructured, hr₁₀, rfl⟩ := runs_bind_ok hr₉
  obtain ⟨_, s₇, words, st₁₁, htext, hend, rfl⟩ := runs_bind_ok hr₁₀
  obtain ⟨answer', rfl, rfl⟩ := runs_tell_ok hend
  exact ⟨declared, type, isSubstitute, remarks, inner, words, s₂, s₅, s₆, answer, answer',
    hdeclared.symm, hgenerates, hflag, hremarks, hstructured, htext, rfl⟩

/-- **An element is written for its type.** -/
theorem leads_wholeElement (hm : w.model.Numbered) (hv : VisitsYield w visit)
    (ho : VisitsInOrder visit) {path : Path} {decl : ElementDecl}
    (hd : w.model.Covers decl.parts) :
    Leads w (wholeElement w visit path decl) (Occurrence decl) := by
  intro s st s' hr
  have helement := (forms_wholeElement ho decl _ _ _ _ hr).2 () rfl
  obtain ⟨declared, type, isSubstitute, remarks, inner, words, s₀, s₁, s₂, answer, answer',
    hdeclared, hg, hflag, hremarks, hstructured, htext, rfl⟩ := runs_wholeElement_ok hr
  have hplain := (isPlain_annotate declared _ _ _ _ hremarks).1
  have hcovers : w.model.Covers type.parts :=
    hg.covers (Model.covers_of_resolveType hdeclared (hd.mono decl.parts_type_subset))
  obtain ⟨⟨tag, content, rfl, htag, hcontent, helements⟩, heach⟩ :=
    leads_structured hm hv ho hcovers hflag _ _ _ hstructured
  obtain ⟨⟨htext, hword⟩, heach'⟩ :=
    (leads_text decl type).forms (forms_text decl type) _ _ _ htext
  have hmade : IsMadeOf w decl declared type tag content words := by
    refine ⟨hdeclared, hg, ?_, htag, hcontent, htext, ?_⟩
    · rintro complex rfl
      rw [TypeDef.parts] at hcovers
      exact hcovers.type
    · rw [eventsOf_append]
      exact isInside_append helements hword
  rw [← List.append_assoc (tag ++ content) words] at helement ⊢
  refine ⟨.whole hplain helement, ?_⟩
  rw [List.append_cons]
  refine .start ?_ ((EachWritten.of_isPlain hplain).append (.noted _))
    ((heach.append heach').append (.made (by simp) _ _))
  rw [List.append_assoc (tag ++ content), List.append_assoc tag]
  exact .declared hmade

theorem leads_concreteElement (hm : w.model.Numbered) (hv : VisitsYield w visit)
    (ho : VisitsInOrder visit) {path : Path} {decl : ElementDecl}
    (hd : w.model.Covers decl.parts) :
    Leads w (concreteElement w visit path decl) (Occurrence decl) := by
  unfold concreteElement
  split
  · intro s st s' hr
    obtain ⟨rfl, -, -⟩ := runs_note hr
    exact ⟨.leftOut, .noted _⟩
  · exact leads_wholeElement hm hv ho hd

theorem leads_element (hm : w.model.Numbered) (hv : VisitsYield w visit) (ho : VisitsInOrder visit)
    {path : Path} {decl : ElementDecl} (hd : w.model.Covers decl.parts) :
    Leads w (element w visit path decl)
      fun st => ∃ other, w.model.StandsFor decl other ∧ Occurrence other st := by
  unfold element
  split
  · rename_i ha
    refine Leads.decide (decides_chooseSubstitute decl) fun member hmember => ?_
    have hstands : w.model.StandsFor decl member := .member ha hmember
    exact (leads_concreteElement hm hv ho (hstands.covers hd)).imp fun st hst =>
      ⟨member, hstands, hst⟩
  · rename_i ha
    have hstands : w.model.StandsFor decl decl := .own (by simpa using ha) rfl
    exact (leads_concreteElement hm hv ho hd).imp fun st hst => ⟨decl, hstands, hst⟩

/-! ### Particles -/

theorem leads_wildcard {path : Path} {own : Wildcard} (h : IsInContent path (.any own)) :
    Leads w (wildcard path own : Walk σ Unit) (YieldsOnce w (.any own)) := by
  refine Leads.decide (decides_chooseNamespace own.namespaces) fun uri huri => ?_
  rw [if_neg (by rw [h own rfl]; simp)]
  intro s st s' hr
  obtain ⟨_, s₁, st₁, st₂, hstart, hend, rfl⟩ := runs_bind_ok hr
  obtain ⟨answer, rfl, rfl⟩ := runs_tell_ok hstart
  obtain ⟨answer', rfl, rfl⟩ := runs_tell_ok hend
  exact ⟨.any huri, .empty _ _ _ _ _⟩

theorem leads_repeated {walk : Walk σ Unit} {p : Particle} (h : Leads w walk (YieldsOnce w p.term)) :
    Leads w (repeated w p.occurs walk) (Yields w p) := by
  have hcount : Decides (draw (Count.ofOccurs w.policy p.occurs) : Walk σ Nat)
      fun n => p.occurs.InOrder → p.occurs.contains n = true :=
    .draw fun s ho => Count.contains_ofOccurs ho w.policy s
  exact Leads.decide hcount fun n hn => (Leads.times n h).imp fun st hst => .repeated hn hst

theorem leads_each (hv : VisitsYield w visit) (path : Path) (c : Compositor)
    {particles : List Particle} (hp : ∀ p ∈ particles, w.model.Covers p.parts) :
    Leads w (each particles (visit (path.push (.group c)))) (YieldsAll w particles) :=
  Leads.each (fun p hmem => hv _ p (hp p hmem) fun _ _ => rfl) .nil
    fun _ _ _ _ h h' => .cons h h'

/-- A group, declared in place or referred to. -/
theorem leads_modelGroup (hv : VisitsYield w visit) {path : Path} {group : ModelGroup}
    {occurs : Occurs} {t : Term} (ht : GroupOf w.model t group) (hg : w.model.Covers group.parts) :
    Leads w (modelGroup w visit path group occurs) (Yields w ⟨occurs, t⟩) := by
  have hcover {particles : List Particle} (hsub : particles ⊆ group.particles) :
      ∀ p ∈ particles, w.model.Covers p.parts := fun p hmem =>
    hg.mono (ModelGroup.parts_subset (hsub hmem))
  unfold modelGroup
  split
  · rename_i hc
    obtain ⟨compositor, branches⟩ := group
    cases hc
    refine Leads.decide (A := fun shuffled => shuffled.Perm branches)
      (.draw fun s => Draw.shuffle_perm branches s) fun shuffled hperm => ?_
    refine (leads_each hv path .choice (hcover fun p hmem => ?_)).imp fun st hst =>
      .choice ht hperm hst
    exact hperm.subset (List.mem_of_mem_take hmem)
  · rename_i hc
    refine leads_repeated (p := ⟨occurs, t⟩) (Leads.decide (decides_order group) fun order ho => ?_)
    refine (leads_each hv path group.compositor (hcover fun p hmem => ?_)).imp fun st hst =>
      .group ht hc ho hst
    split at ho
    · exact ho.subset hmem
    · rwa [← ho]

/-- **What is written for a particle may stand for it, if this is so for the particles inside
it.** -/
theorem visitsYield_particle (hm : w.model.Numbered) (hv : VisitsYield w visit)
    (ho : VisitsInOrder visit) : VisitsYield w (particle w visit) := by
  rintro path ⟨occurs, term⟩ hcov hpath
  have hterm : w.model.Covers term.parts := hcov.mono (by simp [Particle.parts])
  cases term with
  | group group =>
    rw [Term.parts] at hterm
    exact leads_modelGroup hv (.group group) hterm
  | groupRef name =>
    refine Leads.ask fun group hgroup => ?_
    exact leads_modelGroup hv (.groupRef (Model.get?_of_resolveGroup hgroup))
      (Model.covers_of_resolveGroup hgroup)
  | element decl =>
    rw [Term.parts] at hterm
    refine leads_repeated (p := ⟨occurs, .element decl⟩) ((leads_element hm hv ho hterm).imp ?_)
    rintro st ⟨other, hother, hst⟩
    exact .element hother hst
  | elementRef name =>
    refine leads_repeated (p := ⟨occurs, .elementRef name⟩) (Leads.ask fun decl hdecl => ?_)
    refine (leads_element hm hv ho (Model.covers_of_resolveElement hdecl)).imp ?_
    rintro st ⟨other, hother, hst⟩
    exact .elementRef (Model.get?_of_resolveElement hdecl) hother hst
  | any own => exact leads_repeated (p := ⟨occurs, .any own⟩) (leads_wildcard hpath)

/-- The induction on how many particles may stand inside each other. -/
theorem visitsYield_visit (hm : w.model.Numbered) (steps : Nat) :
    VisitsYield w (Document.visit w steps : Visit σ) := by
  induction steps with
  | zero => exact fun path p _ _ => .fail _
  | succ steps ih => exact visitsYield_particle hm ih (visitsInOrder_visit steps)

/-- **In a run that succeeds, every element is written for its type.** -/
theorem leads_walk (hm : w.model.Numbered) (root : QName) :
    Leads w (walk w root : Walk σ Unit) fun _ => True := by
  refine Leads.ask fun decl hdecl => ?_
  have htell {c : Call} (hc : ∀ uri name, c ≠ .startElement uri name) :
      Leads w (tell c : Walk σ Unit) fun _ => True := .tell hc fun _ _ => trivial
  have hroot : Leads w (declareRoot root : Walk σ Unit) fun _ => True :=
    .of_isPlain (isPlain_declareRoot root) fun _ _ _ _ => trivial
  have helement : Leads w (element w (visit w (depthBound w.model)) .empty decl : Walk σ Unit)
      fun st => ∃ other, w.model.StandsFor decl other ∧ Occurrence other st :=
    leads_element hm (visitsYield_visit hm _) (visitsInOrder_visit _)
      (Model.covers_of_rootElement hdecl)
  refine (htell (by simp)).andThen (Q := fun _ => True) ?_ fun _ _ _ _ => trivial
  refine (htell (by simp)).andThen (Q := fun _ => True) ?_ fun _ _ _ _ => trivial
  refine hroot.andThen (Q := fun _ => True) ?_ fun _ _ _ _ => trivial
  exact helement.andThen (htell (by simp)) fun _ _ _ _ => trivial

/-! ## Documents -/

/-- **The grammar of event streams.** In every schema that is built, and whatever the policy and the
source: if a document is generated to its end, its events are those of one document with one root
element, and every element is written for its type, with one attribute for the attribute wildcard
before any content and one empty element for every wildcard in the content. If the run fails, the
events are the beginning of such a stream. -/
theorem generate_grammar (w : Leaf.Setting) (root : QName) (source : σ) (hm : w.model.Built) :
    let run := generate w root source ({} : Recorder)
    run.writer.events.toList = eventsOf (steps w root source ({} : Recorder))
      ∧ (run.result = .ok () → Event.IsDocument root run.writer.events.toList
        ∧ EachWritten w (steps w root source ({} : Recorder)))
      ∧ ∀ e, run.result = .error e →
        ∃ more, Event.IsDocument root (run.writer.events.toList ++ more) := by
  intro run
  have hevents := events_generate w root source
  have hruns := Script.runs_steps (walk w root { source }) ({} : Recorder)
  obtain ⟨hbegins, hwhole⟩ := forms_walk w root _ _ _ _ hruns
  refine ⟨hevents, fun hok => ⟨?_, ?_⟩, fun e _ => ?_⟩
  · rw [hevents]
    exact hwhole () hok
  · rw [show ((walk w root { source }).run ({} : Recorder)).1.1 = .ok () from hok] at hruns
    exact (leads_walk hm.numbered root _ _ _ hruns).2
  · rw [hevents]
    exact hbegins

/-- An element that holds one element of any name, and may have any attribute. -/
def loneWildcardRoot : ElementDecl :=
  let content : Content := .elements ⟨.once, .any ⟨0, .any⟩⟩
  let type : ComplexType := ⟨none, false, content, [], some ⟨0, .any⟩, none⟩
  ⟨0, .bare "a", .anonymous (.complex type), .global, false, none⟩

/-- The schema that declares this element. -/
def loneWildcard : Leaf.Setting where
  model := Model.builtin.addElement loneWildcardRoot
  policy := {}
  now := default

/-- A wildcard that is the whole content is written as an element, and the other one as an
attribute. -/
theorem generate_grammar_loneWildcard :
    loneWildcard.model.Built
      ∧ (generate loneWildcard (.bare "a") (⟨[], 0⟩ : Scripted) ({} : Recorder)).writer.events.toList
        = [.startDocument, .declarePrefix Namespace.xsi "xsi", .startElement "" "a",
          .attribute "anyNS" "anyAttr" "anyValue", .startElement "anyNS" "anyElement", .endElement,
          .endElement, .endDocument]
      ∧ Event.IsDocument (.bare "a") (generate loneWildcard (.bare "a") (⟨[], 0⟩ : Scripted)
        ({} : Recorder)).writer.events.toList
      ∧ EachWritten loneWildcard (steps loneWildcard (.bare "a") (⟨[], 0⟩ : Scripted)
        ({} : Recorder)) := by
  have hm : loneWildcard.model.Built := Model.built_builtin.element loneWildcardRoot
  have hok : (generate loneWildcard (.bare "a") (⟨[], 0⟩ : Scripted) ({} : Recorder)).result
      = .ok () := by
    decide +kernel
  exact ⟨hm, by decide +kernel,
    (generate_grammar loneWildcard (.bare "a") (⟨[], 0⟩ : Scripted) hm).2.1 hok⟩

end Specimen.Document

import Specimen.Proofs.Following
import Specimen.Proofs.Independence
import Specimen.Proofs.Loaded
import Specimen.Proofs.Recursion
import Specimen.Proofs.Written

/-!
# What runs fail with

A run with a list of events has few ways to fail. Its root may not be declared, and the shape of the
schema may allow no document. Besides, a walk relies on three invariants of schemas that are loaded,
and two of them hold. A complex type is only visited inside an element. And a type that stands for an
abstract one has a name, since a loading registers no complex type without one. The third does not
hold: a `namespace` attribute without a word is read as a list of no namespaces, and a run that comes
to such a wildcard fails.
-/

namespace Specimen

/-! ## Wildcards of a schema -/

/-- The wildcard that a part declares by itself. -/
def Part.wildcard? : Part → Option Wildcard
  | type t => t.wildcard
  | particle ⟨_, .any own⟩ => some own
  | _ => none

namespace Model

/-- The wildcards of a schema: those in contents, and the attribute wildcards of types and attribute
groups. -/
def wildcards (m : Model) : List Wildcard :=
  m.parts.filterMap Part.wildcard? ++ m.attributeGroups.values.filterMap AttributeGroup.wildcard

variable {m : Model}

theorem DeclaresForAttributes.mem_wildcards {own : Wildcard} (h : m.DeclaresForAttributes own) :
    own ∈ m.wildcards := by
  rcases h with ⟨type, ht, hown⟩ | ⟨group, hg, hown⟩
  · exact List.mem_append_left _ (List.mem_filterMap.mpr ⟨_, ht, hown⟩)
  · exact List.mem_append_right _ (List.mem_filterMap.mpr ⟨group, hg, hown⟩)

theorem mem_wildcards_of_covers {occurs : Occurs} {own : Wildcard}
    (h : m.Covers (Particle.parts ⟨occurs, .any own⟩)) : own ∈ m.wildcards := by
  rcases h _ (Particle.mem_parts _) with hmem | ⟨base, ext, hmem⟩
  · exact List.mem_append_left _ (List.mem_filterMap.mpr ⟨_, hmem, rfl⟩)
  · cases hmem

/-- What a walk may fail with that has found its root. -/
inductive MayFail (m : Model) : Error → Prop
  | shape (fault : ShapeFault) : m.MayFail (.shape fault)
  | emptyNamespaceList {own : Wildcard} (h : own ∈ m.wildcards)
      (hempty : own.namespaces = .among []) : m.MayFail (.invariant .emptyNamespaceList)
  | endless : m.MayFail .endless

end Model

/-! ## Walks -/

namespace Walk

variable {σ α β : Type} {m : Model} {walk : Walk σ α}

/-- Where the walk fails, a call has been refused, or the schema leads to the failure. -/
def FailsIn (walk : Walk σ α) (m : Model) : Prop :=
  ∀ s st e s', walk.Runs s st (.error e) s' → (∃ c t, .refused c t e ∈ st) ∨ m.MayFail e

namespace FailsIn

theorem pure (a : α) : FailsIn (Pure.pure a : Walk σ α) m :=
  fun _ _ _ _ hr => nomatch (runs_pure hr).2.1

theorem fail {e : Error} (h : m.MayFail e) : FailsIn (Walk.fail e : Walk σ α) m := by
  intro s st e' s' hr
  cases (runs_fail hr).2.1
  exact .inr h

theorem draw (f : σ → α × σ) : FailsIn (Walk.draw f) m :=
  fun _ _ _ _ hr => nomatch (runs_draw hr).2.1

theorem fill {filling : Filling σ α} (h : filling.FailsByShape) : FailsIn (Walk.fill filling) m := by
  intro s st e s' hr
  obtain ⟨fault, rfl⟩ := h s e (runs_fill hr).2.1.symm
  exact .inr (.shape fault)

theorem call (c : Call) : FailsIn (Walk.call c : Walk σ String) m := by
  intro s st e s' hr
  obtain ⟨-, ⟨answer, -, he⟩ | ⟨e', rfl, he⟩⟩ := runs_call hr
  · cases he
  · cases he
    exact .inl ⟨c, s, List.mem_singleton_self _⟩

theorem tell (c : Call) : FailsIn (Walk.tell c : Walk σ Unit) m := by
  intro s st e s' hr
  obtain ⟨-, ⟨answer, -, he⟩ | ⟨e', rfl, he⟩⟩ := runs_tell hr
  · cases he
  · cases he
    exact .inl ⟨c, s, List.mem_singleton_self _⟩

theorem note (n : Note) : FailsIn (Walk.note n : Walk σ Unit) m :=
  fun _ _ _ _ hr => nomatch (runs_note hr).2.1

/-- What comes behind a walk may rely on what the walk decides. -/
theorem decide_bind {P : α → Prop} {f : α → Walk σ β} (hd : walk.Decides P) (h : walk.FailsIn m)
    (hf : ∀ a, P a → (f a).FailsIn m) : (walk >>= f).FailsIn m := by
  intro s st e s' hr
  rcases runs_bind hr with ⟨e', he, hr₁⟩ | ⟨a, s₁, st₁, st₂, hr₁, hr₂, rfl⟩
  · cases he
    exact h _ _ _ _ hr₁
  · obtain ⟨rfl, -, ha⟩ := hd _ _ _ _ hr₁
    exact hf a (ha a rfl) _ _ _ _ hr₂

theorem bind {f : α → Walk σ β} (h : walk.FailsIn m) (hf : ∀ a, (f a).FailsIn m) :
    (walk >>= f).FailsIn m := by
  intro s st e s' hr
  rcases runs_bind hr with ⟨e', he, hr₁⟩ | ⟨a, s₁, st₁, st₂, hr₁, hr₂, rfl⟩
  · cases he
    exact h _ _ _ _ hr₁
  · refine (hf a _ _ _ _ hr₂).imp_left fun ⟨c, t, hmem⟩ => ?_
    exact ⟨c, t, List.mem_append_right _ hmem⟩

/-- What comes behind a question may rely on the answer. -/
theorem ask_bind {answer : Except Error α} {f : α → Walk σ β} (h : FailsByShape answer)
    (hf : ∀ a, answer = .ok a → (f a).FailsIn m) : (ask answer >>= f).FailsIn m := by
  intro s st e s' hr
  rcases runs_bind hr with ⟨e', he, hr₁⟩ | ⟨a, s₁, st₁, st₂, hr₁, hr₂, rfl⟩
  · cases he
    obtain ⟨fault, rfl⟩ := h e (runs_ask hr₁).2.1.symm
    exact .inr (.shape fault)
  · obtain ⟨rfl, ha, -⟩ := runs_ask hr₁
    exact hf a ha.symm _ _ _ _ hr₂

theorem each {walk : β → Walk σ Unit} {l : List β} (h : ∀ b ∈ l, (walk b).FailsIn m) :
    (each l walk).FailsIn m := by
  induction l with
  | nil => exact pure ()
  | cons b rest ih =>
    exact (h b List.mem_cons_self).bind fun _ => ih fun c hc => h c (List.mem_cons_of_mem _ hc)

theorem times {walk : Walk σ Unit} (h : walk.FailsIn m) (n : Nat) : (times n walk).FailsIn m := by
  induction n with
  | zero => exact pure ()
  | succ n ih => exact h.bind fun _ => ih

end FailsIn

end Walk

/-! ## Content models -/

namespace ContentModel

open Walk

variable {σ : Type} {m : Model}

theorem failsIn_renderName (name : QName) : (renderName name : Walk σ String).FailsIn m := by
  unfold renderName
  split
  · exact .pure _
  · exact (FailsIn.call _).bind fun _ => .pure _

theorem failsIn_renderAll {render : Particle → Walk σ String} (h : ∀ p, (render p).FailsIn m)
    (particles : List Particle) : (renderAll render particles).FailsIn m := by
  induction particles with
  | nil => exact .pure _
  | cons p rest ih => exact (h p).bind fun _ => ih.bind fun _ => .pure _

theorem failsIn_renderParticle {render : ModelGroup → Walk σ String}
    (h : ∀ group, (render group).FailsIn m) (p : Particle) :
    (renderParticle m render p).FailsIn m := by
  refine FailsIn.bind ?_ fun _ => .pure _
  cases p.term with
  | elementRef name => exact failsIn_renderName _
  | element decl => exact failsIn_renderName _
  | group group => exact h group
  | groupRef name => exact .ask_bind (m.failsByShape_resolveGroup name) fun group _ => h group
  | any wildcard => exact .pure _

theorem failsIn_renderWithin (steps : Nat) (p : Particle) :
    (renderWithin m steps p : Walk σ String).FailsIn m := by
  induction steps generalizing p with
  | zero => exact failsIn_renderParticle (fun _ => .fail (.shape _)) p
  | succ steps ih =>
    exact failsIn_renderParticle (fun _ => (failsIn_renderAll ih _).bind fun _ => .pure _) p

end ContentModel

/-! ## Documents -/

namespace Document

open Walk

variable {σ : Type} {w : Leaf.Setting} {m : Model} {visit : Visit σ}

/-- Particles are walked through as they should be: what they fail with is what the schema leads to.
-/
def VisitsFailIn (m : Model) (visit : Visit σ) : Prop :=
  ∀ path p, m.Covers p.parts → (visit path p).FailsIn m

theorem failsIn_announce {type : ComplexType} {isSubstitute : Bool}
    (hname : isSubstitute = true → type.name.isSome) :
    (announce type isSubstitute : Walk σ Unit).FailsIn m := by
  unfold announce announceType
  split
  · rename_i hsubstitute
    obtain ⟨name, hsome⟩ := Option.isSome_iff_exists.mp (hname hsubstitute)
    rw [hsome]
    exact (FailsIn.call _).bind fun _ => .tell _
  · exact .pure _

theorem failsIn_annotate (declared : TypeDef) :
    (annotate w declared : Walk σ Unit).FailsIn w.model := by
  unfold annotate
  split
  · exact .pure _
  · split
    · refine FailsIn.ask_bind (w.model.failsByShape_contentOf _) fun content _ => ?_
      split
      · exact .pure _
      · refine (ContentModel.failsIn_renderWithin _ _).bind fun model => ?_
        unfold comment
        split
        · exact .tell _
        · exact .pure _
    · exact .pure _

theorem failsIn_content (hv : VisitsFailIn w.model visit) (path : Path) {type : ComplexType}
    (ht : w.model.Covers type.parts) : (content w visit path type).FailsIn w.model := by
  refine FailsIn.ask_bind (w.model.failsByShape_contentOf type) fun content hc => ?_
  split
  · rename_i p hparticle
    exact hv path p (Model.covers_of_contentOf hc hparticle ht)
  · exact .pure _

variable [Source σ]

/-- Only a wildcard without a namespace breaks the invariant of wildcards. -/
theorem failsIn_chooseNamespace {own : Wildcard} (h : own ∈ m.wildcards) :
    (chooseNamespace own.namespaces : Walk σ String).FailsIn m := by
  unfold chooseNamespace
  split
  · exact .pure _
  · rename_i uris huris
    refine FailsIn.decide_bind (P := fun picked => picked = none → uris = [])
      (.draw fun s => (Draw.pick_eq_none_iff uris s).mp) (.draw _) fun picked hpicked => ?_
    cases picked with
    | some uri => exact .pure _
    | none => exact .fail (.emptyNamespaceList h (huris.trans (by rw [hpicked rfl])))
  · exact .pure _

theorem failsIn_wildcard (path : Path) {own : Wildcard} (h : own ∈ m.wildcards) :
    (wildcard path own : Walk σ Unit).FailsIn m := by
  refine (failsIn_chooseNamespace h).bind fun uri => ?_
  split
  · exact .tell _
  · exact (FailsIn.tell _).bind fun _ => .tell _

theorem failsIn_writeAttribute (attr : EffectiveAttribute) :
    (writeAttribute w attr : Walk σ Unit).FailsIn w.model := by
  have hfilled : (isFilled w attr : Walk σ Bool).FailsIn w.model := by
    unfold isFilled
    split
    · exact .pure _
    · exact .draw _
  have hfree : (freeValue w attr : Walk σ (Option String)).FailsIn w.model := by
    refine hfilled.bind fun filled => ?_
    split
    · refine FailsIn.ask_bind (w.model.failsByShape_resolveSimple _) fun type _ => ?_
      exact (FailsIn.fill (Leaf.failsByShape_value w type _)).bind fun _ => .pure _
    · exact (FailsIn.draw _).bind fun _ => .pure _
  refine FailsIn.bind ?_ fun value => ?_
  · unfold attributeValue
    split
    · exact (FailsIn.draw _).bind fun _ => .pure _
    · exact (FailsIn.draw _).bind fun _ => .pure _
    · exact hfree
  · split
    · exact .tell _
    · exact .pure _

theorem failsIn_attributeWildcard (path : Path) {type : ComplexType} {own : Option Wildcard}
    (hown : m.wildcardOf type = .ok own) (ht : m.Covers type.parts) :
    (attributeWildcard path own : Walk σ Unit).FailsIn m := by
  cases own with
  | none => exact .pure _
  | some own =>
    exact failsIn_wildcard path (Model.declares_of_wildcardWithin hown ht.type).mem_wildcards

theorem failsIn_structured (hv : VisitsFailIn w.model visit) {path : Path}
    (hpath : path.nearestElement.isSome) {type : TypeDef} {isSubstitute : Bool}
    (hname : isSubstitute = true → type.name.isSome) (ht : w.model.Covers type.parts) :
    (structured w visit path type isSubstitute).FailsIn w.model := by
  cases type with
  | simple type => exact .pure _
  | complex type =>
    rw [TypeDef.parts] at ht
    simp only [structured, complexType]
    rw [if_neg (by rwa [Option.isNone_iff_eq_none, ← Option.not_isSome_iff_eq_none, not_not])]
    refine (failsIn_announce hname).bind fun _ => ?_
    refine FailsIn.ask_bind (w.model.failsByShape_wildcardOf type) fun own hown => ?_
    refine FailsIn.ask_bind (w.model.failsByShape_attributesOf type) fun attrs _ => ?_
    refine (FailsIn.each fun attr _ => failsIn_writeAttribute attr).bind fun _ => ?_
    exact (failsIn_attributeWildcard _ hown ht).bind fun _ => failsIn_content hv _ ht

theorem failsIn_effectiveType (declared : TypeDef) :
    (effectiveType m declared : Walk σ (TypeDef × Bool)).FailsIn m := by
  have hsubtype (type : ComplexType) : (chooseSubtype m type : Walk σ ComplexType).FailsIn m := by
    unfold chooseSubtype
    split
    · exact .fail (.shape _)
    · split
      · exact .fail (.shape _)
      · exact (FailsIn.draw _).bind fun _ => .pure _
  unfold effectiveType
  split
  · split
    · exact (hsubtype _).bind fun _ => .pure _
    · exact .pure _
  · exact .pure _

/-- A type that stands for another one has a name, where the types that are registered have. -/
theorem isSome_name_of_generates (hm : m.NamesTypes) {declared type : TypeDef}
    (h : m.Generates declared type) (habstract : declared.IsAbstract) : type.name.isSome := by
  obtain ⟨base, rfl, hbase⟩ := habstract
  cases h with
  | own hown => exact absurd (hown base rfl) (by simp [hbase])
  | subtype _ _ _ hs ht =>
    subst ht
    exact hm.of_mem_concreteSubtypes hs

theorem failsIn_text (decl : ElementDecl) (type : TypeDef) :
    (text w decl type : Walk σ Unit).FailsIn w.model := by
  refine FailsIn.ask_bind (w.model.failsByShape_textType type) fun textType _ => ?_
  split
  · exact (FailsIn.fill (Leaf.failsByShape_value w _ _)).bind fun _ => .tell _
  · exact .pure _

theorem failsIn_wholeElement (hm : w.model.NamesTypes) (hv : VisitsFailIn w.model visit)
    (path : Path) {decl : ElementDecl} (hd : w.model.Covers decl.parts) :
    (wholeElement w visit path decl).FailsIn w.model := by
  refine FailsIn.ask_bind (w.model.failsByShape_resolveType decl.type) fun declared hdeclared => ?_
  refine FailsIn.decide_bind (decides_isSubstitute declared) (failsIn_effectiveType declared)
    fun chosen hchosen => ?_
  obtain ⟨type, isSubstitute⟩ := chosen
  obtain ⟨hgenerates, habstract⟩ := hchosen
  have ht : w.model.Covers type.parts :=
    hgenerates.covers (Model.covers_of_resolveType hdeclared (hd.mono decl.parts_type_subset))
  refine (failsIn_annotate declared).bind fun _ => (FailsIn.note _).bind fun _ => ?_
  refine (FailsIn.tell _).bind fun _ => FailsIn.bind ?_ fun _ => ?_
  · refine failsIn_structured hv rfl (fun hsubstitute => ?_) ht
    exact isSome_name_of_generates hm hgenerates (habstract.mp hsubstitute)
  · exact (failsIn_text decl type).bind fun _ => .tell _

theorem failsIn_element (hm : w.model.NamesTypes) (hv : VisitsFailIn w.model visit)
    (path : Path) {decl : ElementDecl} (hd : w.model.Covers decl.parts) :
    (element w visit path decl).FailsIn w.model := by
  have hconcrete {decl : ElementDecl} (hd : w.model.Covers decl.parts) :
      (concreteElement w visit path decl).FailsIn w.model := by
    unfold concreteElement
    split
    · exact .note _
    · exact failsIn_wholeElement hm hv path hd
  have hchoose : (chooseSubstitute w.model decl : Walk σ ElementDecl).FailsIn w.model := by
    unfold chooseSubstitute
    split
    · exact .fail (.shape _)
    · exact (FailsIn.draw _).bind fun _ => .pure _
  unfold element
  split
  · refine FailsIn.decide_bind (decides_chooseSubstitute decl) hchoose fun member hmember => ?_
    exact hconcrete (Model.covers_of_mem_substitutionMembers hmember)
  · exact hconcrete hd

theorem failsIn_repeated {walk : Walk σ Unit} (h : walk.FailsIn m) (occurs : Occurs) :
    (repeated w occurs walk).FailsIn m :=
  (FailsIn.draw _).bind h.times

theorem failsIn_modelGroup (hv : VisitsFailIn m visit) (path : Path) {group : ModelGroup}
    (hg : m.Covers group.parts) (occurs : Occurs) :
    (modelGroup w visit path group occurs).FailsIn m := by
  have hvisit (path : Path) {p : Particle} (hp : p ∈ group.particles) :
      (visit path p).FailsIn m := hv path p (hg.mono (ModelGroup.parts_subset hp))
  have horder : (order group : Walk σ (List Particle)).FailsIn m := by
    unfold order
    split
    · exact .draw _
    · exact .pure _
  unfold modelGroup
  split
  · refine FailsIn.decide_bind (P := fun shuffled => shuffled.Perm group.particles)
      (.draw fun s => Draw.shuffle_perm group.particles s) (.draw _) fun shuffled hperm => ?_
    exact .each fun p hp => hvisit _ (hperm.subset (List.mem_of_mem_take hp))
  · refine failsIn_repeated ?_ occurs
    refine FailsIn.decide_bind (decides_order group) horder fun particles hparticles => ?_
    refine .each fun p hp => hvisit _ ?_
    split at hparticles
    · exact hparticles.subset hp
    · rwa [← hparticles]

theorem visitsFailIn_particle (hm : w.model.NamesTypes) (hv : VisitsFailIn w.model visit) :
    VisitsFailIn w.model (particle w visit) := by
  rintro path ⟨occurs, term⟩ hcov
  have hterm : w.model.Covers term.parts := hcov.mono (by simp [Particle.parts])
  cases term with
  | group group => exact failsIn_modelGroup hv path hterm occurs
  | groupRef name =>
    refine FailsIn.ask_bind (w.model.failsByShape_resolveGroup name) fun group hgroup => ?_
    exact failsIn_modelGroup hv path (Model.covers_of_resolveGroup hgroup) occurs
  | element decl => exact failsIn_repeated (failsIn_element hm hv path hterm) occurs
  | elementRef name =>
    refine failsIn_repeated ?_ occurs
    refine FailsIn.ask_bind (w.model.failsByShape_resolveElement name) fun decl hdecl => ?_
    exact failsIn_element hm hv path (Model.covers_of_resolveElement hdecl)
  | any own =>
    exact failsIn_repeated (failsIn_wildcard path (Model.mem_wildcards_of_covers hcov)) occurs

/-- The induction on how many particles may stand inside each other. -/
theorem visitsFailIn_visit (hm : w.model.NamesTypes) (n : Nat) :
    VisitsFailIn w.model (Document.visit w n : Visit σ) := by
  induction n with
  | zero => exact fun path p _ => .fail .endless
  | succ n ih => exact visitsFailIn_particle hm ih

/-- A walk that is not refused a call fails because of its root or of the schema. -/
theorem failure_of_walk (hm : w.model.NamesTypes) (root : QName) {s s' : Supply σ}
    {st : List (Step (Supply σ))} {e : Error}
    (h : (walk w root : Walk σ Unit).Runs s st (.error e) s') :
    (∃ c t, .refused c t e ∈ st) ∨ e = .rootNotFound root ∨ w.model.MayFail e := by
  rcases runs_bind h with ⟨e', he, hroot⟩ | ⟨decl, s₁, st₁, st₂, hroot, hrest, rfl⟩
  · cases he
    exact .inr (.inl (w.model.error_of_rootElement (runs_ask hroot).2.1.symm))
  · obtain ⟨rfl, hdecl, -⟩ := runs_ask hroot
    have hd := Model.covers_of_rootElement hdecl.symm
    have hdeclareRoot : (declareRoot root : Walk σ Unit).FailsIn w.model := by
      unfold declareRoot
      split
      · exact .tell _
      · exact .pure _
    refine (FailsIn.bind (.tell _) fun _ => (FailsIn.tell _).bind fun _ => ?_)
      _ _ _ _ hrest |>.imp_right .inr
    refine hdeclareRoot.bind fun _ => FailsIn.bind ?_ fun _ => .tell _
    exact failsIn_element hm (visitsFailIn_visit hm _) .empty hd

/-- **What a run over a loaded schema fails with.** Let a schema be loaded from a text or from files.
If a run for a document fails over a list of events, with whatever policy and source, then its root
is not declared, or the shape of the schema is at fault, or a model group contains itself, or there
is a wildcard in the schema whose list of namespaces is empty. So of all invariants only the one of
wildcards may be broken, and only by such a list. -/
theorem generate_failure {fs : Files} {text : String} {address : Address} {m : Model}
    (hload : Model.ofText fs text = .ok m ∨ Model.ofFile fs address = .ok m) (policy : Policy)
    (now : DateTime) (root : QName) (source : σ) {e : Error}
    (h : (generate ⟨m, policy, now⟩ root source ({} : Recorder)).result = .error e) :
    e = .rootNotFound root ∨ (∃ fault, e = .shape fault) ∨ (e = .endless ∧ ¬ m.GroupsAcyclic)
      ∨ (e = .invariant .emptyNamespaceList ∧ ∃ own ∈ m.wildcards, own.namespaces = .among []) := by
  have hm : m.NamesTypes := by
    rcases hload with hload | hload
    · exact Loading.isKept_namesTypes.gives_ofText fs text m hload
    · exact Loading.isKept_namesTypes.gives_ofFile fs address m hload
  have hresult : ((walk ⟨m, policy, now⟩ root { source }).run ({} : Recorder)).1.1 = .error e := h
  have hruns := Script.runs_steps (walk ⟨m, policy, now⟩ root { source }) ({} : Recorder)
  rw [hresult] at hruns
  rcases failure_of_walk hm root hruns with ⟨c, t, hmem⟩ | hroot | hmay
  · exact absurd hmem fun hmem => (isAnswered_recorder ⟨m, policy, now⟩ root source).2 _ hmem
  · exact .inl hroot
  · cases hmay with
    | shape fault => exact .inr (.inl ⟨fault, rfl⟩)
    | emptyNamespaceList hown hempty => exact .inr (.inr (.inr ⟨rfl, _, hown, hempty⟩))
    | endless =>
      refine .inr (.inr (.inl ⟨rfl, fun hg => ?_⟩))
      obtain ⟨-, hend, -⟩ := keeps_walk hg root _ _ _ _ hruns {} ⟨rfl, rfl⟩
      obtain ⟨c, t, hmem⟩ := hend rfl
      exact (isAnswered_recorder ⟨m, policy, now⟩ root source).2 _ hmem

/-- The result of a run over the schema that a text without references to other ones holds. -/
def resultOf (text : String) (root : QName) : Option (Except Error Unit) :=
  match SchemaDocument.read none none text with
  | .error _ => none
  | .ok document =>
    let l := ({} : Loading).enter document
    let m := { l with model := { l.model with target := document.target } }.finish
    if document.links = [] then
      some (generate ⟨m, {}, default⟩ root (⟨[], 0⟩ : Scripted) ({} : Recorder)).result
    else none

theorem exists_of_resultOf {text : String} {root : QName} {r : Except Error Unit}
    (h : resultOf text root = some r) : ∃ m, Model.ofText {} text = .ok m
      ∧ (generate ⟨m, {}, default⟩ root (⟨[], 0⟩ : Scripted) ({} : Recorder)).result = r := by
  unfold resultOf at h
  cases hread : SchemaDocument.read none none text with
  | error e => simp [hread] at h
  | ok document =>
    simp only [hread] at h
    split at h
    · rename_i hlinks
      refine ⟨_, ?_, Option.some.inj h⟩
      simp only [Model.ofText, hread, Loading.main, hlinks, bind, Except.bind]
      rw [Loading.follow]
      rfl
    · cases h

/-- A schema whose root has a type that is not declared. -/
def untypedText : String :=
  "<xs:schema xmlns:xs=\"http://www.w3.org/2001/XMLSchema\">"
    ++ "<xs:element name=\"a\" type=\"b\"/></xs:schema>"

/-- The run over a schema with an unknown type fails because of this type. -/
theorem generate_failure_untyped : ∃ m e, Model.ofText {} untypedText = .ok m
    ∧ (generate ⟨m, {}, default⟩ (.bare "a") (⟨[], 0⟩ : Scripted) ({} : Recorder)).result = .error e
    ∧ ∃ fault, e = .shape fault := by
  have hchars : untypedText.toList = _ :=
    Xml.toList_append_eq String.toList_ofList String.toList_ofList
  have hroot : Xml.readTree untypedText = some ⟨0, some "xs", "schema",
      [⟨some "xmlns", "xs", Namespace.xsd⟩], [.element ⟨55, some "xs", "element",
        [⟨none, "name", "a"⟩, ⟨none, "type", "b"⟩], []⟩]⟩ := by
    rw [Xml.readTree, hchars]
    decide +kernel
  have hresult : resultOf untypedText (.bare "a")
      = some (.error (.shape (.unknown .type (.bare "b")))) := by
    rw [resultOf, SchemaDocument.read_eq hroot]
    decide +kernel
  obtain ⟨m, hm, hrun⟩ := exists_of_resultOf hresult
  refine ⟨m, _, hm, hrun, ?_⟩
  have hload : Model.ofText {} untypedText = .ok m ∨ Model.ofFile {} default = .ok m := .inl hm
  have hcases := generate_failure hload {} default _ _ hrun
  rcases hcases with h | h | ⟨h, -⟩ | ⟨h, -⟩
  · cases h
  · exact h
  · cases h
  · cases h

/-- A schema whose root has a wildcard with a `namespace` attribute without a word. -/
def listlessText : String :=
  "<xs:schema xmlns:xs=\"http://www.w3.org/2001/XMLSchema\"><xs:element name=\"a\"><xs:complexType>"
    ++ "<xs:sequence><xs:any namespace=\"\"/></xs:sequence>"
    ++ "</xs:complexType></xs:element></xs:schema>"

/-- **The invariant of wildcards does not hold for all schemas that are loaded.** -/
theorem broken_of_listless : ∃ m, Model.ofText {} listlessText = .ok m
    ∧ (generate ⟨m, {}, default⟩ (.bare "a") (⟨[], 0⟩ : Scripted) ({} : Recorder)).result
      = .error (.invariant .emptyNamespaceList) := by
  have hchars : listlessText.toList = _ := Xml.toList_append_eq
    (Xml.toList_append_eq String.toList_ofList String.toList_ofList) String.toList_ofList
  have hroot : Xml.readTree listlessText = some ⟨0, some "xs", "schema",
      [⟨some "xmlns", "xs", Namespace.xsd⟩], [.element ⟨55, some "xs", "element",
        [⟨none, "name", "a"⟩], [.element ⟨76, some "xs", "complexType", [],
          [.element ⟨92, some "xs", "sequence", [], [.element ⟨105, some "xs", "any",
            [⟨none, "namespace", ""⟩], []⟩]⟩]⟩]⟩]⟩ := by
    rw [Xml.readTree, hchars]
    decide +kernel
  refine exists_of_resultOf ?_
  rw [resultOf, SchemaDocument.read_eq hroot]
  decide +kernel

end Document

end Specimen

import Mathlib.Data.List.Perm.Subperm
import Mathlib.Logic.Relation
import Specimen.Draw.Scripted
import Specimen.Proofs.Bounds
import Specimen.Proofs.Nesting
import Specimen.Proofs.Sizes
import Specimen.Writer.Recorder

/-!
# Recursive schemas

A schema may refer to itself through types, element references, substitution groups and extensions,
and still every document comes to an end, as long as no model group contains itself.

The walk goes down in three ways. Into an element: then the elements that may still be entered become
fewer. Into a model group by its name: then the names that have not been followed since the last
element become fewer. Into a particle of a group: then the particle becomes smaller. `need` counts
these together, and the bound of the walk is what is needed at its beginning.
-/

namespace Specimen

/-! ## References between groups -/

mutual

/-- The names of the groups that a particle refers to, inside no element. -/
def Particle.groupRefs : Particle → List QName
  | ⟨_, term⟩ => term.groupRefs

/-- The names of the groups that a term refers to, inside no element. -/
def Term.groupRefs : Term → List QName
  | .groupRef name => [name]
  | .group group => group.groupRefs
  | .element _ => []
  | .elementRef _ => []
  | .any _ => []

/-- The names of the groups that the particles of a group refer to. -/
def ModelGroup.groupRefs : ModelGroup → List QName
  | ⟨_, particles⟩ => groupRefsOfAll particles

/-- The names of the groups that some particles refer to. -/
def groupRefsOfAll : List Particle → List QName
  | [] => []
  | p :: rest => p.groupRefs ++ groupRefsOfAll rest

end

theorem groupRefs_subset_groupRefsOfAll {p : Particle} :
    ∀ {particles : List Particle}, p ∈ particles → p.groupRefs ⊆ groupRefsOfAll particles
  | q :: rest, h => by
    rw [groupRefsOfAll]
    rcases List.mem_cons.mp h with rfl | h
    · exact List.subset_append_left _ _
    · exact List.Subset.trans (groupRefs_subset_groupRefsOfAll h) (List.subset_append_right _ _)

theorem ModelGroup.groupRefs_subset {group : ModelGroup} {p : Particle}
    (h : p ∈ group.particles) : p.groupRefs ⊆ group.groupRefs := by
  cases group
  rw [ModelGroup.groupRefs]
  exact groupRefs_subset_groupRefsOfAll h

namespace Model

/-- The group with a name refers to another one. -/
def Refers (m : Model) (name other : QName) : Prop :=
  ∃ group, m.groups.get? name = some group ∧ other ∈ group.groupRefs

/-- No named group refers to itself, directly or through other groups. -/
def GroupsAcyclic (m : Model) : Prop := ∀ name, ¬ Relation.TransGen m.Refers name name

end Model

/-! ## Refused calls -/

theorem Script.exists_of_refused_mem_steps {σ α ω : Type} [Writer ω] {script : Script σ α} {w : ω}
    {c : Call} {s : σ} {e : Error} (h : .refused c s e ∈ script.steps w) :
    ∃ w' : ω, (Writer.perform c w').1 = .error e := by
  induction script generalizing w with
  | stop r s' => exact absurd h List.not_mem_nil
  | call d t next ih =>
    unfold steps at h
    rcases hp : Writer.perform d w with ⟨e' | answer, w'⟩
    · rw [hp] at h
      obtain ⟨rfl, rfl, rfl⟩ : c = d ∧ s = t ∧ e = e' := by simpa using h
      exact ⟨w, by rw [hp]⟩
    · rw [hp] at h
      rcases List.mem_cons.mp h with h | h
      · cases h
      · exact ih answer h
  | note n next ih =>
    rcases List.mem_cons.mp h with h | h
    · cases h
    · exact ih h

/-- The recorder never says that a bound is reached. -/
theorem Recorder.perform_ne_endless (c : Call) (r : Recorder) :
    (Writer.perform c r).1 ≠ .error .endless := by
  cases c with
  | declarePrefix uri =>
    simp only [Writer.perform, Recorder.perform]
    split <;> simp
  | endElement =>
    simp only [Writer.perform, Recorder.perform]
    split <;> simp
  | _ => simp [Writer.perform, Recorder.perform]

/-! ## What is needed -/

namespace Document

open Walk

/-- The size that the content of a type, or a model group, has at most. -/
def sizeBound (m : Model) : Nat := (Model.chainLimit + 2) * (m.parts.length + 1)

/-- What is needed at most inside an element, down to the next ones. -/
def elementBound (m : Model) : Nat := (m.groups.size + 1) * sizeBound m

/-- How many particles may still stand inside each other below a particle: `seen` are the groups that
have been gone into by their names, the last one first, since the innermost element of the path. -/
def need (m : Model) (path : Path) (seen : List QName) (p : Particle) : Nat :=
  (3 * m.declarations.length - path.ids.length) * elementBound m
    + (m.groups.size - seen.length) * sizeBound m + p.parts.length

/-- The groups that have been gone into to come to a particle: all different, and each refers to what
the particle refers to. -/
structure CameThrough (m : Model) (seen : List QName) (p : Particle) : Prop where
  nodup : seen.Nodup
  named : seen ⊆ m.groups.names
  refers : ∀ name ∈ seen, ∀ other ∈ p.groupRefs, Relation.TransGen m.Refers name other

namespace CameThrough

variable {m : Model} {seen : List QName} {p : Particle}

theorem nil (p : Particle) : CameThrough m [] p :=
  ⟨List.nodup_nil, List.nil_subset _, fun _ h => absurd h List.not_mem_nil⟩

theorem mono {q : Particle} (h : CameThrough m seen p) (hq : q.groupRefs ⊆ p.groupRefs) :
    CameThrough m seen q :=
  ⟨h.nodup, h.named, fun name hname other hother => h.refers name hname other (hq hother)⟩

/-- One more group is gone into. -/
theorem cons (hg : m.GroupsAcyclic) (h : CameThrough m seen p) {name : QName} {group : ModelGroup}
    (hname : name ∈ p.groupRefs) (hget : m.groups.get? name = some group) {q : Particle}
    (hq : q ∈ group.particles) : CameThrough m (name :: seen) q where
  nodup := List.nodup_cons.mpr ⟨fun hmem => hg name (h.refers name hmem name hname), h.nodup⟩
  named := List.cons_subset.mpr ⟨Table.mem_names_of_get? hget, h.named⟩
  refers first hfirst other hother := by
    have hlast : m.Refers name other := ⟨group, hget, ModelGroup.groupRefs_subset hq hother⟩
    rcases List.mem_cons.mp hfirst with rfl | hfirst
    · exact .single hlast
    · exact (h.refers first hfirst name hname).tail hlast

theorem length_le (h : CameThrough m seen p) : seen.length ≤ m.groups.size := by
  have := (h.nodup.subperm h.named).length_le
  rwa [Table.names, List.length_map] at this

end CameThrough

section

variable {m : Model} {path : Path} {seen : List QName}

theorem length_parts_pos (p : Particle) : 0 < p.parts.length := by
  rw [p.parts_eq, List.length_cons]
  omega

/-- A particle of a group inside the particle. -/
theorem need_lt_of_group {group : ModelGroup} {occurs : Occurs} {q : Particle}
    (hq : q ∈ group.particles) (compositor : Compositor) :
    need m (path.push (.group compositor)) seen q < need m path seen ⟨occurs, .group group⟩ := by
  have hlen := ModelGroup.length_parts_le hq
  have hids : (path.push (.group compositor)).ids = path.ids := rfl
  simp only [need, hids, Particle.parts, Term.parts, List.length_cons]
  omega

/-- A particle of a group that the particle refers to. -/
theorem need_lt_of_groupRef {name : QName} {group : ModelGroup} {occurs : Occurs} {q : Particle}
    (hseen : (name :: seen).length ≤ m.groups.size) (hget : m.groups.get? name = some group)
    (hq : q ∈ group.particles) (compositor : Compositor) :
    need m (path.push (.group compositor)) (name :: seen) q
      < need m path seen ⟨occurs, .groupRef name⟩ := by
  have hlen : q.parts.length ≤ m.parts.length := by
    refine Nat.le_trans (ModelGroup.length_parts_le hq) ?_
    exact Model.length_parts_group_le (Table.mem_values_of_get? hget)
  have hsize : m.parts.length ≤ sizeBound m :=
    Nat.le_trans (Nat.le_succ _) (Nat.le_mul_of_pos_left _ (Nat.succ_pos _))
  have hids : (path.push (.group compositor)).ids = path.ids := rfl
  rw [List.length_cons] at hseen
  have hstep : m.groups.size - seen.length = (m.groups.size - (seen.length + 1)) + 1 := by omega
  simp only [need, hids, Particle.parts, Term.parts, List.length_cons, List.length_nil, hstep,
    Nat.succ_mul]
  omega

/-- Below an element that is entered, less is needed than around it. -/
theorem elementBound_add_le {decl : ElementDecl} (h : (path.push (.element decl)).IsBounded m) :
    (3 * m.declarations.length - (path.push (.element decl)).ids.length) * elementBound m
        + elementBound m
      ≤ (3 * m.declarations.length - path.ids.length) * elementBound m := by
  have hlen := h.length_ids_le
  have hids : (path.push (.element decl)).ids = decl.id :: path.ids := rfl
  have hdedup : m.declarationIds.length ≤ m.declarations.length := by
    have := (List.dedup_sublist (m.declarations.map ElementDecl.id)).length_le
    rwa [List.length_map] at this
  rw [hids, List.length_cons] at hlen ⊢
  have hstep : 3 * m.declarations.length - path.ids.length
      = (3 * m.declarations.length - (path.ids.length + 1)) + 1 := by omega
  rw [hstep]
  exact Nat.le_of_eq (Nat.succ_mul _ _).symm

/-- The particle of the content of a type. -/
theorem need_content_le {type : ComplexType} {content : Content} {p : Particle}
    (ht : m.Covers type.parts) (hc : m.contentOf type = .ok content)
    (hp : content.particle = some p) :
    need m path [] p
      ≤ (3 * m.declarations.length - path.ids.length) * elementBound m + elementBound m := by
  have hlen : p.parts.length ≤ sizeBound m := Model.length_parts_contentWithin hc hp ht
  have hbound : elementBound m = m.groups.size * sizeBound m + sizeBound m := Nat.succ_mul _ _
  rw [need, List.length_nil, Nat.sub_zero]
  omega

end

/-! ## Walks -/

variable {σ : Type} {w : Leaf.Setting} {m : Model} {visit : Visit σ} {path : Path} {n : Nat}

/-- The walk comes back to the place where it starts. -/
abbrev KeepsAt (m : Model) (path : Path) (walk : Walk σ Unit) : Prop :=
  Keeps m (Outline.StandsAt path.ids) walk (Outline.StandsAt path.ids)

/-- Every particle for which no more than `n` is needed is walked through as it should be. -/
def VisitsWithin (m : Model) (n : Nat) (visit : Visit σ) : Prop :=
  ∀ path seen p, path.IsBounded m → m.Covers p.parts → CameThrough m seen p →
    need m path seen p ≤ n → KeepsAt m path (visit path p)

theorem keeps_content (hv : VisitsWithin w.model n visit) (hp : path.IsBounded w.model)
    {type : ComplexType} (ht : w.model.Covers type.parts)
    (hn : (3 * w.model.declarations.length - path.ids.length) * elementBound w.model
      + elementBound w.model ≤ n) :
    KeepsAt w.model path (content w visit path type) := by
  refine Keeps.ask_bind (w.model.failsByShape_contentOf type).notEndless hp.standsAt
    fun content hc => ?_
  split
  · rename_i p hparticle
    exact hv path [] p hp (Model.covers_of_contentOf hc hparticle ht) (.nil p)
      (Nat.le_trans (need_content_le ht hc hparticle) hn)
  · exact .plain hp (.pure _)

variable [Source σ]

theorem keeps_wildcard (hp : path.IsBounded m) (own : Wildcard) :
    KeepsAt m path (wildcard path own : Walk σ Unit) := by
  refine Keeps.decide_bind (decides_chooseNamespace own.namespaces) hp.standsAt fun uri _ => ?_
  split
  · exact .plain hp (.tell rfl)
  · refine Keeps.bind (M := Outline.StandsInWildcard path.ids) (.tell hp.standsAt ?_)
      fun _ => .tell ?_ ?_
    · intro o s answer ho
      have hin : (o.take (.made (.startElement uri wildcardElement) s answer)).StandsInWildcard
          path.ids := by
        refine ⟨rfl, ?_⟩
        rw [Outline.chain_startElement, ho.next_eq, ho.chain_eq]
        rfl
      exact ⟨hin.isBounded hp, hin⟩
    · exact fun o ho => ho.isBounded hp
    · intro o s answer ho
      have hat := Outline.take_endElement s answer ho.next_eq ho.chain_eq
      exact ⟨hat.isBounded hp, hat⟩

theorem keeps_structured (hv : VisitsWithin w.model n visit) (hp : path.IsBounded w.model)
    {type : TypeDef} (isSubstitute : Bool) (ht : w.model.Covers type.parts)
    (hn : (3 * w.model.declarations.length - path.ids.length) * elementBound w.model
      + elementBound w.model ≤ n) :
    KeepsAt w.model path (structured w visit path type isSubstitute) := by
  cases type with
  | simple type => exact .plain hp (.pure _)
  | complex type =>
    rw [TypeDef.parts] at ht
    simp only [structured, complexType]
    split
    · exact .plain hp (.fail (.invariant _))
    · refine (Keeps.plain hp (isPlain_announce type isSubstitute)).bind fun _ => ?_
      refine Keeps.ask_bind (w.model.failsByShape_wildcardOf type).notEndless hp.standsAt
        fun own _ => ?_
      refine Keeps.ask_bind (w.model.failsByShape_attributesOf type).notEndless hp.standsAt
        fun attrs _ => ?_
      refine (Keeps.plain hp (.each fun attr _ => isPlain_writeAttribute attr)).bind fun _ => ?_
      refine (Keeps.plain hp (isPlain_attributeWildcard path type own)).bind fun _ => ?_
      exact keeps_content hv (hp.complexType type own) ht hn

theorem keeps_wholeElement (hv : VisitsWithin w.model n visit) (hp : path.IsBounded w.model)
    {decl : ElementDecl} (hd : w.model.Covers decl.parts)
    (hr : path.recursionDepth decl ≤ recursionLimit)
    (hn : (3 * w.model.declarations.length - path.ids.length) * elementBound w.model ≤ n) :
    KeepsAt w.model path (wholeElement w visit path decl) := by
  have hp' := hp.element hd.element hr
  refine Keeps.ask_bind (w.model.failsByShape_resolveType decl.type).notEndless hp.standsAt
    fun declared hdeclared => ?_
  refine Keeps.decide_bind (decides_effectiveType declared) hp.standsAt fun chosen hchosen => ?_
  obtain ⟨type, isSubstitute⟩ := chosen
  have ht : w.model.Covers type.parts := by
    refine hchosen.covers (Model.covers_of_resolveType hdeclared ?_)
    exact hd.mono decl.parts_type_subset
  refine (Keeps.plain hp (isPlain_annotate declared)).bind fun _ => ?_
  refine Keeps.bind (M := Outline.Starts path.ids decl) (.note hp.standsAt (fun _ _ => trivial) ?_)
    fun _ => ?_
  · intro o ho
    -- The declaration is known from here on, but no element of it is open yet.
    have hstarts : (o.take (.noted (.element decl type) : Step (Supply σ))).Starts path.ids decl :=
      ⟨rfl, ho.chain_eq⟩
    exact ⟨hstarts.isBounded hp, hstarts⟩
  refine Keeps.bind (M := Outline.StandsAt (path.push (.element decl)).ids)
    (.tell (fun o ho => ho.isBounded hp) ?_) fun _ => ?_
  · intro o s answer ho
    -- The start tag opens the element that the path has been extended by.
    have hat : (o.take (.made (.startElement decl.name.namespaceUri decl.name.localName) s
        answer)).StandsAt (path.push (.element decl)).ids := by
      refine ⟨rfl, ?_⟩
      rw [Outline.chain_startElement, ho.next_eq, ho.chain_eq]
      rfl
    exact ⟨hat.isBounded hp', hat⟩
  have hn' := Nat.le_trans (elementBound_add_le hp') hn
  refine (keeps_structured hv hp' isSubstitute ht hn').bind fun _ => ?_
  refine (Keeps.plain hp' (isPlain_text decl type)).bind fun _ => .tell ?_ ?_
  · exact fun o ho => ho.isBounded hp'
  · intro o s answer ho
    -- The end tag leads back to where the walk began.
    have hat : (o.take (.made .endElement s answer)).StandsAt path.ids :=
      Outline.take_endElement s answer ho.next_eq ho.chain_eq
    exact ⟨hat.isBounded hp, hat⟩

theorem keeps_concreteElement (hv : VisitsWithin w.model n visit) (hp : path.IsBounded w.model)
    {decl : ElementDecl} (hd : w.model.Covers decl.parts)
    (hn : (3 * w.model.declarations.length - path.ids.length) * elementBound w.model ≤ n) :
    KeepsAt w.model path (concreteElement w visit path decl) := by
  unfold concreteElement
  split
  · rename_i hdeep
    refine .note hp.standsAt (fun o ho => ?_) fun o ho => ⟨ho.isBounded hp, ho⟩
    -- More than twice by the test, and no more than three times on a bounded path.
    have hcount := hp.count decl.id
    rw [Path.recursionDepth_eq, recursionLimit] at hdeep
    rw [Outline.LeavesOut, Outline.openCount_eq ho.chain_eq]
    omega
  · exact keeps_wholeElement hv hp hd (by omega) hn

theorem keeps_element (hv : VisitsWithin w.model n visit) (hp : path.IsBounded w.model)
    {decl : ElementDecl} (hd : w.model.Covers decl.parts)
    (hn : (3 * w.model.declarations.length - path.ids.length) * elementBound w.model ≤ n) :
    KeepsAt w.model path (element w visit path decl) := by
  unfold element
  split
  · rename_i ha
    refine Keeps.decide_bind (decides_chooseSubstitute decl) hp.standsAt
      fun member hmember => ?_
    exact keeps_concreteElement hv hp (Model.covers_of_mem_substitutionMembers hmember) hn
  · exact keeps_concreteElement hv hp hd hn

theorem keeps_repeated {walk : Walk σ Unit} (hp : path.IsBounded m) (occurs : Occurs)
    (h : KeepsAt m path walk) : KeepsAt m path (repeated w occurs walk) :=
  (Keeps.plain hp (.draw _)).bind fun n => h.times n hp

/-- A group whose particles are walked through as they should be. -/
theorem keeps_modelGroup (hp : path.IsBounded m) {group : ModelGroup} (occurs : Occurs)
    (h : ∀ p ∈ group.particles, KeepsAt m path (visit (path.push (.group group.compositor)) p)) :
    KeepsAt m path (modelGroup w visit path group occurs) := by
  unfold modelGroup
  split
  · rename_i hc
    rw [hc] at h
    refine Keeps.decide_bind (P := fun shuffled => shuffled.Perm group.particles)
      (.draw fun s => Draw.shuffle_perm group.particles s) hp.standsAt fun shuffled hperm => ?_
    -- Some of the branches may be left, but those that are visited are particles of the group.
    exact .each hp fun p hmem => h p (hperm.subset (List.mem_of_mem_take hmem))
  · refine keeps_repeated hp occurs ?_
    refine Keeps.decide_bind (decides_order group) hp.standsAt fun particles hparticles => ?_
    refine .each hp fun p hmem => h p ?_
    split at hparticles
    · exact hparticles.subset hmem
    · rwa [← hparticles]

/-- **With one step more, one particle more may stand around those that are walked through.** -/
theorem visitsWithin_particle (hg : w.model.GroupsAcyclic) (hv : VisitsWithin w.model n visit) :
    VisitsWithin w.model (n + 1) (particle w visit) := by
  rintro path seen ⟨occurs, term⟩ hp hcov hcame hn
  have hterm : w.model.Covers term.parts := hcov.mono (by simp [Particle.parts])
  -- What the next element needs does not depend on the particles around it.
  have hbelow : (3 * w.model.declarations.length - path.ids.length) * elementBound w.model ≤ n := by
    have := length_parts_pos ⟨occurs, term⟩
    rw [need] at hn
    omega
  cases term with
  | group group =>
    rw [Term.parts] at hterm
    refine keeps_modelGroup hp occurs fun q hq => ?_
    refine hv _ seen q (hp.group _) (hterm.mono (ModelGroup.parts_subset hq))
      (hcame.mono (ModelGroup.groupRefs_subset hq)) ?_
    exact Nat.le_of_lt_succ (Nat.lt_of_lt_of_le (need_lt_of_group hq group.compositor) hn)
  | groupRef name =>
    refine Keeps.ask_bind (w.model.failsByShape_resolveGroup name).notEndless hp.standsAt
      fun group hgroup => ?_
    have hget := Model.get?_of_resolveGroup hgroup
    refine keeps_modelGroup hp occurs fun q hq => ?_
    -- The group is none of those come through so far, or it would refer to itself.
    have hcame' := hcame.cons hg List.mem_cons_self hget hq
    refine hv _ (name :: seen) q (hp.group _)
      ((Model.covers_of_resolveGroup hgroup).mono (ModelGroup.parts_subset hq)) hcame' ?_
    exact Nat.le_of_lt_succ
      (Nat.lt_of_lt_of_le (need_lt_of_groupRef hcame'.length_le hget hq group.compositor) hn)
  | element decl =>
    rw [Term.parts] at hterm
    exact keeps_repeated hp occurs (keeps_element hv hp hterm hbelow)
  | elementRef name =>
    refine keeps_repeated hp occurs ?_
    refine Keeps.ask_bind (w.model.failsByShape_resolveElement name).notEndless hp.standsAt
      fun decl hdecl => ?_
    exact keeps_element hv hp (Model.covers_of_resolveElement hdecl) hbelow
  | any own => exact keeps_repeated hp occurs (keeps_wildcard hp own)

/-- The induction on how many particles may stand inside each other. -/
theorem visitsWithin_visit (hg : w.model.GroupsAcyclic) (n : Nat) :
    VisitsWithin w.model n (Document.visit w n : Visit σ) := by
  induction n with
  | zero =>
    intro path seen p _ _ _ hn
    -- Every particle needs a step for itself.
    have := length_parts_pos p
    rw [need] at hn
    omega
  | succ n ih => exact visitsWithin_particle hg ih

/-! ## Documents -/

theorem keeps_walk (hg : w.model.GroupsAcyclic) (root : QName) :
    KeepsAt w.model .empty (walk w root : Walk σ Unit) := by
  have hp : Path.IsBounded w.model .empty := .empty
  refine Keeps.ask_bind (w.model.notEndless_rootElement root) hp.standsAt fun decl hdecl => ?_
  refine (Keeps.plain hp (.tell rfl)).bind fun _ => (Keeps.plain hp (.tell rfl)).bind fun _ => ?_
  refine (Keeps.plain hp (isPlain_declareRoot root)).bind fun _ => ?_
  refine Keeps.bind ?_ fun _ => Keeps.plain hp (.tell rfl)
  exact keeps_element (visitsWithin_visit hg _) hp (Model.covers_of_rootElement hdecl)
    (Nat.le_refl _)

/-- A greater bound makes no difference, whatever is answered to the calls. -/
theorem walkWithin_eq_walk (hg : w.model.GroupsAcyclic) (root : QName) {steps : Nat}
    (h : depthBound w.model ≤ steps) : (walkWithin steps w root : Walk σ Unit) = walk w root := by
  obtain ⟨more, rfl⟩ := Nat.exists_eq_add_of_le h
  funext s
  refine ((reaches_walkWithin w root _ more s).eq fun st r s' hr => ?_).symm
  exact (keeps_walk hg root s st r s' hr {} ⟨rfl, rfl⟩).2.1

/-- **Documents of recursive schemas end, and how deep they are.** Let no named model group refer to
itself. Whatever the policy, the source and the writer, the bound of the walk is not what ends it,
and a greater one makes no difference. And at every moment, at most three of the open elements come
from the same declaration, no more elements are open than three for each declaration and one for a
wildcard, and an element is left out only where three of the open elements come from its declaration.
-/
theorem generate_nesting {ω : Type} [Writer ω] (w : Leaf.Setting) (root : QName) (source : σ)
    (writer : ω) (hg : w.model.GroupsAcyclic) :
    (∀ steps, depthBound w.model ≤ steps → (walkWithin steps w root : Walk σ Unit) = walk w root)
    ∧ ((generate w root source writer).result = .error .endless →
      ∃ c s, .refused c s .endless ∈ steps w root source writer)
    ∧ (generate w root source ({} : Recorder)).result ≠ .error .endless
    ∧ ∀ before after, steps w root source writer = before ++ after →
      (∀ id, (Outline.ofSteps before).openCount id ≤ 3)
      ∧ (Outline.ofSteps before).opened.length ≤ 3 * w.model.declarationIds.length + 1
      ∧ ∀ decl rest, after = .noted (.leftOut decl) :: rest →
        (Outline.ofSteps before).openCount decl.id = 3 := by
  -- The outline is bounded along every run, whatever the writer; the rest is read from it.
  have hkeeps : ∀ {ω : Type} [Writer ω] (writer : ω),
      Outline.StaysBounded w.model {} (steps w root source writer)
        ∧ EndsWell (steps w root source writer) (generate w root source writer).result := by
    intro ω _ writer
    have hruns := Script.runs_steps (walk w root { source }) writer
    obtain ⟨hstays, hend, -⟩ := keeps_walk hg root _ _ _ _ hruns {} ⟨rfl, rfl⟩
    exact ⟨hstays, hend⟩
  refine ⟨fun steps h => walkWithin_eq_walk hg root h, (hkeeps writer).2, fun hendless => ?_,
    fun before after hsteps => ?_⟩
  · obtain ⟨c, s, hmem⟩ := (hkeeps ({} : Recorder)).2 hendless
    obtain ⟨r, hr⟩ := Script.exists_of_refused_mem_steps hmem
    exact Recorder.perform_ne_endless c r hr
  · have hstays := (hkeeps writer).1
    rw [hsteps] at hstays
    have hat := hstays.at
    refine ⟨hat.isBounded.openCount_le, hat.isBounded.length_le, fun decl rest hafter => ?_⟩
    rw [hafter] at hat
    exact hat.2.1

/-- A schema in which a part holds another part, by way of a model group. -/
def endlessPart : Leaf.Setting where
  model :=
    let type : ComplexType :=
      ⟨none, false, .elements ⟨.once, .groupRef (.bare "inside")⟩, [], none, none⟩
    let part : ElementDecl := ⟨0, .bare "part", .anonymous (.complex type), .global, false, none⟩
    (Model.builtin.addElement part).addGroup (.bare "inside")
      ⟨.sequence, [⟨.once, .elementRef (.bare "part")⟩]⟩
  policy := { annotateContentModel := false }
  now := default

theorem groupsAcyclic_endlessPart : endlessPart.model.GroupsAcyclic := by
  have hrefers : ∀ name other, ¬ endlessPart.model.Refers name other := by
    rintro name other ⟨group, hget, hother⟩
    have hgroup : group ∈ endlessPart.model.groups.values := Table.mem_values_of_get? hget
    have hvalues : endlessPart.model.groups.values
        = [⟨.sequence, [⟨.once, .elementRef (.bare "part")⟩]⟩] := rfl
    rw [hvalues, List.mem_singleton] at hgroup
    subst hgroup
    exact absurd hother List.not_mem_nil
  intro name h
  obtain ⟨other, -, hlast⟩ := Relation.TransGen.tail'_iff.mp h
  exact hrefers other name hlast

/-- In the third part inside each other a part is left out, and the document ends. -/
theorem generate_nesting_endlessPart :
    endlessPart.model.GroupsAcyclic
      ∧ (generate endlessPart (.bare "part") (⟨[], 0⟩ : Scripted) ({} : Recorder)).result
        ≠ .error .endless
      ∧ ∃ before decl rest, steps endlessPart (.bare "part") (⟨[], 0⟩ : Scripted) ({} : Recorder)
          = before ++ .noted (.leftOut decl) :: rest
        ∧ (Outline.ofSteps before).openCount decl.id = 3 := by
  have hg := groupsAcyclic_endlessPart
  obtain ⟨-, -, hend, hnesting⟩ :=
    generate_nesting endlessPart (.bare "part") (⟨[], 0⟩ : Scripted) ({} : Recorder) hg
  have hout : (steps endlessPart (.bare "part") (⟨[], 0⟩ : Scripted)
      ({} : Recorder)).any Step.isLeftOut = true := by
    decide +kernel
  obtain ⟨step, hmem, hstep⟩ := List.any_eq_true.mp hout
  obtain ⟨before, rest, hsteps⟩ := List.append_of_mem hmem
  cases step with
  | noted n =>
    cases n with
    | leftOut decl =>
      exact ⟨hg, hend, before, decl, rest, hsteps, (hnesting before _ hsteps).2.2 decl rest rfl⟩
    | element decl type => cases hstep
  | made => cases hstep
  | refused => cases hstep

end Document

end Specimen

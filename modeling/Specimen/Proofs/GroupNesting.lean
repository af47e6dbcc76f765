import Specimen.Proofs.GroupTrees
import Specimen.Proofs.Order
import Specimen.Proofs.Recursion

/-!
# Groups inside each other in content models

Named groups may refer to each other in a circle, and then the tree below a particle has no end. A
content model is made up all the same, because groups are only opened up to a certain depth. It
comes out as a text if the tree stays within this depth and every reference in it leads to a group,
and fails over the shape of the schema otherwise. A tree with a circle in it is always too deep.
-/

namespace Specimen

/-! ## Walks that come to one end -/

namespace Step

/-- Every call in these steps is answered. -/
def AllAnswered {σ : Type} (st : List (Step σ)) : Prop := ∀ c s e, .refused c s e ∉ st

variable {σ : Type} {st st' : List (Step σ)}

theorem AllAnswered.left (h : AllAnswered (st ++ st')) : AllAnswered st :=
  fun c s e hmem => h c s e (List.mem_append_left _ hmem)

theorem AllAnswered.right (h : AllAnswered (st ++ st')) : AllAnswered st' :=
  fun c s e hmem => h c s e (List.mem_append_right _ hmem)

end Step

namespace Walk

open Step

variable {σ α β : Type} {walk : Walk σ α} {f : α → Walk σ β}

/-- The walk comes to a result, unless a call is refused. -/
def Succeeds (walk : Walk σ α) : Prop :=
  ∀ s st r s', walk.Runs s st r s' → AllAnswered st → ∃ a, r = .ok a

/-- The walk fails over the shape of the schema, unless a call is refused. -/
def FailsOverShape (walk : Walk σ α) : Prop :=
  ∀ s st r s', walk.Runs s st r s' → AllAnswered st → ∃ fault, r = .error (.shape fault)

namespace Succeeds

theorem pure (a : α) : Succeeds (Pure.pure a : Walk σ α) := by
  intro s st r s' hr _
  exact ⟨a, (runs_pure hr).2.1⟩

theorem call (c : Call) : Succeeds (Walk.call c : Walk σ String) := by
  intro s st r s' hr hall
  obtain ⟨-, ⟨answer, -, rfl⟩ | ⟨e, rfl, -⟩⟩ := runs_call hr
  · exact ⟨answer, rfl⟩
  · exact absurd List.mem_cons_self (hall c s e)

/-- What follows a walk that comes to a result is reached. -/
theorem exists_runs (h : walk.Succeeds) {s s' : Supply σ} {st : List (Step (Supply σ))}
    {r : Except Error β} (hr : (walk >>= f).Runs s st r s') (hall : AllAnswered st) :
    ∃ a s₁ st₂, (f a).Runs s₁ st₂ r s' ∧ AllAnswered st₂ := by
  rcases runs_bind hr with ⟨e, rfl, hr₁⟩ | ⟨a, s₁, st₁, st₂, -, hr₂, rfl⟩
  · obtain ⟨a, ha⟩ := h _ _ _ _ hr₁ hall
    cases ha
  · exact ⟨a, s₁, st₂, hr₂, hall.right⟩

theorem bind (h : walk.Succeeds) (hf : ∀ a, (f a).Succeeds) : (walk >>= f).Succeeds := by
  intro s st r s' hr hall
  obtain ⟨a, s₁, st₂, hr₂, hall₂⟩ := h.exists_runs hr hall
  exact hf a _ _ _ _ hr₂ hall₂

theorem bind_failsOverShape (h : walk.Succeeds) (hf : ∀ a, (f a).FailsOverShape) :
    (walk >>= f).FailsOverShape := by
  intro s st r s' hr hall
  obtain ⟨a, s₁, st₂, hr₂, hall₂⟩ := h.exists_runs hr hall
  exact hf a _ _ _ _ hr₂ hall₂

end Succeeds

namespace FailsOverShape

theorem fail (fault : ShapeFault) : FailsOverShape (Walk.fail (.shape fault) : Walk σ α) := by
  intro s st r s' hr _
  exact ⟨fault, (runs_fail hr).2.1⟩

/-- What follows a walk that fails is not reached. -/
theorem bind (h : walk.FailsOverShape) (f : α → Walk σ β) : (walk >>= f).FailsOverShape := by
  intro s st r s' hr hall
  rcases runs_bind hr with ⟨e, rfl, hr₁⟩ | ⟨a, s₁, st₁, st₂, hr₁, -, rfl⟩
  · obtain ⟨fault, he⟩ := h _ _ _ _ hr₁ hall
    exact ⟨fault, congrArg Except.error (Except.error.inj he)⟩
  · obtain ⟨fault, he⟩ := h _ _ _ _ hr₁ hall.left
    cases he

end FailsOverShape

end Walk

/-! ## Trees within a depth -/

namespace Model

variable {m : Model} {n : Nat} {p q : Particle} {group : ModelGroup} {groups : List ModelGroup}

/-- Every reference in the tree below a particle leads to a group, and at most `n` groups are open
inside each other. -/
structure Fits (m : Model) (n : Nat) (p : Particle) : Prop where
  resolves : ∀ q, m.Unfolds p q → ¬m.Dangles q.term
  nests : ∀ groups, m.Nests p.term groups → groups.length ≤ n

theorem Nests.exists_opens {t : Term} (h : m.Nests t groups) : ∃ group, m.Opens t group := by
  cases h with
  | innermost h => exact ⟨_, h⟩
  | around h => exact ⟨_, h⟩

/-- A particle that opens no group fits in any depth. -/
theorem fits_of_not_opens (hdangles : ¬m.Dangles p.term) (h : ∀ group, ¬m.Opens p.term group) :
    m.Fits n p where
  resolves q hq := by
    rcases Relation.ReflTransGen.cases_head hq with rfl | ⟨first, ⟨group, hopens, -⟩, -⟩
    · exact hdangles
    · exact absurd hopens (h group)
  nests groups hgroups := by
    obtain ⟨group, hopens⟩ := hgroups.exists_opens
    exact absurd hopens (h group)

theorem dangles_or_opens_of_not_fits (h : ¬m.Fits n p) :
    m.Dangles p.term ∨ ∃ group, m.Opens p.term group := by
  by_contra hneither
  obtain ⟨hdangles, hopens⟩ := not_or.mp hneither
  exact h (fits_of_not_opens hdangles fun group hgroup => hopens ⟨group, hgroup⟩)

/-- An open group takes up some depth itself. -/
theorem not_fits_zero (h : m.Opens p.term group) : ¬m.Fits 0 p := by
  intro hfits
  have := hfits.nests [group] (.innermost h)
  simp at this

/-- The particles of an open group have one level less. -/
theorem fits_succ_iff (h : m.Opens p.term group) :
    m.Fits (n + 1) p ↔ ∀ q ∈ group.particles, m.Fits n q := by
  constructor
  · intro hfits q hq
    constructor
    · exact fun r hr => hfits.resolves r (.head ⟨group, h, hq⟩ hr)
    · intro groups hgroups
      have hlength := hfits.nests (group :: groups) (.around h hq hgroups)
      simpa using hlength
  · intro hfits
    constructor
    · intro r hr
      rcases Relation.ReflTransGen.cases_head hr with rfl | ⟨first, hfirst, hrest⟩
      · exact fun hdangles => hdangles.not_opens h
      · exact (hfits first ((holds_iff_of_opens h).mp hfirst)).resolves r hrest
    · intro groups hgroups
      cases hgroups with
      | innermost => simp
      | around h' hq hrest =>
        have hlength := (hfits _ (h.unique h' ▸ hq)).nests _ hrest
        simpa using hlength

/-! ## Circles -/

mutual

/-- What is open below a reference in a term is also open below the term. -/
theorem exists_nests_of_mem_groupRefs {name : QName} {groups : List ModelGroup}
    (h : m.Nests (.groupRef name) groups) :
    ∀ {t : Term}, name ∈ t.groupRefs → ∃ outer, m.Nests t (outer ++ groups)
  | .groupRef other, hname => by
    rw [Term.groupRefs, List.mem_singleton] at hname
    exact ⟨[], hname ▸ h⟩
  | .group ⟨compositor, particles⟩, hname => by
    rw [Term.groupRefs, ModelGroup.groupRefs] at hname
    obtain ⟨q, hq, outer, hnests⟩ := exists_nests_of_mem_groupRefsOfAll h hname
    exact ⟨_ :: outer, .around (.inPlace _) hq hnests⟩
  | .element _, hname => by simp [Term.groupRefs] at hname
  | .elementRef _, hname => by simp [Term.groupRefs] at hname
  | .any _, hname => by simp [Term.groupRefs] at hname

theorem exists_nests_of_mem_groupRefsOfAll {name : QName} {groups : List ModelGroup}
    (h : m.Nests (.groupRef name) groups) : ∀ {particles : List Particle},
      name ∈ groupRefsOfAll particles → ∃ q ∈ particles, ∃ outer, m.Nests q.term (outer ++ groups)
  | ⟨occurs, term⟩ :: rest, hname => by
    rw [groupRefsOfAll, Particle.groupRefs] at hname
    rcases List.mem_append.mp hname with hname | hname
    · obtain ⟨outer, hnests⟩ := exists_nests_of_mem_groupRefs h hname
      exact ⟨_, List.mem_cons_self, outer, hnests⟩
    · obtain ⟨q, hq, hnests⟩ := exists_nests_of_mem_groupRefsOfAll h hname
      exact ⟨q, List.mem_cons_of_mem _ hq, hnests⟩

end

/-- One reference further out, one more group is open. -/
theorem Refers.exists_nests {name other : QName} (h : m.Refers name other)
    (hother : m.Nests (.groupRef other) groups) :
    ∃ groups', m.Nests (.groupRef name) groups' ∧ groups.length < groups'.length := by
  obtain ⟨⟨compositor, particles⟩, hget, hmem⟩ := h
  rw [ModelGroup.groupRefs] at hmem
  obtain ⟨q, hq, outer, hnests⟩ := exists_nests_of_mem_groupRefsOfAll hother hmem
  have hopens : m.Opens (.groupRef name) ⟨compositor, particles⟩ :=
    .named (by rw [resolveGroup, hget])
  refine ⟨_, .around hopens hq hnests, ?_⟩
  rw [List.length_cons, List.length_append]
  omega

theorem exists_nests_of_transGen {name other : QName} (h : Relation.TransGen m.Refers name other)
    (hother : m.Nests (.groupRef other) groups) :
    ∃ groups', m.Nests (.groupRef name) groups' ∧ groups.length < groups'.length := by
  induction h generalizing groups with
  | single h => exact h.exists_nests hother
  | tail _ h ih =>
    obtain ⟨between, hbetween, hlt⟩ := h.exists_nests hother
    obtain ⟨groups', hgroups', hlt'⟩ := ih hbetween
    exact ⟨groups', hgroups', hlt.trans hlt'⟩

/-- **On a circle there is no end of open groups.** -/
theorem exists_nests_of_circle {name : QName} (h : Relation.TransGen m.Refers name name) (n : Nat) :
    ∃ groups, m.Nests (.groupRef name) groups ∧ n < groups.length := by
  induction n with
  | zero =>
    obtain ⟨other, ⟨group, hget, -⟩, -⟩ := Relation.TransGen.head'_iff.mp h
    exact ⟨[group], .innermost (.named (by rw [resolveGroup, hget])), Nat.one_pos⟩
  | succ n ih =>
    obtain ⟨groups, hgroups, hlt⟩ := ih
    obtain ⟨groups', hgroups', hlt'⟩ := exists_nests_of_transGen h hgroups
    exact ⟨groups', hgroups', by omega⟩

/-- What is open below a particle of the tree is also open below its root. -/
theorem Unfolds.exists_nests (h : m.Unfolds p q) (hq : m.Nests q.term groups) :
    ∃ outer, m.Nests p.term (outer ++ groups) := by
  induction h using Relation.ReflTransGen.head_induction_on with
  | refl => exact ⟨[], hq⟩
  | head hfirst _ ih =>
    obtain ⟨group, hopens, hmem⟩ := hfirst
    obtain ⟨outer, houter⟩ := ih
    exact ⟨group :: outer, .around hopens hmem houter⟩

/-- Somewhere in the tree below a particle there is a reference to a group that refers to itself,
directly or through other groups. -/
def ReachesCircle (m : Model) (p : Particle) : Prop :=
  ∃ q name, m.Unfolds p q ∧ q.term = .groupRef name ∧ Relation.TransGen m.Refers name name

/-- A tree with a circle in it fits in no depth. -/
theorem ReachesCircle.not_fits (h : m.ReachesCircle p) (n : Nat) : ¬m.Fits n p := by
  obtain ⟨q, name, hq, hterm, hcircle⟩ := h
  obtain ⟨groups, hgroups, hlt⟩ := exists_nests_of_circle hcircle n
  obtain ⟨outer, houter⟩ := Unfolds.exists_nests hq (hterm ▸ hgroups)
  intro hfits
  have hle := hfits.nests _ houter
  rw [List.length_append] at hle
  omega

end Model

/-! ## Rendering -/

namespace ContentModel

open Walk

variable {σ : Type} {m : Model} {p : Particle} {group : ModelGroup}

section

variable {render : Particle → Walk σ String} {particles : List Particle}

theorem succeeds_renderName (name : QName) : (renderName name : Walk σ String).Succeeds := by
  unfold renderName
  split
  · exact .pure _
  · exact (Succeeds.call _).bind fun _ => .pure _

theorem succeeds_renderAll (h : ∀ p ∈ particles, (render p).Succeeds) :
    (renderAll render particles).Succeeds := by
  induction particles with
  | nil => exact .pure _
  | cons p rest ih =>
    refine (h p List.mem_cons_self).bind fun _ => Succeeds.bind ?_ fun _ => .pure _
    exact ih fun q hq => h q (List.mem_cons_of_mem p hq)

/-- A row of particles fails with the first one that does. -/
theorem failsOverShape_renderAll (hrender : ∀ p, (render p).Succeeds ∨ (render p).FailsOverShape)
    (hp : p ∈ particles) (h : (render p).FailsOverShape) :
    (renderAll render particles).FailsOverShape := by
  induction particles with
  | nil => cases hp
  | cons first rest ih =>
    rcases List.mem_cons.mp hp with rfl | hp
    · exact h.bind _
    · rcases hrender first with hfirst | hfirst
      · exact hfirst.bind_failsOverShape fun _ => (ih hp).bind _
      · exact hfirst.bind _

end

section

variable {render : ModelGroup → Walk σ String}

theorem succeeds_renderParticle (hdangles : ¬m.Dangles p.term)
    (hrender : ∀ group, m.Opens p.term group → (render group).Succeeds) :
    (renderParticle m render p).Succeeds := by
  refine Succeeds.bind ?_ fun _ => .pure _
  rcases m.term_cases p.term with ⟨name, hname⟩ | ⟨wildcard, hany⟩ | ⟨group, hopens⟩ | hnone
  · rw [renderTerm_of_elementName hname]
    exact succeeds_renderName name
  · rw [hany]
    exact .pure _
  · rw [renderTerm_of_opens hopens]
    exact hrender group hopens
  · exact absurd hnone hdangles

theorem failsOverShape_renderParticle_of_dangles (h : m.Dangles p.term) :
    (renderParticle m render p).FailsOverShape := by
  obtain ⟨name, hfail⟩ := renderTerm_of_dangles render h
  rw [renderParticle, hfail]
  exact (FailsOverShape.fail _).bind _

theorem failsOverShape_renderParticle (hopens : m.Opens p.term group)
    (h : (render group).FailsOverShape) : (renderParticle m render p).FailsOverShape := by
  rw [renderParticle, renderTerm_of_opens hopens]
  exact h.bind _

end

theorem succeeds_renderWithin {n : Nat} (h : m.Fits n p) :
    (renderWithin m n p : Walk σ String).Succeeds := by
  induction n generalizing p with
  | zero =>
    refine succeeds_renderParticle (h.resolves p .refl) fun group hopens => ?_
    exact absurd h (Model.not_fits_zero hopens)
  | succ n ih =>
    refine succeeds_renderParticle (h.resolves p .refl) fun group hopens => ?_
    have hall := (Model.fits_succ_iff hopens).mp h
    exact (succeeds_renderAll fun q hq => ih (hall q hq)).bind fun _ => .pure _

theorem failsOverShape_renderWithin {n : Nat} (h : ¬m.Fits n p) :
    (renderWithin m n p : Walk σ String).FailsOverShape := by
  induction n generalizing p with
  | zero =>
    rcases Model.dangles_or_opens_of_not_fits h with hdangles | ⟨group, hopens⟩
    · exact failsOverShape_renderParticle_of_dangles hdangles
    · exact failsOverShape_renderParticle hopens (.fail _)
  | succ n ih =>
    rcases Model.dangles_or_opens_of_not_fits h with hdangles | ⟨group, hopens⟩
    · exact failsOverShape_renderParticle_of_dangles hdangles
    · -- The particles before the one that does not fit may fail as well, but only in the same way.
      have hcases (q : Particle) : (renderWithin m n q : Walk σ String).Succeeds
          ∨ (renderWithin m n q : Walk σ String).FailsOverShape :=
        (Classical.em (m.Fits n q)).imp succeeds_renderWithin ih
      simp only [Model.fits_succ_iff hopens, not_forall] at h
      obtain ⟨q, hq, hfits⟩ := h
      have hall := failsOverShape_renderAll hcases hq (ih hfits)
      exact failsOverShape_renderParticle hopens (hall.bind _)

/-- A writer that refuses no request for a prefix answers every call of a content model. -/
theorem steps_render {ω : Type} [Writer ω]
    (hwriter : ∀ uri (writer : ω) e, (Writer.perform (.declarePrefix uri) writer).1 ≠ .error e)
    (m : Model) (p : Particle) (s : Supply σ) (writer : ω) :
    ∀ step ∈ (render m p s : Script (Supply σ) String).steps writer, ∃ uri answer,
      step = .made (.declarePrefix uri) s answer := by
  intro step hmem
  have hruns := Script.runs_steps (render m p s : Script (Supply σ) String) writer
  obtain ⟨uri, ⟨answer, rfl⟩ | ⟨e, rfl⟩⟩ := (onlyAsks_render m p _ _ _ _ hruns).2 step hmem
  · exact ⟨uri, answer, rfl⟩
  · obtain ⟨writer', hrefused⟩ := Script.exists_of_refused_mem_steps hmem
    exact absurd hrefused (hwriter uri writer' e)

/-- **Content models are safe on circular groups.** With a writer that refuses no prefix, the
content model of a particle is a text if and only if every reference in the tree below the particle
leads to a group and no more than 65 groups are open inside each other. Otherwise, and so always if
there is a circle in the tree, there is an error over the shape of the schema instead. Nothing is
asked of the writer but prefixes. -/
theorem render_ok_iff {ω : Type} [Writer ω]
    (hwriter : ∀ uri (writer : ω) e, (Writer.perform (.declarePrefix uri) writer).1 ≠ .error e)
    (m : Model) (p : Particle) (s : Supply σ) (writer : ω) :
    let script : Script (Supply σ) String := render m p s
    let result := (script.run writer).1.1
    ((∃ text, result = .ok text) ↔ m.Fits 65 p)
      ∧ (¬m.Fits 65 p → ∃ fault, result = .error (.shape fault))
      ∧ (m.ReachesCircle p → ∃ fault, result = .error (.shape fault))
      ∧ ∀ step ∈ script.steps writer, ∃ uri answer, step = .made (.declarePrefix uri) s answer := by
  intro script result
  have hruns := Script.runs_steps script writer
  have hsteps := steps_render hwriter m p s writer
  -- Every request is answered, so a failure is one over the shape.
  have hanswered : Step.AllAnswered (script.steps writer) := by
    intro c t e hmem
    obtain ⟨uri, answer, hstep⟩ := hsteps _ hmem
    cases hstep
  have hfails : ¬m.Fits 65 p → ∃ fault, result = .error (.shape fault) := fun hfits =>
    failsOverShape_renderWithin hfits _ _ _ _ hruns hanswered
  refine ⟨⟨?_, ?_⟩, hfails, fun hcircle => hfails (hcircle.not_fits 65), hsteps⟩
  · rintro ⟨text, htext⟩
    by_contra hfits
    obtain ⟨fault, hfault⟩ := hfails hfits
    rw [htext] at hfault
    cases hfault
  · exact fun hfits => succeeds_renderWithin hfits _ _ _ _ hruns hanswered

/-- A sequence of one reference to a group. -/
def referring (name : String) : ModelGroup := ⟨.sequence, [⟨.once, .groupRef (.bare name)⟩]⟩

/-- Two groups that refer to each other. -/
def circular : Model :=
  (Model.builtin.addGroup (.bare "a") (referring "b")).addGroup (.bare "b") (referring "a")

/-- A reference to one of them is rejected. -/
theorem render_circular :
    let p : Particle := ⟨.once, .groupRef (.bare "a")⟩
    let s : Supply Scripted := { source := ⟨[], 0⟩ }
    (∀ uri (r : Recorder) e, (Writer.perform (.declarePrefix uri) r).1 ≠ .error e)
      ∧ circular.ReachesCircle p
      ∧ ∃ fault, ((render circular p s : Script (Supply Scripted) String).run ({} : Recorder)).1.1
        = .error (.shape fault) := by
  intro p s
  have hwriter : ∀ uri (r : Recorder) e, (Writer.perform (.declarePrefix uri) r).1 ≠ .error e := by
    intro uri r e
    simp only [Writer.perform, Recorder.perform]
    split <;> simp
  have hab : circular.Refers (.bare "a") (.bare "b") := ⟨referring "b", rfl, List.mem_cons_self⟩
  have hba : circular.Refers (.bare "b") (.bare "a") := ⟨referring "a", rfl, List.mem_cons_self⟩
  have hcircle : circular.ReachesCircle p := ⟨p, .bare "a", .refl, rfl, .head hab (.single hba)⟩
  exact ⟨hwriter, hcircle, (render_ok_iff hwriter circular p s ({} : Recorder)).2.2.1 hcircle⟩

end ContentModel

end Specimen

import Mathlib.Data.List.Perm.Subperm
import Specimen.Draw.Scripted
import Specimen.Proofs.Contents
import Specimen.Writer.Recorder

/-!
# Branches of a choice

Which branches a walk through a choice visits is settled by the policy, the bounds of the choice and
the source, before the first one is visited: all of them in random order or, where the policy does
not ask for all, as many of the first as the choice may occur. None is visited twice. So a choice
never occurs too often, but one that has to occur more often than it has branches occurs too rarely.

A visit may do anything. It may also fail, and then the run ends with it.
-/

namespace Specimen.Document

open Walk

variable {σ : Type} [Source σ] {w : Leaf.Setting} {p : Particle} {s : Supply σ}

/-! ## Visits -/

/-- A walk through the particle with this supply comes down to visits to these particles, one after
another, whatever a visit does. -/
def Visits (w : Leaf.Setting) (p : Particle) (s : Supply σ) (visited : List Particle) : Prop :=
  ∃ s', ∀ (visit : Visit σ) (path : Path),
    particle w visit path p s = each visited (visit (path.push (.group .choice))) s'

/-- A visit that does no more than to note the particle. -/
def noteVisit (p : Particle) : Walk σ Unit :=
  note (.element default (.complex ⟨none, false, .elements p, [], none, none⟩))

omit [Source σ] in
theorem eq_of_each_noteVisit {visited other : List Particle} {s s' : Supply σ}
    (h : each visited noteVisit s = each other noteVisit s') : visited = other := by
  induction visited generalizing other with
  | nil =>
    cases other with
    | nil => rfl
    | cons q rest => cases h
  | cons p rest ih =>
    cases other with
    | nil => cases h
    | cons q rest' =>
      -- Both walks begin with a note, and the particle is in it.
      have hboth :
          Script.note (.element default (.complex ⟨none, false, .elements p, [], none, none⟩))
            (each rest noteVisit s)
          = Script.note (.element default (.complex ⟨none, false, .elements q, [], none, none⟩))
            (each rest' noteVisit s') := h
      injection hboth with hnote hrest
      injection hnote with _ htype
      injection htype with hcomplex
      injection hcomplex with _ _ hcontent
      injection hcontent with hparticle
      rw [hparticle, ih hrest]

/-- There is only one row of visits that the walk comes down to. -/
theorem Visits.unique {visited other : List Particle} (h : Visits w p s visited)
    (h' : Visits w p s other) : visited = other := by
  obtain ⟨s₁, hvisited⟩ := h
  obtain ⟨s₂, hother⟩ := h'
  exact eq_of_each_noteVisit
    ((hvisited (fun _ => noteVisit) .empty).symm.trans (hother (fun _ => noteVisit) .empty))

/-! ## Choices -/

/-- The branches that are visited, in their order. -/
def shuffledBranches (w : Leaf.Setting) (occurs : Occurs) (branches : List Particle) (s : σ) :
    List Particle :=
  (Draw.shuffle branches s).1.take (branchCount w.policy occurs branches.length)

theorem visits_of_groupOf {branches : List Particle}
    (h : GroupOf w.model p.term ⟨.choice, branches⟩) (s : Supply σ) :
    Visits w p s (shuffledBranches w p.occurs branches s.source) := by
  refine ⟨{ s with source := (Draw.shuffle branches s.source).2 }, fun visit path => ?_⟩
  obtain ⟨occurs, term⟩ := p
  cases h with
  | group => rfl
  | @groupRef name _ hget =>
    have hgroup : w.model.resolveGroup name = .ok ⟨.choice, branches⟩ := by
      rw [Model.resolveGroup, hget]
    show (ask (w.model.resolveGroup name) >>= fun group =>
      modelGroup w visit path group occurs) s = _
    rw [hgroup]
    rfl

/-- No branch is visited twice. -/
theorem subperm_shuffledBranches (w : Leaf.Setting) (occurs : Occurs) (branches : List Particle)
    (s : σ) : (shuffledBranches w occurs branches s).Subperm branches :=
  (List.take_sublist _ _).subperm.trans (Draw.shuffle_perm branches s).subperm

theorem length_shuffledBranches (w : Leaf.Setting) (occurs : Occurs) (branches : List Particle)
    (s : σ) : (shuffledBranches w occurs branches s).length
      = branchCount w.policy occurs branches.length := by
  rw [shuffledBranches, List.length_take, (Draw.shuffle_perm branches s).length_eq]
  exact Nat.min_eq_left (branchCount_le _ _ _)

theorem contains_branchCount_iff {policy : Policy} {occurs : Occurs} {n : Nat} (h : occurs.InOrder)
    (hp : policy.exhaustiveChoices = false) :
    occurs.contains (branchCount policy occurs n) = true ↔ occurs.min ≤ n :=
  ⟨fun hcontains => Nat.le_trans (Occurs.contains_iff.mp hcontains).1 (branchCount_le _ _ _),
    contains_branchCount h hp⟩

/-- **Where the policy does not ask for all branches, the number of visits is that of the branches,
or the upper bound of the choice if it is lower.** It is within the bounds if and only if there are
as many branches as the choice has to occur. -/
theorem visits_choice (hsampled : w.policy.exhaustiveChoices = false) (horder : p.occurs.InOrder)
    {branches : List Particle} (hchoice : GroupOf w.model p.term ⟨.choice, branches⟩)
    (s : Supply σ) :
    ∃ visited, Visits w p s visited ∧ (∀ other, Visits w p s other → other = visited)
      ∧ visited.Subperm branches
      ∧ (∀ max, p.occurs.max = some max → visited.length = Nat.min branches.length max)
      ∧ (p.occurs.max = none → visited.length = branches.length)
      ∧ (p.occurs.contains visited.length = true ↔ p.occurs.min ≤ branches.length) := by
  have hvisits := visits_of_groupOf hchoice s
  have hlength := length_shuffledBranches w p.occurs branches s.source
  refine ⟨_, hvisits, fun other hother => hother.unique hvisits,
    subperm_shuffledBranches w p.occurs branches s.source, fun max hmax => ?_, fun hnone => ?_, ?_⟩
  · rw [hlength, branchCount, hmax, hsampled]
    rfl
  · rw [hlength, branchCount, hnone]
  · rw [hlength]
    exact contains_branchCount_iff horder hsampled

/-- A choice between elements of these names. -/
def pick (occurs : Occurs) (names : List String) : Particle :=
  ⟨occurs, .group ⟨.choice, names.map fun name =>
    ⟨.once, .element ⟨0, .bare name, .builtin "string", .local, false, none⟩⟩⟩⟩

/-- The schema whose element has this content, with a policy that does not ask for all branches. -/
def picking (content : Particle) : Leaf.Setting where
  model := Model.builtin.addElement ⟨0, .bare "a",
    .anonymous (.complex ⟨none, false, .elements content, [], none, none⟩), .global, false, none⟩
  policy := { exhaustiveChoices := false, annotateContentModel := false }
  now := default

/-- Two of three branches are visited. -/
theorem visits_choice_two :
    let p := pick ⟨1, some 2⟩ ["b", "c", "d"]
    let w := picking p
    let s : Supply Scripted := { source := ⟨[], 0⟩ }
    w.policy.exhaustiveChoices = false ∧ p.occurs.InOrder
      ∧ ∃ branches visited, GroupOf w.model p.term ⟨.choice, branches⟩ ∧ Visits w p s visited
        ∧ visited.Subperm branches ∧ visited.length = 2
        ∧ p.occurs.contains visited.length = true := by
  intro p w s
  have horder : p.occurs.InOrder := by decide
  obtain ⟨visited, hvisits, -, hsubperm, hlength, -, hcontains⟩ :=
    visits_choice (w := w) (p := p) rfl horder (.group _) s
  exact ⟨rfl, horder, _, visited, .group _, hvisits, hsubperm, hlength 2 rfl,
    hcontains.mpr (by decide)⟩

/-- **A choice may occur less often than it has to.** One that has to occur twice and has one branch
is visited once, and the document has one element for it. -/
theorem not_contains_of_single :
    let p := pick ⟨2, some 2⟩ ["b"]
    let w := picking p
    let s : Supply Scripted := { source := ⟨[], 0⟩ }
    w.policy.exhaustiveChoices = false ∧ p.occurs.InOrder
      ∧ (∃ branches visited, GroupOf w.model p.term ⟨.choice, branches⟩ ∧ branches ≠ []
        ∧ Visits w p s visited ∧ (∀ other, Visits w p s other → other = visited)
        ∧ visited.length = 1 ∧ p.occurs.contains visited.length = false)
      ∧ (generate w (.bare "a") s.source ({} : Recorder)).result = .ok ()
      ∧ (generate w (.bare "a") s.source ({} : Recorder)).writer.events.toList
        = [.startDocument, .declarePrefix Namespace.xsi "xsi", .startElement "" "a",
          .startElement "" "b", .text "b1", .endElement, .endElement, .endDocument] := by
  intro p w s
  have hvisits : Visits w p s _ := visits_of_groupOf (.group _) s
  refine ⟨rfl, by decide, ⟨_, _, .group _, by simp, hvisits, fun other h => h.unique hvisits, rfl,
    rfl⟩, ?_, ?_⟩
  · decide +kernel
  · decide +kernel

end Specimen.Document

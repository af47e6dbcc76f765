import Mathlib.Data.List.Basic
import Specimen.Draw.Scripted
import Specimen.Proofs.GroupTrees
import Specimen.Writer.Recorder

/-!
# Marks in content models

The text of a content model shows whether the model allows more than one row of elements, and so a
search for six characters finds out. A suffix has one of them unless its particle occurs exactly
once, and the separators of choices and of `all` groups have one, which only shows if there are two
particles to be separated. Nothing else in the text has any, as long as names and prefixes have
none.

The text follows the tree below the particle, so the proof does, by induction on the number of
groups that may still be opened.
-/

namespace Specimen

namespace ContentModel

/-! ## Marks in texts -/

theorem isVariable_append (a b : String) :
    isVariable (a ++ b) = (isVariable a || isVariable b) := by
  rw [isVariable, String.toList_append, List.any_append]
  rfl

/-- A separator is there from the second text on. -/
theorem isVariable_intercalate (separator : String) (texts : List String) :
    isVariable (separator.intercalate texts) = true
      ↔ (∃ text ∈ texts, isVariable text = true)
        ∨ 2 ≤ texts.length ∧ isVariable separator = true := by
  induction texts with
  | nil => simp [isVariable]
  | cons first texts ih =>
    cases texts with
    | nil => simp
    | cons second rest =>
      rw [String.intercalate_cons_cons, isVariable_append, isVariable_append]
      simp only [Bool.or_eq_true, ih, List.length_cons, List.exists_mem_cons_iff]
      constructor
      · rintro ((h | h) | h | ⟨-, h⟩)
        · exact .inl (.inl h)
        · exact .inr ⟨by omega, h⟩
        · exact .inl (.inr h)
        · exact .inr ⟨by omega, h⟩
      · rintro ((h | h) | ⟨-, h⟩)
        · exact .inl (.inl h)
        · exact .inr (.inl h)
        · exact .inl (.inr h)

theorem isVariable_parentheses (text : String) :
    isVariable ("(" ++ text ++ ")") = isVariable text := by
  have hopen : isVariable "(" = false := by decide
  have hclose : isVariable ")" = false := by decide
  rw [isVariable_append, isVariable_append, hopen, hclose, Bool.false_or, Bool.or_false]

theorem isVariable_separator (c : Compositor) : isVariable c.separator = true ↔ c ≠ .sequence := by
  cases c <;> decide

theorem isVariable_bracket (text : String) : isVariable ("[" ++ text) = true := by
  have hopen : isVariable "[" = true := by decide
  rw [isVariable_append, hopen, Bool.true_or]

/-- Every range but once has a suffix with a mark. -/
theorem isVariable_suffix (o : Occurs) : isVariable o.suffix = true ↔ o ≠ .once := by
  by_cases honce : o = .once
  · rw [honce]
    decide
  · refine iff_of_true ?_ honce
    obtain ⟨min, max⟩ := o
    unfold Occurs.suffix
    split
    · next hmin hmax =>
      obtain rfl : min = 1 := hmin
      obtain rfl : max = some 1 := hmax
      exact absurd rfl honce
    · decide
    · decide
    · decide
    · rw [String.append_assoc, isVariable_bracket]
    · rw [String.append_assoc, String.append_assoc, String.append_assoc, isVariable_bracket]

end ContentModel

/-! ## Variable particles -/

/-- The particles of the group may be left out or change places. -/
def ModelGroup.Varies (group : ModelGroup) : Prop :=
  group.compositor ≠ .sequence ∧ 2 ≤ group.particles.length

namespace Model

/-- The particle does not occur exactly once, or opens a choice or an `all` group of two particles
at least. -/
def Varies (m : Model) (p : Particle) : Prop :=
  p.occurs ≠ .once ∨ ∃ group, m.Opens p.term group ∧ group.Varies

/-- Some particle varies in the tree below the given one. -/
def VariesBelow (m : Model) (p : Particle) : Prop := ∃ q, m.Unfolds p q ∧ m.Varies q

/-- The elements in the tree have names without marks. -/
def NamesPlainly (m : Model) (p : Particle) : Prop :=
  ∀ q name, m.Unfolds p q → q.term.elementName? = some name →
    ContentModel.isVariable name.localName = false

variable {m : Model} {p q : Particle} {group : ModelGroup}

theorem namesPlainly_of_opens (h : m.Opens p.term group)
    (hgroup : ∀ q ∈ group.particles, m.NamesPlainly q) : m.NamesPlainly p := by
  intro q name hq hname
  rcases Relation.ReflTransGen.cases_head hq with rfl | ⟨first, hfirst, hrest⟩
  · exact absurd h (not_opens_of_elementName hname)
  · exact hgroup first ((holds_iff_of_opens h).mp hfirst) q name hrest hname

theorem namesPlainly_of_elementName {name : QName} (h : p.term.elementName? = some name)
    (hname : ContentModel.isVariable name.localName = false) : m.NamesPlainly p := by
  intro q other hq hother
  rcases Relation.ReflTransGen.cases_head hq with rfl | ⟨first, ⟨group, hopens, -⟩, -⟩
  · rw [h] at hother
    rwa [← Option.some.inj hother]
  · exact absurd hopens (not_opens_of_elementName h)

theorem NamesPlainly.of_mem (h : m.NamesPlainly p) (hopens : m.Opens p.term group)
    (hq : q ∈ group.particles) : m.NamesPlainly q :=
  fun r name hr => h r name (.head ⟨group, hopens, hq⟩ hr)

/-- Where a group is open, the tree goes on below its particles. -/
theorem variesBelow_iff_of_opens (h : m.Opens p.term group) : m.VariesBelow p
    ↔ p.occurs ≠ .once ∨ group.Varies ∨ ∃ q ∈ group.particles, m.VariesBelow q := by
  have hgroup : (∃ group', m.Opens p.term group' ∧ group'.Varies) ↔ group.Varies :=
    ⟨fun ⟨_, h', hvaries⟩ => h.unique h' ▸ hvaries, fun hvaries => ⟨group, h, hvaries⟩⟩
  have hholds : (∃ q, m.Holds p q ∧ m.VariesBelow q) ↔ ∃ q ∈ group.particles, m.VariesBelow q := by
    simp only [holds_iff_of_opens h]
  rw [VariesBelow, exists_unfolds_iff, Varies, hgroup, or_assoc]
  exact or_congr_right (or_congr_right hholds)

/-- Where no group is open, there is nothing below. -/
theorem variesBelow_iff_of_not_opens (h : ∀ group, ¬m.Opens p.term group) :
    m.VariesBelow p ↔ p.occurs ≠ .once := by
  rw [VariesBelow, exists_unfolds_iff]
  constructor
  · rintro ((honce | ⟨group, hgroup, -⟩) | ⟨q, ⟨group, hgroup, -⟩, -⟩)
    · exact honce
    · exact absurd hgroup (h group)
    · exact absurd hgroup (h group)
  · exact fun honce => .inl (.inl honce)

end Model

/-! ## The text of a particle -/

namespace ContentModel

open Walk

variable {σ : Type} {m : Model} {p : Particle} {group : ModelGroup} {s s' : Supply σ}
  {st st' : List (Step (Supply σ))} {text : String}

/-- The prefixes that are given in a run have no marks. -/
def PlainPrefixes (st : List (Step (Supply σ))) : Prop :=
  ∀ uri t pfx, .made (.declarePrefix uri) t pfx ∈ st → isVariable pfx = false

theorem PlainPrefixes.mono (h : PlainPrefixes st) (hsub : st' ⊆ st) : PlainPrefixes st' :=
  fun uri t pfx hmem => h uri t pfx (hsub hmem)

theorem isVariable_renderName {name : QName} (hname : isVariable name.localName = false)
    (h : (renderName name : Walk σ String).Runs s st (.ok text) s') (hplain : PlainPrefixes st) :
    isVariable text = false := by
  unfold renderName at h
  split at h
  · obtain ⟨-, htext, -⟩ := runs_pure h
    rwa [Except.ok.inj htext]
  · obtain ⟨pfx, hcall, rfl⟩ := runs_bind_pure_ok h
    obtain ⟨-, ⟨answer, rfl, hanswer⟩ | ⟨e, -, he⟩⟩ := runs_call hcall
    · obtain rfl := Except.ok.inj hanswer
      have hpfx : isVariable pfx = false := hplain _ _ _ List.mem_cons_self
      have hcolon : isVariable ":" = false := by decide
      rw [isVariable_append, isVariable_append, hpfx, hcolon, hname]
      rfl
    · cases he

/-- There is one text for each particle, and one of them is variable if one of the particles is. -/
theorem isVariable_renderAll {render : Particle → Walk σ String} {P : Particle → Prop}
    {particles : List Particle} {texts : List String}
    (hrender : ∀ q ∈ particles, ∀ s st text s', (render q).Runs s st (.ok text) s' →
      PlainPrefixes st → (isVariable text = true ↔ P q))
    (h : (renderAll render particles).Runs s st (.ok texts) s') (hplain : PlainPrefixes st) :
    texts.length = particles.length
      ∧ ((∃ text ∈ texts, isVariable text = true) ↔ ∃ q ∈ particles, P q) := by
  induction particles generalizing s st texts s' with
  | nil =>
    obtain ⟨-, htexts, -⟩ := runs_pure h
    cases htexts
    simp
  | cons p rest ih =>
    obtain ⟨text, s₁, st₁, st₂, hfirst, hmore, rfl⟩ := runs_bind_ok h
    obtain ⟨more, hrest, rfl⟩ := runs_bind_pure_ok hmore
    have hp := hrender p List.mem_cons_self _ _ _ _ hfirst
      (hplain.mono (List.subset_append_left _ _))
    obtain ⟨hlength, hsome⟩ := ih (fun q hq => hrender q (List.mem_cons_of_mem p hq)) hrest
      (hplain.mono (List.subset_append_right _ _))
    refine ⟨congrArg Nat.succ hlength, ?_⟩
    rw [List.exists_mem_cons_iff, List.exists_mem_cons_iff, hp, hsome]

/-- The text of a group is variable if the group is, or one of its particles. -/
theorem isVariable_renderGroup {render : Particle → Walk σ String} {P : Particle → Prop}
    (hrender : ∀ q ∈ group.particles, ∀ s st text s', (render q).Runs s st (.ok text) s' →
      PlainPrefixes st → (isVariable text = true ↔ P q))
    (h : (renderGroup render group).Runs s st (.ok text) s') (hplain : PlainPrefixes st) :
    isVariable text = true ↔ group.Varies ∨ ∃ q ∈ group.particles, P q := by
  obtain ⟨texts, hall, rfl⟩ := runs_bind_pure_ok h
  obtain ⟨hlength, hsome⟩ := isVariable_renderAll hrender hall hplain
  rw [isVariable_parentheses, isVariable_intercalate, hsome, isVariable_separator, hlength,
    ModelGroup.Varies, and_comm, or_comm]

/-- The text of a particle is variable if the particle varies, or one below it, given that this is
so of the group that it opens. -/
theorem isVariable_renderParticle {render : ModelGroup → Walk σ String}
    (hrender : ∀ group, m.Opens p.term group → ∀ s st text s',
      (render group).Runs s st (.ok text) s' → PlainPrefixes st →
      (isVariable text = true ↔ group.Varies ∨ ∃ q ∈ group.particles, m.VariesBelow q))
    (h : (renderParticle m render p).Runs s st (.ok text) s') (hplain : PlainPrefixes st)
    (hnames : m.NamesPlainly p) : isVariable text = true ↔ m.VariesBelow p := by
  obtain ⟨inner, hterm, rfl⟩ := runs_bind_pure_ok h
  rw [isVariable_append, Bool.or_eq_true, isVariable_suffix]
  -- A term is an element or a wildcard, which has nothing below it, or opens a group, or dangles.
  rcases m.term_cases p.term with ⟨name, hname⟩ | ⟨wildcard, hany⟩ | ⟨group, hopens⟩ | hdangles
  · rw [renderTerm_of_elementName hname] at hterm
    have hinner := isVariable_renderName (hnames p name .refl hname) hterm hplain
    rw [Model.variesBelow_iff_of_not_opens fun _ => Model.not_opens_of_elementName hname, hinner]
    simp
  · rw [hany] at hterm
    obtain ⟨-, hinner, -⟩ := runs_pure hterm
    have hword : isVariable "any" = false := by decide
    rw [Model.variesBelow_iff_of_not_opens fun _ => hany ▸ Model.not_opens_any,
      Except.ok.inj hinner, hword]
    simp
  · rw [renderTerm_of_opens hopens] at hterm
    rw [Model.variesBelow_iff_of_opens hopens, hrender group hopens _ _ _ _ hterm hplain, or_comm]
  · obtain ⟨name, hfail⟩ := renderTerm_of_dangles render hdangles
    rw [hfail] at hterm
    obtain ⟨-, he, -⟩ := runs_fail hterm
    cases he

/-- **The marks in the text show whether a particle varies below**, whatever the number of groups
that may be opened. -/
theorem isVariable_renderWithin {steps : Nat} (hnames : m.NamesPlainly p)
    (h : (renderWithin m steps p).Runs s st (.ok text) s') (hplain : PlainPrefixes st) :
    isVariable text = true ↔ m.VariesBelow p := by
  induction steps generalizing p s st text s' with
  | zero =>
    -- No group may be opened any more, so there is no text for one.
    refine isVariable_renderParticle (fun group _ s st text s' hgroup => ?_) h hplain hnames
    obtain ⟨-, he, -⟩ := runs_fail hgroup
    cases he
  | succ steps ih =>
    refine isVariable_renderParticle (fun group hopens s st text s' hgroup => ?_) h hplain hnames
    exact isVariable_renderGroup (fun q hq _ _ _ _ => ih (hnames.of_mem hopens hq)) hgroup

/-- **A content model is taken for variable exactly if it is.** The text has one of the six marks if
and only if some particle in the tree does not occur exactly once, or some choice or `all` group in
it has two particles at least. -/
theorem isVariable_render_iff {ω : Type} [Writer ω] {writer : ω}
    (h : ((render m p s : Script (Supply σ) String).run writer).1.1 = .ok text)
    (hnames : ∀ q name, m.Unfolds p q → q.term.elementName? = some name →
      isVariable name.localName = false)
    (hprefixes : ∀ uri t pfx, .made (.declarePrefix uri) t pfx
      ∈ (render m p s : Script (Supply σ) String).steps writer → isVariable pfx = false) :
    isVariable text = true ↔ ∃ q, m.Unfolds p q ∧ (q.occurs ≠ .once
      ∨ ∃ group, m.Opens q.term group ∧ group.compositor ≠ .sequence
        ∧ 2 ≤ group.particles.length) := by
  have hruns := Script.runs_steps (render m p s : Script (Supply σ) String) writer
  rw [h] at hruns
  exact isVariable_renderWithin hnames hruns hprefixes

/-- Two elements, the second one of which is in a namespace and may be left out. -/
def extras : ModelGroup where
  compositor := .sequence
  particles := [⟨.once, .elementRef (.bare "x")⟩, ⟨⟨0, some 1⟩, .elementRef ⟨some "urn:t", "y"⟩⟩]

/-- A reference to these, by a name, has a variable content model. -/
theorem isVariable_render_extras :
    let m := Model.builtin.addGroup (.bare "extras") extras
    let p : Particle := ⟨.once, .groupRef (.bare "extras")⟩
    let s : Supply Scripted := { source := ⟨[], 0⟩ }
    let script : Script (Supply Scripted) String := render m p s
    (script.run ({} : Recorder)).1.1 = .ok "(x, ns1:y?)" ∧ m.NamesPlainly p
      ∧ PlainPrefixes (script.steps ({} : Recorder))
      ∧ isVariable "(x, ns1:y?)" = true ∧ ∃ q, m.Unfolds p q ∧ m.Varies q := by
  intro m p s script
  have hrun : (script.run ({} : Recorder)).1.1 = .ok "(x, ns1:y?)" := by decide +kernel
  have hopens : m.Opens p.term extras := .named rfl
  have hnames : m.NamesPlainly p := by
    refine Model.namesPlainly_of_opens hopens fun q hq => ?_
    simp only [extras, List.mem_cons, List.not_mem_nil, or_false] at hq
    rcases hq with rfl | rfl
    · exact Model.namesPlainly_of_elementName rfl (by decide)
    · exact Model.namesPlainly_of_elementName rfl (by decide)
  have hprefixes : PlainPrefixes (script.steps ({} : Recorder)) := by
    intro uri t pfx hmem
    have hsteps : script.steps ({} : Recorder) = [.made (.declarePrefix "urn:t") s "ns1"] := rfl
    rw [hsteps] at hmem
    cases List.mem_singleton.mp hmem
    decide
  have hvariable : isVariable "(x, ns1:y?)" = true := by decide +kernel
  exact ⟨hrun, hnames, hprefixes, hvariable,
    (isVariable_render_iff hrun hnames hprefixes).mp hvariable⟩

end ContentModel

end Specimen

import Specimen.Draw.Scripted
import Specimen.Proofs.Language
import Specimen.Proofs.Registration
import Specimen.Writer.Recorder

/-!
# Documents that are valid

The elements directly inside an element are a row that the content of its type allows, wherever no
element is left out and the policy does not ask for every branch of a choice.

Each part of a walk is described by what it adds to the element that is open: a particle adds a row
that it allows, and all elements that are ended on the way are valid. The walk through a particle is
defined from the walk through the particles inside it, so its description follows from theirs, and
the whole is an induction on how many particles may stand inside each other.
-/

namespace Specimen

/-! ## Valid elements -/

/-- The children are a row that the content of the type allows. -/
def Model.Allows (m : Model) (children : List Child) : TypeDef → Prop
  | .simple _ => children = []
  | .complex type => ∃ content, m.contentOf type = .ok content
    ∧ match content.particle with
      | some p => m.Accepts p children
      | none => children = []

/-- The element has the name of its declaration and is generated for its declared type or for one
that stands for it, and the content of that type allows the elements inside it. Inside an element
that stands for a wildcard there are none. -/
def Frame.IsValid (m : Model) (f : Frame) : Prop :=
  match f.origin with
  | none => f.children = []
  | some (decl, type) =>
    f.uri = decl.name.namespaceUri ∧ f.name = decl.name.localName
      ∧ (∃ declared, m.resolveType decl.type = .ok declared ∧ m.Generates declared type)
      ∧ m.Allows f.children type

/-! ## What steps add -/

section

variable {σ : Type} {m : Model} {st st' : List (Step σ)}

/-- No element is left out in the steps. -/
def LeavesNothingOut (st : List (Step σ)) : Prop := ∀ step ∈ st, step.isLeftOut = false

instance (st : List (Step σ)) : Decidable (LeavesNothingOut st) :=
  inferInstanceAs (Decidable (∀ step ∈ st, step.isLeftOut = false))

theorem leavesNothingOut_append :
    LeavesNothingOut (st ++ st') ↔ LeavesNothingOut st ∧ LeavesNothingOut st' :=
  List.forall_mem_append

/-- The steps add a row of children as described to the element that is open, and every element that
is ended in them is valid. -/
def AddsRow (m : Model) (st : List (Step σ)) (Row : List Child → Prop) : Prop :=
  ∃ attrs kids texts done, Adds st attrs kids texts done ∧ (∀ f ∈ done, f.IsValid m) ∧ Row kids

namespace AddsRow

variable {Row Row' Row'' : List Child → Prop}

theorem nil (h : Row []) : AddsRow m ([] : List (Step σ)) Row :=
  ⟨[], [], [], [], Adds.nil, by simp, h⟩

theorem plain (hst : ∀ step ∈ st, step.IsPlain) (h : Row []) : AddsRow m st Row := by
  obtain ⟨attrs, texts, hadds⟩ := Adds.of_forall_isPlain hst
  exact ⟨attrs, [], texts, [], hadds, by simp, h⟩

theorem append (h : AddsRow m st Row) (h' : AddsRow m st' Row')
    (hrow : ∀ kids kids', Row kids → Row' kids' → Row'' (kids ++ kids')) :
    AddsRow m (st ++ st') Row'' := by
  obtain ⟨attrs, kids, texts, done, hadds, hdone, hkids⟩ := h
  obtain ⟨attrs', kids', texts', done', hadds', hdone', hkids'⟩ := h'
  refine ⟨_, _, _, _, hadds.append hadds', fun f hf => ?_, hrow _ _ hkids hkids'⟩
  rcases List.mem_append.mp hf with hf | hf
  · exact hdone f hf
  · exact hdone' f hf

theorem imp (h : AddsRow m st Row) (hrow : ∀ kids, Row kids → Row' kids) : AddsRow m st Row' := by
  obtain ⟨attrs, kids, texts, done, hadds, hdone, hkids⟩ := h
  exact ⟨attrs, kids, texts, done, hadds, hdone, hrow kids hkids⟩

/-- Plain steps before or behind change nothing. -/
theorem plain_append (hst : ∀ step ∈ st, step.IsPlain) (h : AddsRow m st' Row) :
    AddsRow m (st ++ st') Row := by
  have hplain : AddsRow m st fun kids => kids = [] := plain hst rfl
  refine hplain.append h fun kids kids' hk hk' => ?_
  rw [hk]
  exact hk'

theorem append_plain (h : AddsRow m st Row) (hst : ∀ step ∈ st', step.IsPlain) :
    AddsRow m (st ++ st') Row := by
  have hplain : AddsRow m st' fun kids => kids = [] := plain hst rfl
  refine h.append hplain fun kids kids' hk hk' => ?_
  rw [hk', List.append_nil]
  exact hk

end AddsRow

end

/-! ## Parts of a walk -/

namespace Document

open Walk

variable {σ : Type} {m : Model}

/-- Wherever the walk succeeds and leaves nothing out, it adds a row as described. -/
def Writes (m : Model) (walk : Walk σ Unit) (Row : List Child → Prop) : Prop :=
  ∀ s st s', walk.Runs s st (.ok ()) s' → LeavesNothingOut st → AddsRow m st Row

namespace Writes

variable {α : Type} {Row Row' Row'' : List Child → Prop} {walk : Walk σ Unit}

theorem imp (h : Writes m walk Row) (hrow : ∀ kids, Row kids → Row' kids) : Writes m walk Row' :=
  fun s st s' hr hfull => (h s st s' hr hfull).imp hrow

theorem pure (h : Row []) : Writes m (Pure.pure () : Walk σ Unit) Row := by
  intro s st s' hr _
  obtain ⟨rfl, -, -⟩ := runs_pure hr
  exact .nil h

theorem fail (e : Error) : Writes m (fail e : Walk σ Unit) Row := by
  intro s st s' hr _
  obtain ⟨-, hr, -⟩ := runs_fail hr
  cases hr

/-- Two walks one after the other. -/
theorem andThen {next : Unit → Walk σ Unit} (h : Writes m walk Row) (h' : Writes m (next ()) Row')
    (hrow : ∀ kids kids', Row kids → Row' kids' → Row'' (kids ++ kids')) :
    Writes m (walk >>= next) Row'' := by
  intro s st s' hr hfull
  obtain ⟨_, s₁, st₁, st₂, hr₁, hr₂, rfl⟩ := runs_bind_ok hr
  obtain ⟨hfull₁, hfull₂⟩ := leavesNothingOut_append.mp hfull
  exact (h _ _ _ hr₁ hfull₁).append (h' _ _ _ hr₂ hfull₂) hrow

/-- A decision before a walk. -/
theorem decide {decision : Walk σ α} {P : α → Prop} {next : α → Walk σ Unit}
    (h : Decides decision P) (h' : ∀ a, P a → Writes m (next a) Row) :
    Writes m (decision >>= next) Row := by
  intro s st s' hr hfull
  obtain ⟨a, s₁, st₁, st₂, hr₁, hr₂, rfl⟩ := runs_bind_ok hr
  obtain ⟨rfl, -, ha⟩ := h _ _ _ _ hr₁
  exact h' a (ha a rfl) _ _ _ hr₂ hfull

/-- A question about the schema before a walk. -/
theorem ask {answer : Except Error α} {next : α → Walk σ Unit}
    (h : ∀ a, answer = .ok a → Writes m (next a) Row) : Writes m (ask answer >>= next) Row := by
  intro s st s' hr hfull
  obtain ⟨a, s₁, st₁, st₂, hr₁, hr₂, rfl⟩ := runs_bind_ok hr
  obtain ⟨rfl, ha, -⟩ := runs_ask hr₁
  exact h a ha.symm _ _ _ hr₂ hfull

/-- A plain walk before another one. -/
theorem plain_bind {walk : Walk σ α} {next : α → Walk σ Unit} (h : walk.IsPlain)
    (h' : ∀ a, Writes m (next a) Row) : Writes m (walk >>= next) Row := by
  intro s st s' hr hfull
  obtain ⟨a, s₁, st₁, st₂, hr₁, hr₂, rfl⟩ := runs_bind_ok hr
  obtain ⟨-, hfull₂⟩ := leavesNothingOut_append.mp hfull
  exact (h' a _ _ _ hr₂ hfull₂).plain_append (h _ _ _ _ hr₁).1

/-- A plain walk behind another one. -/
theorem bind_plain {next : Unit → Walk σ Unit} (h : Writes m walk Row)
    (h' : ∀ a, (next a).IsPlain) : Writes m (walk >>= next) Row := by
  intro s st s' hr hfull
  obtain ⟨a, s₁, st₁, st₂, hr₁, hr₂, rfl⟩ := runs_bind_ok hr
  obtain ⟨hfull₁, -⟩ := leavesNothingOut_append.mp hfull
  exact (h _ _ _ hr₁ hfull₁).append_plain (h' _ _ _ _ _ hr₂).1

/-- The items of a list, each with a walk of its own. -/
theorem each {β : Type} {walk : β → Walk σ Unit} {R : List β → List Child → Prop}
    {Q : β → List Child → Prop} {l : List β} (h : ∀ b ∈ l, Writes m (walk b) (Q b))
    (hnil : R [] [])
    (hcons : ∀ b rest kids kids', Q b kids → R rest kids' → R (b :: rest) (kids ++ kids')) :
    Writes m (each l walk) (R l) := by
  induction l with
  | nil => exact pure hnil
  | cons b rest ih =>
    exact andThen (h b List.mem_cons_self)
      (ih fun c hc => h c (List.mem_cons_of_mem _ hc)) (hcons b rest)

/-- A term is walked through several times. -/
theorem times {t : Term} (n : Nat) (h : Writes m walk (m.Once t)) :
    Writes m (times n walk) (m.Repeats t n) := by
  induction n with
  | zero => exact pure .zero
  | succ n ih => exact andThen h ih fun kids kids' hk hk' => .succ hk hk'

end Writes

/-! ## Elements -/

variable {w : Leaf.Setting} {visit : Visit σ}

/-- At the position, the term is not taken for the attribute wildcard of the type around it. -/
def IsInContent (path : Path) (t : Term) : Prop :=
  ∀ own, t = .any own → (path.push (.wildcard own)).isAttributeWildcard = false

/-- Particles are walked through as they should be: each adds a row that it allows. -/
def VisitsWell (m : Model) (visit : Visit σ) : Prop :=
  ∀ path p, m.Covers p.parts → IsInContent path p.term →
    Writes m (visit path p) (m.Accepts p)

/-- The particle of a content does not come upon the attribute wildcard of its type. -/
theorem isInContent_of_contentOf (hm : m.Numbered) {path : Path} {type : ComplexType}
    {own : Option Wildcard} {content : Content} {p : Particle} (ht : m.Covers type.parts)
    (hown : m.wildcardOf type = .ok own) (hc : m.contentOf type = .ok content)
    (hp : content.particle = some p) : IsInContent (path.push (.complexType type own)) p.term := by
  intro other hother
  cases own with
  | none => rfl
  | some own =>
    have hmem : .particle p ∈ m.parts := by
      rcases Model.covers_of_contentOf hc hp ht _ p.mem_parts with hmem | ⟨base, ext, hmem⟩
      · exact hmem
      · cases hmem
        cases hother
    obtain ⟨occurs, term⟩ := p
    subst hother
    have hne := hm.id_ne hown ht.type hmem
    simpa [Path.isAttributeWildcard, Path.current, Path.parent, Path.push] using hne

theorem writes_content (hm : w.model.Numbered) (hv : VisitsWell w.model visit) {path : Path}
    {type : ComplexType} {own : Option Wildcard} (ht : w.model.Covers type.parts)
    (hown : w.model.wildcardOf type = .ok own) :
    Writes w.model (content w visit (path.push (.complexType type own)) type)
      fun kids => w.model.Allows kids (.complex type) := by
  refine Writes.ask fun content hc => ?_
  cases hp : content.particle with
  | none => exact .pure ⟨content, hc, by rw [hp]⟩
  | some p =>
    refine (hv _ p (Model.covers_of_contentOf hc hp ht)
      (isInContent_of_contentOf hm ht hown hc hp)).imp fun kids hkids => ?_
    exact ⟨content, hc, by rw [hp]; exact hkids⟩

variable [Source σ]

theorem writes_wildcard {path : Path} {own : Wildcard} (h : IsInContent path (.any own)) :
    Writes m (wildcard path own : Walk σ Unit) (m.Once (.any own)) := by
  refine Writes.decide (decides_chooseNamespace own.namespaces) fun uri huri => ?_
  -- Inside a content an element is written, not an attribute.
  rw [if_neg (by rw [h own rfl]; simp)]
  intro s st s' hr _
  obtain ⟨_, s₁, st₁, st₂, hstart, hend, rfl⟩ := runs_bind_ok hr
  obtain ⟨answer, rfl, rfl⟩ := runs_tell_ok hstart
  obtain ⟨answer', rfl, rfl⟩ := runs_tell_ok hend
  refine ⟨_, _, _, _, Adds.wildcard uri wildcardElement _ _ answer answer', ?_, .any huri⟩
  intro f hf
  rw [List.mem_singleton] at hf
  subst hf
  exact rfl

theorem writes_structured (hm : w.model.Numbered) (hv : VisitsWell w.model visit) {path : Path}
    {type : TypeDef} (isSubstitute : Bool) (ht : w.model.Covers type.parts) :
    Writes w.model (structured w visit path type isSubstitute)
      fun kids => w.model.Allows kids type := by
  cases type with
  | simple type => exact .pure rfl
  | complex type =>
    rw [TypeDef.parts] at ht
    simp only [structured, complexType]
    split
    · exact .fail _
    · refine Writes.plain_bind (isPlain_announce type isSubstitute) fun _ => ?_
      refine Writes.ask fun own hown => Writes.ask fun attrs _ => ?_
      refine Writes.plain_bind (IsPlain.each fun attr _ => isPlain_writeAttribute attr) fun _ => ?_
      refine Writes.plain_bind (isPlain_attributeWildcard path type own) fun _ => ?_
      exact writes_content hm hv ht hown

theorem writes_wholeElement (hm : w.model.Numbered) (hv : VisitsWell w.model visit) {path : Path}
    {decl : ElementDecl} (hd : w.model.Covers decl.parts) :
    Writes w.model (wholeElement w visit path decl) fun kids => kids = [.ofDecl decl] := by
  refine Writes.ask fun declared hdeclared => ?_
  refine Writes.decide (decides_effectiveType declared) fun chosen hchosen => ?_
  obtain ⟨type, isSubstitute⟩ := chosen
  refine Writes.plain_bind (isPlain_annotate declared) fun _ => ?_
  have ht : w.model.Covers type.parts := by
    refine hchosen.covers (Model.covers_of_resolveType hdeclared ?_)
    exact hd.mono decl.parts_type_subset
  intro s st s' hr hfull
  obtain ⟨_, s₁, st₁, st₂, hnote, hr₂, rfl⟩ := runs_bind_ok hr
  obtain ⟨rfl, -, rfl⟩ := runs_note hnote
  obtain ⟨_, s₂, st₃, st₄, hstart, hr₄, rfl⟩ := runs_bind_ok hr₂
  obtain ⟨answer, rfl, rfl⟩ := runs_tell_ok hstart
  obtain ⟨_, s₃, st₅, st₆, hstructured, hr₆, rfl⟩ := runs_bind_ok hr₄
  obtain ⟨_, s₄, st₇, st₈, htext, hend, rfl⟩ := runs_bind_ok hr₆
  obtain ⟨answer', rfl, rfl⟩ := runs_tell_ok hend
  -- Between the two tags stand the attributes and the content, then perhaps a text.
  have hinner : AddsRow w.model (st₅ ++ st₇) fun kids => w.model.Allows kids type := by
    refine AddsRow.append_plain ?_ (isPlain_text decl type _ _ _ _ htext).1
    refine writes_structured hm hv isSubstitute ht _ _ _ hstructured ?_
    simp only [leavesNothingOut_append] at hfull
    exact hfull.2.2.1
  obtain ⟨attrs, kids, texts, done, hadds, hdone, hkids⟩ := hinner
  have hwhole := hadds.element decl type decl.name.namespaceUri decl.name.localName s₂ s' answer
    answer'
  refine ⟨_, _, _, _, List.append_assoc st₅ _ _ ▸ hwhole, ?_, rfl⟩
  · intro f hf
    rcases List.mem_append.mp hf with hf | hf
    · exact hdone f hf
    · rw [List.mem_singleton] at hf
      subst hf
      exact ⟨rfl, rfl, ⟨declared, hdeclared, hchosen⟩, hkids⟩

theorem writes_concreteElement (hm : w.model.Numbered) (hv : VisitsWell w.model visit)
    {path : Path} {decl : ElementDecl} (hd : w.model.Covers decl.parts) :
    Writes w.model (concreteElement w visit path decl) fun kids => kids = [.ofDecl decl] := by
  unfold concreteElement
  split
  · intro s st s' hr hfull
    obtain ⟨rfl, -, -⟩ := runs_note hr
    -- The note says that the element is left out.
    exact absurd (hfull _ List.mem_cons_self) (by simp [Step.isLeftOut])
  · exact writes_wholeElement hm hv hd

/-- An element declaration adds an element of its own or of one that stands for it. -/
theorem writes_element (hm : w.model.Numbered) (hv : VisitsWell w.model visit) {path : Path}
    {decl : ElementDecl} (hd : w.model.Covers decl.parts) :
    Writes w.model (element w visit path decl)
      fun kids => ∃ other, w.model.StandsFor decl other ∧ kids = [.ofDecl other] := by
  unfold element
  split
  · rename_i ha
    refine Writes.decide (decides_chooseSubstitute decl) fun member hmember => ?_
    have hstands : w.model.StandsFor decl member := .member ha hmember
    exact (writes_concreteElement hm hv (hstands.covers hd)).imp fun kids hk => ⟨member, hstands, hk⟩
  · rename_i ha
    have hstands : w.model.StandsFor decl decl := .own (by simpa using ha) rfl
    exact (writes_concreteElement hm hv hd).imp fun kids hk => ⟨decl, hstands, hk⟩

/-! ## Particles -/

/-- The bounds of a particle are in order, and if it is a choice, it has enough branches. -/
theorem boundsMet_of_covers {p : Particle} (hb : m.BoundsMet) (hp : m.Covers p.parts) :
    p.occurs.InOrder ∧ ∀ n ∈ m.branches? p.term, p.occurs.min ≤ n := by
  rcases hp _ p.mem_parts with hmem | ⟨base, own, hmem⟩
  · exact hb _ hmem
  · cases hmem
    -- The sequence of an extension occurs once and has no branches.
    refine ⟨fun max hmax => ?_, fun n hn => nomatch hn⟩
    cases hmax
    exact Nat.le_refl 1

/-- A walk that is repeated as often as is decided. -/
theorem writes_repeated {walk : Walk σ Unit} {occurs : Occurs} {t : Term}
    (ho : occurs.InOrder) (h : Writes m walk (m.Once t)) :
    Writes m (repeated w occurs walk) (m.Accepts ⟨occurs, t⟩) := by
  unfold repeated
  refine Writes.decide (P := fun n => occurs.contains n = true)
    (.draw fun s => Count.contains_ofOccurs ho w.policy s) fun n hn => ?_
  exact (Writes.times n h).imp fun kids hkids => .repeated hn hkids

theorem writes_groupOnce (hv : VisitsWell m visit) {path : Path} {group : ModelGroup}
    (hg : m.Covers group.parts) (hc : group.compositor ≠ .choice) :
    Writes m (groupOnce visit path group) (m.Grouped group) := by
  refine Writes.decide (decides_order group) fun particles hparticles => ?_
  have hmem : ∀ p ∈ particles, p ∈ group.particles := by
    intro p hp
    split at hparticles
    · exact hparticles.subset hp
    · rwa [← hparticles]
  have heach : Writes m (each particles (visit (path.push (.group group.compositor))))
      (m.Arranged particles) := by
    refine Writes.each (fun p hp => ?_) .nil fun b rest kids kids' hk hk' => .cons hk hk'
    exact hv _ p (hg.mono (ModelGroup.parts_subset (hmem p hp))) fun own _ => rfl
  obtain ⟨compositor, declared⟩ := group
  refine heach.imp fun kids hkids => ?_
  cases compositor with
  | sequence =>
    rw [if_neg (by simp)] at hparticles
    subst hparticles
    exact .sequence hkids
  | all =>
    rw [if_pos rfl] at hparticles
    exact .all hparticles hkids
  | choice => exact absurd rfl hc

/-- A choice adds, for each branch that is visited, a row that it allows. -/
theorem writes_choice (hv : VisitsWell w.model visit) (hp : w.policy.exhaustiveChoices = false)
    {path : Path} {particles : List Particle} {occurs : Occurs} {t : Term}
    (hg : w.model.Covers (partsOfAll particles)) (ho : occurs.InOrder)
    (hn : occurs.min ≤ particles.length)
    (ht : ∀ p ∈ particles, ∀ kids, w.model.Accepts p kids → w.model.Once t kids) :
    Writes w.model (choice w visit path occurs particles) (w.model.Accepts ⟨occurs, t⟩) := by
  unfold choice
  refine Writes.decide (P := fun shuffled => shuffled.Perm particles)
    (.draw fun s => Draw.shuffle_perm particles s) fun shuffled hperm => ?_
  have heach : Writes w.model
      (each (shuffled.take (branchCount w.policy occurs particles.length))
        (visit (path.push (.group .choice))))
      (w.model.Repeats t (shuffled.take (branchCount w.policy occurs particles.length)).length) := by
    refine Writes.each (R := fun l => w.model.Repeats t l.length) (Q := fun _ => w.model.Once t)
      (fun p hmem => ?_) .zero fun b rest kids kids' hk hk' => .succ hk hk'
    have hmem' : p ∈ particles := hperm.subset (List.mem_of_mem_take hmem)
    exact (hv _ p (hg.mono (parts_subset_partsOfAll hmem')) fun own _ => rfl).imp (ht p hmem')
  -- Each branch that is visited counts as one occurrence of the choice.
  refine heach.imp fun kids hkids => .repeated ?_ hkids
  rw [List.length_take, hperm.length_eq,
    Nat.min_eq_left (branchCount_le w.policy occurs particles.length)]
  exact contains_branchCount ho hp hn

/-- A group, declared in place or referred to. -/
theorem writes_modelGroup (hv : VisitsWell w.model visit)
    (hp : w.policy.exhaustiveChoices = false) {path : Path} {group : ModelGroup} {occurs : Occurs}
    {t : Term} (hg : w.model.Covers group.parts) (ho : occurs.InOrder)
    (hn : group.compositor = .choice → occurs.min ≤ group.particles.length)
    (ht : ∀ kids, w.model.Grouped group kids → w.model.Once t kids) :
    Writes w.model (modelGroup w visit path group occurs) (w.model.Accepts ⟨occurs, t⟩) := by
  obtain ⟨compositor, particles⟩ := group
  unfold modelGroup
  split
  · rename_i hc
    cases hc
    rw [ModelGroup.parts] at hg
    exact writes_choice hv hp hg ho (hn rfl) fun p hmem kids hk => ht kids (.choice hmem hk)
  · rename_i hc
    exact writes_repeated ho ((writes_groupOnce hv hg hc).imp ht)

/-- **A particle adds a row that it allows, if the particles inside it do.** -/
theorem visitsWell_particle (hm : w.model.Numbered) (hb : w.model.BoundsMet)
    (hp : w.policy.exhaustiveChoices = false) (hv : VisitsWell w.model visit) :
    VisitsWell w.model (particle w visit) := by
  rintro path ⟨occurs, term⟩ hcov hpath
  obtain ⟨ho, hn⟩ := boundsMet_of_covers hb hcov
  have hterm : w.model.Covers term.parts := hcov.mono (by simp [Particle.parts])
  cases term with
  | group group =>
    rw [Term.parts] at hterm
    refine writes_modelGroup hv hp hterm ho (fun hc => ?_) fun kids hk => .group hk
    obtain ⟨compositor, particles⟩ := group
    cases hc
    exact hn _ rfl
  | groupRef name =>
    refine Writes.ask fun group hgroup => ?_
    have hget := Model.get?_of_resolveGroup hgroup
    refine writes_modelGroup hv hp (Model.covers_of_resolveGroup hgroup) ho (fun hc => ?_)
      fun kids hk => .groupRef hget hk
    obtain ⟨compositor, particles⟩ := group
    cases hc
    exact hn _ (by simp [Model.branches?, hget])
  | element decl =>
    rw [Term.parts] at hterm
    refine writes_repeated ho ((writes_element hm hv hterm).imp ?_)
    rintro kids ⟨other, hother, rfl⟩
    exact .element hother
  | elementRef name =>
    refine writes_repeated ho (Writes.ask fun decl hdecl => ?_)
    refine (writes_element hm hv (Model.covers_of_resolveElement hdecl)).imp ?_
    rintro kids ⟨other, hother, rfl⟩
    exact .elementRef (Model.get?_of_resolveElement hdecl) hother
  | any own => exact writes_repeated ho (writes_wildcard hpath)

/-- The induction on how many particles may stand inside each other. -/
theorem visitsWell_visit (hm : w.model.Numbered) (hb : w.model.BoundsMet)
    (hp : w.policy.exhaustiveChoices = false) (steps : Nat) :
    VisitsWell w.model (Document.visit w steps : Visit σ) := by
  induction steps with
  | zero => exact fun path p _ _ => .fail _
  | succ steps ih => exact visitsWell_particle hm hb hp ih

/-! ## Documents -/

theorem writes_walk (hm : w.model.Numbered) (hb : w.model.BoundsMet)
    (hp : w.policy.exhaustiveChoices = false) (root : QName) :
    Writes w.model (walk w root : Walk σ Unit) fun kids => ∃ decl other,
      w.model.rootElement root = .ok decl ∧ w.model.StandsFor decl other
        ∧ kids = [.ofDecl other] := by
  refine Writes.ask fun decl hdecl => ?_
  refine Writes.plain_bind (.tell rfl) fun _ => Writes.plain_bind (.tell rfl) fun _ => ?_
  refine Writes.plain_bind (isPlain_declareRoot root) fun _ => ?_
  refine Writes.bind_plain ?_ fun _ => .tell rfl
  refine (writes_element hm (visitsWell_visit hm hb hp _) (Model.covers_of_rootElement hdecl)).imp ?_
  rintro kids ⟨other, hother, hkids⟩
  exact ⟨decl, other, hdecl, hother, hkids⟩

/-- The outline of the run for a document. -/
def outline {ω : Type} [Writer ω] (w : Leaf.Setting) (root : QName) (source : σ) (writer : ω) :
    Outline :=
  Outline.ofSteps (steps w root source writer)

/-- An element that holds one or two elements of a choice and then, perhaps, any element. -/
def choiceThenAnyRoot : ElementDecl :=
  let leaf (name : String) : Particle :=
    ⟨.once, .element ⟨0, .bare name, .anonymous (.complex default), .local, false, none⟩⟩
  let choice : Particle := ⟨⟨1, some 2⟩, .group ⟨.choice, [leaf "b", leaf "c"]⟩⟩
  let any : Particle := ⟨⟨0, some 1⟩, .any ⟨0, .any⟩⟩
  let content : Content := .elements ⟨.once, .group ⟨.sequence, [choice, any]⟩⟩
  let type : ComplexType := ⟨none, false, content, [], some ⟨0, .any⟩, none⟩
  ⟨0, .bare "a", .anonymous (.complex type), .global, false, none⟩

/-- The schema that declares this element. -/
def choiceThenAny : Leaf.Setting where
  model := Model.builtin.addElement choiceThenAnyRoot
  policy := { exhaustiveChoices := false }
  now := default

end Document

end Specimen

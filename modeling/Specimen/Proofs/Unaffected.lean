import Specimen.Proofs.Decisions
import Specimen.Proofs.Recursion
import Specimen.Proofs.Unmentioned

/-!
# Documents of schemas that differ in what is not mentioned

Two schemas that differ only in what one symbol stands for (`Model.IsBeside`) have the same walks for
every root element but that symbol: each decision on the way is made between the same things, and
what is chosen mentions the symbol as little as what it was chosen for.

So a component that stands alone and is not mentioned leaves all documents as they are, down to the
state of the random source (`generate_register`). A schema with one component more only allows more
particles inside each other before a document counts as endless; that makes a difference to no
document that is not.
-/

namespace Specimen

open Details Walk

/-! ## Scripts and walks that go on the same way -/

namespace Script

variable {σ α β : Type}

theorem bind_congr {script : Script σ α} {f f' : α → σ → Script σ β}
    (hf : ∀ st a s, script.Runs st (.ok a) s → f' a s = f a s) : script.bind f' = script.bind f := by
  induction script with
  | stop r s =>
    cases r with
    | error e => rfl
    | ok a => exact hf [] a s .stop
  | call c s next ih =>
    exact congrArg (call c s) (funext fun answer => ih answer fun _ a s' h => hf _ a s' (.made h))
  | note n next ih => exact congrArg (note n) (ih fun _ a s' h => hf _ a s' (.noted h))

/-- Where a run does not end at its bound, a script that reaches as far has the same run. -/
theorem Reaches.run_eq {ω : Type} [Writer ω] {a b : Script σ α} (h : Reaches a b) {w : ω}
    (hend : (a.run w).1.1 ≠ .error .endless) : b.run w = a.run w := by
  induction h generalizing w with
  | endless => exact absurd rfl hend
  | stop => rfl
  | @call c s next next' h ih =>
    unfold run at hend ⊢
    rcases hc : Writer.perform c w with ⟨answer | answer, w'⟩
    · rfl
    · rw [hc] at hend
      exact ih answer hend
  | @note n next next' h ih => exact ih hend

end Script

namespace Walk

variable {σ α β : Type}

theorem bind_congr {walk walk' : Walk σ α} {f f' : α → Walk σ β} (hwalk : walk' = walk)
    (hf : ∀ a, f' a = f a) : (walk' >>= f') = (walk >>= f) := by
  rw [hwalk, funext hf]

theorem ask_bind_congr {answer answer' : Except Error α} {P : α → Prop} {f f' : α → Walk σ β}
    (hanswer : answer' = answer) (h : Gives answer P) (hf : ∀ a, P a → f' a = f a) :
    (ask answer' >>= f') = (ask answer >>= f) := by
  rw [hanswer]
  refine funext fun s => Script.bind_congr fun st a s' hr => ?_
  obtain ⟨-, hok, -⟩ := runs_ask hr
  rw [hf a (h a hok.symm)]

theorem Decides.bind_congr {walk walk' : Walk σ α} {P : α → Prop} {f f' : α → Walk σ β}
    (hwalk : walk' = walk) (h : walk.Decides P) (hf : ∀ a, P a → f' a = f a) :
    (walk' >>= f') = (walk >>= f) := by
  rw [hwalk]
  refine funext fun s => Script.bind_congr fun st a s' hr => ?_
  rw [hf a ((h s st (.ok a) s' hr).2.2 a rfl)]

theorem each_congr {walk walk' : β → Walk σ Unit} {l : List β} (h : ∀ b ∈ l, walk' b = walk b) :
    each l walk' = each l walk := by
  induction l with
  | nil => rfl
  | cons b rest ih =>
    rw [each, each, h b List.mem_cons_self, ih fun c hc => h c (List.mem_cons_of_mem _ hc)]

end Walk

theorem Filling.ask_bind_congr {σ α β : Type} {answer answer' : Except Error α} {P : α → Prop}
    {f f' : α → Filling σ β} (hanswer : answer' = answer) (h : Gives answer P)
    (hf : ∀ a, P a → f' a = f a) : (ask answer' >>= f') = (ask answer >>= f) := by
  rw [hanswer]
  cases answer with
  | error e => rfl
  | ok a => exact hf a (h a rfl)

/-- The setting with another schema. -/
def Leaf.Setting.over (w : Leaf.Setting) (m : Model) : Leaf.Setting := { w with model := m }

namespace Model.IsBeside

variable {σ : Type} {symbol : Symbol} {w : Leaf.Setting} {m' : Model}
  (h : w.model.IsBeside symbol m')

include h

/-! ## Values -/

section Values

variable [Source σ]

theorem atomicValue {type : SimpleType} (ht : Uphold (Detail.Omits symbol) type.details)
    (hint : String) : (Leaf.atomicValue (w.over m') type hint : Filling σ String)
      = Leaf.atomicValue w type hint := by
  simp only [Leaf.atomicValue, Leaf.Setting.over, h.builtinAncestor ht, h.numericRange ht,
    h.countFacet ht]

theorem listLength {type : SimpleType} (ht : Uphold (Detail.Omits symbol) type.details) :
    (Leaf.listLength (w.over m') type : Filling σ Nat) = Leaf.listLength w type := by
  simp only [Leaf.listLength, Leaf.Setting.over, h.countFacet ht]

theorem valueWithin (hint : String) (steps : Nat) {type : SimpleType}
    (ht : Uphold (Detail.Omits symbol) type.details) :
    (Leaf.valueWithin (w.over m') hint steps type : Filling σ String)
      = Leaf.valueWithin w hint steps type := by
  induction steps generalizing type with
  | zero => rfl
  | succ steps ih =>
    refine Filling.ask_bind_congr (P := fun _ => True) (h.enumeration ht) (fun _ _ => trivial)
      fun values _ => ?_
    cases values with
    | some values => rfl
    | none =>
      refine Filling.ask_bind_congr (h.variety ht) (h.omits.variety ht) fun variety hvariety => ?_
      split
      · next item =>
        refine Filling.ask_bind_congr (h.resolveSimple hvariety) (h.omits.resolveSimple hvariety)
          fun itemType hitem => ?_
        rw [h.listLength ht, ih hitem]
        exact congrArg (_ >>= ·) (funext fun n => Filling.ask_bind_congr (P := fun _ => True)
          (h.enumeration hitem) (fun _ _ => trivial) fun _ _ => rfl)
      · next first others =>
        refine congrArg (_ >>= ·) (funext fun i => ?_)
        have hmember : Uphold (Detail.Omits symbol) ((first :: others).getD i first).details := by
          have hall : Uphold (Detail.Omits symbol) (detailsOfTypes (first :: others)) := hvariety
          rw [detailsOfTypes_eq, Uphold.flatMap] at hall
          exact hall _ (Document.getD_mem first others i)
        exact Filling.ask_bind_congr (h.resolveSimple hmember) (h.omits.resolveSimple hmember)
          fun member hmember => ih hmember
      · exact h.atomicValue ht hint

theorem value {type : SimpleType} (ht : Uphold (Detail.Omits symbol) type.details) (hint : String) :
    (Leaf.value (w.over m') type hint : Filling σ String) = Leaf.value w type hint :=
  h.valueWithin hint _ ht

end Values

/-! ## Content models -/

theorem renderParticle {render render' : ModelGroup → Walk σ String} {p : Particle}
    (hrender : ∀ group, Uphold (Detail.Omits symbol) group.details → render' group = render group)
    (hp : Uphold (Detail.Omits symbol) p.details) :
    ContentModel.renderParticle m' render' p
      = ContentModel.renderParticle w.model render p := by
  obtain ⟨occurs, term⟩ := p
  have hterm : Uphold (Detail.Omits symbol) term.details := (Uphold.cons.mp hp).2
  suffices heq : ContentModel.renderTerm m' render' term
      = ContentModel.renderTerm w.model render term from congrArg (· >>= _) heq
  cases term with
  | elementRef name => rfl
  | element decl => rfl
  | group group => exact hrender group hterm
  | groupRef name =>
    exact ask_bind_congr (h.resolveGroup (ne_of_omits (Uphold.cons.mp hterm).1))
      (h.omits.resolveGroup name) hrender
  | any wildcard => rfl

omit h in
theorem renderGroup {render render' : Particle → Walk σ String} {group : ModelGroup}
    (hrender : ∀ p, Uphold (Detail.Omits symbol) p.details → render' p = render p)
    (hgroup : Uphold (Detail.Omits symbol) group.details) :
    ContentModel.renderGroup render' group = ContentModel.renderGroup render group := by
  rw [group.details_eq, Uphold.flatMap] at hgroup
  suffices heq : ∀ particles : List Particle,
      (∀ p ∈ particles, Uphold (Detail.Omits symbol) p.details) →
      ContentModel.renderAll render' particles = ContentModel.renderAll render particles from
    congrArg (· >>= _) (heq _ hgroup)
  intro particles hall
  induction particles with
  | nil => rfl
  | cons p rest ih =>
    obtain ⟨hfirst, hrest⟩ := List.forall_mem_cons.mp hall
    rw [ContentModel.renderAll, ContentModel.renderAll, hrender p hfirst, ih hrest]

theorem render {p : Particle} (hp : Uphold (Detail.Omits symbol) p.details) :
    (ContentModel.render m' p : Walk σ String) = ContentModel.render w.model p := by
  suffices heq : ∀ steps (p : Particle), Uphold (Detail.Omits symbol) p.details →
      (ContentModel.renderWithin m' steps p : Walk σ String)
        = ContentModel.renderWithin w.model steps p from heq _ p hp
  intro steps
  induction steps with
  | zero => exact fun p hp => h.renderParticle (fun _ _ => rfl) hp
  | succ steps ih =>
    exact fun p hp => h.renderParticle (fun group hgroup => renderGroup ih hgroup) hp

theorem annotate {declared : TypeDef} (hd : Uphold (Detail.Omits symbol) declared.details) :
    (Document.annotate (w.over m') declared : Walk σ Unit) = Document.annotate w declared := by
  cases declared with
  | simple type => rfl
  | complex type =>
    have hcontent : Document.annotateType m' type
        = (Document.annotateType w.model type : Walk σ Unit) := by
      refine ask_bind_congr (h.contentOf hd) (h.omits.contentOf hd) fun content hcontent => ?_
      split
      · rfl
      · next p hp => rw [h.render (Upholds.particle hcontent hp)]
    simp only [Document.annotate, Leaf.Setting.over, hcontent]

variable [Source σ]

/-! ## Attributes -/

theorem writeAttribute {attr : EffectiveAttribute}
    (ha : Uphold (Detail.Omits symbol) attr.decl.details) :
    (Document.writeAttribute (w.over m') attr : Walk σ Unit) = Document.writeAttribute w attr := by
  have htype := ha.mono attr.decl.type_subset
  have hfree : (Document.freeValue (w.over m') attr : Walk σ (Option String))
      = Document.freeValue w attr := by
    unfold Document.freeValue
    refine bind_congr rfl fun isFilled => ?_
    split
    · refine ask_bind_congr (h.resolveSimple htype) (h.omits.resolveSimple htype) fun type ht => ?_
      rw [h.value ht]
    · rfl
  have hvalue : (Document.attributeValue (w.over m') attr : Walk σ (Option String))
      = Document.attributeValue w attr := by
    unfold Document.attributeValue
    split
    · rfl
    · rfl
    · exact hfree
  rw [Document.writeAttribute, Document.writeAttribute, hvalue]

/-! ## Types -/

omit [Source σ] in
theorem content {visit visit' : Document.Visit σ} {path : Path} {type : ComplexType}
    (hvisit : ∀ p, Uphold (Detail.Omits symbol) p.details → visit' path p = visit path p)
    (ht : Uphold (Detail.Omits symbol) type.details) :
    Document.content (w.over m') visit' path type = Document.content w visit path type := by
  refine ask_bind_congr (h.contentOf ht) (h.omits.contentOf ht) fun content hcontent => ?_
  split
  · next p hp => exact hvisit p (Upholds.particle hcontent hp)
  · rfl

theorem complexType {visit visit' : Document.Visit σ} {type : ComplexType}
    (hvisit : ∀ path p, Uphold (Detail.Omits symbol) p.details → visit' path p = visit path p)
    (ht : Uphold (Detail.Omits symbol) type.details) (path : Path) (isSubstitute : Bool) :
    Document.complexType (w.over m') visit' path type isSubstitute
      = Document.complexType w visit path type isSubstitute := by
  unfold Document.complexType
  split
  · rfl
  · refine bind_congr rfl fun _ => ?_
    refine ask_bind_congr (P := fun _ => True) (h.wildcardOf ht) (fun _ _ => trivial) fun own _ => ?_
    refine ask_bind_congr (h.attributesOf ht) (h.omits.attributesOf ht) fun attrs hattrs => ?_
    refine bind_congr (each_congr fun attr hattr => h.writeAttribute (hattrs attr hattr)) fun _ => ?_
    exact bind_congr rfl fun _ => h.content (hvisit _) ht

theorem chooseSubtype (type : ComplexType) :
    (Document.chooseSubtype m' type : Walk σ ComplexType) = Document.chooseSubtype w.model type := by
  simp only [Document.chooseSubtype, h.subtypes]

theorem effectiveType (declared : TypeDef) :
    (Document.effectiveType m' declared : Walk σ (TypeDef × Bool))
      = Document.effectiveType w.model declared := by
  simp only [Document.effectiveType, h.chooseSubtype]

omit [Source σ] in
/-- A type that is generated for a declared one mentions a symbol as little as all types do. -/
theorem generates {declared type : TypeDef} (hd : Uphold (Detail.Omits symbol) declared.details)
    (hg : w.model.Generates declared type) : Uphold (Detail.Omits symbol) type.details := by
  cases hg with
  | own _ ht => rwa [ht]
  | subtype _ _ _ hs ht =>
    rw [ht]
    exact h.omits.concreteSubtypes _ _ hs

/-! ## Elements -/

theorem text {decl : ElementDecl} {type : TypeDef}
    (ht : Uphold (Detail.Omits symbol) type.details) :
    (Document.text (w.over m') decl type : Walk σ Unit) = Document.text w decl type := by
  refine ask_bind_congr (h.textType ht) (h.omits.textType ht) fun found hfound => ?_
  split
  · next textType => rw [h.value (hfound textType rfl)]
  · rfl

theorem concreteElement {visit visit' : Document.Visit σ} {decl : ElementDecl}
    (hvisit : ∀ path p, Uphold (Detail.Omits symbol) p.details → visit' path p = visit path p)
    (hd : Uphold (Detail.Omits symbol) decl.details) (path : Path) :
    Document.concreteElement (w.over m') visit' path decl
      = Document.concreteElement w visit path decl := by
  have hdecl := hd.mono decl.type_subset
  unfold Document.concreteElement
  split
  · rfl
  · refine ask_bind_congr (h.resolveType hdecl) (h.omits.resolveType hdecl)
      fun declared hdeclared => ?_
    refine Decides.bind_congr (h.effectiveType declared) (Document.decides_effectiveType declared)
      fun chosen hchosen => ?_
    have htype := h.generates hdeclared hchosen
    refine bind_congr (h.annotate hdeclared) fun _ => ?_
    refine bind_congr rfl fun _ => bind_congr rfl fun _ => ?_
    have hstructured : Document.structured (w.over m') visit' (path.push (.element decl)) chosen.1
        chosen.2 = Document.structured w visit (path.push (.element decl)) chosen.1 chosen.2 := by
      obtain ⟨type, isSubstitute⟩ := chosen
      cases type with
      | simple type => rfl
      | complex type => exact h.complexType hvisit htype _ isSubstitute
    exact bind_congr hstructured fun _ => bind_congr (h.text htype) fun _ => rfl

theorem elementOrSubstitute {visit visit' : Document.Visit σ} {decl : ElementDecl}
    (hvisit : ∀ path p, Uphold (Detail.Omits symbol) p.details → visit' path p = visit path p)
    (hd : Uphold (Detail.Omits symbol) decl.details) (path : Path) :
    Document.element (w.over m') visit' path decl = Document.element w visit path decl := by
  have hchoose : (Document.chooseSubstitute m' decl : Walk σ ElementDecl)
      = Document.chooseSubstitute w.model decl := by
    simp only [Document.chooseSubstitute, h.members]
  unfold Document.element
  split
  · exact Decides.bind_congr hchoose (Document.decides_chooseSubstitute decl) fun member hmember =>
      h.concreteElement hvisit (h.omits.substitutionMembers _ member hmember) path
  · exact h.concreteElement hvisit hd path

/-! ## Particles -/

omit h in
theorem modelGroup {visit visit' : Document.Visit σ} {group : ModelGroup}
    (hvisit : ∀ path p, Uphold (Detail.Omits symbol) p.details → visit' path p = visit path p)
    (hg : Uphold (Detail.Omits symbol) group.details) (path : Path) (occurs : Occurs) :
    Document.modelGroup (w.over m') visit' path group occurs
      = Document.modelGroup w visit path group occurs := by
  rw [group.details_eq, Uphold.flatMap] at hg
  have hall {particles : List Particle} (hsub : ∀ p ∈ particles, p ∈ group.particles)
      (compositor : Compositor) : each particles (visit' (path.push (.group compositor)))
        = each particles (visit (path.push (.group compositor))) :=
    each_congr fun p hp => hvisit _ p (hg p (hsub p hp))
  unfold Document.modelGroup
  split
  · refine Decides.bind_congr (P := fun shuffled => shuffled.Perm group.particles) rfl
      (.draw fun s => Draw.shuffle_perm group.particles s) fun shuffled hperm => ?_
    exact hall (fun p hp => hperm.mem_iff.mp (List.mem_of_mem_take hp)) .choice
  · have honce : Document.groupOnce visit' path group = Document.groupOnce visit path group := by
      refine Decides.bind_congr rfl (Document.decides_order group) fun particles hparticles => ?_
      refine hall (fun p hp => ?_) group.compositor
      split at hparticles
      · exact hparticles.mem_iff.mp hp
      · rwa [hparticles] at hp
    rw [honce]
    rfl

theorem particle {visit visit' : Document.Visit σ} {p : Particle}
    (hvisit : ∀ path p, Uphold (Detail.Omits symbol) p.details → visit' path p = visit path p)
    (hp : Uphold (Detail.Omits symbol) p.details) (path : Path) :
    Document.particle (w.over m') visit' path p = Document.particle w visit path p := by
  obtain ⟨occurs, term⟩ := p
  have hterm : Uphold (Detail.Omits symbol) term.details := (Uphold.cons.mp hp).2
  cases term with
  | group group => exact modelGroup hvisit hterm path occurs
  | groupRef name =>
    exact ask_bind_congr (h.resolveGroup (ne_of_omits (Uphold.cons.mp hterm).1))
      (h.omits.resolveGroup name) fun group hgroup => modelGroup hvisit hgroup path occurs
  | element decl =>
    exact congrArg (Document.repeated w occurs) (h.elementOrSubstitute hvisit hterm path)
  | elementRef name =>
    refine congrArg (Document.repeated w occurs) ?_
    exact ask_bind_congr (h.resolveElement (ne_of_omits (Uphold.cons.mp hterm).1))
      (h.omits.resolveElement name) fun decl hdecl => h.elementOrSubstitute hvisit hdecl path
  | any own => rfl

theorem visit (steps : Nat) (path : Path) {p : Particle}
    (hp : Uphold (Detail.Omits symbol) p.details) :
    (Document.visit (w.over m') steps path p : Walk σ Unit) = Document.visit w steps path p := by
  induction steps generalizing path p with
  | zero => rfl
  | succ steps ih => exact h.particle (fun path p hp => ih path hp) hp path

/-! ## Documents -/

/-- **Schemas that differ only in what one symbol stands for have the same walks**, from every other
root element and with every bound. -/
theorem walkWithin {root : QName} (hroot : ⟨.element, root⟩ ≠ symbol) (steps : Nat) :
    (Document.walkWithin steps (w.over m') root : Walk σ Unit)
      = Document.walkWithin steps w root := by
  refine ask_bind_congr (h.rootElement hroot) (h.omits.rootElement root) fun decl hdecl => ?_
  refine bind_congr rfl fun _ => bind_congr rfl fun _ => bind_congr rfl fun _ => ?_
  refine bind_congr ?_ fun _ => rfl
  exact h.elementOrSubstitute (fun path p hp => h.visit steps path hp) hdecl .empty

end Model.IsBeside

/-! ## A component that is registered last -/

namespace Model

variable {m : Model} {declaration : Declaration}

/-- A schema keeps its parts when a new component is registered. -/
theorem parts_sublist_register (hnew : m.Lacks declaration.symbol) :
    m.parts.Sublist (m.register declaration).parts := by
  have hrow {α : Type} {t : Table α} {name : QName} {a : α} (parts : α → List Part)
      (hget : t.get? name = none) :
      (t.values.flatMap parts).Sublist ((t.insert name a).values.flatMap parts) := by
    rw [Table.values_insert_of_new hget, List.flatMap_append]
    exact List.sublist_append_left _ _
  cases declaration with
  | element decl inheritsType =>
    have hname : (decl.numberFrom m.next).1.name = decl.name := decl.name_numberFrom m.next
    have hget : m.elements.get? (decl.numberFrom m.next).1.name = none := by rwa [hname]
    exact ((hrow ElementDecl.parts hget).append (.refl _)).append (.refl _)
  | type name definition =>
    exact ((List.Sublist.refl _).append (hrow TypeDef.parts hnew)).append (.refl _)
  | attr decl => exact .refl _
  | attributeGroup name group => exact .refl _
  | group name group => exact (List.Sublist.refl _).append (hrow ModelGroup.parts hnew)

theorem size_groups_le_register (hnew : m.Lacks declaration.symbol) :
    m.groups.size ≤ (m.register declaration).groups.size := by
  cases declaration with
  | group name group =>
    have hsize := congrArg List.length
      (Table.values_insert_of_new hnew (group.numberFrom m.next).1)
    rw [Table.values, Table.values, List.length_append, List.length_map, List.length_map] at hsize
    exact Nat.le.intro hsize.symm
  | element | type | attr | attributeGroup => exact Nat.le_refl _

end Model

namespace Document

variable {σ : Type} [Source σ] {w : Leaf.Setting} {declaration : Declaration} {root : QName}

theorem depthBound_le_register {m : Model} (hnew : m.Lacks declaration.symbol) :
    depthBound m ≤ depthBound (m.register declaration) := by
  have hparts := Model.parts_sublist_register hnew
  have hdeclarations := (hparts.filterMap Part.declaration?).length_le
  exact Nat.mul_le_mul (Nat.mul_le_mul_left 3 hdeclarations)
    (Nat.mul_le_mul (Nat.succ_le_succ (Model.size_groups_le_register hnew))
      (Nat.mul_le_mul_left _ (Nat.succ_le_succ hparts.length_le)))

/-- **A component that stands alone and is not mentioned leaves all documents as they are.** Let it
be registered behind all others under a new name. From every root element but this one, the walks
with the same bound are the same. So are the result, the state of the source and what the writer is
told, unless the bound of the smaller schema was reached; where no model group refers to itself,
they are the same anyway. -/
theorem generate_register (halone : declaration.StandsAlone)
    (hnew : w.model.Lacks declaration.symbol)
    (homits : .refers declaration.symbol ∉ w.model.details)
    (hroot : ⟨.element, root⟩ ≠ declaration.symbol) :
    (∀ steps, (walkWithin steps (w.over (w.model.register declaration)) root : Walk σ Unit)
      = walkWithin steps w root)
    ∧ ∀ {ω : Type} [Writer ω] (source : σ) (writer : ω),
      (generate w root source writer).result ≠ .error .endless ∨ w.model.GroupsAcyclic →
      generate (w.over (w.model.register declaration)) root source writer
        = generate w root source writer := by
  have hwalks (steps : Nat) :
      (walkWithin steps (w.over (w.model.register declaration)) root : Walk σ Unit)
        = walkWithin steps w root :=
    (Model.isBeside_register halone hnew homits).walkWithin hroot steps
  have hbound : depthBound w.model ≤ depthBound (w.model.register declaration) :=
    depthBound_le_register hnew
  have hwalk : (walk (w.over (w.model.register declaration)) root : Walk σ Unit)
      = walkWithin (depthBound (w.model.register declaration)) w root := hwalks _
  refine ⟨hwalks, fun source writer hend => ?_⟩
  suffices hrun : (walk (w.over (w.model.register declaration)) root { source }).run writer
      = (walk w root { source }).run writer by
    rw [generate, generate, hrun]
  rw [hwalk]
  rcases hend with hend | hg
  · obtain ⟨more, hmore⟩ := Nat.exists_eq_add_of_le hbound
    rw [hmore]
    exact (reaches_walkWithin w root _ more _).run_eq hend
  · rw [walkWithin_eq_walk hg root hbound]

/-- A group that holds the parts of `endlessPart` again. -/
def outerGroup : Declaration :=
  .group (.bare "outside") ⟨.sequence, [⟨.once, .groupRef (.bare "inside")⟩]⟩

theorem generate_register_outerGroup :
    endlessPart.model.Lacks outerGroup.symbol
      ∧ .refers outerGroup.symbol ∉ endlessPart.model.details
      ∧ endlessPart.model.GroupsAcyclic
      ∧ generate (endlessPart.over (endlessPart.model.register outerGroup)) (.bare "part")
          (⟨[], 0⟩ : Scripted) ({} : Recorder)
        = generate endlessPart (.bare "part") (⟨[], 0⟩ : Scripted) ({} : Recorder) := by
  have hnew : endlessPart.model.Lacks outerGroup.symbol := rfl
  have homits : .refers outerGroup.symbol ∉ endlessPart.model.details := by decide +kernel
  have hroot : ⟨.element, .bare "part"⟩ ≠ outerGroup.symbol := by decide
  have halone : outerGroup.StandsAlone := trivial
  have hwalks := generate_register (σ := Scripted) (w := endlessPart) halone hnew homits hroot
  exact ⟨hnew, homits, groupsAcyclic_endlessPart,
    hwalks.2 _ _ (.inr groupsAcyclic_endlessPart)⟩

end Document

end Specimen

import Mathlib.Logic.Relation
import Specimen.Proofs.Parts

/-!
# Extensions

A type that extends another one puts its own content behind the content of the base, which may be
put together in the same way. The content that comes out is told by the chain of types that extend
each other: its particle holds the particles that these types declare, those of the outermost base
first, text may stand between them if one of the types allows it, and if there are no particles, it
is the nearest simple content. A chain that leads back to itself has no content.
-/

namespace Specimen

/-! ## Chains of extensions -/

namespace Model

variable {m : Model} {type : ComplexType}

/-- The type, the complex type that it extends, the one that this type extends, and so on. The chain
ends with a type that is not derived by extension, or with one that extends a simple type. The name
is that of this simple type. -/
inductive ExtensionChain (m : Model) : ComplexType → List ComplexType → Option QName → Prop
  | last {type : ComplexType} (h : ∀ name, type.derivation ≠ some ⟨.extension, name⟩) :
    ExtensionChain m type [type] none
  | simple {type : ComplexType} {name : QName} {simpleType : SimpleType}
      (h : type.derivation = some ⟨.extension, name⟩)
      (hb : m.types.get? name = some (.simple simpleType)) :
    ExtensionChain m type [type] (some name)
  | complex {type base : ComplexType} {name : QName} {chain : List ComplexType}
      {simpleBase : Option QName} (h : type.derivation = some ⟨.extension, name⟩)
      (hb : m.types.get? name = some (.complex base))
      (hc : ExtensionChain m base chain simpleBase) :
    ExtensionChain m type (type :: chain) simpleBase

theorem ExtensionChain.unique {chain other : List ComplexType} {simpleBase base' : Option QName}
    (h : m.ExtensionChain type chain simpleBase) (h' : m.ExtensionChain type other base') :
    other = chain ∧ base' = simpleBase := by
  have hname {type : ComplexType} {name name' : QName}
      (h : type.derivation = some ⟨.extension, name⟩)
      (h' : type.derivation = some ⟨.extension, name'⟩) : name = name' :=
    congrArg Derivation.base (Option.some.inj (h.symm.trans h'))
  induction h generalizing other with
  | last h =>
    cases h' with
    | last => exact ⟨rfl, rfl⟩
    | simple h' | complex h' => exact absurd h' (h _)
  | simple h hb =>
    cases h' with
    | last h' => exact absurd h (h' _)
    | simple h' =>
      obtain rfl := hname h h'
      exact ⟨rfl, rfl⟩
    | complex h' hb' =>
      obtain rfl := hname h h'
      cases hb.symm.trans hb'
  | complex h hb _ ih =>
    cases h' with
    | last h' => exact absurd h (h' _)
    | simple h' hb' =>
      obtain rfl := hname h h'
      cases hb.symm.trans hb'
    | complex h' hb' hc' =>
      obtain rfl := hname h h'
      cases hb.symm.trans hb'
      obtain ⟨rfl, rfl⟩ := ih hc'
      exact ⟨rfl, rfl⟩

/-- A registered type extends the type with a name. -/
def Extends (m : Model) (name base : QName) : Prop :=
  ∃ type, m.types.get? name = some (.complex type) ∧ type.derivation = some ⟨.extension, base⟩

/-- Going from the type to what it extends leads to a name that leads back to itself. -/
def ExtendsInCircle (m : Model) (type : ComplexType) : Prop :=
  ∃ base name, type.derivation = some ⟨.extension, base⟩
    ∧ Relation.ReflTransGen m.Extends base name ∧ Relation.TransGen m.Extends name name

/-- What is extended on the way to a circle is a type that leads there as well. -/
theorem ExtendsInCircle.base (h : m.ExtendsInCircle type) :
    ∃ name base, type.derivation = some ⟨.extension, name⟩
      ∧ m.types.get? name = some (.complex base) ∧ m.ExtendsInCircle base := by
  obtain ⟨first, name, hderivation, hto, hcircle⟩ := h
  obtain ⟨next, ⟨base, hget, hbase⟩, hnext⟩ :=
    Relation.TransGen.head'_iff.mp (hcircle.trans_right hto)
  exact ⟨first, base, hderivation, hget, next, name, hbase, hnext, hcircle⟩

theorem contentWithin_circular (steps : Nat) (h : m.ExtendsInCircle type) :
    ∃ name, m.contentWithin steps type = .error (.shape (.circular (some name))) := by
  induction steps generalizing type with
  | zero =>
    obtain ⟨name, _, hderivation, -⟩ := h.base
    exact ⟨name, by rw [contentWithin, hderivation]⟩
  | succ steps ih =>
    obtain ⟨name, base, hderivation, hget, hbase⟩ := h.base
    obtain ⟨name', herror⟩ := ih hbase
    refine ⟨name', ?_⟩
    rw [contentWithin, hderivation]
    simp only [resolveType, hget, herror, bind, Except.bind]

end Model

/-! ## Contents of chains -/

open Model (extendContent appendParticle particle_extendContent)

/-- A particle that extensions have put together from others, in their order. Each extension adds
one at the end. -/
inductive PutTogether : Particle → List Particle → Prop
  | one (p : Particle) : PutTogether p [p]
  | behind {base : Particle} {ps : List Particle} (h : PutTogether base ps) (own : Particle) :
    PutTogether ⟨.once, .group ⟨.sequence, [base, own]⟩⟩ (ps ++ [own])

theorem PutTogether.ne_nil {p : Particle} {ps : List Particle} (h : PutTogether p ps) :
    ps ≠ [] := by
  cases h <;> simp

/-- The particles and their order say what is put together. -/
theorem PutTogether.unique {p q : Particle} {ps : List Particle} (h : PutTogether p ps)
    (h' : PutTogether q ps) : q = p := by
  induction h generalizing q with
  | one p =>
    -- With a variable for the row, the other derivation can be taken apart too.
    generalize hps : [p] = ps at h'
    cases h' with
    | one => exact (List.singleton_inj.mp hps).symm
    | behind h' => exact absurd (List.append_eq_singleton_iff.mp hps.symm) (by simp [h'.ne_nil])
  | behind h own ih =>
    rename_i base before
    generalize hps : before ++ [own] = ps at h'
    cases h' with
    | one => exact absurd (List.append_eq_singleton_iff.mp hps) (by simp [h.ne_nil])
    | behind h' other =>
      obtain ⟨rfl, hlast⟩ := List.append_inj' hps rfl
      obtain rfl := List.singleton_inj.mp hlast
      rw [ih h']

/-- The type of simple content. -/
def Content.simpleType? : Content → Option TypeRef
  | .simple type => some type
  | _ => none

/-- The particles that the types of a chain declare, from the end of the chain to its start. -/
def declaredParticles (chain : List ComplexType) : List Particle :=
  chain.reverse.filterMap fun type => type.content.particle

/-- The simple content that is declared nearest to the start of a chain. If there is none, it is that
of the simple type at the end, or there is no content. -/
def textContent (chain : List ComplexType) (simpleBase : Option QName) : Content :=
  match chain.findSome? fun type => type.content.simpleType? with
  | some type => .simple type
  | none =>
    match simpleBase with
    | some name => .simple (.named name)
    | none => .empty

/-- The content is put together from what the types of a chain declare. -/
structure IsComposed (chain : List ComplexType) (simpleBase : Option QName) (content : Content) :
    Prop where
  isSome_particle : content.particle.isSome ↔ ∃ type ∈ chain, type.content.particle.isSome
  particles : ∀ p, content.particle = some p → PutTogether p (declaredParticles chain)
  isMixed : content.isMixed = true ↔ ∃ type ∈ chain, type.content.isMixed = true
  text : (∀ type ∈ chain, type.content.particle = none) → content = textContent chain simpleBase

theorem declaredParticles_cons (type : ComplexType) (chain : List ComplexType) :
    declaredParticles (type :: chain)
      = declaredParticles chain ++ type.content.particle.toList := by
  rw [declaredParticles, List.reverse_cons, List.filterMap_append]
  cases h : type.content.particle <;> simp [declaredParticles, h]

theorem particle_textContent (chain : List ComplexType) (simpleBase : Option QName) :
    (textContent chain simpleBase).particle = none := by
  unfold textContent
  split
  · rfl
  · cases simpleBase <;> rfl

/-- A type with simple content hides what the others say about the text. -/
theorem textContent_cons (type : ComplexType) (chain : List ComplexType)
    (simpleBase : Option QName) (h : type.content.particle = none) :
    textContent (type :: chain) simpleBase
      = extendContent (textContent chain simpleBase) type.content := by
  unfold extendContent
  rw [particle_textContent, h]
  cases hc : type.content with
  | simple text => simp [textContent, appendParticle, Content.simpleType?, hc]
  | empty => simp [textContent, appendParticle, Content.simpleType?, hc]
  | elements p => simp [Content.particle, hc] at h
  | mixed p => simp [Content.particle, hc] at h

theorem isMixed_extendContent (base own : Content) :
    (extendContent base own).isMixed = (own.isMixed || base.isMixed) := by
  cases base <;> cases own <;> rfl

theorem extendContent_empty (own : Content) : extendContent .empty own = own := by
  cases own <;> rfl

namespace IsComposed

variable {chain : List ComplexType} {simpleBase : Option QName} {base content : Content}

theorem nil (simpleBase : Option QName) : IsComposed [] simpleBase (textContent [] simpleBase) where
  isSome_particle := by simp [particle_textContent]
  particles p hp := by
    rw [particle_textContent] at hp
    cases hp
  isMixed := by
    have hmixed : (textContent [] simpleBase).isMixed = false := by cases simpleBase <;> rfl
    simp [hmixed]
  text _ := rfl

/-- The particles of a chain are those of its content. -/
theorem declaredParticles_eq_nil (h : IsComposed chain simpleBase content)
    (hnone : content.particle = none) : declaredParticles chain = [] := by
  have hsome := h.isSome_particle
  rw [hnone] at hsome
  rw [declaredParticles, List.filterMap_eq_nil_iff]
  intro type htype
  refine Option.not_isSome_iff_eq_none.mp fun htype' => ?_
  cases hsome.mpr ⟨type, List.mem_reverse.mp htype, htype'⟩

/-- One more extension puts its own content behind that of the chain. -/
theorem cons (h : IsComposed chain simpleBase base) (type : ComplexType) :
    IsComposed (type :: chain) simpleBase (extendContent base type.content) where
  isSome_particle := by
    simp only [List.mem_cons, exists_eq_or_imp]
    rw [particle_extendContent, ← h.isSome_particle]
    cases base.particle <;> cases type.content.particle <;> simp [appendParticle]
  particles p hp := by
    rw [particle_extendContent] at hp
    rw [declaredParticles_cons]
    cases hb : base.particle with
    | none =>
      -- The chain declares no particle, so the own one is the only one.
      rw [h.declaredParticles_eq_nil hb]
      simp only [hb, appendParticle] at hp
      rw [hp]
      exact .one p
    | some b =>
      have hbase := h.particles b hb
      cases ho : type.content.particle with
      | none =>
        simp only [hb, ho, appendParticle, Option.some.injEq] at hp
        rw [Option.toList_none, List.append_nil, ← hp]
        exact hbase
      | some o =>
        simp only [hb, ho, appendParticle, Option.some.injEq] at hp
        rw [← hp]
        exact hbase.behind o
  isMixed := by
    simp only [List.mem_cons, exists_eq_or_imp]
    rw [isMixed_extendContent, Bool.or_eq_true, h.isMixed]
  text hnone := by
    rw [List.forall_mem_cons] at hnone
    rw [textContent_cons type chain simpleBase hnone.1, h.text hnone.2]

/-- **A chain has one content.** -/
theorem unique {other : Content} (h : IsComposed chain simpleBase content)
    (h' : IsComposed chain simpleBase other) : other = content := by
  have hmixed : other.isMixed = content.isMixed := by rw [Bool.eq_iff_iff, h.isMixed, h'.isMixed]
  cases hp : content.particle with
  | none =>
    have hnone : ∀ type ∈ chain, type.content.particle = none := fun type htype =>
      List.filterMap_eq_nil_iff.mp (h.declaredParticles_eq_nil hp) type (List.mem_reverse.mpr htype)
    rw [h.text hnone, h'.text hnone]
  | some p =>
    obtain ⟨q, hq⟩ := Option.isSome_iff_exists.mp
      (h'.isSome_particle.mpr (h.isSome_particle.mp (by rw [hp]; rfl)))
    obtain rfl := (h.particles p hp).unique (h'.particles q hq)
    cases content <;> cases other <;> simp_all [Content.particle, Content.isMixed]

end IsComposed

namespace Model

variable {m : Model} {type : ComplexType} {content : Content}

theorem isComposed_contentWithin {steps : Nat} (h : m.contentWithin steps type = .ok content) :
    ∃ chain simpleBase, m.ExtensionChain type chain simpleBase
      ∧ IsComposed chain simpleBase content := by
  induction steps using Nat.strongRecOn generalizing type content with
  | ind steps ih =>
    rcases contentWithin_cases h with
      ⟨rfl, hlast⟩ | ⟨name, _, rfl, hderivation, hget⟩
        | ⟨n, _, base, _, rfl, hderivation, hget, hbase, rfl⟩
    · -- The own content is what an extension of no content has.
      have hcomposed := (IsComposed.nil none).cons type
      rw [textContent, List.findSome?_nil, extendContent_empty] at hcomposed
      exact ⟨[type], none, .last hlast, hcomposed⟩
    · exact ⟨[type], some name, .simple hderivation hget, (IsComposed.nil (some name)).cons type⟩
    · obtain ⟨chain, simpleBase, hchain, hcomposed⟩ := ih n n.lt_succ_self hbase
      exact ⟨type :: chain, simpleBase, .complex hderivation hget hchain, hcomposed.cons type⟩

/-- **The content of a type is put together along its extensions.** It is the one content that its
chain of extensions has, and a chain that goes in a circle is an error. -/
theorem contentOf_extension (m : Model) (type : ComplexType) :
    (∀ content, m.contentOf type = .ok content →
      ∃ chain simpleBase, m.ExtensionChain type chain simpleBase
        ∧ (∀ other base, m.ExtensionChain type other base → other = chain ∧ base = simpleBase)
        ∧ IsComposed chain simpleBase content
        ∧ ∀ other, IsComposed chain simpleBase other → other = content)
    ∧ (m.ExtendsInCircle type →
      ∃ name, m.contentOf type = .error (.shape (.circular (some name)))) := by
  refine ⟨fun content h => ?_, contentWithin_circular _⟩
  obtain ⟨chain, simpleBase, hchain, hcomposed⟩ := isComposed_contentWithin h
  exact ⟨chain, simpleBase, hchain, fun other base hother => hchain.unique hother, hcomposed,
    fun other hother => hcomposed.unique hother⟩

/-- The particles of two types in a chain of three, and a type that extends itself. -/
theorem contentOf_extension_three :
    let first : Particle := ⟨⟨0, none⟩, .elementRef (.bare "a")⟩
    let second : Particle := ⟨⟨2, some 3⟩, .elementRef (.bare "b")⟩
    let base : ComplexType := ⟨none, false, .mixed first, [], none, none⟩
    let middle : ComplexType := ⟨none, false, .empty, [], none, some ⟨.extension, .bare "Base"⟩⟩
    let type : ComplexType :=
      ⟨none, false, .elements second, [], none, some ⟨.extension, .bare "Middle"⟩⟩
    let loop : ComplexType := ⟨none, false, .empty, [], none, some ⟨.extension, .bare "Loop"⟩⟩
    let m : Model := { types := ⟨[(.bare "Base", .complex base), (.bare "Middle", .complex middle),
      (.bare "Loop", .complex loop)]⟩ }
    let content : Content := .mixed ⟨.once, .group ⟨.sequence, [first, second]⟩⟩
    m.contentOf type = .ok content
      ∧ (∃ chain simpleBase, m.ExtensionChain type chain simpleBase
        ∧ (∀ other base, m.ExtensionChain type other base → other = chain ∧ base = simpleBase)
        ∧ IsComposed chain simpleBase content
        ∧ ∀ other, IsComposed chain simpleBase other → other = content)
      ∧ m.ExtendsInCircle loop
      ∧ ∃ name, m.contentOf loop = .error (.shape (.circular (some name))) := by
  intro first second base middle type loop m content
  have hcircle : m.ExtendsInCircle loop :=
    ⟨.bare "Loop", .bare "Loop", rfl, .refl, .single ⟨loop, rfl, rfl⟩⟩
  exact ⟨rfl, (contentOf_extension m type).1 content rfl, hcircle,
    (contentOf_extension m loop).2 hcircle⟩

end Model

end Specimen

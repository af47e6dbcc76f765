import Mathlib.Data.List.ReduceOption
import Specimen.Proofs.InheritedTypes
import Specimen.Proofs.LeafValues

/-!
# Facets through simple content

A complex type with simple content derives from a simple type, or from another such complex type. A
restriction adds a step with facets of its own, an extension adds none. So the text of a type at the
end of a row of such derivations has the steps of the restrictions in front of the chain of the
simple type that the row starts from, and the facet in effect is that of the last restriction that
has one of its kind. The row may be long: what is limited is how many extensions follow each other
without a restriction, and how long the chain of simple types is.
-/

namespace Specimen

/-! ## Elements with simple content -/

namespace SchemaNode

/-- The first element that derives the type from another one. -/
def derived? (node : SchemaNode) : Option SchemaNode :=
  node.children.find? fun child =>
    child.tag.name = "simpleContent" || child.tag.name = "complexContent"

/-- The first derivation in an element, with its method. -/
def derivation? (node : SchemaNode) : Option (DerivationMethod × SchemaNode) :=
  node.children.findSome? fun child =>
    (DerivationMethod.ofName? child.tag.name).map fun method => (method, child)

/-- The element declares a complex type with simple content, without a type in place. The step is
that of a restriction with its facets; an extension has none. -/
inductive DerivesText (s : DocumentSetting) (node : SchemaNode) (base : QName) :
    Option SimpleType → Prop
  | extension {content derivation : SchemaNode} (hcontent : node.derived? = some content)
      (hname : content.tag.name = "simpleContent")
      (hmethod : content.derivation? = some (.extension, derivation))
      (hbase : s.reference derivation.tag "base" = .ok base) : DerivesText s node base none
  | restriction {content derivation : SchemaNode} {step : SimpleType}
      (hcontent : node.derived? = some content) (hname : content.tag.name = "simpleContent")
      (hmethod : content.derivation? = some (.restriction, derivation))
      (hbase : s.reference derivation.tag "base" = .ok base)
      (hinline : ∀ child ∈ derivation.children, child.tag.name ≠ "simpleType")
      (hfacets : s.facets (.restriction (.named base)) derivation.children = .ok step) :
      DerivesText s node base (some step)

end SchemaNode

section

variable {s : DocumentSetting}

theorem readDerived_of_find? (isMixed : Bool) {nodes : List SchemaNode} {content : SchemaNode}
    (hfind : (nodes.find? fun child =>
      child.tag.name = "simpleContent" || child.tag.name = "complexContent") = some content)
    (hname : content.tag.name = "simpleContent") :
    readDerived s isMixed nodes = some <$> readSimpleContent s content.tag content.children := by
  induction nodes with
  | nil => cases hfind
  | cons node rest ih =>
    obtain ⟨tag, children⟩ := node
    rw [List.find?_cons] at hfind
    rw [readDerived]
    split at hfind
    · cases hfind
      exact if_pos hname
    · next hother =>
      rw [Bool.or_eq_false_iff, decide_eq_false_iff_not, decide_eq_false_iff_not] at hother
      rw [if_neg hother.1, if_neg hother.2]
      exact ih hfind

theorem readSimpleContent_of_findSome? (owner : SchemaTag) {nodes : List SchemaNode}
    {method : DerivationMethod} {derivation : SchemaNode}
    (hfind : (nodes.findSome? fun child =>
      (DerivationMethod.ofName? child.tag.name).map fun method => (method, child))
        = some (method, derivation)) :
    readSimpleContent s owner nodes = (do
      let base ← s.reference derivation.tag "base"
      s.simpleBody ⟨method, base⟩ derivation.children (readInline s derivation.children)
        (readAttributes s derivation.children)) := by
  induction nodes with
  | nil => cases hfind
  | cons node rest ih =>
    obtain ⟨tag, children⟩ := node
    rw [List.findSome?_cons] at hfind
    rw [readSimpleContent]
    cases hmethod : DerivationMethod.ofName? tag.name with
    | none =>
      rw [hmethod] at hfind
      exact ih hfind
    | some own =>
      rw [hmethod] at hfind
      cases hfind
      rfl

theorem readInline_eq_none {nodes : List SchemaNode}
    (h : ∀ child ∈ nodes, child.tag.name ≠ "simpleType") : readInline s nodes = .ok none := by
  induction nodes with
  | nil => rfl
  | cons node rest ih =>
    obtain ⟨hnode, hrest⟩ := List.forall_mem_cons.mp h
    rw [readInline, if_neg hnode, ih hrest]

/-- Facets change neither the base nor the variety of a step. -/
theorem DocumentSetting.gives_facets_same (nodes : List SchemaNode) (type : SimpleType) :
    Gives (s.facets type nodes) fun step =>
      step.base = type.base ∧ step.variety = type.variety := by
  induction nodes generalizing type with
  | nil => exact .ok ⟨rfl, rfl⟩
  | cons node rest ih =>
    rw [facets]
    split
    · exact ih type
    · exact .bind_of_forall fun value => .bind_of_forall fun facet => ih (type.withFacet facet)

/-- How a step derives a type from its base. -/
def stepDerivation (base : QName) : Option SimpleType → Derivation
  | none => ⟨.extension, base⟩
  | some _ => ⟨.restriction, base⟩

/-- The content that a step declares. That of a restriction is the step itself. -/
def stepContent : Option SimpleType → Content
  | none => .empty
  | some step => .simple (.anonymous (.simple step))

/-- The body of a type with simple content declares a step. -/
theorem gives_simpleBody_step {base : QName} {step : Option SimpleType}
    {children : List SchemaNode} (hinline : ∀ own ∈ step, readInline s children = .ok none)
    (hfacets : ∀ own ∈ step, s.facets (.restriction (.named base)) children = .ok own) :
    Gives (s.simpleBody (stepDerivation base step) children (readInline s children)
      (readAttributes s children)) fun body =>
        body.content = stepContent step ∧ body.derivation = some (stepDerivation base step) := by
  refine .bind_of_forall fun attributes => ?_
  cases step with
  | none => exact .ok ⟨rfl, rfl⟩
  | some own =>
    dsimp only [stepDerivation]
    rw [hinline own rfl]
    refine Gives.bind (P := fun read => read = own) ?_ ?_
    · exact fun read hread => Except.ok.inj (hread.symm.trans (hfacets own rfl))
    · rintro _ rfl
      exact .ok ⟨rfl, rfl⟩

theorem SchemaNode.DerivesText.gives_readDerived {node : SchemaNode} {base : QName}
    {step : Option SimpleType} (h : node.DerivesText s base step) (isMixed : Bool) :
    Gives (readDerived s isMixed node.children) fun body => ∃ own, body = some own
      ∧ own.content = stepContent step ∧ own.derivation = some (stepDerivation base step) := by
  cases h with
  | @extension _ derivation hcontent hname hmethod hbase =>
    rw [readDerived_of_find? isMixed hcontent hname, readSimpleContent_of_findSome? _ hmethod,
      hbase]
    have hinline : ∀ own ∈ (none : Option SimpleType),
        readInline s derivation.children = .ok none := nofun
    have hbody := gives_simpleBody_step hinline (show ∀ own ∈ (none : Option SimpleType),
      s.facets (.restriction (.named base)) derivation.children = .ok own from nofun)
    exact hbody.map fun own hown => ⟨own, rfl, hown⟩
  | @restriction _ derivation step hcontent hname hmethod hbase hinline hfacets =>
    rw [readDerived_of_find? isMixed hcontent hname, readSimpleContent_of_findSome? _ hmethod,
      hbase]
    have hstep : ∀ own ∈ some step,
        s.facets (.restriction (.named base)) derivation.children = .ok own := by
      rintro _ ⟨⟩
      exact hfacets
    have hbody := gives_simpleBody_step (fun _ _ => readInline_eq_none hinline) hstep
    exact hbody.map fun own hown => ⟨own, rfl, hown⟩

theorem SchemaNode.DerivesText.base_step {node : SchemaNode} {base : QName}
    {step : Option SimpleType} (h : node.DerivesText s base step) :
    ∀ own ∈ step, own.base = some (.named base) ∧ own.variety = .atomic := by
  cases h with
  | extension => exact nofun
  | restriction _ _ _ _ _ hfacets =>
    rintro _ ⟨⟩
    exact s.gives_facets_same _ _ _ hfacets

/-- What is known of a type that is read from an element with simple content. -/
structure ComplexType.IsTextStep (type : ComplexType) (base : QName) (step : Option SimpleType) :
    Prop where
  derivation : type.derivation = some (stepDerivation base step)
  content : type.content = stepContent step
  step : ∀ own ∈ step, own.base = some (.named base) ∧ own.variety = .atomic

/-- **A type with simple content is a step from its base.** -/
theorem SchemaNode.DerivesText.gives_readComplexType {node : SchemaNode} {base : QName}
    {step : Option SimpleType} (h : node.DerivesText s base step) :
    Gives (readComplexType s node) fun type => type.IsTextStep base step := by
  have hread := h.gives_readDerived
  have hstep := h.base_step
  obtain ⟨tag, children⟩ := node
  rw [readComplexType]
  refine (hread _).bind ?_
  rintro _ ⟨own, rfl, hcontent, hderivation⟩
  exact .ok ⟨hderivation, hcontent, hstep⟩

end

/-- Steps hold nothing that is numbered. -/
theorem ComplexType.IsTextStep.numberFrom {type : ComplexType} {base : QName}
    {step : Option SimpleType} (h : type.IsTextStep base step) (n : Nat) :
    (type.numberFrom n).1.IsTextStep base step := by
  obtain ⟨name, isAbstract, content, attributes, wildcard, derivation⟩ := type
  refine ⟨h.derivation, ?_, h.step⟩
  change (content.numberFrom n).1 = _
  rw [show content = stepContent step from h.content]
  cases step with
  | none => rfl
  | some own =>
    obtain ⟨hbase, hvariety⟩ := h.step own rfl
    obtain ⟨_, _, _, facets⟩ := own
    cases hbase
    cases hvariety
    rfl

/-- What an element or an attribute is read as is no type. -/
theorem gives_some_of_ne {read : Except Error Declaration}
    (h : Gives read fun declaration => ∀ name definition, declaration ≠ .type name definition)
    {P : QName → ComplexType → Prop} :
    Gives (some <$> read) fun found => ∀ name type,
      found = some (.type name (.complex type)) → P name type :=
  h.map fun _ hne name type heq => absurd (Option.some.inj heq) (hne name (.complex type))

/-- A global complex type is what is read from its element, with a name. -/
theorem gives_readDeclaration_complex (s : DocumentSetting) (node : SchemaNode) :
    Gives (readDeclaration s node) fun read => ∀ name type,
      read = some (.type name (.complex type)) →
        ∃ own, readComplexType s node = .ok own ∧ type = { own with name := some name } := by
  unfold readDeclaration
  split
  · refine gives_some_of_ne ?_
    unfold readGlobalElement
    exact .bind_of_forall fun _ => .bind_of_forall fun _ => .bind_of_forall fun _ => .ok nofun
  · refine .bind_of_forall fun _ => ?_
    refine Gives.bind (P := fun own => readComplexType s node = .ok own) (fun _ h => h) ?_
    rintro own hown
    refine .ok ?_
    rintro _ _ ⟨⟩
    exact ⟨own, hown, rfl⟩
  · exact .bind_of_forall fun _ => .bind_of_forall fun _ => .ok fun _ _ heq => by cases heq
  · refine gives_some_of_ne ?_
    unfold readGlobalAttribute
    exact .bind_of_forall fun _ => .bind_of_forall fun _ => .bind_of_forall fun _ => .ok nofun
  · exact .bind_of_forall fun _ => .bind_of_forall fun _ => .ok nofun
  · exact .bind_of_forall fun _ => .bind_of_forall fun _ => .ok nofun
  · exact .ok nofun

/-! ## Rows of types with simple content -/

namespace Model

variable {m : Model} {name start base : QName} {step : Option SimpleType}
  {steps : List (Option SimpleType)} {simple : SimpleType} {chain : List SimpleType}
  {type : ComplexType}

/-- The global complex type with this name is declared by this element. -/
def IsDeclaredBy (m : Model) (name : QName) (s : DocumentSetting) (node : SchemaNode) : Prop :=
  ∃ type n, readDeclaration s node = .ok (some (.type name (.complex type)))
    ∧ m.types.get? name = some (.complex (type.numberFrom n).1)

/-- The global complex type with this name is declared with simple content, as this step on a base.
-/
def DerivesText (m : Model) (name base : QName) (step : Option SimpleType) : Prop :=
  ∃ s node, m.IsDeclaredBy name s node ∧ node.DerivesText s base step

/-- The last of a row of global complex types with simple content, each derived from the one before
and the first one from the type `start`, with the steps of all of them, the last one in front. -/
inductive TextChain (m : Model) (start : QName) : QName → List (Option SimpleType) → Prop
  | first {name : QName} {step : Option SimpleType} (h : m.DerivesText name start step) :
    TextChain m start name [step]
  | next {name base : QName} {step : Option SimpleType} {steps : List (Option SimpleType)}
      (h : m.DerivesText name base step) (hbase : TextChain m start base steps) :
    TextChain m start name (step :: steps)

theorem DerivesText.exists_type (h : m.DerivesText name base step) :
    ∃ type, m.types.get? name = some (.complex type) ∧ type.IsTextStep base step := by
  obtain ⟨s, node, ⟨type, n, hread, hget⟩, hderives⟩ := h
  obtain ⟨own, hown, rfl⟩ := gives_readDeclaration_complex s node _ hread name type rfl
  have hstep := hderives.gives_readComplexType own hown
  have hnamed : ({ own with name := some name } : ComplexType).IsTextStep base step :=
    ⟨hstep.derivation, hstep.content, hstep.step⟩
  exact ⟨_, hget, hnamed.numberFrom n⟩

/-! ## Contents -/

/-- The simple content of a row: the restriction in front, or else the type that the row starts
from. -/
def textRef (start : QName) : List SimpleType → TypeRef
  | [] => .named start
  | step :: _ => .anonymous (.simple step)

/-- The number of extensions that a row of steps begins with. -/
def extensionRun (steps : List (Option SimpleType)) : Nat :=
  (steps.takeWhile Option.isNone).length

/-- The content of the type is a simple one, and it takes so many extensions to come to it. A search
that follows fewer of them takes the type for circular. -/
structure HasTextAfter (m : Model) (type : ComplexType) (run : Nat) (text : TypeRef) : Prop where
  found : ∀ k, run ≤ k → m.contentWithin k type = .ok (.simple text)
  circular : ∀ k < run, ∃ ref, m.contentWithin k type = .error (.shape (.circular ref))

section

variable {own : SimpleType} {simpleBase : SimpleType} {baseType : ComplexType} {text : TypeRef}

theorem hasTextAfter_restriction (h : type.IsTextStep base (some own)) :
    m.HasTextAfter type 0 (.anonymous (.simple own)) where
  found k _ := by
    unfold contentWithin
    rw [h.derivation]
    exact congrArg Except.ok h.content
  circular k hk := absurd hk k.not_lt_zero

variable (h : type.IsTextStep base none)

include h

theorem contentWithin_extension_zero :
    m.contentWithin 0 type = .error (.shape (.circular (some base))) := by
  unfold contentWithin
  rw [h.derivation]
  rfl

theorem hasTextAfter_extension_simple (hbase : m.types.get? base = some (.simple simpleBase)) :
    m.HasTextAfter type 1 (.named base) where
  found k hk := by
    obtain ⟨k, rfl⟩ := Nat.exists_eq_add_of_le' hk
    unfold contentWithin
    rw [h.derivation]
    dsimp only [stepDerivation]
    rw [resolveType, hbase, h.content]
    rfl
  circular k hk := by
    cases Nat.lt_one_iff.mp hk
    exact ⟨_, contentWithin_extension_zero h⟩

/-- An extension of simple content without a simple type in place keeps it. -/
theorem contentWithin_extension (hbase : m.types.get? base = some (.complex baseType)) (k : Nat) :
    m.contentWithin (k + 1) type
      = (fun content => extendContent content .empty) <$> m.contentWithin k baseType := by
  rw [contentWithin, h.derivation]
  dsimp only [stepDerivation]
  rw [resolveType, hbase, h.content]
  change (do return extendContent (← m.contentWithin k baseType) .empty) = _
  cases m.contentWithin k baseType <;> rfl

theorem HasTextAfter.extension {run : Nat} (hb : m.HasTextAfter baseType run text)
    (hbase : m.types.get? base = some (.complex baseType)) :
    m.HasTextAfter type (run + 1) text where
  found k hk := by
    obtain ⟨k, rfl⟩ := Nat.exists_eq_add_of_le' (Nat.le_of_add_left_le hk)
    rw [contentWithin_extension h hbase, hb.found k (Nat.le_of_succ_le_succ hk)]
    rfl
  circular k hk := by
    cases k with
    | zero => exact ⟨_, contentWithin_extension_zero h⟩
    | succ k =>
      obtain ⟨ref, hcircular⟩ := hb.circular k (Nat.lt_of_succ_lt_succ hk)
      rw [contentWithin_extension h hbase, hcircular]
      exact ⟨ref, rfl⟩

end

/-- **The content at the end of a row** is that of the restriction in front, if only so many
extensions follow it as steps are taken. -/
theorem TextChain.exists_type (h : m.TextChain start name steps)
    (hstart : m.types.get? start = some (.simple simple)) :
    ∃ type, m.types.get? name = some (.complex type)
      ∧ m.HasTextAfter type (extensionRun steps) (textRef start steps.reduceOption) := by
  induction h with
  | @first name step h =>
    obtain ⟨type, hget, htype⟩ := h.exists_type
    refine ⟨type, hget, ?_⟩
    cases step with
    | none => exact hasTextAfter_extension_simple htype hstart
    | some own => exact hasTextAfter_restriction htype
  | @next name base step steps h _ ih =>
    obtain ⟨type, hget, htype⟩ := h.exists_type
    obtain ⟨baseType, hbase, htext⟩ := ih
    refine ⟨type, hget, ?_⟩
    cases step with
    | none => exact htext.extension htype hbase
    | some own => exact hasTextAfter_restriction htype

/-! ## Texts -/

theorem resolveSimpleWithin_textRef (hstart : m.types.get? start = some (.simple simple))
    (whole : TypeRef) (k : Nat) (restrictions : List SimpleType) :
    m.resolveSimpleWithin whole (k + 1) (textRef start restrictions)
      = .ok (restrictions.headD simple) := by
  rw [resolveSimpleWithin]
  cases restrictions with
  | nil =>
    rw [textRef, resolveType, hstart]
    rfl
  | cons own rest => rfl

section

variable (hget : m.types.get? name = some (.complex type))
  (hstart : m.types.get? start = some (.simple simple)) {restrictions : List SimpleType}

include hstart

theorem textType_of_contentOf
    (hcontent : m.contentOf type = .ok (.simple (textRef start restrictions))) :
    m.textType (.complex type) = .ok (some (restrictions.headD simple)) := by
  rw [textType, hcontent]
  change some <$> m.resolveSimple (textRef start restrictions) = _
  rw [resolveSimple, chainLimit, resolveSimpleWithin_textRef hstart _ 63]
  rfl

include hget

theorem resolveSimple_of_contentOf
    (hcontent : m.contentOf type = .ok (.simple (textRef start restrictions))) :
    m.resolveSimple (.named name) = .ok (restrictions.headD simple) := by
  rw [resolveSimple, chainLimit, resolveSimpleWithin, resolveType, hget]
  change (m.contentOf type >>= _) = _
  rw [hcontent]
  exact resolveSimpleWithin_textRef hstart _ 62 restrictions

end

theorem resolveSimple_of_error {e : Error} (hget : m.types.get? name = some (.complex type))
    (hcontent : m.contentOf type = .error e) : m.resolveSimple (.named name) = .error e := by
  rw [resolveSimple, chainLimit, resolveSimpleWithin, resolveType, hget]
  change (m.contentOf type >>= _) = _
  rw [hcontent]
  rfl

/-! ## Chains -/

/-- From no place of a row on do so many extensions follow each other that their content is not
found. -/
def HasShortRuns (steps : List (Option SimpleType)) : Prop :=
  ∀ rest, rest <:+ steps → extensionRun rest ≤ chainLimit + 1

theorem hasShortRuns_singleton (step : Option SimpleType) : HasShortRuns [step] := fun rest hrest =>
  calc extensionRun rest ≤ rest.length := (List.takeWhile_sublist _).length_le
    _ ≤ 1 := hrest.length_le
    _ ≤ chainLimit + 1 := by decide

theorem hasShortRuns_cons : HasShortRuns (step :: steps)
    ↔ extensionRun (step :: steps) ≤ chainLimit + 1 ∧ HasShortRuns steps := by
  unfold HasShortRuns
  simp only [List.suffix_cons_iff, forall_eq_or_imp]

/-- The steps of the restrictions come in front of the chain of the type that a row starts from. -/
theorem TextChain.baseChain (h : m.TextChain start name steps)
    (hstart : m.types.get? start = some (.simple simple)) (hchain : m.BaseChain simple chain)
    (hruns : HasShortRuns steps) :
    m.BaseChain (steps.reduceOption.headD simple) (steps.reduceOption ++ chain) := by
  induction h with
  | @first name step h =>
    obtain ⟨type, hget, htype⟩ := h.exists_type
    cases step with
    | none => exact hchain
    | some own =>
      refine .derived (htype.step own rfl).1 ?_ hchain
      exact resolveSimpleWithin_textRef hstart _ 63 []
  | @next name base step steps h hbase ih =>
    obtain ⟨type, hget, htype⟩ := h.exists_type
    obtain ⟨-, hrest⟩ := hasShortRuns_cons.mp hruns
    cases step with
    | none => exact ih hrest
    | some own =>
      obtain ⟨baseType, hbaseType, hcontent, -⟩ := hbase.exists_type hstart
      rw [List.reduceOption_cons_of_some]
      -- A step without facets of its own is passed over when the base is resolved.
      refine .derived (htype.step own rfl).1 ?_ (ih hrest)
      exact resolveSimple_of_contentOf hbaseType hstart (hcontent _ (hrest _ List.suffix_rfl))

/-- A chain is followed to its end if it is short enough. -/
theorem BaseChain.ancestorsWithin {type : SimpleType} (h : m.BaseChain type chain) {k : Nat}
    (hk : chain.length ≤ k + 1) : m.ancestorsWithin k type = .ok chain.tail := by
  induction h generalizing k with
  | last hbase =>
    unfold Model.ancestorsWithin
    rw [hbase]
    rfl
  | @derived type base ref chain hbase hresolved hchain ih =>
    have hpos : 0 < chain.length := by cases hchain <;> exact Nat.succ_pos _
    rw [List.length_cons] at hk
    cases k with
    | zero => omega
    | succ k =>
      unfold Model.ancestorsWithin
      rw [hbase]
      dsimp only
      rw [hresolved]
      change (do return base :: (← m.ancestorsWithin k base)) = _
      rw [ih (by omega)]
      cases hchain <;> rfl

theorem gives_ancestorsWithin_length (k : Nat) (type : SimpleType) :
    Gives (m.ancestorsWithin k type) fun ancestors => ancestors.length ≤ k := by
  induction k generalizing type with
  | zero =>
    unfold Model.ancestorsWithin
    split
    · exact .ok (Nat.le_refl 0)
    · exact .error _
  | succ k ih =>
    unfold Model.ancestorsWithin
    split
    · exact .ok (Nat.zero_le _)
    · refine .bind_of_forall fun next => (ih next).bind fun rest hrest => .ok ?_
      exact Nat.succ_le_succ hrest

/-- **Which chains are found.** -/
theorem chain_eq_ok_iff {type : SimpleType} :
    m.chain type = .ok chain ↔ m.BaseChain type chain ∧ chain.length ≤ chainLimit + 1 := by
  constructor
  · intro h
    refine ⟨gives_chain type chain h, ?_⟩
    have hlength : Gives (m.chain type) fun chain => chain.length ≤ chainLimit + 1 :=
      (gives_ancestorsWithin_length _ type).map fun ancestors h => Nat.succ_le_succ h
    exact hlength chain h
  · rintro ⟨h, hlength⟩
    rw [Model.chain, h.ancestorsWithin hlength]
    cases h <;> rfl

/-- A row whose chain is found has no long runs behind its first step. -/
theorem TextChain.hasShortRuns (h : m.TextChain start name steps)
    (hstart : m.types.get? start = some (.simple simple))
    (hrun : extensionRun steps ≤ chainLimit + 1)
    (hchain : m.BaseChain (steps.reduceOption.headD simple) chain) : HasShortRuns steps := by
  induction h generalizing chain with
  | @first name step h => exact hasShortRuns_singleton step
  | @next name base step steps h hbase ih =>
    obtain ⟨type, hget, htype⟩ := h.exists_type
    refine hasShortRuns_cons.mpr ⟨hrun, ?_⟩
    cases step with
    | none => exact ih ((Nat.le_succ _).trans hrun) hchain
    | some own =>
      obtain ⟨baseType, hbaseType, hcontent, herror⟩ := hbase.exists_type hstart
      rw [List.reduceOption_cons_of_some] at hchain
      obtain ⟨text, rest, hresolved, hrest⟩ : ∃ text rest,
          m.resolveSimple (.named base) = .ok text ∧ m.BaseChain text rest := by
        cases hchain with
        | last hnone => cases hnone.symm.trans (htype.step own rfl).1
        | derived hsome hresolved hrest =>
          cases hsome.symm.trans (htype.step own rfl).1
          exact ⟨_, _, hresolved, hrest⟩
      by_cases hshort : extensionRun steps ≤ chainLimit + 1
      · cases hresolved.symm.trans (resolveSimple_of_contentOf hbaseType hstart (hcontent _ hshort))
        exact ih hshort hrest
      · -- The content of the base is not found, and so neither is what the step restricts.
        obtain ⟨ref, hcircular⟩ := herror _ (Nat.lt_of_not_le hshort)
        cases hresolved.symm.trans (resolveSimple_of_error hbaseType hcircular)

/-! ## Facets -/

/-- The nearest facet of a row comes from its front, or else from what is behind. -/
theorem nearestFacet_append (kind : FacetKind) (restrictions chain : List SimpleType) :
    nearestFacet kind (restrictions ++ chain)
      = (nearestFacet kind restrictions).or (nearestFacet kind chain) :=
  List.findSome?_append

/-- No more extensions follow each other in a row, and its chain is no longer, than is looked at. -/
structure IsWithinLimits (steps : List (Option SimpleType)) (chain : List SimpleType) : Prop where
  runs : HasShortRuns steps
  length : steps.reduceOption.length + chain.length ≤ chainLimit + 1

/-- The text of a type has the steps of these restrictions in front of the chain of a simple type.
The facet of a kind is that of the first of them that has one, or else that of the simple type. -/
structure HasRestrictedText (m : Model) (type : ComplexType) (restrictions : List SimpleType)
    (simple : SimpleType) (chain : List SimpleType) (text : SimpleType) : Prop where
  isText : m.textType (.complex type) = .ok (some text)
  visits : m.chain text = .ok (restrictions ++ chain)
  facet : ∀ kind inherited, m.facet simple kind = .ok inherited → m.facet text kind
    = .ok ((restrictions.findSome? fun step => step.facets.get? kind).or inherited)

theorem TextChain.hasRestrictedText (h : m.TextChain start name steps)
    (hstart : m.types.get? start = some (.simple simple)) (hchain : m.chain simple = .ok chain)
    (hlimits : IsWithinLimits steps chain) (hget : m.types.get? name = some (.complex type)) :
    m.HasRestrictedText type steps.reduceOption simple chain (steps.reduceOption.headD simple) := by
  obtain ⟨own, hown, hcontent, -⟩ := h.exists_type hstart
  cases hget.symm.trans hown
  have htext : m.chain (steps.reduceOption.headD simple) = .ok (steps.reduceOption ++ chain) := by
    refine chain_eq_ok_iff.mpr ⟨h.baseChain hstart (gives_chain _ _ hchain) hlimits.runs, ?_⟩
    rw [List.length_append]
    exact hlimits.length
  refine ⟨textType_of_contentOf hstart (hcontent _ (hlimits.runs _ List.suffix_rfl)), htext, ?_⟩
  intro kind inherited hinherited
  rw [facet, hchain] at hinherited
  rw [facet, htext]
  cases hinherited
  exact congrArg Except.ok (nearestFacet_append kind steps.reduceOption chain)

/-- Beyond the limits a type has no text or the text has no chain. -/
theorem TextChain.isWithinLimits (h : m.TextChain start name steps)
    (hstart : m.types.get? start = some (.simple simple)) (hchain : m.chain simple = .ok chain)
    (hget : m.types.get? name = some (.complex type)) {text : SimpleType} {found : List SimpleType}
    (htext : m.textType (.complex type) = .ok (some text)) (hfound : m.chain text = .ok found) :
    IsWithinLimits steps chain := by
  obtain ⟨own, hown, hcontent, herror⟩ := h.exists_type hstart
  cases hget.symm.trans hown
  have hrun : extensionRun steps ≤ chainLimit + 1 := by
    refine Nat.le_of_not_lt fun hlong => ?_
    obtain ⟨ref, hcircular⟩ := herror (chainLimit + 1) hlong
    rw [textType, contentOf, hcircular] at htext
    cases htext
  cases (textType_of_contentOf hstart (hcontent _ hrun)).symm.trans htext
  obtain ⟨hbase, hlength⟩ := chain_eq_ok_iff.mp hfound
  have hruns := h.hasShortRuns hstart hrun hbase
  cases (h.baseChain hstart (gives_chain _ _ hchain) hruns).unique hbase
  rw [List.length_append] at hlength
  exact ⟨hruns, hlength⟩

end Model

/-! ## Loaded schemas -/

theorem Model.asComplex_builtin : ∀ entry ∈ Model.builtin.types.entries,
    entry.2.asComplex.isSome → entry.1 = QName.xsd "anyType" := by
  decide +kernel

/-- The global complex types of a schema are declared by elements of its documents, but for
`xs:anyType`. -/
def Model.DeclaresComplexTypes (m : Model) : Prop :=
  ∀ name type, m.types.get? name = some (.complex type) →
    name = QName.xsd "anyType" ∨ ∃ s node, m.IsDeclaredBy name s node

theorem Loading.isKept_declaresComplexTypes : IsKept Model.DeclaresComplexTypes where
  builtin name type hget :=
    .inl (Model.asComplex_builtin _ (Table.mem_of_get? hget) rfl)
  target h _ := h
  register {l s node declaration} hread h := by
    cases declaration with
    | type key definition =>
      intro name type hget
      have hget' := Table.get?_insert l.model.types key name (definition.numberFrom l.model.next).1
      -- Only the entry of the declared name changes.
      by_cases hname : name = key
      · rw [if_pos hname] at hget'
        cases definition with
        | simple own => cases hget.symm.trans hget'
        | complex own => exact .inr ⟨s, node, own, l.model.next, hname ▸ hread, hget'⟩
      · rw [if_neg hname] at hget'
        refine (h name type (hget'.symm.trans hget)).imp_right ?_
        rintro ⟨s, node, own, n, hown, hentry⟩
        exact ⟨s, node, own, n, hown, hget'.trans hentry⟩
    | element | attr | attributeGroup | group => exact h
  inheritType {m} h untyped name := by
    unfold inheritType
    split
    · exact h
    · split <;> exact h

/-- **Facets accumulate through simple content.** Let a row of global complex types with simple
content start from a simple type. Within the limits, the text of the last of them has the steps of
the restrictions in front of the chain of the simple type, the last one first, and the facets that
follow from that; beyond the limits there is no such text. In a schema that is loaded, the types of
such rows are those that the elements of the documents declare. -/
theorem Model.textType_textChain {m : Model} (hm : m.IsLoaded) :
    m.DeclaresComplexTypes
      ∧ ∀ {start name : QName} {simple : SimpleType} {chain : List SimpleType}
          {steps : List (Option SimpleType)},
        m.types.get? start = some (.simple simple) → m.chain simple = .ok chain →
          m.TextChain start name steps → ∃ type, m.types.get? name = some (.complex type)
            ∧ (IsWithinLimits steps chain →
              ∃ text, m.HasRestrictedText type steps.reduceOption simple chain text)
            ∧ ∀ text found, m.textType (.complex type) = .ok (some text) →
              m.chain text = .ok found → IsWithinLimits steps chain := by
  refine ⟨hm.of_isKept Loading.isKept_declaresComplexTypes, ?_⟩
  intro start name simple chain steps hstart hchain h
  obtain ⟨type, hget, -⟩ := h.exists_type hstart
  refine ⟨type, hget, fun hlimits => ?_, fun text found htext hfound => ?_⟩
  · exact ⟨_, h.hasRestrictedText hstart hchain hlimits hget⟩
  · exact h.isWithinLimits hstart hchain hget htext hfound

/-! ### Two restrictions with an extension in between -/

/-- A row of types with simple content. -/
def textRowText : String :=
  "<x:schema xmlns:x='http://www.w3.org/2001/XMLSchema'><x:complexType
  name='t'><x:simpleContent><x:restriction base='x:string'><x:maxLength
  value='9'/></x:restriction></x:simpleContent></x:complexType><x:complexType
  name='u'><x:simpleContent><x:extension base='t'/></x:simpleContent></x:complexType><x:complexType
  name='v'><x:simpleContent><x:restriction base='u'><x:maxLength
  value='5'/></x:restriction></x:simpleContent></x:complexType></x:schema>"

/-- An element of the schema language, at a place. -/
def schemaXml (offset : Nat) (name : String) (attributes : List (String × String))
    (children : List Xml.Node) : Xml.Node :=
  .element ⟨offset, some "x", name, attributes.map fun (name, value) => ⟨none, name, value⟩,
    children⟩

/-- The elements of this schema. -/
def textRowRoot : Xml.Element :=
  ⟨0, some "x", "schema", [⟨some "xmlns", "x", Namespace.xsd⟩], [
    schemaXml 53 "complexType" [("name", "t")] [
      schemaXml 79 "simpleContent" [] [
        schemaXml 96 "restriction" [("base", "x:string")] [
          schemaXml 127 "maxLength" [("value", "9")] []]]],
    schemaXml 203 "complexType" [("name", "u")] [
      schemaXml 229 "simpleContent" [] [schemaXml 246 "extension" [("base", "t")] []]],
    schemaXml 303 "complexType" [("name", "v")] [
      schemaXml 329 "simpleContent" [] [
        schemaXml 346 "restriction" [("base", "u")] [
          schemaXml 370 "maxLength" [("value", "5")] []]]]]⟩

/-- A restriction to a longest length. -/
def lengthStep (base : QName) (n : Nat) : SimpleType :=
  ⟨none, some (.named base), .atomic, ⟨[.count .maxLength n]⟩⟩

/-- A type with simple content. -/
def textRowType (name : String) (base : QName) (step : Option SimpleType) : ComplexType :=
  ⟨some (.bare name), false, stepContent step, [], none, some (stepDerivation base step)⟩

/-- What the elements declare. -/
def textRowDocument : SchemaDocument where
  target := none
  declarations := [
    .type (.bare "t") (.complex (textRowType "t" (.xsd "string")
      (some (lengthStep (.xsd "string") 9)))),
    .type (.bare "u") (.complex (textRowType "u" (.bare "t") none)),
    .type (.bare "v") (.complex (textRowType "v" (.bare "u")
      (some (lengthStep (.bare "u") 5))))]
  links := []

/-- The element of a type with simple content, without its place. -/
def textRowNode (name method base : String) (facets : List SchemaNode) : SchemaNode :=
  let scope := [⟨some "x", Namespace.xsd⟩]
  ⟨⟨"complexType", [("name", name)], scope, 0⟩, [⟨⟨"simpleContent", [], scope, 0⟩,
    [⟨⟨method, [("base", base)], scope, 0⟩, facets⟩]⟩]⟩

/-- The element of a longest length, without its place. -/
def lengthNode (n : String) : SchemaNode := ⟨⟨"maxLength", [("value", n)], [], 0⟩, []⟩

/-- The setting of a document without a target namespace. -/
def plainSetting : DocumentSetting := ⟨none, false, .unqualified, .unqualified, fun _ => ""⟩

/-- The schema that this text holds. -/
def textRowModel : Model := (Opening.entered ⟨[], [], textRowText, textRowDocument⟩).finish

set_option maxRecDepth 4000 in
theorem isLoaded_textRowModel : textRowModel.IsLoaded := by
  have hroot : Xml.readTree textRowText = some textRowRoot := by
    -- A text that is given is read faster from its characters.
    have hchars : textRowText.toList = _ := String.toList_ofList
    rw [Xml.readTree, hchars]
    decide +kernel
  have hread : SchemaDocument.read none none textRowText = .ok textRowDocument := by
    rw [SchemaDocument.read_eq hroot]
    rfl
  have hmain : (Origin.text textRowText).opening {}
      = .ok ⟨[], [], textRowText, textRowDocument⟩ := by
    rw [Origin.opening, hread]
    rfl
  exact .text (Origin.load_of_unlinked hmain rfl)

/-- Any simple text. -/
def stringType : SimpleType := ⟨some (.xsd "string"), some .anySimpleType, .atomic, .empty⟩

/-- What all simple types come from. -/
def anySimpleType : SimpleType := ⟨some (.xsd "anySimpleType"), none, .atomic, .empty⟩

/-- The last restriction is the one that counts, also behind an extension. -/
theorem Model.textType_textChain_row :
    ∃ type text, textRowModel.IsLoaded
      ∧ textRowModel.types.get? (.xsd "string") = some (.simple stringType)
      ∧ textRowModel.chain stringType = .ok [stringType, anySimpleType]
      ∧ textRowModel.TextChain (.xsd "string") (.bare "v")
        [some (lengthStep (.bare "u") 5), none, some (lengthStep (.xsd "string") 9)]
      ∧ textRowModel.types.get? (.bare "v") = some (.complex type)
      ∧ textRowModel.HasRestrictedText type
        [lengthStep (.bare "u") 5, lengthStep (.xsd "string") 9] stringType
        [stringType, anySimpleType] text
      ∧ textRowModel.facet text .maxLength = .ok (some (.count .maxLength 5)) := by
  have hm := isLoaded_textRowModel
  have hstring : textRowModel.types.get? (.xsd "string") = some (.simple stringType) := rfl
  have hany : textRowModel.types.get? (.xsd "anySimpleType") = some (.simple anySimpleType) := rfl
  have hchain : textRowModel.chain stringType = .ok [stringType, anySimpleType] :=
    chain_eq_ok_iff.mpr
      ⟨.derived rfl (resolveSimpleWithin_textRef hany _ 63 []) (.last rfl), by decide⟩
  have hfacet : textRowModel.facet stringType .maxLength = .ok none := by
    rw [facet, hchain]
    rfl
  have ht : textRowModel.DerivesText (.bare "t") (.xsd "string")
      (some (lengthStep (.xsd "string") 9)) :=
    ⟨plainSetting, textRowNode "t" "restriction" "x:string" [lengthNode "9"],
      ⟨textRowType "t" (.xsd "string") (some (lengthStep (.xsd "string") 9)), 0, rfl, rfl⟩,
      .restriction rfl rfl rfl rfl (by decide) rfl⟩
  have hu : textRowModel.DerivesText (.bare "u") (.bare "t") none :=
    ⟨plainSetting, textRowNode "u" "extension" "t" [],
      ⟨textRowType "u" (.bare "t") none, 0, rfl, rfl⟩, .extension rfl rfl rfl rfl⟩
  have hv : textRowModel.DerivesText (.bare "v") (.bare "u")
      (some (lengthStep (.bare "u") 5)) :=
    ⟨plainSetting, textRowNode "v" "restriction" "u" [lengthNode "5"],
      ⟨textRowType "v" (.bare "u") (some (lengthStep (.bare "u") 5)), 0, rfl, rfl⟩,
      .restriction rfl rfl rfl rfl (by decide) rfl⟩
  have hrow : textRowModel.TextChain (.xsd "string") (.bare "v")
      [some (lengthStep (.bare "u") 5), none, some (lengthStep (.xsd "string") 9)] :=
    .next hv (.next hu (.first ht))
  have hlimits : IsWithinLimits
      [some (lengthStep (.bare "u") 5), none, some (lengthStep (.xsd "string") 9)]
      [stringType, anySimpleType] := by
    refine ⟨?_, by decide⟩
    iterate 2 refine hasShortRuns_cons.mpr ⟨by decide, ?_⟩
    exact hasShortRuns_singleton _
  obtain ⟨type, hget, hwithin, -⟩ := (textType_textChain hm).2 hstring hchain hrow
  obtain ⟨text, htext⟩ := hwithin hlimits
  exact ⟨type, text, hm, hstring, hchain, hrow, hget, htext, htext.facet .maxLength none hfacet⟩

end Specimen

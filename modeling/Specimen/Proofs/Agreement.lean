import Mathlib.Data.List.Forall2
import Mathlib.Logic.Basic
import Specimen.Proofs.Following

/-!
# Documents that are read alike

What is read from an element depends on the document around it in few places: where a name is
resolved, and where the target namespace is asked for. So two elements that say the same, in two
documents, are read alike: both are refused, or both are read, and if names are resolved to the same
components on both sides, then what is read is the same.

The statements are made for a proposition `P` that tells whether names agree. With `P` false they
say that the namespace which is offered to a document has no part in whether it is accepted.
-/

namespace Specimen

variable {ε ε' α α' β β' : Type}

/-! ## Results that agree -/

/-- Both fail, with errors that are related, or both have answers that are related. -/
inductive Agree (E : ε → ε' → Prop) (R : α → α' → Prop) : Except ε α → Except ε' α' → Prop
  | ok {a : α} {a' : α'} (h : R a a') : Agree E R (.ok a) (.ok a')
  | error {e : ε} {e' : ε'} (h : E e e') : Agree E R (.error e) (.error e')

/-- Both fail, whatever the errors, or both have answers that are related. -/
abbrev SucceedAlike (R : α → α' → Prop) : Except ε α → Except ε' α' → Prop :=
  Agree (fun _ _ => True) R

/-- Both fail with the same error, or both have answers that are related. -/
abbrev AnswerAlike (R : α → α' → Prop) : Except ε α → Except ε α' → Prop := Agree Eq R

namespace Agree

variable {E : ε → ε' → Prop} {R : α → α' → Prop} {S : β → β' → Prop} {x : Except ε α}
  {y : Except ε' α'}

theorem bind {f : α → Except ε β} {g : α' → Except ε' β'} (h : Agree E R x y)
    (hf : ∀ a a', R a a' → Agree E S (f a) (g a')) : Agree E S (x >>= f) (y >>= g) := by
  cases h with
  | ok h => exact hf _ _ h
  | error h => exact .error h

theorem map {f : α → β} {g : α' → β'} (h : Agree E R x y) (hf : ∀ a a', R a a' → S (f a) (g a')) :
    Agree E S (f <$> x) (g <$> y) := by
  cases h with
  | ok h => exact .ok (hf _ _ h)
  | error h => exact .error h

theorem exists_ok {a : α} (h : Agree E R x y) (hx : x = .ok a) : ∃ a', y = .ok a' ∧ R a a' := by
  subst hx
  cases h with
  | ok h => exact ⟨_, rfl, h⟩

theorem mapM {T : α → α' → Prop} {f : α → Except ε β} {g : α' → Except ε' β'} {l : List α}
    {l' : List α'} (hl : List.Forall₂ T l l') (h : ∀ a a', T a a' → Agree E S (f a) (g a')) :
    Agree E (List.Forall₂ S) (l.mapM f) (l'.mapM g) := by
  induction hl with
  | nil => exact .ok .nil
  | cons hhead _ ih =>
    rw [List.mapM_cons, List.mapM_cons]
    exact (h _ _ hhead).bind fun b b' hb => ih.bind fun bs bs' hbs => .ok (.cons hb hbs)

end Agree

/-- Equal, as far as names agree. -/
def SameIf (P : Prop) (a a' : α) : Prop := P → a = a'

/-- Both there or neither, and equal as far as names agree. -/
def SameOptionIf (P : Prop) (a a' : Option α) : Prop := a.isSome = a'.isSome ∧ SameIf P a a'

/-- Equally many, and equal as far as names agree. -/
def SameListIf (P : Prop) (l l' : List α) : Prop := l.length = l'.length ∧ SameIf P l l'

section

variable {P : Prop}

theorem SameIf.of_eq {a a' : α} (h : a = a') : SameIf P a a' := fun _ => h

theorem SameIf.map {a a' : α} (f : α → β) (h : SameIf P a a') : SameIf P (f a) (f a') :=
  fun hp => congrArg f (h hp)

theorem SameIf.map₂ {γ : Type} {a a' : α} {b b' : β} (f : α → β → γ) (h : SameIf P a a')
    (hb : SameIf P b b') : SameIf P (f a b) (f a' b') :=
  fun hp => congrArg₂ f (h hp) (hb hp)

theorem SameOptionIf.none : SameOptionIf P (none : Option α) none := ⟨rfl, fun _ => rfl⟩

theorem SameOptionIf.some {a a' : α} (h : SameIf P a a') : SameOptionIf P (some a) (some a') :=
  ⟨rfl, h.map _⟩

theorem SameListIf.nil : SameListIf P ([] : List α) [] := ⟨rfl, fun _ => rfl⟩

theorem SameListIf.cons {a a' : α} {l l' : List α} (h : SameIf P a a') (hl : SameListIf P l l') :
    SameListIf P (a :: l) (a' :: l') :=
  ⟨congrArg Nat.succ hl.1, h.map₂ List.cons hl.2⟩

theorem SameListIf.append {l l' k k' : List α} (h : SameListIf P l l') (hk : SameListIf P k k') :
    SameListIf P (l ++ k) (l' ++ k') :=
  ⟨by rw [List.length_append, List.length_append, h.1, hk.1], h.2.map₂ (· ++ ·) hk.2⟩

theorem SameListIf.map {l l' : List α} (f : α → β) (h : SameListIf P l l') :
    SameListIf P (l.map f) (l'.map f) :=
  ⟨by rw [List.length_map, List.length_map, h.1], SameIf.map (List.map f) h.2⟩

theorem SameListIf.isEmpty {l l' : List α} (h : SameListIf P l l') : l.isEmpty = l'.isEmpty := by
  rw [Bool.eq_iff_iff, List.isEmpty_iff_length_eq_zero, List.isEmpty_iff_length_eq_zero, h.1]

/-! ## Tags that say the same -/

/-- Two documents treat local names alike, and have the same target namespace if names agree. -/
structure DocumentSetting.Corresponds (P : Prop) (s s' : DocumentSetting) : Prop where
  elementForm : s.elementForm = s'.elementForm
  attributeForm : s.attributeForm = s'.attributeForm
  target : SameIf P s.target s'.target

/-- Two tags say the same, each in its document: they have the same name and attributes, and a name
that one of them may refer to is one for the other. -/
structure SchemaTag.Corresponds (P : Prop) (s s' : DocumentSetting) (tag tag' : SchemaTag) :
    Prop where
  name : tag.name = tag'.name
  attributes : tag.attributes = tag'.attributes
  resolve : ∀ value, SucceedAlike (SameIf P) (s.resolve tag value) (s'.resolve tag' value)

mutual

/-- Two elements say the same, each in its document. -/
inductive SchemaNode.Corresponds (P : Prop) (s s' : DocumentSetting) :
    SchemaNode → SchemaNode → Prop
  | mk {tag tag' : SchemaTag} {children children' : List SchemaNode}
      (htag : tag.Corresponds P s s' tag') (hchildren : AllCorrespond P s s' children children') :
      Corresponds P s s' ⟨tag, children⟩ ⟨tag', children'⟩

/-- Two rows of elements say the same, each in its document. -/
inductive SchemaNode.AllCorrespond (P : Prop) (s s' : DocumentSetting) :
    List SchemaNode → List SchemaNode → Prop
  | nil : AllCorrespond P s s' [] []
  | cons {node node' : SchemaNode} {rest rest' : List SchemaNode}
      (hnode : node.Corresponds P s s' node') (hrest : AllCorrespond P s s' rest rest') :
      AllCorrespond P s s' (node :: rest) (node' :: rest')

end

variable {s s' : DocumentSetting} {node node' : SchemaNode} {nodes nodes' : List SchemaNode}

open SchemaNode (AllCorrespond)

namespace SchemaNode.Corresponds

theorem tag (h : node.Corresponds P s s' node') : node.tag.Corresponds P s s' node'.tag := by
  cases h with
  | mk htag _ => exact htag

theorem children (h : node.Corresponds P s s' node') :
    AllCorrespond P s s' node.children node'.children := by
  cases h with
  | mk _ hchildren => exact hchildren

end SchemaNode.Corresponds

mutual

/-- An element says the same in two documents, if every tag does. -/
theorem SchemaNode.corresponds_self (h : ∀ tag : SchemaTag, tag.Corresponds P s s' tag) :
    ∀ node : SchemaNode, node.Corresponds P s s' node
  | ⟨tag, children⟩ => .mk (h tag) (SchemaNode.allCorrespond_self h children)

theorem SchemaNode.allCorrespond_self (h : ∀ tag : SchemaTag, tag.Corresponds P s s' tag) :
    ∀ nodes : List SchemaNode, AllCorrespond P s s' nodes nodes
  | [] => .nil
  | node :: rest =>
    .cons (SchemaNode.corresponds_self h node) (SchemaNode.allCorrespond_self h rest)

end

variable {tag tag' : SchemaTag}

theorem SchemaTag.Corresponds.attr? (h : tag.Corresponds P s s' tag') (name : String) :
    tag.attr? name = tag'.attr? name := by
  rw [SchemaTag.attr?, h.attributes, SchemaTag.attr?]

theorem SchemaTag.Corresponds.flag (h : tag.Corresponds P s s' tag') (name : String) :
    tag.flag name = tag'.flag name := by
  rw [SchemaTag.flag, h.attr?, SchemaTag.flag]

/-! ## What a name stands for -/

/-- The scope `σ'` is `σ`, with the namespace `outer` around it for names without a prefix, if there
is one. -/
def Xml.Scope.IsInside (outer : Option String) (σ σ' : Xml.Scope) : Prop :=
  ∀ pfx, σ'.uri? pfx = (σ.uri? pfx).or (if pfx = none then outer else none)

theorem Xml.Scope.isInside_none (σ : Xml.Scope) : σ.IsInside none σ := fun pfx => by
  rw [ite_self, Option.or_none]

/-- What a name without a prefix stands for where no namespace is declared for it. -/
def DocumentSetting.unprefixed (s : DocumentSetting) (name : String) : QName :=
  if s.isAdopted then s.qname name else QName.bare name

/-- A name is resolved alike in two scopes, if what is declared around the second one does for names
without a prefix what the document of the first one does. -/
theorem DocumentSetting.agree_resolve {outer : Option String}
    (hscope : tag.scope.IsInside outer tag'.scope)
    (hbare : ∀ name, SameIf P (s.unprefixed name)
      (outer.elim (s'.unprefixed name) fun uri => QName.qualified uri name)) (value : String) :
    SucceedAlike (SameIf P) (s.resolve tag value) (s'.resolve tag' value) := by
  unfold resolve
  generalize splitPrefix (Text.trim value) = written
  obtain ⟨pfx, name⟩ := written
  dsimp only
  rw [hscope pfx]
  -- A prefix is bound alike in both scopes. Without a prefix, what is declared around the second
  -- scope stands in where nothing else does.
  cases pfx with
  | some pfx =>
    rw [if_neg (Option.some_ne_none pfx), Option.or_none]
    cases tag.scope.uri? (some pfx) with
    | none => exact .error trivial
    | some uri => exact .ok (.of_eq rfl)
  | none =>
    rw [if_pos rfl]
    cases tag.scope.uri? none with
    | some uri => exact .ok (.of_eq rfl)
    | none =>
      have := hbare name
      cases outer with
      | none => exact .ok this
      | some uri => exact .ok this

/-! ## What a tag gives -/

namespace DocumentSetting

variable (h : s.Corresponds P s') (ht : tag.Corresponds P s s' tag')

theorem agree_fail {R : α → α' → Prop} (cause cause' : ParseCause) :
    SucceedAlike R (s.fail tag cause) (s'.fail tag' cause') :=
  .error trivial

theorem agree_located {R : α → α' → Prop} {x : Except Error α} {y : Except Error α'}
    (hxy : SucceedAlike R x y) : SucceedAlike R (s.located tag x) (s'.located tag' y) := by
  cases hxy with
  | ok h => exact .ok h
  | error => exact .error trivial

/-- What is read from the same attributes is the same; only the place of an error may differ. -/
theorem agree_located_self (x : Except Error α) :
    SucceedAlike Eq (s.located tag x) (s'.located tag' x) := by
  refine agree_located ?_
  cases x with
  | ok a => exact .ok rfl
  | error e => exact .error trivial

include h in
theorem same_qname (name : String) : SameIf P (s.qname name) (s'.qname name) :=
  h.target.map (QName.make · name)

include h in
theorem same_localName (form : Form) (name : String) :
    SameIf P (s.localName form name) (s'.localName form name) := by
  cases form with
  | qualified => exact same_qname h name
  | unqualified => exact .of_eq rfl

include ht in
theorem agree_required (name : String) :
    SucceedAlike Eq (s.required tag name) (s'.required tag' name) := by
  unfold required
  rw [ht.attr?]
  cases tag'.attr? name with
  | some value => exact .ok rfl
  | none => exact agree_fail _ _

include ht in
theorem agree_reference (name : String) :
    SucceedAlike (SameIf P) (s.reference tag name) (s'.reference tag' name) := by
  unfold reference
  refine (agree_required ht name).bind ?_
  rintro value _ rfl
  exact ht.resolve value

include ht in
theorem agree_occurs : SucceedAlike Eq (s.occurs tag) (s'.occurs tag') := by
  unfold occurs
  rw [ht.attr?, ht.attr?]
  exact agree_located_self _

include ht in
theorem agree_constraint : SucceedAlike Eq (s.constraint tag) (s'.constraint tag') := by
  unfold constraint
  rw [ht.attr?, ht.attr?]
  exact agree_located_self _

include ht in
theorem agree_useMode : SucceedAlike Eq (s.useMode tag) (s'.useMode tag') := by
  unfold useMode
  rw [ht.attr?]
  cases tag'.attr? "use" with
  | some value => exact agree_located_self _
  | none => exact .ok rfl

include ht in
theorem form_eq (usual : Form) : form tag usual = form tag' usual := by
  unfold form
  rw [ht.attr?]

end DocumentSetting

/-- Whether the words of a `namespace` attribute are accepted does not depend on the target
namespace. -/
theorem NamespaceConstraint.agree_collect {target target' : String}
    (ht : SameIf P target target') (words : List String) (uris uris' : List String)
    (hu : SameIf P uris uris') :
    SucceedAlike (SameIf P) (collect target uris words) (collect target' uris' words) := by
  induction words generalizing uris uris' with
  | nil => exact .ok hu
  | cons word rest ih =>
    have hword : SucceedAlike (SameIf P) (wordUri target word) (wordUri target' word) := by
      unfold wordUri
      split
      · exact .ok (.of_eq rfl)
      · split
        · exact .ok ht
        · split
          · exact .error trivial
          · exact .ok (.of_eq rfl)
    refine hword.bind fun uri uri' huri => ih _ _ ?_
    exact hu.map₂ (fun uris uri => if uris.contains uri then uris else uris ++ [uri]) huri

theorem NamespaceConstraint.agree_read (value : String) {target target' : Option String}
    (ht : SameIf P target target') :
    SucceedAlike (SameIf P) (read value target) (read value target') := by
  have hown : SameIf P (target.getD "") (target'.getD "") := ht.map (Option.getD · "")
  unfold read
  dsimp only
  split
  · exact .ok (.of_eq rfl)
  · exact .ok (hown.map fun own => except (if own = "" then [""] else [own, ""]))
  · exact (agree_collect hown _ _ _ (.of_eq rfl)).map fun _ _ huris => huris.map among

theorem DocumentSetting.agree_wildcard (h : s.Corresponds P s')
    (ht : tag.Corresponds P s s' tag') :
    SucceedAlike (SameIf P) (s.wildcard tag) (s'.wildcard tag') := by
  unfold wildcard
  rw [ht.attr?]
  exact (agree_located (NamespaceConstraint.agree_read _ h.target)).bind fun _ _ hn =>
    .ok (hn.map (Wildcard.mk 0))

/-! ## What is put together from the parts of an element -/

namespace DocumentSetting

section

variable (ht : tag.Corresponds P s s' tag')

include ht in
theorem agree_typeOr (name : String) {inline inline' : Except Error (Option TypeRef)}
    (hi : SucceedAlike (SameOptionIf P) inline inline') :
    SucceedAlike (SameOptionIf P) (s.typeOr tag name inline) (s'.typeOr tag' name inline') := by
  unfold typeOr
  rw [ht.attr?]
  cases tag'.attr? name with
  | none => exact hi
  | some value =>
    exact (ht.resolve value).bind fun _ _ hname => .ok (.some (hname.map TypeRef.named))

include ht in
theorem agree_baseOr (name : String) {inline inline' : Except Error (Option TypeRef)}
    (hi : SucceedAlike (SameOptionIf P) inline inline') :
    SucceedAlike (SameIf P) (s.baseOr tag name inline) (s'.baseOr tag' name inline') := by
  unfold baseOr
  refine (agree_typeOr ht name hi).bind fun type type' htype => ?_
  cases type with
  | none =>
    cases type' with
    | none => exact agree_fail _ _
    | some type' => cases htype.1
  | some type =>
    cases type' with
    | none => cases htype.1
    | some type' => exact .ok fun hp => Option.some.inj (htype.2 hp)

include ht in
theorem agree_names (words : List String) :
    SucceedAlike (SameListIf P) (words.mapM (s.resolve tag)) (words.mapM (s'.resolve tag')) := by
  induction words with
  | nil => exact .ok .nil
  | cons word rest ih =>
    rw [List.mapM_cons, List.mapM_cons]
    exact (ht.resolve word).bind fun _ _ hname => ih.bind fun _ _ hnames => .ok (.cons hname hnames)

include ht in
theorem agree_unionType {inline inline' : Except Error (List TypeRef)}
    (hi : SucceedAlike (SameListIf P) inline inline') :
    SucceedAlike (SameIf P) (s.unionType tag inline) (s'.unionType tag' inline') := by
  unfold unionType
  rw [ht.attr?]
  refine (agree_names ht _).bind fun names names' hnames => hi.bind fun types types' htypes => ?_
  have hmembers : SameListIf P (names.map TypeRef.named ++ types)
      (names'.map TypeRef.named ++ types') := (hnames.map _).append htypes
  dsimp only
  rw [hmembers.isEmpty]
  split
  · exact agree_fail _ _
  · exact .ok (hmembers.2.map SimpleType.unionOf)

end

/-- A facet is accepted or not whatever the type it is put on. -/
theorem agree_facets (h : AllCorrespond P s s' nodes nodes') {type type' : SimpleType}
    (htype : SameIf P type type') :
    SucceedAlike (SameIf P) (s.facets type nodes) (s'.facets type' nodes') := by
  induction nodes generalizing nodes' type type' with
  | nil =>
    cases h
    exact .ok htype
  | cons node rest ih =>
    cases h with
    | cons hnode hrest =>
      rw [facets, facets, hnode.tag.name]
      cases FacetKind.ofName? _ with
      | none => exact ih hrest htype
      | some kind =>
        refine (agree_required hnode.tag "value").bind ?_
        rintro value _ rfl
        refine (agree_located_self (Facet.read kind value)).bind ?_
        rintro facet _ rfl
        exact ih hrest (htype.map (SimpleType.withFacet · facet))

theorem agree_body (isMixed : Bool) {derivation derivation' : Option Derivation}
    {groups groups' : Except Error (List Particle)}
    {attributes attributes' : Except Error Attributes}
    (hd : SameIf P derivation derivation') (hg : SucceedAlike (SameIf P) groups groups')
    (ha : SucceedAlike (SameIf P) attributes attributes') :
    SucceedAlike (SameIf P) (body isMixed derivation groups attributes)
      (body isMixed derivation' groups' attributes') := by
  unfold body
  refine hg.bind fun particles particles' hp => ha.bind fun attrs attrs' hattrs => .ok fun h => ?_
  rw [hp h, hattrs h, hd h]

theorem agree_simpleBody (hn : AllCorrespond P s s' nodes nodes') {method : DerivationMethod}
    {base base' : QName} {inline inline' : Except Error (Option TypeRef)}
    {attributes attributes' : Except Error Attributes} (hb : SameIf P base base')
    (hi : SucceedAlike (SameOptionIf P) inline inline')
    (ha : SucceedAlike (SameIf P) attributes attributes') :
    SucceedAlike (SameIf P) (s.simpleBody ⟨method, base⟩ nodes inline attributes)
      (s'.simpleBody ⟨method, base'⟩ nodes' inline' attributes') := by
  unfold simpleBody
  refine ha.bind fun attrs attrs' hattrs => ?_
  cases method with
  | extension =>
    refine .ok fun h => ?_
    rw [hattrs h, hb h]
  | restriction =>
    refine hi.bind fun type type' htype => ?_
    have hbase : SameIf P (SimpleType.restriction (type.getD (.named base)))
        (.restriction (type'.getD (.named base'))) := fun h => by rw [htype.2 h, hb h]
    refine (agree_facets hn hbase).bind fun simple simple' hsimple => .ok fun h => ?_
    rw [hattrs h, hb h, hsimple h]

theorem agree_type (ht : tag.Corresponds P s s' tag') {own own' : Body} (h : SameIf P own own') :
    SameIf P (own.type tag) (own'.type tag') := fun hp => by
  rw [h hp, Body.type, Body.type, ht.flag]

end DocumentSetting

/-! ## Types, particles and attributes -/

section

open DocumentSetting

mutual

theorem agree_readSimpleType {node node' : SchemaNode} : node.Corresponds P s s' node' →
    SucceedAlike (SameIf P) (readSimpleType s node) (readSimpleType s' node')
  | .mk htag hchildren => by
    rw [readSimpleType, readSimpleType]
    exact agree_readVariety _ _ hchildren

theorem agree_readVariety (owner owner' : SchemaTag) {nodes nodes' : List SchemaNode} :
    AllCorrespond P s s' nodes nodes' →
    SucceedAlike (SameIf P) (readVariety s owner nodes) (readVariety s' owner' nodes')
  | .nil => agree_fail _ _
  | .cons (.mk htag hchildren) hrest => by
    rw [readVariety, readVariety, htag.name]
    split
    · exact (agree_baseOr htag "base" (agree_readInline hchildren)).bind fun _ _ hbase =>
        agree_facets hchildren (hbase.map SimpleType.restriction)
    · split
      · exact (agree_baseOr htag "itemType" (agree_readInline hchildren)).bind fun _ _ hitem =>
          .ok (hitem.map SimpleType.listOf)
      · split
        · exact agree_unionType htag (agree_readMembers hchildren)
        · exact agree_readVariety _ _ hrest

theorem agree_readInline {nodes nodes' : List SchemaNode} : AllCorrespond P s s' nodes nodes' →
    SucceedAlike (SameOptionIf P) (readInline s nodes) (readInline s' nodes')
  | .nil => .ok .none
  | .cons hnode hrest => by
    rw [readInline, readInline, hnode.tag.name]
    split
    · exact (agree_readSimpleType hnode).bind fun _ _ htype =>
        .ok (.some (htype.map fun type => TypeRef.anonymous (.simple type)))
    · exact agree_readInline hrest

theorem agree_readMembers {nodes nodes' : List SchemaNode} : AllCorrespond P s s' nodes nodes' →
    SucceedAlike (SameListIf P) (readMembers s nodes) (readMembers s' nodes')
  | .nil => .ok .nil
  | .cons hnode hrest => by
    rw [readMembers, readMembers, hnode.tag.name]
    split
    · exact (agree_readSimpleType hnode).bind fun _ _ htype =>
        (agree_readMembers hrest).bind fun _ _ hmembers =>
          .ok (.cons (htype.map fun type => TypeRef.anonymous (.simple type)) hmembers)
    · exact agree_readMembers hrest

end

section

variable (hs : s.Corresponds P s')

include hs

theorem agree_readUse (h : node.Corresponds P s s' node') :
    SucceedAlike (SameIf P) (readUse s node) (readUse s' node') := by
  cases h with
  | @mk tag tag' children children' htag hchildren =>
    rw [readUse, readUse, htag.attr?, hs.attributeForm, form_eq htag]
    refine (agree_useMode htag).bind ?_
    rintro mode _ rfl
    refine (agree_constraint htag).bind ?_
    rintro constraint _ rfl
    cases tag'.attr? "ref" with
    | some name =>
      exact (htag.resolve name).bind fun _ _ htarget =>
        .ok (htarget.map fun target => AttributeUse.mk mode constraint (.global target))
    | none =>
      refine (agree_required htag "name").bind ?_
      rintro name _ rfl
      have hname := same_localName hs (form tag' s'.attributeForm) name
      refine (agree_typeOr htag "type" (agree_readInline hchildren)).bind
        fun type type' htype => .ok fun hp => ?_
      rw [hname hp, htype.2 hp]

theorem agree_readAttributes (h : AllCorrespond P s s' nodes nodes') :
    SucceedAlike (SameIf P) (readAttributes s nodes) (readAttributes s' nodes') := by
  induction nodes generalizing nodes' with
  | nil =>
    cases h
    exact .ok (.of_eq rfl)
  | cons node rest ih =>
    cases h with
    | cons hnode hrest =>
      rw [readAttributes, readAttributes, hnode.tag.name]
      split
      · refine (agree_readUse hs hnode).bind fun use use' huse => (ih hrest).bind
          fun others others' hothers => .ok fun hp => ?_
        rw [huse hp, hothers hp]
      · split
        · refine (agree_reference hnode.tag "ref").bind fun name name' hname => (ih hrest).bind
            fun others others' hothers => .ok fun hp => ?_
          rw [hname hp, hothers hp]
        · split
          · refine (agree_wildcard hs hnode.tag).bind fun own own' hown => (ih hrest).bind
              fun others others' hothers => .ok fun hp => ?_
            rw [hown hp, hothers hp]
          · exact ih hrest

theorem agree_readSimpleContent (owner owner' : SchemaTag)
    (h : AllCorrespond P s s' nodes nodes') :
    SucceedAlike (SameIf P) (readSimpleContent s owner nodes)
      (readSimpleContent s' owner' nodes') := by
  induction nodes generalizing nodes' with
  | nil =>
    cases h
    exact agree_fail _ _
  | cons node rest ih =>
    cases h with
    | cons hnode hrest =>
      cases hnode with
      | mk htag hchildren =>
        rw [readSimpleContent, readSimpleContent, htag.name]
        cases DerivationMethod.ofName? _ with
        | none => exact ih hrest
        | some method =>
          exact (agree_reference htag "base").bind fun _ _ hbase =>
            agree_simpleBody hchildren hbase (agree_readInline hchildren)
              (agree_readAttributes hs hchildren)

-- The readers of groups ask for the setting only on their way through the readers of elements.
set_option linter.unusedSectionVars false in
mutual

theorem agree_readComplexType {node node' : SchemaNode} : node.Corresponds P s s' node' →
    SucceedAlike (SameIf P) (readComplexType s node) (readComplexType s' node')
  | .mk htag hchildren => by
    rw [readComplexType, readComplexType, htag.flag]
    refine (agree_readDerived _ hchildren).bind fun derived derived' hderived => ?_
    cases derived with
    | some own =>
      cases derived' with
      | some own' => exact .ok (agree_type htag fun hp => Option.some.inj (hderived.2 hp))
      | none => cases hderived.1
    | none =>
      cases derived' with
      | some own' => cases hderived.1
      | none =>
        exact (agree_body _ (.of_eq rfl) (agree_readGroups hchildren)
          (agree_readAttributes hs hchildren)).bind fun _ _ hown => .ok (agree_type htag hown)

theorem agree_readDerived (isMixed : Bool) {nodes nodes' : List SchemaNode} :
    AllCorrespond P s s' nodes nodes' →
    SucceedAlike (SameOptionIf P) (readDerived s isMixed nodes) (readDerived s' isMixed nodes')
  | .nil => .ok .none
  | .cons (.mk htag hchildren) hrest => by
    rw [readDerived, readDerived, htag.name, htag.attr?]
    split
    · exact (agree_readSimpleContent hs _ _ hchildren).map fun _ _ => .some
    · split
      · exact (agree_readComplexContent _ _ _ hchildren).map fun _ _ => .some
      · exact agree_readDerived isMixed hrest

theorem agree_readComplexContent (owner owner' : SchemaTag) (isMixed : Bool)
    {nodes nodes' : List SchemaNode} : AllCorrespond P s s' nodes nodes' →
    SucceedAlike (SameIf P) (readComplexContent s owner isMixed nodes)
      (readComplexContent s' owner' isMixed nodes')
  | .nil => agree_fail _ _
  | .cons (.mk htag hchildren) hrest => by
    rw [readComplexContent, readComplexContent, htag.name]
    cases DerivationMethod.ofName? _ with
    | none => exact agree_readComplexContent _ _ isMixed hrest
    | some method =>
      exact (agree_reference htag "base").bind fun _ _ hbase =>
        agree_body isMixed (hbase.map fun base => some (Derivation.mk method base))
          (agree_readGroups hchildren) (agree_readAttributes hs hchildren)

theorem agree_readGroups {nodes nodes' : List SchemaNode} : AllCorrespond P s s' nodes nodes' →
    SucceedAlike (SameIf P) (readGroups s nodes) (readGroups s' nodes')
  | .nil => .ok (.of_eq rfl)
  | .cons hnode hrest => by
    rw [readGroups, readGroups, hnode.tag.name]
    split
    · exact (agree_readGroup hnode).bind fun _ _ hgroup => (agree_readGroups hrest).bind
        fun _ _ hothers => .ok (hgroup.map₂ List.cons hothers)
    · exact agree_readGroups hrest

theorem agree_readGroup {node node' : SchemaNode} : node.Corresponds P s s' node' →
    SucceedAlike (SameIf P) (readGroup s node) (readGroup s' node')
  | .mk htag hchildren => by
    rw [readGroup, readGroup, htag.name]
    refine (agree_occurs htag).bind ?_
    rintro occurs _ rfl
    cases Compositor.ofName? _ with
    | some compositor =>
      exact (agree_readParticles hchildren).bind fun _ _ hparticles =>
        .ok (hparticles.map fun particles => Particle.mk occurs (.group ⟨compositor, particles⟩))
    | none =>
      exact (agree_reference htag "ref").bind fun _ _ hname =>
        .ok (hname.map fun name => Particle.mk occurs (.groupRef name))

theorem agree_readParticles {nodes nodes' : List SchemaNode} : AllCorrespond P s s' nodes nodes' →
    SucceedAlike (SameIf P) (readParticles s nodes) (readParticles s' nodes')
  | .nil => .ok (.of_eq rfl)
  | .cons hnode hrest => by
    rw [readParticles, readParticles, hnode.tag.name]
    split
    · exact (agree_readElement hnode).bind fun _ _ hparticle => (agree_readParticles hrest).bind
        fun _ _ hothers => .ok (hparticle.map₂ List.cons hothers)
    · split
      · refine (agree_occurs hnode.tag).bind ?_
        rintro occurs _ rfl
        exact (agree_wildcard hs hnode.tag).bind fun _ _ hwildcard =>
          (agree_readParticles hrest).bind fun _ _ hothers =>
            .ok (hwildcard.map₂ (fun any rest => Particle.mk occurs (.any any) :: rest) hothers)
      · split
        · exact (agree_readGroup hnode).bind fun _ _ hgroup => (agree_readParticles hrest).bind
            fun _ _ hothers => .ok (hgroup.map₂ List.cons hothers)
        · exact agree_readParticles hrest

theorem agree_readElement {node node' : SchemaNode} : node.Corresponds P s s' node' →
    SucceedAlike (SameIf P) (readElement s node) (readElement s' node')
  | @SchemaNode.Corresponds.mk _ _ _ _ tag' _ _ htag hchildren => by
    rw [readElement, readElement, htag.attr?, hs.elementForm, form_eq htag]
    refine (agree_occurs htag).bind ?_
    rintro occurs _ rfl
    cases tag'.attr? "ref" with
    | some name =>
      exact (htag.resolve name).bind fun _ _ hname =>
        .ok (hname.map fun name => Particle.mk occurs (.elementRef name))
    | none =>
      refine (agree_required htag "name").bind ?_
      rintro name _ rfl
      have hname := same_localName hs (form tag' s'.elementForm) name
      refine (agree_typeOr htag "type" (agree_readElementType hchildren)).bind
        fun type type' htype => .ok fun hp => ?_
      rw [hname hp, htype.2 hp]

theorem agree_readElementType {nodes nodes' : List SchemaNode} :
    AllCorrespond P s s' nodes nodes' →
    SucceedAlike (SameOptionIf P) (readElementType s nodes) (readElementType s' nodes')
  | .nil => .ok .none
  | .cons hnode hrest => by
    rw [readElementType, readElementType, hnode.tag.name]
    split
    · exact (agree_readComplexType hnode).bind fun _ _ htype =>
        .ok (.some (htype.map fun type => TypeRef.anonymous (.complex type)))
    · split
      · exact (agree_readSimpleType hnode).bind fun _ _ htype =>
          .ok (.some (htype.map fun type => TypeRef.anonymous (.simple type)))
      · exact agree_readElementType hrest

end

/-! ## Global declarations -/

theorem agree_readGlobalElement (h : node.Corresponds P s s' node') :
    SucceedAlike (SameIf P) (readGlobalElement s node) (readGlobalElement s' node') := by
  have hheads : SucceedAlike (SameIf P)
      ((node.tag.attr? "substitutionGroup").mapM (s.resolve node.tag))
      ((node'.tag.attr? "substitutionGroup").mapM (s'.resolve node'.tag)) := by
    rw [h.tag.attr?]
    cases node'.tag.attr? "substitutionGroup" with
    | none => exact .ok (.of_eq rfl)
    | some value => exact (h.tag.resolve value).map fun _ _ hname => hname.map some
  unfold readGlobalElement
  refine (agree_required h.tag "name").bind ?_
  rintro name _ rfl
  refine hheads.bind fun head head' hhead => ?_
  refine (agree_typeOr h.tag "type" (agree_readElementType hs h.children)).bind
    fun type type' htype => .ok fun hp => ?_
  rw [same_qname hs name hp, hhead hp, htype.2 hp, h.tag.flag]

theorem agree_readGlobalAttribute (h : node.Corresponds P s s' node') :
    SucceedAlike (SameIf P) (readGlobalAttribute s node) (readGlobalAttribute s' node') := by
  unfold readGlobalAttribute
  refine (agree_required h.tag "name").bind ?_
  rintro name _ rfl
  refine (agree_typeOr h.tag "type" (agree_readInline h.children)).bind fun type type' htype => ?_
  refine (agree_constraint h.tag).bind ?_
  rintro constraint _ rfl
  refine .ok fun hp => ?_
  rw [same_qname hs name hp, htype.2 hp]

omit hs in
/-- The first element of a row with some name. -/
theorem agree_find? (p : String → Bool) (h : AllCorrespond P s s' nodes nodes') :
    Option.Rel (SchemaNode.Corresponds P s s') (nodes.find? fun child => p child.tag.name)
      (nodes'.find? fun child => p child.tag.name) := by
  induction nodes generalizing nodes' with
  | nil =>
    cases h
    exact .none
  | cons node rest ih =>
    cases h with
    | cons hnode hrest =>
      rw [List.find?_cons, List.find?_cons, hnode.tag.name]
      split
      · exact .some hnode
      · exact ih hrest

theorem agree_readGroupDefinition (h : node.Corresponds P s s' node') :
    SucceedAlike (SameIf P) (readGroupDefinition s node) (readGroupDefinition s' node') := by
  have hfound := agree_find? (fun name => (Compositor.ofName? name).isSome) h.children
  unfold readGroupDefinition
  revert hfound
  cases node.children.find? _ with
  | none =>
    cases node'.children.find? _ with
    | none => exact fun _ => .ok (.of_eq rfl)
    | some child' => exact nofun
  | some child =>
    cases node'.children.find? _ with
    | none => exact nofun
    | some child' =>
      rintro ⟨hchild⟩
      dsimp only
      rw [hchild.tag.name]
      exact (agree_readParticles hs hchild.children).bind fun _ _ hparticles =>
        .ok (hparticles.map (ModelGroup.mk _))

theorem agree_readDeclaration (h : node.Corresponds P s s' node') :
    SucceedAlike (SameIf P) (readDeclaration s node) (readDeclaration s' node') := by
  unfold readDeclaration
  rw [h.tag.name]
  split
  · exact (agree_readGlobalElement hs h).bind fun _ _ hdecl => .ok (hdecl.map some)
  · refine (agree_required h.tag "name").bind ?_
    rintro name _ rfl
    refine (agree_readComplexType hs h).bind fun type type' htype => .ok fun hp => ?_
    rw [same_qname hs name hp, htype hp]
  · refine (agree_required h.tag "name").bind ?_
    rintro name _ rfl
    refine (agree_readSimpleType h).bind fun type type' htype => .ok fun hp => ?_
    rw [same_qname hs name hp, htype hp]
  · exact (agree_readGlobalAttribute hs h).bind fun _ _ hdecl => .ok (hdecl.map some)
  · refine (agree_required h.tag "name").bind ?_
    rintro name _ rfl
    refine (agree_readAttributes hs h.children).bind fun attrs attrs' hattrs => .ok fun hp => ?_
    rw [same_qname hs name hp, hattrs hp]
  · refine (agree_required h.tag "name").bind ?_
    rintro name _ rfl
    refine (agree_readGroupDefinition hs h).bind fun group group' hgroup => .ok fun hp => ?_
    rw [same_qname hs name hp, hgroup hp]
  · exact .ok (.of_eq rfl)

theorem agree_readAll (h : AllCorrespond P s s' nodes nodes') :
    SucceedAlike (SameIf P) (SchemaDocument.readAll s nodes)
      (SchemaDocument.readAll s' nodes') := by
  induction nodes generalizing nodes' with
  | nil =>
    cases h
    exact .ok (.of_eq rfl)
  | cons node rest ih =>
    cases h with
    | cons hnode hrest =>
      unfold SchemaDocument.readAll
      exact (agree_readDeclaration hs hnode).bind fun _ _ hdeclaration => (ih hrest).bind
        fun _ _ hothers =>
          .ok (hdeclaration.map₂ (fun declaration rest => declaration.toList ++ rest) hothers)

theorem same_links {address address' : Option Address} (ha : SameIf P address address')
    (h : AllCorrespond P s s' nodes nodes') :
    SameIf P (nodes.filterMap fun child => SchemaDocument.link? s address child.tag)
      (nodes'.filterMap fun child => SchemaDocument.link? s' address' child.tag) := by
  induction nodes generalizing nodes' with
  | nil =>
    cases h
    exact .of_eq rfl
  | cons node rest ih =>
    cases h with
    | @cons _ node' _ rest' hnode hrest =>
      have hlink : SameIf P (SchemaDocument.link? s address node.tag)
          (SchemaDocument.link? s' address' node'.tag) := fun hp => by
        unfold SchemaDocument.link?
        rw [hnode.tag.name, hnode.tag.attr?, hs.target hp, ha hp]
      refine fun hp => ?_
      rw [List.filterMap_cons, List.filterMap_cons, hlink hp, ih hrest hp]

end

end

/-! ## Documents -/

namespace SchemaDocument

variable {root root' : Xml.Element} {address address' : Option Address}
  {offered offered' : Option String} {place place' : Nat → String}

/-- **Two documents whose roots hold the same are read alike.** What is in the root tags does not
matter, as long as the settings that are read from them agree. -/
theorem agree_ofTree (hroot : SchemaNode.ofElement? [] root = some node)
    (hroot' : SchemaNode.ofElement? [] root' = some node') (hname : node.tag.name = node'.tag.name)
    (hs : (setting node.tag offered place).Corresponds P (setting node'.tag offered' place'))
    (h : AllCorrespond P (setting node.tag offered place) (setting node'.tag offered' place')
      node.children node'.children)
    (ha : SameIf P address address') :
    SucceedAlike (SameIf P) (ofTree address offered place root)
      (ofTree address' offered' place' root') := by
  by_cases hschema : node.tag.name = "schema"
  · rw [ofTree_eq hroot hschema, ofTree_eq hroot' (hname ▸ hschema)]
    refine (agree_readAll hs h).map fun declarations declarations' hd hp => ?_
    rw [hs.target hp, hd hp, same_links hs ha h hp]
  · unfold ofTree
    rw [hroot, hroot']
    dsimp only
    rw [if_pos hschema, if_pos (hname ▸ hschema)]
    exact .error trivial

/-- **Whether a document is accepted does not depend on where it is, nor on the namespace that is
offered to it.** -/
theorem exists_read {text : String} {document : SchemaDocument}
    (h : read address offered text = .ok document) (address' : Option Address)
    (offered' : Option String) : ∃ document', read address' offered' text = .ok document' := by
  obtain ⟨root, hroot⟩ := exists_root_of_read h
  rw [read_eq hroot] at h ⊢
  obtain ⟨node, hnode, -⟩ := exists_schema_of_ofTree h
  have hself (tag : SchemaTag) : tag.Corresponds False
      (setting node.tag offered (SchemaDocument.place address text))
      (setting node.tag offered' (SchemaDocument.place address' text)) tag :=
    ⟨rfl, rfl, DocumentSetting.agree_resolve tag.scope.isInside_none fun _ => False.elim⟩
  have hagree : SucceedAlike (SameIf False)
      (ofTree address offered (SchemaDocument.place address text) root)
      (ofTree address' offered' (SchemaDocument.place address' text) root) :=
    agree_ofTree hnode hnode rfl ⟨rfl, rfl, False.elim⟩
      (SchemaNode.allCorrespond_self hself node.children) False.elim
  obtain ⟨document', hdocument', -⟩ := hagree.exists_ok h
  exact ⟨document', hdocument'⟩

end SchemaDocument

end

end Specimen

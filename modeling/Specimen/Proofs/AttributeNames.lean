import Specimen.Proofs.Announcement
import Specimen.Proofs.Elements
import Specimen.Proofs.Sizes

/-!
# Names of attributes in a tag

The attributes of an element come from three sides: the announcement of its type, the attributes in
effect, and the attribute for a wildcard. Those in effect all have different names, however they are
inherited, replaced and taken from groups. The other two have names of their own, which nobody
compares with those of the schema: where an attribute in effect has such a name, a tag may have two
attributes of one name.

Names are compared in full, as URI and local name.
-/

namespace Specimen

/-! ## Attributes in effect -/

/-- The URI, empty for none, and the local part of a name. -/
def QName.pair (name : QName) : String × String := (name.namespaceUri, name.localName)

/-- A name in no namespace is not spelled with an empty URI. -/
def QName.IsProper (name : QName) : Prop := name.uri ≠ some ""

instance (name : QName) : Decidable name.IsProper := inferInstanceAs (Decidable (_ ≠ _))

theorem QName.isProper_make (uri : Option String) (localName : String) :
    (QName.make uri localName).IsProper :=
  make_uri_ne uri localName

/-- Names that are proper are told apart by URI and local part. -/
theorem QName.pair_injective {name other : QName} (h : name.IsProper) (h' : other.IsProper)
    (heq : name.pair = other.pair) : name = other := by
  obtain ⟨uri, localName⟩ := name
  obtain ⟨uri', localName'⟩ := other
  obtain ⟨huri, rfl⟩ := Prod.mk.inj heq
  congr 1
  cases uri with
  | none =>
    cases uri' with
    | none => rfl
    | some uri' => exact absurd (congrArg some huri.symm) h'
  | some uri =>
    cases uri' with
    | none => exact absurd (congrArg some huri) h
    | some uri' => exact congrArg some huri

/-- The name of an attribute in effect. -/
def EffectiveAttribute.name (attr : EffectiveAttribute) : QName := attr.decl.name

namespace Model

variable {m : Model}

/-- An attribute that is put among others takes the place of its name, or a new one at the end. -/
theorem map_name_putAttribute (attr : EffectiveAttribute) (attrs : List EffectiveAttribute) :
    (putAttribute attr attrs).map EffectiveAttribute.name
      = if attr.name ∈ attrs.map EffectiveAttribute.name then attrs.map EffectiveAttribute.name
        else attrs.map EffectiveAttribute.name ++ [attr.name] := by
  induction attrs with
  | nil => rfl
  | cons earlier rest ih =>
    rw [putAttribute]
    split
    · rename_i heq
      have hname : attr.name = earlier.name := heq.symm
      simp [hname]
    · rename_i hne
      have hname : attr.name ≠ earlier.name := fun h => hne h.symm
      rw [List.map_cons, ih, List.map_cons]
      simp only [List.mem_cons, hname, false_or]
      split <;> rfl

theorem map_name_dropAttribute (name : QName) (attrs : List EffectiveAttribute) :
    (dropAttribute name attrs).map EffectiveAttribute.name
      = (attrs.map EffectiveAttribute.name).erase name := by
  induction attrs with
  | nil => rfl
  | cons earlier rest ih =>
    rw [dropAttribute, List.map_cons, List.erase_cons]
    by_cases h : earlier.decl.name = name
    · have hbeq : (earlier.name == name) = true := beq_iff_eq.mpr h
      rw [if_pos h, if_pos hbeq]
    · have hbeq : ¬(earlier.name == name) = true := mt beq_iff_eq.mp h
      rw [if_neg h, if_neg hbeq, List.map_cons, ih]

theorem mem_putAttribute (attr : EffectiveAttribute) (attrs : List EffectiveAttribute) :
    attr ∈ putAttribute attr attrs := by
  induction attrs with
  | nil => exact List.mem_singleton_self attr
  | cons earlier rest ih =>
    rw [putAttribute]
    split
    · exact List.mem_cons_self
    · exact List.mem_cons_of_mem _ ih

theorem mem_map_name_putAttribute {attr : EffectiveAttribute} {attrs : List EffectiveAttribute}
    {name : QName} : name ∈ (putAttribute attr attrs).map EffectiveAttribute.name
      ↔ name = attr.name ∨ name ∈ attrs.map EffectiveAttribute.name := by
  rw [map_name_putAttribute]
  split
  · rename_i hmem
    exact ⟨.inr, fun h => h.elim (fun heq => heq ▸ hmem) id⟩
  · rw [List.mem_append, List.mem_singleton, or_comm]

theorem nodup_putAttribute (attr : EffectiveAttribute) {attrs : List EffectiveAttribute}
    (h : (attrs.map EffectiveAttribute.name).Nodup) :
    ((putAttribute attr attrs).map EffectiveAttribute.name).Nodup := by
  rw [map_name_putAttribute]
  split
  · exact h
  · rename_i hnew
    exact List.nodup_append.mpr ⟨h, List.nodup_singleton _, fun name hname other hother heq => hnew
      (List.mem_singleton.mp hother ▸ heq ▸ hname)⟩

theorem nodup_applyUse {attrs : List EffectiveAttribute} (use : UseMode × EffectiveAttribute)
    (h : (attrs.map EffectiveAttribute.name).Nodup) :
    ((applyUse attrs use).map EffectiveAttribute.name).Nodup := by
  unfold applyUse
  split
  · rw [map_name_dropAttribute]
    exact h.erase _
  · exact nodup_putAttribute _ h

/-- Uses keep the names of attributes different. -/
theorem nodup_applyUses {attrs : List EffectiveAttribute} (uses : List (UseMode × EffectiveAttribute))
    (h : (attrs.map EffectiveAttribute.name).Nodup) :
    ((uses.foldl applyUse attrs).map EffectiveAttribute.name).Nodup := by
  induction uses generalizing attrs with
  | nil => exact h
  | cons use rest ih => exact ih (nodup_applyUse use h)

theorem nodup_attributesWithin {steps : Nat} {type : ComplexType} {attrs : List EffectiveAttribute}
    (h : m.attributesWithin steps type = .ok attrs) :
    (attrs.map EffectiveAttribute.name).Nodup := by
  induction steps generalizing type attrs with
  | zero =>
    obtain ⟨_, own, -, rfl, ⟨rfl, -⟩ | ⟨n, -, hn, -⟩⟩ := attributesWithin_cases h
    · exact nodup_applyUses own List.nodup_nil
    · cases hn
  | succ steps ih =>
    obtain ⟨_, own, -, rfl, ⟨rfl, -⟩ | ⟨n, baseType, hn, -, hbase⟩⟩ := attributesWithin_cases h
    · exact nodup_applyUses own List.nodup_nil
    · cases hn
      exact nodup_applyUses own (ih hbase)

/-- No name of an attribute in a schema spells "no namespace" as an empty URI. -/
def HasProperNames (m : Model) : Prop := ∀ decl ∈ m.attributeDecls, decl.name.IsProper

instance (m : Model) : Decidable m.HasProperNames :=
  inferInstanceAs (Decidable (∀ decl ∈ m.attributeDecls, _))

/-- **The attributes in effect all have different names.** -/
theorem nodup_attributesOf {type : ComplexType} {attrs : List EffectiveAttribute}
    (h : m.attributesOf type = .ok attrs) : (attrs.map EffectiveAttribute.name).Nodup :=
  nodup_attributesWithin h

end Model

/-! ## Names in a tag -/

/-- The name of an attribute that is reported. -/
def Event.attributeName? (e : Event) : Option (String × String) :=
  e.call.attribute?.map fun attr => (attr.1, attr.2.1)

/-- The names of the attributes in a tag, given the events behind the start. The tag goes as far as
there are attributes and requests for prefixes. -/
def tagNames (behind : List Event) : List (String × String) :=
  (behind.takeWhile Event.isTagPart).filterMap Event.attributeName?

theorem takeWhile_append_cons {α : Type} {p : α → Bool} {a : α} (h : p a = false) (l l' : List α) :
    (l ++ a :: l').takeWhile p = l.takeWhile p := by
  induction l with
  | nil => simp [h]
  | cons b l ih => simp only [List.cons_append, List.takeWhile_cons, ih]

theorem Call.LeavesTag.isTagPart {e : Event} (h : e.call.LeavesTag) : e.isTagPart = false := by
  cases e with
  | «attribute» uri name value => exact h.elim
  | declarePrefix uri pfx => exact h.elim
  | _ => rfl

/-- Inside an element there are no attributes before the next tag. -/
theorem Event.IsInside.tagNames {l : List Event} (h : Event.IsInside l) (after : List Event) :
    Specimen.tagNames (l ++ .endElement :: after) = [] := by
  obtain ⟨inner, next, rest, heq, -, hnone, hleaves⟩ := h.exists_leavesTag after
  rw [heq, Specimen.tagNames, takeWhile_append_cons hleaves.isTagPart, List.filterMap_eq_nil_iff]
  intro e he
  rw [List.filterMap_map, List.filterMap_eq_nil_iff] at hnone
  have hattribute : e.call.attribute? = none := hnone e ((List.takeWhile_sublist _).subset he)
  rw [attributeName?, hattribute, Option.map_none]

theorem tagNames_append {tag : List Event} (h : ∀ e ∈ tag, e.isTagPart = true) (l : List Event) :
    tagNames (tag ++ l) = tag.filterMap Event.attributeName? ++ tagNames l := by
  rw [tagNames, List.takeWhile_append_of_pos h, List.filterMap_append, tagNames]

/-! ## Names that are written besides -/

/-- The namespaces that may be written for a wildcard. -/
def NamespaceConstraint.written : NamespaceConstraint → List String
  | .any => [Document.wildcardNamespace]
  | .among uris => uris
  | .except uris => [Document.unlistedNamespace uris]

namespace Document

open Walk Stretch

variable {σ : Type} [Source σ] {w : Leaf.Setting}

theorem decides_written (constraint : NamespaceConstraint) :
    Decides (chooseNamespace constraint : Walk σ String) fun uri => uri ∈ constraint.written := by
  cases constraint with
  | any => exact .pure (List.mem_singleton_self _)
  | among uris => exact decides_chooseNamespace (.among uris)
  | «except» uris => exact .pure (List.mem_singleton_self _)

/-- The name may be written into a tag besides those of the attributes in effect: that of the marker
if the declared type is abstract, and that of the attribute for a wildcard. -/
inductive WrittenBesides (declared : TypeDef) (own : Option Wildcard) : String × String → Prop
  | marker (h : declared.IsAbstract) : WrittenBesides declared own (Namespace.xsi, "type")
  | wildcard {wildcard : Wildcard} {uri : String} (h : own = some wildcard)
      (hu : uri ∈ wildcard.namespaces.written) :
      WrittenBesides declared own (uri, wildcardAttribute)

/-- No attribute in effect for a type has a name that is written besides. -/
def StaysApart (m : Model) (declared : TypeDef) (type : ComplexType) : Prop :=
  ∀ attrs own, m.attributesOf type = .ok attrs → m.wildcardOf type = .ok own →
    ∀ attr ∈ attrs, ¬WrittenBesides declared own attr.name.pair

/-! ### Where they come from -/

theorem Announces.names {declared : TypeDef} {type : ComplexType} {l : List Event}
    (h : Announces declared type l) : l.filterMap Event.attributeName? = []
      ∨ declared.IsAbstract ∧ l.filterMap Event.attributeName? = [(Namespace.xsi, "type")] := by
  cases h with
  | own _ => exact .inl rfl
  | subtype h _ pfx => exact .inr ⟨h, rfl⟩

theorem AttributeRow.names {attrs : List EffectiveAttribute} {l : List Event}
    (h : AttributeRow σ w attrs l) :
    (l.filterMap Event.attributeName?).Sublist (attrs.map fun attr => attr.name.pair) := by
  induction h with
  | nil => exact List.Sublist.refl _
  | omitted _ _ ih => exact ih.cons _
  | written _ _ ih => exact ih.cons_cons _

theorem names_attributeWildcard {path : Path} {type : ComplexType} {own : Option Wildcard}
    {s s' : Supply σ} {st : List (Step (Supply σ))}
    (h : (attributeWildcard (path.push (.complexType type own)) own : Walk σ Unit).Runs s st
      (.ok ()) s') :
    (eventsOf st).filterMap Event.attributeName? = []
      ∨ ∃ wildcard uri, own = some wildcard ∧ uri ∈ wildcard.namespaces.written
        ∧ (eventsOf st).filterMap Event.attributeName? = [(uri, wildcardAttribute)] := by
  cases own with
  | none =>
    obtain ⟨rfl, -, -⟩ := runs_pure h
    exact .inl rfl
  | some own =>
    rw [attributeWildcard_own] at h
    obtain ⟨uri, s₁, st₁, st₂, hchoose, htell, rfl⟩ := runs_bind_ok h
    obtain ⟨rfl, -, hwritten⟩ := decides_written own.namespaces _ _ _ _ hchoose
    obtain ⟨answer, rfl, -⟩ := runs_tell_ok htell
    exact .inr ⟨own, uri, rfl, hwritten uri rfl, rfl⟩

/-- The names in effect are different, so names that are written besides are the only ones that may
come twice. -/
theorem nodup_of_staysApart {declared : TypeDef} {type : ComplexType}
    {attrs : List EffectiveAttribute} {own : Option Wildcard}
    {marker row wild : List (String × String)} (hp : ∀ attr ∈ attrs, attr.name.IsProper)
    (hattrs : w.model.attributesOf type = .ok attrs) (hown : w.model.wildcardOf type = .ok own)
    (hmarker : marker = [] ∨ declared.IsAbstract ∧ marker = [(Namespace.xsi, "type")])
    (hrow : row.Sublist (attrs.map fun attr => attr.name.pair))
    (hwild : wild = [] ∨ ∃ wildcard uri, own = some wildcard ∧ uri ∈ wildcard.namespaces.written
      ∧ wild = [(uri, wildcardAttribute)])
    (hapart : StaysApart w.model declared type) : (marker ++ (row ++ wild)).Nodup := by
  have hnames : (attrs.map fun attr => attr.name.pair).Nodup := by
    have hnodup := Model.nodup_attributesOf hattrs
    have hpairs : (attrs.map fun attr => attr.name.pair)
        = (attrs.map EffectiveAttribute.name).map QName.pair := by
      rw [List.map_map]
      rfl
    rw [hpairs]
    refine hnodup.map_on fun name hname other hother heq => ?_
    obtain ⟨attr, hattr, rfl⟩ := List.mem_map.mp hname
    obtain ⟨attr', hattr', rfl⟩ := List.mem_map.mp hother
    exact QName.pair_injective (hp _ hattr) (hp _ hattr') heq
  -- No attribute in effect has the name of one that is written besides.
  have hclear {name : String × String} (h : WrittenBesides declared own name) : name ∉ row := by
    intro hmem
    obtain ⟨attr, hattr, rfl⟩ := List.mem_map.mp (hrow.subset hmem)
    exact hapart attrs own hattrs hown attr hattr h
  have hrest : (row ++ wild).Nodup := by
    rcases hwild with rfl | ⟨wildcard, uri, rfl, huri, rfl⟩
    · rw [List.append_nil]
      exact hnames.sublist hrow
    · refine List.nodup_append_comm.mp (List.nodup_cons.mpr ⟨hclear (.wildcard rfl huri), ?_⟩)
      exact hnames.sublist hrow
  rcases hmarker with rfl | ⟨habstract, rfl⟩
  · exact hrest
  · rw [List.singleton_append]
    refine List.nodup_cons.mpr ⟨fun hmem => ?_, hrest⟩
    rcases List.mem_append.mp hmem with hmem | hmem
    · exact hclear (.marker habstract) hmem
    · rcases hwild with rfl | ⟨wildcard, uri, -, -, rfl⟩
      · exact absurd hmem List.not_mem_nil
      · -- The two names that are written besides differ in their local parts.
        have hname : "type" = wildcardAttribute := congrArg Prod.snd (List.mem_singleton.mp hmem)
        exact absurd hname (by decide)

/-! ## Elements -/

/-- The runs that make the tag of an element of a declared type that is generated for `type`: the
announcement, the attributes in effect, and the attribute for a wildcard. -/
structure TagRun (w : Leaf.Setting) (declared : TypeDef) (type : ComplexType)
    (attrs : List EffectiveAttribute) (own : Option Wildcard)
    (announcement row wild : List (Step (Supply σ))) : Prop where
  attributesOf : w.model.attributesOf type = .ok attrs
  wildcardOf : w.model.wildcardOf type = .ok own
  announces : Announces declared type (eventsOf announcement)
  writeRow : ∃ s s', (each attrs (writeAttribute w)).Runs s row (.ok ()) s'
  writeWildcard : ∃ path : Path, ∃ s s',
    (attributeWildcard (path.push (.complexType type own)) own).Runs s wild (.ok ()) s'
  isTagPart : ∀ e ∈ eventsOf announcement ++ (eventsOf row ++ eventsOf wild), e.isTagPart = true

/-- The run of an element makes its tag and then what is inside. -/
theorem ElementRun.exists_tagRun {decl : ElementDecl} {declared : TypeDef} {type : ComplexType}
    {remarks inner words rest : List (Step (Supply σ))} {s s' : Supply σ} {answer : String}
    (h : ElementRun w decl declared (.complex type) remarks inner words s s') :
    ∃ attrs own, ∃ announcement row wild : List (Step (Supply σ)), ∃ inside,
      TagRun w declared type attrs own announcement row wild
      ∧ eventsOf (inner ++ (words ++ .made .endElement s' answer :: rest))
        = (eventsOf announcement ++ (eventsOf row ++ eventsOf wild))
          ++ (inside ++ .endElement :: eventsOf rest)
      ∧ (w.model.Numbered → .type type ∈ w.model.parts → Event.IsInside inside) := by
  obtain ⟨steps, path, isSubstitute, s₁, hflag, hstructured, htext⟩ := h.inside
  obtain ⟨own, attrs, s₂, s₃, announcement, row, wild, inside, hown, hattrs, hannounce, hrow, hwild,
    hcontent, rfl⟩ := runs_structured hstructured
  refine ⟨attrs, own, announcement, row, wild, eventsOf inside ++ eventsOf words, ?_,
    by simp [Call.event], fun hm ht => ?_⟩
  · refine ⟨hattrs, hown, (leads_announce (w := w) hflag _ _ _ hannounce).1, ⟨_, _, hrow⟩,
      ⟨_, _, _, hwild⟩, ?_⟩
    simp only [List.forall_mem_append]
    refine ⟨(forms_announce type isSubstitute _ _ _ _ hannounce).2 () rfl, ?_,
      (forms_attributeWildcard type own _ _ _ _ hwild).2 () rfl⟩
    exact (Forms.each isRow_tagParts (fun attr _ => forms_writeAttribute attr) _ _ _ _ hrow).2 () rfl
  · have hleads := leads_content hm (visitsYield_visit hm steps) (visitsInOrder_visit steps)
      (Model.covers_of_mem_parts ht) hown _ _ _ hcontent
    exact isInside_append hleads.1.2 ((forms_text decl _ _ _ _ _ htext).2 () rfl)

/-- **An element has no two attributes of one name**, if the attributes in effect for the type that
it is generated for stay apart from the names that are written besides. -/
theorem ElementRun.nodup_tagNames {decl : ElementDecl} {declared : TypeDef} {type : ComplexType}
    {remarks inner words rest : List (Step (Supply σ))} {s s' : Supply σ} {answer : String}
    (h : ElementRun w decl declared (.complex type) remarks inner words s s')
    (hm : w.model.Numbered) (hp : w.model.HasProperNames) (ht : .type type ∈ w.model.parts)
    (hapart : StaysApart w.model declared type) :
    (tagNames (eventsOf (inner ++ (words ++ .made .endElement s' answer :: rest)))).Nodup := by
  obtain ⟨attrs, own, announcement, row, wild, inside, htag, hevents, hinside⟩ := h.exists_tagRun
  obtain ⟨_, _, hrow⟩ := htag.writeRow
  obtain ⟨_, _, _, hwild⟩ := htag.writeWildcard
  rw [hevents, tagNames_append htag.isTagPart, (hinside hm ht).tagNames, List.append_nil,
    List.filterMap_append, List.filterMap_append]
  have hproper : ∀ attr ∈ attrs, attr.name.IsProper := fun attr hattr =>
    hp _ (Model.mem_attributeDecls_of_attributesOf htag.attributesOf ht attr hattr)
  exact nodup_of_staysApart hproper htag.attributesOf htag.wildcardOf htag.announces.names
    (leads_attributes attrs _ _ _ hrow).1.names (names_attributeWildcard hwild) hapart

/-- If the element that is started behind these steps is generated for a complex type of the schema,
then the attributes of this type stay apart from the names that are written besides. -/
def StartsApart (w : Leaf.Setting) (before : List (Step (Supply σ))) : Prop :=
  ∀ outer decl type, before = outer ++ [.noted (.element decl (.complex type))] →
    .type type ∈ w.model.parts →
    ∀ declared, w.model.resolveType decl.type = .ok declared → StaysApart w.model declared type

theorem nodup_tagNames {ω : Type} [Writer ω] {root : QName} {source : σ} {writer : ω}
    (hm : w.model.Built) (hp : w.model.HasProperNames)
    (hok : (generate w root source writer).result = .ok ())
    {before behind : List (Step (Supply σ))} {uri name answer : String} {s : Supply σ}
    (heq : steps w root source writer = before ++ .made (.startElement uri name) s answer :: behind)
    (hapart : StartsApart w before) : (tagNames (eventsOf behind)).Nodup := by
  have hruns := Script.runs_steps (walk w root { source }) writer
  rw [show ((walk w root { source }).run writer).1.1 = .ok () from hok] at hruns
  have hbegun := (leads_walk hm.numbered root _ _ _ hruns).2 _ _ _ _ _ _ heq
  cases hbegun with
  | wildcard hn => exact List.nodup_nil
  | @declared decl declared type t answer' outer tag content text rest hmade =>
    cases type with
    -- For a simple type no attribute is written.
    | simple type =>
      have htag := hmade.tagOf
      generalize hl : eventsOf tag = l at htag
      cases htag with
      | simple =>
        have hinside := hmade.isInside.tagNames (eventsOf rest)
        have hevents : eventsOf (tag ++ (content ++ (text ++ .made .endElement t answer' :: rest)))
            = eventsOf (content ++ text) ++ .endElement :: eventsOf rest := by
          simp [hl, Call.event]
        rw [hevents, hinside]
        exact List.nodup_nil
    | complex type =>
      rw [List.append_assoc] at heq
      have hhas := hasRun_of_steps hok heq
      generalize hafter : Step.made _ s answer :: _ = after at hhas
      obtain @⟨declared', _, s', _, answer', outer', remarks, inner, words, rest', hrun⟩ := hhas
      obtain ⟨-, hbehind⟩ := List.cons.inj hafter
      rw [hbehind]
      have hpart : .type type ∈ w.model.parts := hmade.mem_parts type rfl
      exact hrun.nodup_tagNames hm.numbered hp hpart (hapart _ decl type rfl hpart _ hrun.resolveType)

end Document

end Specimen

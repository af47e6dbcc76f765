import Specimen.Proofs.AttributeNames

/-!
# Names of attributes in a text

In a text, attributes and declarations stand next to each other in a tag, and their names are written
with prefixes. Reading a tag gives back the names in full. Where these are different, the names are
different in the way they are written: a name that is written twice would be read as the same prefix
declared twice, or as the same attribute twice.
-/

namespace Specimen

open Markup

/-! ## Names as they are written -/

namespace Markup

/-- What an item is about: the prefix that it declares, or the name of the attribute. -/
def Item.label : Item → String ⊕ (String × String)
  | .declares pfx _ => .inl pfx
  | .has pfx name _ => .inr (pfx, name)

/-- What an item is about is seen from the name as it is written. -/
theorem Item.label_of_read {attr : String × String} {item : Item} (h : Item.read attr = some item)
    (value : String) : (Item.read (attr.1, value)).map Item.label = some item.label := by
  -- The value says only whether a declaration is accepted, and for which URI; the label is of the
  -- prefix.
  unfold read at h ⊢
  split at h
  · cases h
  · rename_i pfx name hparts
    simp only [hparts]
    split at h
    · rename_i hxmlns
      rw [if_pos hxmlns]
      split at h
      · cases h
      · rename_i hne
        cases h
        rw [if_neg hne]
        rfl
    · rename_i hxmlns
      rw [if_neg hxmlns]
      split at h
      · rename_i hdefault
        cases h
        rw [if_pos hdefault]
        rfl
      · rename_i hdefault
        cases h
        rw [if_neg hdefault]
        rfl

/-- Items are about different things if no prefix is declared twice and no attribute is named
twice. -/
theorem nodup_label {items : List Item} (hd : ((items.filterMap Item.declared?).map Prod.fst).Nodup)
    (ha : ((items.filterMap Item.attribute?).map fun attr => (attr.1, attr.2.1)).Nodup) :
    (items.map Item.label).Nodup := by
  induction items with
  | nil => exact List.nodup_nil
  | cons item rest ih =>
    -- A declaration and an attribute never have the same label, so it is enough to compare like
    -- with like.
    cases item with
    | declares pfx uri =>
      obtain ⟨hnew, hd⟩ := List.nodup_cons.mp hd
      refine List.nodup_cons.mpr ⟨fun hmem => hnew ?_, ih hd ha⟩
      obtain ⟨item, hitem, hlabel⟩ := List.mem_map.mp hmem
      cases item with
      | has => cases hlabel
      | declares pfx' uri' =>
        obtain rfl := Sum.inl.inj hlabel
        exact List.mem_map.mpr ⟨_, List.mem_filterMap.mpr ⟨_, hitem, rfl⟩, rfl⟩
    | has pfx name value =>
      obtain ⟨hnew, ha⟩ := List.nodup_cons.mp ha
      refine List.nodup_cons.mpr ⟨fun hmem => hnew ?_, ih hd ha⟩
      obtain ⟨item, hitem, hlabel⟩ := List.mem_map.mp hmem
      cases item with
      | declares => cases hlabel
      | has pfx' name' value' =>
        have hname : (pfx', name') = (pfx, name) := Sum.inr.inj hlabel
        exact List.mem_map.mpr ⟨_, List.mem_filterMap.mpr ⟨_, hitem, rfl⟩, hname⟩

theorem map_of_mapM {α β γ : Type} {f : α → Option β} {g : α → γ} {k : β → γ}
    (hk : ∀ a b, f a = some b → g a = k b) {l : List α} {l' : List β} (h : l.mapM f = some l') :
    l.map g = l'.map k := by
  induction l generalizing l' with
  | nil =>
    cases h
    rfl
  | cons a rest ih =>
    rw [List.mapM_cons] at h
    obtain ⟨b, hb, h⟩ := Option.bind_eq_some_iff.mp h
    obtain ⟨bs, hbs, h⟩ := Option.bind_eq_some_iff.mp h
    cases h
    rw [List.map_cons, List.map_cons, hk a b hb, ih hbs]

/-- The names of the attributes of a start are all different. -/
def Mark.IsDistinct : Mark → Prop
  | .start _ _ attributes => (attributes.map fun attr => (attr.1, attr.2.1)).Nodup
  | .finish => True

/-- **Names that are different in full are written differently.** -/
theorem nodup_of_readTag {outer declared : Bindings} {name : String}
    {attributes : List (String × String)} {mark : Mark}
    (h : readTag outer name attributes = some (declared, mark)) (hm : mark.IsDistinct) :
    (attributes.map Prod.fst).Nodup := by
  unfold readTag at h
  simp only [Option.bind_eq_bind, Option.bind_eq_some_iff, Option.ite_none_right_eq_some] at h
  obtain ⟨items, hitems, parts, -, uri, -, attrs, hattrs, hmay, hmark⟩ := h
  cases hmark
  let scope : Bindings := items.filterMap Item.declared? ++ outer
  have hattributes : ((items.filterMap Item.attribute?).map fun attr => (attr.1, attr.2.1)).Nodup := by
    let full (name : String × String) : Option (String × String) :=
      (scope.attributeUri? name.1).map fun uri => (uri, name.2)
    have hfull : (items.filterMap Item.attribute?).map (fun attr => full (attr.1, attr.2.1))
        = attrs.map fun attr => some (attr.1, attr.2.1) := by
      refine map_of_mapM (fun attr read hread => ?_) hattrs
      obtain ⟨uri, huri, rfl⟩ := Option.map_eq_some_iff.mp hread
      simp only [full, scope, huri, Option.map_some]
    have hsome := hm.map (fun _ _ => Option.some.inj)
    rw [List.map_map] at hsome
    refine List.Nodup.of_map full ?_
    rw [List.map_map]
    exact (congrArg List.Nodup hfull).mpr hsome
  have hlabels : (items.map Item.label).Nodup := nodup_label hmay.1 hattributes
  refine List.Nodup.of_map (fun name => (Item.read (name, "")).map Item.label) ?_
  have hread : attributes.map (fun attr => (Item.read (attr.1, "")).map Item.label)
      = items.map fun item => some item.label :=
    map_of_mapM (fun attr item hitem => Item.label_of_read hitem "") hitems
  have hsome := hlabels.map (fun _ _ => Option.some.inj)
  rw [List.map_map] at hsome ⊢
  exact (congrArg List.Nodup hread).mpr hsome

namespace Reading

variable {r r' : Reading}

/-- A piece that is read adds marks to those before. -/
theorem marks_subset_read {piece : Piece} (h : r.read piece = some r') : r.marks ⊆ r'.marks := by
  cases piece with
  | startTag name attributes =>
    obtain ⟨read, -, rfl⟩ := Option.map_eq_some_iff.mp h
    exact List.subset_append_left _ _
  | emptyTag name attributes =>
    obtain ⟨read, -, rfl⟩ := Option.map_eq_some_iff.mp h
    exact List.subset_append_left _ _
  | endTag name =>
    simp only [read] at h
    split at h
    · cases h
    · split at h
      · cases h
        exact List.subset_append_left _ _
      · cases h
  | _ =>
    cases h
    exact List.Subset.refl _

/-- The names in a tag are written differently, if those of the start that is read are different. -/
theorem nodup_of_read {piece : Piece} (h : r.read piece = some r')
    (hm : ∀ mark ∈ r'.marks, mark.IsDistinct) : (piece.attributes.map Prod.fst).Nodup := by
  cases piece with
  | startTag name attributes =>
    obtain ⟨read, hread, rfl⟩ := Option.map_eq_some_iff.mp h
    exact nodup_of_readTag hread (hm _ (by simp))
  | emptyTag name attributes =>
    obtain ⟨read, hread, rfl⟩ := Option.map_eq_some_iff.mp h
    exact nodup_of_readTag hread (hm _ (by simp))
  | _ => exact List.nodup_nil

theorem marks_subset_readAll {pieces : List Piece} (h : r.readAll pieces = some r') :
    r.marks ⊆ r'.marks := by
  induction pieces generalizing r with
  | nil =>
    cases h
    exact List.Subset.refl _
  | cons piece rest ih =>
    rw [readAll, List.foldlM_cons] at h
    obtain ⟨r₁, hread, hrest⟩ := Option.bind_eq_some_iff.mp h
    exact List.Subset.trans (marks_subset_read hread) (ih hrest)

/-- **Where the elements that are read have attributes of different names**, no name is written twice
in a tag. -/
theorem nodup_of_readAll {pieces : List Piece} (h : r.readAll pieces = some r')
    (hm : ∀ mark ∈ r'.marks, mark.IsDistinct) :
    ∀ piece ∈ pieces, (piece.attributes.map Prod.fst).Nodup := by
  induction pieces generalizing r with
  | nil => exact List.forall_mem_nil _
  | cons piece rest ih =>
    rw [readAll, List.foldlM_cons] at h
    obtain ⟨r₁, hread, hrest⟩ := Option.bind_eq_some_iff.mp h
    refine List.forall_mem_cons.mpr ⟨nodup_of_read hread fun mark hmark => ?_, ih hrest⟩
    exact hm mark (marks_subset_readAll hrest hmark)

end Reading

end Markup

/-! ## Starts that are reported -/

/-- In the tag of each element that is started, the names of the attributes are different. -/
def TagsDistinct (events : List Event) : Prop :=
  ∀ before uri name behind, events = before ++ .startElement uri name :: behind →
    (tagNames behind).Nodup

namespace TagsDistinct

variable {l l' : List Event}

theorem right (h : TagsDistinct (l ++ l')) : TagsDistinct l' := by
  rintro before uri name behind rfl
  exact h (l ++ before) uri name behind (List.append_assoc _ _ _).symm

theorem left (h : TagsDistinct (l ++ l')) : TagsDistinct l := by
  rintro before uri name behind rfl
  have hmore := h before uri name (behind ++ l') (by simp)
  have hfront : behind.takeWhile Event.isTagPart <+: (behind ++ l').takeWhile Event.isTagPart := by
    rw [List.takeWhile_append]
    split
    · exact (List.takeWhile_prefix _).trans (List.prefix_append _ _)
    · exact List.prefix_rfl
  exact hmore.sublist (hfront.sublist.filterMap _)

end TagsDistinct

namespace Markup

/-- What is reported adds marks to those before, and the starts among them have attributes of
different names. -/
def AddsDistinct (l : List Event) : Prop :=
  ∀ marks, ∃ new, (l.map Event.call).foldl report marks = marks ++ new
    ∧ ∀ mark ∈ new, mark.IsDistinct

theorem AddsDistinct.nil : AddsDistinct [] :=
  fun marks => ⟨[], (List.append_nil marks).symm, List.forall_mem_nil _⟩

theorem AddsDistinct.append {l l' : List Event} (h : AddsDistinct l) (h' : AddsDistinct l') :
    AddsDistinct (l ++ l') := by
  intro marks
  obtain ⟨new, hnew, hdistinct⟩ := h marks
  obtain ⟨new', hnew', hdistinct'⟩ := h' (marks ++ new)
  refine ⟨new ++ new', ?_, List.forall_mem_append.mpr ⟨hdistinct, hdistinct'⟩⟩
  rw [List.map_append, List.foldl_append, hnew, hnew', List.append_assoc]

/-- Nothing is added by events that start no element and end none, before the first start. -/
theorem addsDistinct_of_report {l : List Event} (h : ∀ e ∈ l, ∀ marks, report marks e.call = marks) :
    AddsDistinct l := by
  induction l with
  | nil => exact .nil
  | cons e rest ih =>
    obtain ⟨he, hrest⟩ := List.forall_mem_cons.mp h
    have hone : AddsDistinct [e] := fun marks => ⟨[], by simp [he], List.forall_mem_nil _⟩
    exact hone.append (ih hrest)

theorem addsDistinct_lead {l : List Event} (h : Event.IsLead l) : AddsDistinct l := by
  have hrequests {l : List Event} (h : ∀ e ∈ l, e.isRequest = true) : AddsDistinct l := by
    refine addsDistinct_of_report fun e he marks => ?_
    cases e with
    | declarePrefix uri pfx => rfl
    | _ => cases h _ he
  cases h with
  | requests h => exact hrequests h
  | comment h value =>
    refine (hrequests h).append (addsDistinct_of_report ?_)
    exact List.forall_mem_singleton.mpr fun _ => rfl

/-- A tag adds the start of its element, with the attributes of the tag. -/
theorem addsDistinct_tag {uri name : String} {tag : List Event}
    (htag : ∀ e ∈ tag, e.isTagPart = true)
    (hnodup : (tag.filterMap Event.attributeName?).Nodup) :
    AddsDistinct (.startElement uri name :: tag) := by
  intro marks
  have hstays : ∀ c ∈ tag.map Event.call, c.StaysInTag :=
    List.forall_mem_map.mpr fun e he => XmlWriter.staysInTag_of_isTagPart (htag e he)
  refine ⟨_, foldl_report_inTag hstays, List.forall_mem_singleton.mpr ?_⟩
  have hnames : ((tag.map Event.call).filterMap Call.attribute?).map
      (fun attr => (attr.1, attr.2.1)) = tag.filterMap Event.attributeName? := by
    rw [List.filterMap_map, List.map_filterMap]
    rfl
  rw [Mark.IsDistinct, List.nil_append, hnames]
  exact hnodup

theorem addsDistinct_end : AddsDistinct [.endElement] :=
  fun _ => ⟨[.finish], rfl, List.forall_mem_singleton.mpr trivial⟩

/-- By the grammar of elements: each start is added with its tag. -/
theorem addsDistinct_element {l : List Event} (h : Event.IsElement l) (hd : TagsDistinct l) :
    AddsDistinct l := by
  induction h using Event.IsElement.rec
    (motive_2 := fun l _ => TagsDistinct l → AddsDistinct l)
    (motive_3 := fun l _ => TagsDistinct l → AddsDistinct l) with
  | @element lead tag inside uri name hlead htag hinside ih =>
    have hstart := hd.right
    have hnodup := hstart [] uri name _ rfl
    rw [tagNames_append htag, hinside.tagNames, List.append_nil] at hnodup
    have hinner : TagsDistinct inside := by
      rw [← List.cons_append] at hstart
      exact hstart.right.left
    have htagged : AddsDistinct (.startElement uri name :: tag) := addsDistinct_tag htag hnodup
    exact (addsDistinct_lead hlead).append (htagged.append ((ih hinner).append addsDistinct_end))
  | text value => exact addsDistinct_of_report (List.forall_mem_singleton.mpr fun _ => rfl)
  | elements _ ih =>
    rename_i hd
    exact ih hd
  | nil => exact .nil
  | cons _ _ ih ih' =>
    rename_i hd
    exact (ih hd.left).append (ih' hd.right)

/-- **In a document whose tags have no name twice**, the starts that are reported have attributes of
different names. -/
theorem isDistinct_marksOf {root : QName} {events : List Event} (h : Event.IsDocument root events)
    (hd : TagsDistinct events) : ∀ mark ∈ marksOf (events.map Event.call), mark.IsDistinct := by
  obtain @⟨declarations, element, hdeclarations, helement⟩ := h
  have hlead : AddsDistinct (.startDocument :: declarations) := by
    refine addsDistinct_of_report (List.forall_mem_cons.mpr ⟨fun _ => rfl, ?_⟩)
    cases hdeclarations with
    | bare _ pfx => exact List.forall_mem_singleton.mpr fun _ => rfl
    | qualified _ pfx pfx' =>
      exact List.forall_mem_cons.mpr ⟨fun _ => rfl, List.forall_mem_singleton.mpr fun _ => rfl⟩
  have hend : AddsDistinct [.endDocument] := fun marks =>
    ⟨_, rfl, fun mark hmark => by rw [List.eq_of_mem_replicate hmark]; trivial⟩
  have hinner : TagsDistinct element := by
    rw [← List.cons_append] at hd
    exact hd.right.left
  obtain ⟨new, hnew, hdistinct⟩ :=
    (hlead.append ((addsDistinct_element helement hinner).append hend)) []
  have hmarks : marksOf ((.startDocument :: (declarations ++ (element ++ [.endDocument]))).map
      Event.call) = new := hnew
  rw [hmarks]
  exact hdistinct

end Markup

/-! ## Documents -/

/-- The complex type, if the part is one. -/
def Part.complex? : Part → Option ComplexType
  | .type complex => some complex
  | _ => none

namespace Document

variable {σ : Type} [Source σ]

/-- Every element that is started in the steps stays apart from the names that are written
besides. -/
def EachApart (w : Leaf.Setting) (st : List (Step (Supply σ))) : Prop :=
  ∀ before uri name s answer behind,
    st = before ++ .made (.startElement uri name) s answer :: behind → StartsApart w before

theorem tagsDistinct_of_eachApart {ω : Type} [Writer ω] {w : Leaf.Setting} {root : QName}
    {source : σ} {writer : ω} (hm : w.model.Built) (hp : w.model.HasProperNames)
    (hok : (generate w root source writer).result = .ok ())
    (hapart : EachApart w (steps w root source writer)) :
    TagsDistinct (eventsOf (steps w root source writer)) := by
  intro before uri name behind heq
  obtain ⟨st₁, c, s, answer, st₂, hst, -, hevent, rfl⟩ := exists_made_of_eventsOf heq
  obtain rfl : c = .startElement uri name := by rw [← Call.call_event c answer, hevent, Event.call]
  exact nodup_tagNames hm hp hok hst (hapart _ _ _ _ _ _ hst)

/-- All names that may be written besides those of the attributes in effect. -/
def besides (own : Option Wildcard) : List (String × String) :=
  (Namespace.xsi, "type") :: own.toList.flatMap fun wildcard =>
    wildcard.namespaces.written.map fun uri => (uri, wildcardAttribute)

theorem WrittenBesides.mem {declared : TypeDef} {own : Option Wildcard} {name : String × String}
    (h : WrittenBesides declared own name) : name ∈ besides own := by
  cases h with
  | marker _ => exact List.mem_cons_self
  | wildcard h hu =>
    subst h
    exact List.mem_cons_of_mem _ (List.mem_flatMap.mpr
      ⟨_, List.mem_singleton_self _, List.mem_map_of_mem hu⟩)

/-- No complex type of a schema has an attribute in effect with a name that is written besides. -/
def KeepsApart (m : Model) : Prop :=
  ∀ type ∈ m.parts.filterMap Part.complex?, ∀ attrs ∈ (m.attributesOf type).toOption,
    ∀ own ∈ (m.wildcardOf type).toOption, ∀ attr ∈ attrs, attr.name.pair ∉ besides own

instance (m : Model) : Decidable (KeepsApart m) :=
  inferInstanceAs (Decidable (∀ type ∈ m.parts.filterMap Part.complex?, _))

omit [Source σ] in
/-- Where no type has such an attribute, every element stays apart. -/
theorem eachApart_of_keepsApart {w : Leaf.Setting} (hk : KeepsApart w.model)
    (st : List (Step (Supply σ))) : EachApart w st := by
  rintro _ uri name s answer behind - outer decl type rfl ht declared - attrs own hattrs hown attr
    hattr hbesides
  have htype : type ∈ w.model.parts.filterMap Part.complex? := List.mem_filterMap.mpr ⟨_, ht, rfl⟩
  exact hk type htype attrs (by rw [hattrs]; rfl) own (by rw [hown]; rfl) attr hattr hbesides.mem

/-- The text of a whole document is read as the elements that were reported. -/
theorem readAll_of_document {root : QName} {events : List Event} {sink : Sink} {indent : Nat}
    {w' : XmlWriter} (h : Event.IsDocument root events)
    (accepted : performAll (events.map Event.call) { sink, indent } = (.ok (), w'))
    (plain : ∀ c ∈ events.map Event.call, c.IsPlain)
    (noDefault : ∀ c ∈ events.map Event.call, ¬c.DeclaresDefault) :
    ∃ r, ({} : Reading).readAll (XmlWriter.piecesOf (events.map Event.call) { sink, indent }) = some r
      ∧ r.marks = marksOf (events.map Event.call) := by
  obtain ⟨r, hreads, m⟩ := (XmlWriter.Mirrors.start sink indent).performAll plain noDefault accepted
  -- The end of the document comes last, and with it every tag has been put.
  obtain ⟨before, rfl⟩ := h.exists_append
  rw [List.map_append] at accepted
  exact ⟨r, hreads.readAll_eq, (m.marks_eq (XmlWriter.held_endDocument accepted)).symm⟩

/-- A schema whose root has an abstract type. The type in its place has attributes of these names, all
with a fixed value, and a wildcard for attributes in no namespace. -/
def naming (names : List QName) : Leaf.Setting :=
  let use (name : QName) : AttributeItem :=
    .use ⟨.required, .fixed "v", .inline ⟨name, .builtin "string", .free⟩⟩
  let base : ComplexType := ⟨some (.bare "Base"), true, .empty, [], none, none⟩
  let sub : ComplexType := ⟨some (.bare "T"), false, .empty, names.map use,
    some ⟨0, .among [""]⟩, some ⟨.extension, .bare "Base"⟩⟩
  let root : ElementDecl := ⟨0, .bare "a", .named (.bare "Base"), .global, false, none⟩
  { model := ((Model.builtin.addNamedType (.bare "Base") (.complex base)).addNamedType (.bare "T")
      (.complex sub)).addElement root
    policy := { fixedAttributes := .always }
    now := default }

theorem built_naming (names : List QName) : (naming names).model.Built := by
  dsimp only [naming]
  exact ((Model.built_builtin.type _ _).type _ _).element _

/-- The root of the schema receives attributes of these names, in the list of events and in the
text. -/
def RootReceives (w : Leaf.Setting) (names : List (String × String)) (attributes : String) : Prop :=
  let source : Scripted := ⟨[], 0⟩
  let events := eventsOf (steps w (.bare "a") source ({} : Recorder))
  let xml := generate w (.bare "a") source ({} : XmlWriter)
  (generate w (.bare "a") source ({} : Recorder)).result = .ok ()
    ∧ (events = [.startDocument, .declarePrefix Namespace.xsi "xsi"]
        ++ .startElement "" "a" :: events.drop 3 ∧ tagNames (events.drop 3) = names)
    ∧ xml.result = .ok () ∧ xml.writer.text = Markup.declaration
      ++ "<a xmlns:xsi=\"http://www.w3.org/2001/XMLSchema-instance\"" ++ attributes ++ "/>\n"

instance (w : Leaf.Setting) (names : List (String × String)) (attributes : String) :
    Decidable (RootReceives w names attributes) :=
  inferInstanceAs (Decidable (_ ∧ _ ∧ _ ∧ _))

end Document

end Specimen

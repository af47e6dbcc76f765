import Specimen.Proofs.Following
import Specimen.Proofs.Unplaced

/-!
# Documents that are adopted

A document without a target namespace takes that of the document which includes it. Here this is
compared with a document that says the same and has this target namespace of its own, as the
namespace of names without a prefix too: both declare the same components and refer to the same
documents, so the schema does not depend on which of them is included.

The schema language has its own namespace, which its elements may not be moved into; and the
namespaces of `xml` and `xmlns` cannot be declared for names without a prefix, so there is no such
document for them.
-/

namespace Specimen

/-! ## The document that says it -/

namespace Xml

/-- The attributes that make a namespace the target namespace of a schema document and the namespace
of names without a prefix in it. -/
def adoption (uri : String) : List Attribute :=
  [⟨none, "targetNamespace", uri⟩, ⟨none, "xmlns", uri⟩]

/-- The attribute declares the namespace of names without a prefix. -/
def Attribute.declaresDefault (a : Attribute) : Bool := a.binding?.any fun b => b.pfx.isNone

/-- The element `root'` is `root` with two attributes more, wherever among the others, which make
`uri` the target namespace and the namespace of names without a prefix. -/
structure Element.Adopts (uri : String) (root root' : Element) : Prop where
  pfx : root.pfx = root'.pfx
  localName : root.localName = root'.localName
  given : ∀ a ∈ adoption uri, a ∈ root'.attributes
  others : root'.attributes.filter (fun a => !(adoption uri).contains a) = root.attributes
  children : unplacedAll root.children = unplacedAll root'.children

/-- The element says nothing about the target namespace nor about that of names without a prefix. -/
structure Element.IsPlain (root : Element) : Prop where
  target : root.attr? "targetNamespace" = none
  default : ∀ a ∈ root.attributes, a.declaresDefault = false

namespace Element.Adopts

variable {uri : String} {root root' : Element} {q : Attribute → Bool}

theorem find?_of_others (h : root.Adopts uri root') (hq : ∀ a ∈ adoption uri, q a = false) :
    root'.attributes.find? q = root.attributes.find? q := by
  rw [← h.others, List.find?_filter]
  congr 1
  funext a
  rw [Bool.decide_and, Bool.decide_eq_true, Bool.decide_eq_true]
  cases ha : q a with
  | false => rw [Bool.and_false]
  | true =>
    have hmem : a ∉ adoption uri := fun hmem => by
      rw [hq a hmem] at ha
      cases ha
    rw [Bool.and_true, List.contains_eq_mem, decide_eq_false hmem, Bool.not_false]

theorem find?_of_given (h : root.Adopts uri root') {b : Attribute} (hb : b ∈ adoption uri)
    (hqb : q b = true) (hgiven : ∀ a ∈ adoption uri, q a = true → a = b)
    (hothers : ∀ a ∈ root.attributes, q a = false) : root'.attributes.find? q = some b := by
  cases hfound : root'.attributes.find? q with
  | none => exact absurd hqb (List.find?_eq_none.mp hfound b (h.given b hb))
  | some a =>
    have hqa : q a = true := List.find?_some hfound
    by_cases hmem : a ∈ adoption uri
    · rw [hgiven a hmem hqa]
    · have : a ∈ root.attributes := by
        rw [← h.others, List.mem_filter]
        refine ⟨List.mem_of_find?_eq_some hfound, ?_⟩
        rw [List.contains_eq_mem, decide_eq_false hmem, Bool.not_false]
      rw [hothers a this] at hqa
      cases hqa

theorem attr?_of_ne (h : root.Adopts uri root') {name : String} (htarget : name ≠ "targetNamespace")
    (hxmlns : name ≠ "xmlns") : root'.attr? name = root.attr? name := by
  unfold Element.attr?
  rw [h.find?_of_others fun a ha => ?_]
  rcases List.mem_pair.mp ha with rfl | rfl
  · exact beq_false_of_ne htarget.symm
  · exact beq_false_of_ne hxmlns.symm

theorem attr?_targetNamespace (h : root.Adopts uri root') (hplain : root.IsPlain) :
    root'.attr? "targetNamespace" = some uri := by
  unfold Element.attr?
  rw [h.find?_of_given (b := ⟨none, "targetNamespace", uri⟩) List.mem_cons_self rfl]
  · rfl
  · intro a ha hqa
    rcases List.mem_pair.mp ha with rfl | rfl
    · rfl
    · cases hqa
  · have := hplain.target
    unfold Element.attr? at this
    exact fun a ha => Bool.eq_false_iff.mpr
      (List.find?_eq_none.mp (Option.map_eq_none_iff.mp this) a ha)

end Element.Adopts

/-- The attribute declares what a prefix, or its absence, stands for. -/
def Attribute.binds (pfx : Option String) (a : Attribute) : Bool :=
  a.binding?.any fun b => b.pfx != some "xml" && b.pfx == pfx

/-- What a prefix stands for inside an element, going by its own attributes. -/
theorem uri?_bindingsOf (attributes : List Attribute) (pfx : Option String) :
    Scope.uri? (bindingsOf attributes) pfx
      = ((attributes.find? (Attribute.binds pfx)).bind Attribute.binding?).map Binding.uri := by
  rw [Scope.uri?, bindingsOf, List.find?_filter, List.find?_filterMap]
  simp only [Bool.decide_and, Bool.decide_eq_true]
  rfl

theorem Attribute.binds_none_eq_false {a : Attribute} (h : a.declaresDefault = false) :
    a.binds none = false := by
  unfold declaresDefault at h
  unfold binds
  cases hb : a.binding? with
  | none => rfl
  | some b =>
    rw [hb, Option.any_some] at h
    rw [Option.any_some]
    cases hpfx : b.pfx with
    | none =>
      rw [hpfx] at h
      cases h
    | some pfx => exact Bool.and_false _

/-- Names without a prefix are in the namespace that is added, and all others where they were. -/
theorem Element.Adopts.isInside {uri : String} {root root' : Element} (h : root.Adopts uri root')
    (hplain : root.IsPlain) :
    (Scope.enter [] root.attributes).IsInside (some uri) (Scope.enter [] root'.attributes) := by
  intro pfx
  rw [Scope.enter, Scope.enter, List.append_nil, List.append_nil, uri?_bindingsOf,
    uri?_bindingsOf]
  cases pfx with
  | some pfx =>
    rw [if_neg (Option.some_ne_none pfx), Option.or_none, h.find?_of_others fun a ha => ?_]
    rcases List.mem_pair.mp ha with rfl | rfl <;> rfl
  | none =>
    have hothers : ∀ a ∈ root.attributes, a.binds none = false := fun a ha =>
      Attribute.binds_none_eq_false (hplain.default a ha)
    have hnone : root.attributes.find? (Attribute.binds none) = none :=
      List.find?_eq_none.mpr fun a ha => Bool.eq_false_iff.mp (hothers a ha)
    rw [if_pos rfl, hnone, h.find?_of_given (b := ⟨none, "xmlns", uri⟩)
      (List.mem_cons_of_mem _ List.mem_cons_self) rfl ?_ hothers]
    · rfl
    · intro a ha hqa
      rcases List.mem_pair.mp ha with rfl | rfl
      · cases hqa
      · rfl

end Xml

/-! ## What is read from it -/

namespace SchemaTag

/-- An attribute of a tag is the one that is written with this name and without a prefix. -/
theorem attr?_ofElement (σ : Xml.Scope) (e : Xml.Element) {name : String} (h : name ≠ "xmlns") :
    (ofElement σ e).attr? name = e.attr? name := by
  unfold attr? ofElement Xml.Element.attr? Xml.plainOf
  dsimp only
  induction e.attributes with
  | nil => rfl
  | cons a rest ih =>
    -- A tag keeps all attributes but the bindings, so an attribute with this name is kept.
    by_cases ha : (a.pfx.isNone && a.localName == name) = true
    · obtain ⟨hpfx, hname⟩ := Bool.and_eq_true_iff.mp ha
      rw [beq_iff_eq] at hname
      have hbinding : a.binding? = none := by
        rw [Xml.Attribute.binding?, Option.isNone_iff_eq_none.mp hpfx, if_neg nofun,
          if_neg (hname ▸ h)]
      rw [List.find?_cons, ha, List.filter_cons_of_pos (by rw [hbinding]; rfl),
        List.filter_cons, hpfx]
      exact hname ▸ List.lookup_cons_self
    · -- Any other attribute is passed over on both sides, whether it is kept or not.
      rw [List.find?_cons, Bool.eq_false_iff.mpr ha, List.filter_cons]
      dsimp only
      rw [← ih]
      split
      · rw [List.filter_cons]
        split
        · next hpfx =>
          have hne : name ≠ a.localName := fun heq =>
            ha (by rw [hpfx, heq, BEq.rfl, Bool.and_true])
          rw [List.map_cons, List.lookup_cons, beq_false_of_ne hne]
        · rfl
      · rfl

end SchemaTag

namespace SchemaDocument

/-! ## What is read from it -/

section

variable {uri : String} {tag tag' : SchemaTag} (huri : uri ≠ "")
  (htag : tag.attr? "targetNamespace" = none) (htag' : tag'.attr? "targetNamespace" = some uri)
  {offered : Option String} {place place' : Nat → String}

include huri htag htag'

/-- The document that has the namespace and the one to which it is offered treat local names alike,
if they say the same about them. -/
theorem corresponds_setting
    (helement : tag.attr? "elementFormDefault" = tag'.attr? "elementFormDefault")
    (hattribute : tag.attr? "attributeFormDefault" = tag'.attr? "attributeFormDefault") :
    (setting tag (some uri) place).Corresponds True (setting tag' offered place') := by
  unfold setting
  rw [htag, htag', Option.filter_some, if_pos (decide_eq_true huri), helement, hattribute]
  exact ⟨rfl, rfl, .of_eq rfl⟩

omit huri htag' in
/-- In a document to which a namespace is offered, names without a prefix are in this namespace. -/
theorem unprefixed_setting (name : String) :
    (setting tag (some uri) place).unprefixed name = QName.qualified uri name := by
  unfold setting
  rw [htag]
  rfl

end

variable {uri : String} {root root' : Xml.Element} {text text' : String} {address : Option Address}

/-- **A document is read as if it had the target namespace that is offered to it.** -/
theorem read_adopted (hroot : Xml.readTree text = some root)
    (hroot' : Xml.readTree text' = some root') (hplain : root.IsPlain) (h : root.Adopts uri root')
    (huri : uri ≠ "") (hxsd : uri ≠ Namespace.xsd) (offered : Option String)
    {document : SchemaDocument} (hread : read address (some uri) text = .ok document) :
    read address offered text' = .ok document := by
  rw [read_eq hroot] at hread
  rw [read_eq hroot']
  have hinside := h.isInside hplain
  have hne : some uri ≠ some Namespace.xsd := fun heq => hxsd (Option.some.inj heq)
  -- The root is an element of the schema language, or the document would not be read.
  have hxsdRoot : (Xml.Scope.enter [] root.attributes).uri? root.pfx = some Namespace.xsd := by
    obtain ⟨node, hnode, -⟩ := exists_schema_of_ofTree hread
    rw [SchemaNode.ofElement?_eq] at hnode
    split at hnode
    · assumption
    · cases hnode
  have hnode := SchemaNode.ofElement?_eq [] root
  have hnode' := SchemaNode.ofElement?_eq [] root'
  rw [if_pos hxsdRoot] at hnode
  rw [← h.pfx, if_pos ((hinside.uri?_eq_iff hne root.pfx).mpr hxsdRoot)] at hnode'
  generalize htag : SchemaTag.ofElement (Xml.Scope.enter [] root.attributes) root = tag at hnode
  generalize htag' : SchemaTag.ofElement (Xml.Scope.enter [] root'.attributes) root' = tag'
    at hnode'
  -- But for the target namespace, the two tags have the same attributes.
  have hattr {name : String} (hx : name ≠ "xmlns") :
      tag.attr? name = root.attr? name ∧ tag'.attr? name = root'.attr? name := by
    rw [← htag, ← htag']
    exact ⟨SchemaTag.attr?_ofElement _ _ hx, SchemaTag.attr?_ofElement _ _ hx⟩
  have hsame {name : String} (ht : name ≠ "targetNamespace") (hx : name ≠ "xmlns") :
      tag.attr? name = tag'.attr? name := by
    rw [(hattr hx).1, (hattr hx).2, h.attr?_of_ne ht hx]
  have hown : tag.attr? "targetNamespace" = none := by
    rw [(hattr (by decide)).1, hplain.target]
  have hown' : tag'.attr? "targetNamespace" = some uri := by
    rw [(hattr (by decide)).2, h.attr?_targetNamespace hplain]
  have hs : (setting tag (some uri) (SchemaDocument.place address text)).Corresponds True
      (setting tag' offered (SchemaDocument.place address text')) :=
    corresponds_setting huri hown hown' (hsame (by decide) (by decide))
      (hsame (by decide) (by decide))
  have hname : tag.name = tag'.name := by
    rw [← htag, ← htag']
    exact h.localName
  obtain ⟨document', hdocument', heq⟩ := (agree_ofTree hnode hnode' hname hs
    (SchemaNode.allCorrespond_ofNodes hne (fun _ => .of_eq (unprefixed_setting hown _)) _ _ _ _
      hinside h.children) (.of_eq rfl)).exists_ok hread
  rw [hdocument', heq trivial]

end SchemaDocument

/-! ## What is registered -/

namespace Loading

variable {fs : Files} {l : Loading} {link : Link} {rest : List Link} {name : FileName}
  {text text' uri : String} {root root' : Xml.Element}

/-- **To include a document without a target namespace is to include one that has the target
namespace of the including document.** -/
theorem follow_adopted (hread : fs.read link.address = .ok (name, text))
    (hroot : Xml.readTree text = some root) (hplain : root.IsPlain)
    (hroot' : Xml.readTree text' = some root') (h : root.Adopts uri root')
    (huri : uri ≠ "") (hxsd : uri ≠ Namespace.xsd) (htarget : link.target = some uri)
    {address : Option Address} {offered : Option String} {document : SchemaDocument}
    (hloads : SchemaDocument.read address offered text = .ok document) :
    (∃ adopted, SchemaDocument.read (some link.address) link.target text = .ok adopted
      ∧ SchemaDocument.read (some link.address) link.target text' = .ok adopted)
    ∧ follow (fs.withText name text') l (link :: rest) = follow fs l (link :: rest) := by
  have hfile : (fs.files.lookup name).isSome := by rw [Files.lookup_of_read hread]; rfl
  obtain ⟨adopted, hadopted⟩ := SchemaDocument.exists_read hloads (some link.address) link.target
  have hadopted' : SchemaDocument.read (some link.address) link.target text' = .ok adopted :=
    SchemaDocument.read_adopted hroot hroot' hplain h huri hxsd _ (htarget ▸ hadopted)
  refine ⟨⟨adopted, hadopted, hadopted'⟩, ?_⟩
  -- A document that has been read already is not read again. Otherwise it counts as read from here
  -- on, so its text is not looked at behind it.
  by_cases hknown : name ∈ l.read
  · exact follow_withText hfile hknown _
  · have hread' : (fs.withText name text').read link.address = .ok (name, text') := by
      rw [Files.read_withText hfile text', hread]
      exact congrArg Except.ok (congrArg (Prod.mk name) (if_pos rfl))
    rw [follow_taken hread hknown hadopted, follow_taken hread' hknown hadopted']
    refine follow_withText hfile ?_ _
    rw [read_enter]
    exact List.mem_append_right _ List.mem_cons_self

/-- A document without a target namespace, with what is to be added to its root tag. -/
def adoptable (added : String) : String :=
  "<x:schema xmlns:x='http://www.w3.org/2001/XMLSchema'" ++ added
    ++ "><x:element name='a' type='b'/></x:schema>"

/-- The root of this document, with the attributes that are added and the place of the element. -/
def adoptableRoot (added : List Xml.Attribute) (offset : Nat) : Xml.Element :=
  ⟨0, some "x", "schema", ⟨some "xmlns", "x", Namespace.xsd⟩ :: added,
    [.element ⟨offset, some "x", "element", [⟨none, "name", "a"⟩, ⟨none, "type", "b"⟩], []⟩]⟩

theorem readTree_adoptable : Xml.readTree (adoptable "") = some (adoptableRoot [] 53) := by
  have hchars : (adoptable "").toList = _ := Xml.toList_append_eq
    (Xml.toList_append_eq String.toList_ofList String.toList_ofList) String.toList_ofList
  rw [Xml.readTree, hchars]
  decide +kernel

theorem follow_adopted_element :
    let fs : Files := { files := [(["d"], adoptable "")] }
    let link : Link := ⟨⟨"d"⟩, some "urn:t"⟩
    let text' := adoptable " targetNamespace='urn:t' xmlns='urn:t'"
    Xml.readTree (adoptable "") = some (adoptableRoot [] 53)
    ∧ Xml.readTree text' = some (adoptableRoot (Xml.adoption "urn:t") 91)
    ∧ (∃ adopted, SchemaDocument.read (some link.address) link.target (adoptable "") = .ok adopted
      ∧ SchemaDocument.read (some link.address) link.target text' = .ok adopted)
    ∧ follow (fs.withText ["d"] text') {} [link] = follow fs {} [link] := by
  have hroot := readTree_adoptable
  have hroot' : Xml.readTree (adoptable " targetNamespace='urn:t' xmlns='urn:t'")
      = some (adoptableRoot (Xml.adoption "urn:t") 91) := by
    have hchars : (adoptable " targetNamespace='urn:t' xmlns='urn:t'").toList = _ :=
      Xml.toList_append_eq (Xml.toList_append_eq String.toList_ofList String.toList_ofList)
        String.toList_ofList
    rw [Xml.readTree, hchars]
    decide +kernel
  have hplain : (adoptableRoot [] 53).IsPlain := ⟨by decide, by decide⟩
  have hadopts : (adoptableRoot [] 53).Adopts "urn:t" (adoptableRoot (Xml.adoption "urn:t") 91) :=
    ⟨rfl, rfl, by decide, by decide, rfl⟩
  obtain ⟨document, hloads⟩ : ∃ document,
      SchemaDocument.read none none (adoptable "") = .ok document := by
    rw [SchemaDocument.read_eq hroot]
    exact ⟨_, rfl⟩
  exact ⟨hroot, hroot', follow_adopted (by decide +kernel) hroot hplain hroot' hadopts (by decide)
    (by decide) rfl hloads⟩

/-- The namespace of `xml` cannot be declared for names without a prefix. A document that is
included from one with this target namespace is adopted, but there is none that says the same. -/
theorem not_follow_adopted_xml :
    let fs : Files := { files := [(["d"], adoptable "")] }
    let link : Link := ⟨⟨"d"⟩, some Namespace.xml⟩
    let text' := adoptable
      (" targetNamespace='" ++ Namespace.xml ++ "' xmlns='" ++ Namespace.xml ++ "'")
    Xml.readTree (adoptable "") = some (adoptableRoot [] 53) ∧ (adoptableRoot [] 53).IsPlain
    ∧ (∃ l, follow fs {} [link] = .ok l
      ∧ (l.model.elements.get? ⟨some Namespace.xml, "a"⟩).isSome)
    ∧ follow (fs.withText ["d"] text') {} [link]
      = .error (.parse ⟨.malformed, some "d", none⟩) := by
  have hroot := readTree_adoptable
  have hnew : ["d"] ∉ ({} : Loading).read := List.not_mem_nil
  refine ⟨hroot, ⟨by decide, by decide⟩, ?_, ?_⟩
  · obtain ⟨document, decl, hread, hlinks, hdeclarations, hname⟩ : ∃ document decl,
        SchemaDocument.read (some ⟨"d"⟩) (some Namespace.xml) (adoptable "") = .ok document
        ∧ document.links = [] ∧ document.declarations = [.element decl false]
        ∧ decl.name = ⟨some Namespace.xml, "a"⟩ := by
      rw [SchemaDocument.read_eq hroot]
      exact ⟨_, _, rfl, rfl, rfl, rfl⟩
    have hfound : ({ files := [(["d"], adoptable "")] } : Files).read ⟨"d"⟩
        = .ok (["d"], adoptable "") := by decide +kernel
    have htaken : follow { files := [(["d"], adoptable "")] } {} [⟨⟨"d"⟩, some Namespace.xml⟩]
        = _ := follow_taken hfound hnew hread
    rw [hlinks, List.append_nil, follow_nil] at htaken
    refine ⟨_, htaken, ?_⟩
    rw [(elements_enter hdeclarations _).1, hname, Table.get?_insert, if_pos rfl]
    rfl
  · have hnone : Xml.readTree (adoptable
        (" targetNamespace='" ++ Namespace.xml ++ "' xmlns='" ++ Namespace.xml ++ "'")) = none := by
      have hxml : Namespace.xml.toList = _ := String.toList_ofList
      have hadded : (" targetNamespace='" ++ Namespace.xml ++ "' xmlns='" ++ Namespace.xml
          ++ "'").toList = _ :=
        Xml.toList_append_eq (Xml.toList_append_eq (Xml.toList_append_eq
          (Xml.toList_append_eq String.toList_ofList hxml) String.toList_ofList) hxml)
          String.toList_ofList
      have hchars : (adoptable (" targetNamespace='" ++ Namespace.xml ++ "' xmlns='"
          ++ Namespace.xml ++ "'")).toList = _ :=
        Xml.toList_append_eq (Xml.toList_append_eq String.toList_ofList hadded) String.toList_ofList
      rw [Xml.readTree, hchars]
      decide +kernel
    have hrejected : SchemaDocument.read (some ⟨"d"⟩) (some Namespace.xml) (adoptable
        (" targetNamespace='" ++ Namespace.xml ++ "' xmlns='" ++ Namespace.xml ++ "'"))
        = .error (.parse ⟨.malformed, some "d", none⟩) := by
      rw [SchemaDocument.read, hnone]
      rfl
    exact follow_rejected (by decide +kernel) hnew hrejected

end Loading

end Specimen

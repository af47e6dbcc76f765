import Specimen.Proofs.Entering
import Specimen.Proofs.Reachability
import Specimen.Proofs.Unplaced

/-!
# The order of declarations

What a schema says does not depend on the order of the elements in the root of its document, as long
as the references to other documents keep theirs and no two declarations have the same name.
-/

namespace Specimen

/-! ## Documents with the same elements -/

namespace Xml

mutual

theorem Element.unplaced_unplaced : ∀ e : Element, e.unplaced.unplaced = e.unplaced
  | ⟨_, pfx, localName, attributes, children⟩ =>
    congrArg (Element.mk 0 pfx localName attributes) (unplacedAll_unplacedAll children)

theorem unplacedAll_unplacedAll : ∀ nodes : List Node,
    unplacedAll (unplacedAll nodes) = unplacedAll nodes
  | [] => rfl
  | node :: rest => congrArg₂ List.cons node.unplaced_unplaced (unplacedAll_unplacedAll rest)

theorem Node.unplaced_unplaced : ∀ node : Node, node.unplaced.unplaced = node.unplaced
  | .element e => congrArg Node.element e.unplaced_unplaced
  | .text _ => rfl

end

end Xml

/-- The element refers to another document. -/
def SchemaTag.refers (tag : SchemaTag) : Bool :=
  tag.name = "include" || tag.name = "redefine" || tag.name = "import"

namespace Xml

/-- The elements in the root that refer to other documents, in their order and without places. -/
def Element.references (root : Element) : List Element :=
  (root.elements.map Element.unplaced).filter fun e =>
    (SchemaNode.ofElement? (Scope.enter [] root.attributes) e).any fun node => node.tag.refers

/-- Two roots have the same tag and the same elements in them, in any order but for those that refer
to other documents. -/
structure Element.Rearranges (root root' : Element) : Prop where
  pfx : root.pfx = root'.pfx
  localName : root.localName = root'.localName
  attributes : root.attributes = root'.attributes
  elements : (root.elements.map Element.unplaced).Perm (root'.elements.map Element.unplaced)
  references : root.references = root'.references

end Xml

theorem SchemaNode.ofNodes_eq (σ : Xml.Scope) (nodes : List Xml.Node) :
    SchemaNode.ofNodes σ nodes
      = (nodes.filterMap Xml.Node.asElement).filterMap (SchemaNode.ofElement? σ) := by
  induction nodes with
  | nil => rfl
  | cons node rest ih =>
    rw [SchemaNode.ofNodes, ih]
    cases node with
    | text _ => rfl
    | element e =>
      change _ = (e :: rest.filterMap Xml.Node.asElement).filterMap (SchemaNode.ofElement? σ)
      rw [SchemaNode.ofNode?, List.filterMap_cons]
      cases SchemaNode.ofElement? σ e <;> rfl

theorem Agree.toOption_eq {α : Type} {x y : Except Error α} (h : SucceedAlike (SameIf True) x y) :
    x.toOption = y.toOption := by
  cases h with
  | ok h => exact congrArg some (h trivial)
  | error _ => rfl

/-! ## What an element contributes -/

namespace DocumentSetting

/-- What an element declares, if it can be read. -/
def declaration? (s : DocumentSetting) (σ : Xml.Scope) (e : Xml.Element) : Option Declaration :=
  (SchemaNode.ofElement? σ e).bind fun node => (readDeclaration s node).toOption.join

/-- The document that an element refers to. -/
def linkOf? (s : DocumentSetting) (address : Option Address) (σ : Xml.Scope) (e : Xml.Element) :
    Option Link :=
  (SchemaNode.ofElement? σ e).bind fun node => SchemaDocument.link? s address node.tag

variable {s s' : DocumentSetting}

/-- Two settings are the same but for places. -/
structure SameButPlaces (s s' : DocumentSetting) : Prop where
  corresponds : s.Corresponds True s'
  isAdopted : s.isAdopted = s'.isAdopted

theorem SameButPlaces.unprefixed (h : s.SameButPlaces s') (name : String) :
    s.unprefixed name = s'.unprefixed name := by
  unfold DocumentSetting.unprefixed
  rw [h.isAdopted, same_qname h.corresponds name trivial]

/-- Where an element is does not matter. -/
theorem SameButPlaces.rel (h : s.SameButPlaces s') (σ : Xml.Scope) (e : Xml.Element) :
    Option.Rel (SchemaNode.Corresponds True s s') (SchemaNode.ofElement? σ e)
      (SchemaNode.ofElement? σ e.unplaced) := by
  have hxsd : (none : Option String) ≠ some Namespace.xsd := nofun
  exact SchemaNode.rel_ofElement? hxsd (fun name => .of_eq (h.unprefixed name)) σ σ e e.unplaced
    σ.isInside_none e.unplaced_unplaced.symm

theorem SameButPlaces.declaration? (h : s.SameButPlaces s') (σ : Xml.Scope) (e : Xml.Element) :
    s.declaration? σ e = s'.declaration? σ e.unplaced := by
  have hrel := h.rel σ e
  unfold DocumentSetting.declaration?
  generalize SchemaNode.ofElement? σ e = node at hrel
  generalize SchemaNode.ofElement? σ e.unplaced = node' at hrel
  cases hrel with
  | none => rfl
  | some hnode =>
    rw [Option.bind_some, Option.bind_some,
      (agree_readDeclaration h.corresponds hnode).toOption_eq]

theorem SameButPlaces.linkOf? (h : s.SameButPlaces s') (address : Option Address)
    (σ : Xml.Scope) (e : Xml.Element) :
    s.linkOf? address σ e = s'.linkOf? address σ e.unplaced := by
  have hrel := h.rel σ e
  unfold DocumentSetting.linkOf?
  generalize SchemaNode.ofElement? σ e = node at hrel
  generalize SchemaNode.ofElement? σ e.unplaced = node' at hrel
  cases hrel with
  | none => rfl
  | some hnode =>
    rw [Option.bind_some, Option.bind_some, SchemaDocument.link?, SchemaDocument.link?,
      hnode.tag.name, hnode.tag.attr?, h.corresponds.target trivial]

end DocumentSetting

namespace SchemaDocument

theorem readAll_eq {s : DocumentSetting} {nodes : List SchemaNode} {declarations : List Declaration}
    (h : readAll s nodes = .ok declarations) :
    declarations = nodes.filterMap fun node => (readDeclaration s node).toOption.join := by
  induction nodes generalizing declarations with
  | nil =>
    cases h
    rfl
  | cons node rest ih =>
    rw [readAll] at h
    obtain ⟨declaration, hread, h⟩ := exists_of_bind_eq_ok h
    obtain ⟨others, hrest, h⟩ := exists_of_bind_eq_ok h
    cases h
    rw [List.filterMap_cons, hread, ← ih hrest]
    cases declaration <;> rfl

/-- Only what refers to another document makes a reference. -/
theorem filterMap_linkOf?_filter (s : DocumentSetting) (address : Option Address) (σ : Xml.Scope)
    (elements : List Xml.Element) :
    (elements.filter fun e => (SchemaNode.ofElement? σ e).any fun node => node.tag.refers).filterMap
        (s.linkOf? address σ)
      = elements.filterMap (s.linkOf? address σ) := by
  rw [List.filterMap_filter]
  refine congrArg (List.filterMap · elements) (funext fun e => ?_)
  unfold DocumentSetting.linkOf?
  cases SchemaNode.ofElement? σ e with
  | none => rfl
  | some node =>
    rw [Option.any_some, Option.bind_some, link?, SchemaTag.refers]
    split <;> rfl

/-- What a document declares and refers to comes from the elements in its root. -/
theorem contents_of_read {address : Option Address} {offered : Option String} {text : String}
    {root : Xml.Element} {document : SchemaDocument} (hroot : Xml.readTree text = some root)
    (h : read address offered text = .ok document) {s : DocumentSetting}
    (hs : (setting (.ofElement (Xml.Scope.enter [] root.attributes) root) offered
      (place address text)).SameButPlaces s) :
    document.declarations = (root.elements.map Xml.Element.unplaced).filterMap
        (s.declaration? (Xml.Scope.enter [] root.attributes))
      ∧ document.links = root.references.filterMap
        (s.linkOf? address (Xml.Scope.enter [] root.attributes)) := by
  rw [read_eq hroot] at h
  obtain ⟨node, hnode, hname⟩ := exists_schema_of_ofTree h
  rw [ofTree_eq hnode hname] at h
  rw [SchemaNode.ofElement?_eq] at hnode
  split at hnode
  · cases hnode
    obtain ⟨declarations, hread, rfl⟩ := exists_of_map_eq_ok h
    have hnodes := SchemaNode.ofNodes_eq (Xml.Scope.enter [] root.attributes) root.children
    dsimp only at hread ⊢
    constructor
    · rw [readAll_eq hread, hnodes, List.filterMap_filterMap, List.filterMap_map]
      exact congrArg (List.filterMap · root.elements) (funext fun e => hs.declaration? _ e)
    · rw [Xml.Element.references, filterMap_linkOf?_filter, hnodes, List.filterMap_filterMap,
        List.filterMap_map]
      exact congrArg (List.filterMap · root.elements) (funext fun e => hs.linkOf? address _ e)
  · cases hnode

/-- **Two documents with the same elements in another order** declare the same in another order, and
make the same references if these are in the same order. -/
theorem read_rearranged {address : Option Address} {offered : Option String} {text text' : String}
    {root root' : Xml.Element} {document document' : SchemaDocument}
    (hroot : Xml.readTree text = some root) (hroot' : Xml.readTree text' = some root')
    (h : root.Rearranges root') (hread : read address offered text = .ok document)
    (hread' : read address offered text' = .ok document') :
    document.declarations.Perm document'.declarations ∧ document.links = document'.links := by
  let s := setting (.ofElement (Xml.Scope.enter [] root.attributes) root) offered
    (place address text)
  have hs : s.SameButPlaces s := ⟨⟨rfl, rfl, .of_eq rfl⟩, rfl⟩
  have hs' : (setting (.ofElement (Xml.Scope.enter [] root'.attributes) root') offered
      (place address text')).SameButPlaces s := by
    have hattr (name : String) :
        (SchemaTag.ofElement (Xml.Scope.enter [] root'.attributes) root').attr? name
          = (SchemaTag.ofElement (Xml.Scope.enter [] root.attributes) root).attr? name := by
      unfold SchemaTag.attr? SchemaTag.ofElement
      rw [h.attributes]
    refine ⟨⟨?_, ?_, .of_eq ?_⟩, ?_⟩ <;> unfold s setting <;> dsimp only <;> rw [hattr]
  obtain ⟨hdeclared, hlinks⟩ := contents_of_read hroot hread hs
  obtain ⟨hdeclared', hlinks'⟩ := contents_of_read hroot' hread' hs'
  rw [← h.attributes] at hdeclared' hlinks'
  rw [hdeclared, hdeclared', hlinks, hlinks', h.references]
  exact ⟨h.elements.filterMap _, rfl⟩

end SchemaDocument

/-! ## Schemas -/

/-- Two texts hold the same elements in another order. -/
def Xml.IsRearranged (text text' : String) : Prop :=
  ∃ root root', readTree text = some root ∧ readTree text' = some root' ∧ root.Rearranges root'

/-- The main document holds its elements in another order: another text is taken for it, or the file
in which it is has got another text. -/
inductive Origin.IsRearranged (fs : Files) : Origin → Files → Origin → Prop
  | text {content content' : String} (h : Xml.IsRearranged content content') :
    IsRearranged fs (.text content) fs (.text content')
  | file {address : Address} {name : FileName} {content content' : String}
    (hread : fs.read address = .ok (name, content)) (h : Xml.IsRearranged content content') :
    IsRearranged fs (.file address) (fs.withText name content') (.file address)

namespace Loading

theorem isKept_distinctTypes : IsKept fun m => m.types.IsDistinct where
  builtin := by decide +kernel
  target h _ := h
  register {l s node declaration} _ h := by
    cases declaration with
    | type name definition => exact h.insert _ _
    | element | attr | attributeGroup | group => exact h
  inheritType {m} h untyped name := by
    unfold inheritType
    split
    · exact h
    · split <;> exact h

end Loading

/-- A main document and the loading of it, without what is filled in at the end. -/
structure Origin.Loads (fs : Files) (origin : Origin) (main : Opening) (l : Loading) : Prop where
  opening : origin.opening fs = .ok main
  follow : Loading.follow fs main.entered main.document.links = .ok l

theorem Origin.exists_loads {fs : Files} {origin : Origin} {m : Model}
    (h : origin.load fs = .ok m) : ∃ main l, origin.Loads fs main l ∧ m = l.finish := by
  rw [load_eq] at h
  obtain ⟨main, hopening, h⟩ := exists_of_bind_eq_ok h
  obtain ⟨l, hfollow, h⟩ := exists_of_bind_eq_ok h
  exact ⟨main, l, ⟨hopening, hfollow⟩, (Except.ok.inj h).symm⟩

theorem Origin.read_of_opening {fs : Files} {origin : Origin} {main : Opening}
    (h : origin.opening fs = .ok main) :
    ∃ address, SchemaDocument.read address none main.text = .ok main.document := by
  cases origin with
  | text content =>
    obtain ⟨document, hread, rfl⟩ := opening_text h
    exact ⟨none, hread⟩
  | file address =>
    obtain ⟨name, content, hfound⟩ := exists_file_of_opening h
    obtain ⟨document, hread, rfl⟩ := opening_file hfound h
    exact ⟨some address, hread⟩

theorem Origin.Loads.of_isKept {fs : Files} {origin : Origin} {main : Opening} {l : Loading}
    {P : Model → Prop} (hP : Loading.IsKept P) (h : origin.Loads fs main l) : P l.model := by
  obtain ⟨address, hread⟩ := read_of_opening h.opening
  exact hP.gives_main (SchemaDocument.gives_read _ _ _ _ hread) main.known l h.follow

/-- Main documents that declare the same in another order are entered alike. -/
theorem Opening.isAlike_entered {main main' : Opening} (hknown : main.known = main'.known)
    (hdistinct : (main.document.declarations.map Declaration.symbol).Nodup)
    (hperm : main.document.declarations.Perm main'.document.declarations) :
    main.entered.IsAlike main'.entered := by
  have hstart : Loading.IsAlike { read := main.known } { read := main'.known } :=
    ⟨fun _ => rfl, fun _ => Iff.rfl, hknown⟩
  have halike := hstart.foldl_perm hdistinct hperm
  refine ⟨fun symbol => ?_, halike.untyped, halike.read⟩
  have htarget (m : Model) (target : Option String) :
      ({ m with target } : Model).component? symbol = m.component? symbol := by
    obtain ⟨space, name⟩ := symbol
    cases space <;> rfl
  rw [entered, entered, htarget, htarget]
  exact halike.components symbol

section

variable {fs fs' : Files} {origin origin' : Origin} {main main' : Opening} {l l' : Loading}

/-- Main documents that hold their elements in another order declare the same in another order, and
are followed by the same documents. -/
theorem Origin.IsRearranged.opening (h : IsRearranged fs origin fs' origin')
    (hmain : origin.opening fs = .ok main) (hmain' : origin'.opening fs' = .ok main') :
    main.known = main'.known
      ∧ main.document.declarations.Perm main'.document.declarations
      ∧ Loading.follow fs' main'.entered main'.document.links
        = Loading.follow fs main'.entered main.document.links := by
  cases h with
  | text h =>
    obtain ⟨root, root', hroot, hroot', h⟩ := h
    obtain ⟨document, hread, rfl⟩ := opening_text hmain
    obtain ⟨document', hread', rfl⟩ := opening_text hmain'
    obtain ⟨hperm, hlinks⟩ := SchemaDocument.read_rearranged hroot hroot' h hread hread'
    exact ⟨rfl, hperm, congrArg (Loading.follow fs _) hlinks.symm⟩
  | @file address name content content' hfound h =>
    obtain ⟨root, root', hroot, hroot', h⟩ := h
    have hfile : (fs.files.lookup name).isSome := by
      rw [Files.lookup_of_read hfound]
      rfl
    have hfound' : (fs.withText name content').read address = .ok (name, content') := by
      rw [Files.read_withText hfile content', hfound]
      exact congrArg Except.ok (congrArg (Prod.mk name) (if_pos rfl))
    obtain ⟨document, hread, rfl⟩ := opening_file hfound hmain
    obtain ⟨document', hread', rfl⟩ := opening_file hfound' hmain'
    obtain ⟨hperm, hlinks⟩ := SchemaDocument.read_rearranged hroot hroot' h hread hread'
    refine ⟨rfl, hperm, ?_⟩
    rw [← hlinks]
    -- The main file counts as read, so its text is not looked at when it is referred to.
    refine Loading.follow_withText hfile ?_ _
    rw [Opening.read_entered]
    exact List.mem_singleton_self name

theorem Origin.IsRearranged.isAlike (h : IsRearranged fs origin fs' origin')
    (hdistinct : (main.document.declarations.map Declaration.symbol).Nodup)
    (hl : origin.Loads fs main l) (hl' : origin'.Loads fs' main' l') : l.IsAlike l' := by
  obtain ⟨hknown, hperm, hfollow⟩ := h.opening hl.opening hl'.opening
  obtain ⟨l'', hl'', halike⟩ :=
    ((Opening.isAlike_entered hknown hdistinct hperm).follow main.document.links).exists_ok
      hl.follow
  cases hl''.symm.trans (hfollow.symm.trans hl'.follow)
  exact halike

end

/-- **The order of declarations does not matter.** If the elements in the root of a document are
put in another order, but for those that refer to other documents, and no two declarations have the
same symbol, then both schemas give the same answers, if both can be loaded. -/
theorem Origin.load_rearranged {fs fs' : Files} {origin origin' : Origin} {main : Opening}
    {m m' : Model} (h : IsRearranged fs origin fs' origin') (hmain : origin.opening fs = .ok main)
    (hdistinct : (main.document.declarations.map Declaration.symbol).Nodup)
    (hm : origin.load fs = .ok m) (hm' : origin'.load fs' = .ok m') : m.AnswersAlike m' := by
  obtain ⟨main, l, hl, rfl⟩ := exists_loads hm
  obtain ⟨main', l', hl', rfl⟩ := exists_loads hm'
  cases hl.opening.symm.trans hmain
  -- Elements are found by their own names, also when their types are filled in.
  have hnames := hl.of_isKept Loading.isKept_namesElements
  have hnames' := hl'.of_isKept Loading.isKept_namesElements
  exact ((h.isAlike hdistinct hl hl').finish hnames hnames').answersAlike
    (Loading.isKept_namesElements.finish hnames).distinct
    (Loading.isKept_namesElements.finish hnames').distinct
    (Loading.isKept_distinctTypes.finish (hl.of_isKept Loading.isKept_distinctTypes))
    (Loading.isKept_distinctTypes.finish (hl'.of_isKept Loading.isKept_distinctTypes))

/-- An element with a type, and one that takes it over, in either order. -/
def substituting (declared : String × String) : String :=
  "<x:schema xmlns:x='http://www.w3.org/2001/XMLSchema'>" ++ declared.1 ++ declared.2
    ++ "</x:schema>"

/-- The element with a type, at a place. -/
def substitutedElement (offset : Nat) : Xml.Element :=
  ⟨offset, some "x", "element", [⟨none, "name", "a"⟩, ⟨none, "type", "c"⟩], []⟩

/-- The element that takes it over, at a place. -/
def substitutingElement (offset : Nat) : Xml.Element :=
  ⟨offset, some "x", "element", [⟨none, "name", "b"⟩, ⟨none, "substitutionGroup", "a"⟩], []⟩

/-- The root with these elements. -/
def substitutingRoot (elements : List Xml.Element) : Xml.Element :=
  ⟨0, some "x", "schema", [⟨some "xmlns", "x", Namespace.xsd⟩], elements.map Xml.Node.element⟩

theorem Origin.load_of_unlinked {fs : Files} {origin : Origin} {main : Opening}
    (h : origin.opening fs = .ok main) (hlinks : main.document.links = []) :
    origin.load fs = .ok main.entered.finish := by
  rw [load_eq, h]
  change (do return (← Loading.follow fs main.entered main.document.links).finish) = _
  rw [hlinks, Loading.follow_nil]
  rfl

/-- An element may come before the one whose type it takes over. -/
theorem Origin.load_rearranged_substituting :
    let a := "<x:element name='a' type='c'/>"
    let b := "<x:element name='b' substitutionGroup='a'/>"
    ∃ main m m', IsRearranged {} (.text (substituting (a, b))) {} (.text (substituting (b, a)))
      ∧ (Origin.text (substituting (a, b))).opening {} = .ok main
      ∧ (main.document.declarations.map Declaration.symbol).Nodup
      ∧ (Origin.text (substituting (a, b))).load {} = .ok m
      ∧ (Origin.text (substituting (b, a))).load {} = .ok m' ∧ m.AnswersAlike m' := by
  intro a b
  have hchars {front back : String} {cs ds : List Char} (h : front.toList = cs)
      (h' : back.toList = ds) : (substituting (front, back)).toList = _ :=
    Xml.toList_append_eq (Xml.toList_append_eq (Xml.toList_append_eq String.toList_ofList h) h')
      String.toList_ofList
  have hroot : Xml.readTree (substituting (a, b))
      = some (substitutingRoot [substitutedElement 53, substitutingElement 83]) := by
    rw [Xml.readTree, hchars String.toList_ofList String.toList_ofList]
    decide +kernel
  have hroot' : Xml.readTree (substituting (b, a))
      = some (substitutingRoot [substitutingElement 53, substitutedElement 96]) := by
    rw [Xml.readTree, hchars String.toList_ofList String.toList_ofList]
    decide +kernel
  have h : IsRearranged {} (.text (substituting (a, b))) {} (.text (substituting (b, a))) :=
    .text ⟨_, _, hroot, hroot', rfl, rfl, rfl, List.Perm.swap _ _ _, rfl⟩
  obtain ⟨document, hread, hlinks, hsymbols⟩ : ∃ document,
      SchemaDocument.read none none (substituting (a, b)) = .ok document ∧ document.links = []
        ∧ document.declarations.map Declaration.symbol
          = [⟨.element, QName.bare "a"⟩, ⟨.element, QName.bare "b"⟩] := by
    rw [SchemaDocument.read_eq hroot]
    exact ⟨_, rfl, rfl, rfl⟩
  obtain ⟨document', hread', hlinks'⟩ : ∃ document,
      SchemaDocument.read none none (substituting (b, a)) = .ok document
        ∧ document.links = [] := by
    rw [SchemaDocument.read_eq hroot']
    exact ⟨_, rfl, rfl⟩
  have hmain : (Origin.text (substituting (a, b))).opening {}
      = .ok ⟨[], [], substituting (a, b), document⟩ := by
    rw [opening, hread]
    rfl
  have hmain' : (Origin.text (substituting (b, a))).opening {}
      = .ok ⟨[], [], substituting (b, a), document'⟩ := by
    rw [opening, hread']
    rfl
  have hdistinct : (document.declarations.map Declaration.symbol).Nodup := by
    rw [hsymbols]
    decide
  have hm := load_of_unlinked hmain hlinks
  have hm' := load_of_unlinked hmain' hlinks'
  exact ⟨_, _, _, h, hmain, hdistinct, hm, hm', load_rearranged h hmain hdistinct hm hm'⟩

end Specimen

import Specimen.Proofs.DeclarationOrder

/-!
# Elements that documents declare

A schema is what its documents declare, one document after another in the order in which they are
read. Its global elements are entered in the order of their declarations, each under its own name,
and those that take the type of their head are told from their elements alone: they join a
substitution group and have no type, neither by name nor in place.
-/

namespace Specimen

/-! ## Declarations -/

namespace Declaration

/-- The element that a declaration declares. -/
def element? : Declaration → Option ElementDecl
  | .element decl _ => some decl
  | _ => none

end Declaration

/-- The names of the elements that are declared. -/
def elementNames (declarations : List Declaration) : List QName :=
  (declarations.filterMap Declaration.element?).map (·.name)

/-- The names of the declared elements that take the type of their head. -/
def untypedNames (declarations : List Declaration) : List QName :=
  declarations.filterMap Declaration.untypedName?

theorem elementNames_cons (declaration : Declaration) (rest : List Declaration) :
    elementNames (declaration :: rest)
      = declaration.element?.toList.map (·.name) ++ elementNames rest := by
  unfold elementNames
  rw [List.filterMap_cons]
  cases declaration.element? <;> rfl

theorem mem_untypedNames {declarations : List Declaration} {name : QName} :
    name ∈ untypedNames declarations
      ↔ ∃ decl, .element decl true ∈ declarations ∧ decl.name = name := by
  unfold untypedNames
  rw [List.mem_filterMap]
  constructor
  · rintro ⟨declaration, hmem, hname⟩
    cases declaration with
    | element decl inherits =>
      cases inherits with
      | false => cases hname
      | true => exact ⟨decl, hmem, Option.some.inj hname⟩
    | type | attr | attributeGroup | group => cases hname
  · rintro ⟨decl, hmem, rfl⟩
    exact ⟨_, hmem, rfl⟩

/-- The element joins a substitution group, and has no type of its own: none is named and none is
declared in place. -/
structure SchemaNode.IsUntypedMember (node : SchemaNode) : Prop where
  joins : (node.tag.attr? "substitutionGroup").isSome
  unnamed : node.tag.attr? "type" = none
  empty : ∀ child ∈ node.children,
    child.tag.name ≠ "complexType" ∧ child.tag.name ≠ "simpleType"

section

variable (s : DocumentSetting)

/-- No type is read from a row of elements if none of them declares one. -/
theorem gives_readElementType_isNone (nodes : List SchemaNode) :
    Gives (readElementType s nodes) fun type => type.isNone ↔
      ∀ child ∈ nodes, child.tag.name ≠ "complexType" ∧ child.tag.name ≠ "simpleType" := by
  induction nodes with
  | nil => exact .ok (iff_of_true rfl nofun)
  | cons node rest ih =>
    rw [readElementType]
    split
    · next hname =>
      refine .bind_of_forall fun type => .ok (iff_of_false Bool.false_ne_true fun hnone => ?_)
      exact (List.forall_mem_cons.mp hnone).1.1 hname
    · next hcomplex =>
      split
      · next hname =>
        refine .bind_of_forall fun type => .ok (iff_of_false Bool.false_ne_true fun hnone => ?_)
        exact (List.forall_mem_cons.mp hnone).1.2 hname
      · next hsimple =>
        intro type htype
        rw [List.forall_mem_cons]
        exact (ih type htype).trans (and_iff_right ⟨hcomplex, hsimple⟩).symm

/-- No type is read where none is named and none is declared in place. -/
theorem gives_typeOr_isNone (node : SchemaNode) :
    Gives (s.typeOr node.tag "type" (readElementType s node.children)) fun type => type.isNone ↔
      node.tag.attr? "type" = none ∧ ∀ child ∈ node.children,
        child.tag.name ≠ "complexType" ∧ child.tag.name ≠ "simpleType" := by
  unfold DocumentSetting.typeOr
  split
  · next named =>
    refine .bind_of_forall fun name => .ok (iff_of_false Bool.false_ne_true fun hnone => ?_)
    rw [named] at hnone
    exact Option.some_ne_none _ hnone.1
  · next unnamed =>
    intro type htype
    exact (gives_readElementType_isNone s node.children type htype).trans
      (and_iff_right unnamed).symm

/-- An element joins a substitution group if an attribute says so. -/
theorem gives_mapM_isSome {α β : Type} (f : α → Except Error β) (value : Option α) :
    Gives (value.mapM f) fun head => head.isSome = value.isSome := by
  cases value with
  | none => exact .ok rfl
  | some a =>
    rw [Option.mapM_some]
    exact Gives.map (P := fun _ => True) (fun _ _ => trivial) fun _ _ => rfl

/-- What is known of a global element that is read from an element of a document. -/
structure ElementDecl.IsReadFrom (decl : ElementDecl) (inherits : Bool) (node : SchemaNode) :
    Prop where
  inherits_iff : inherits ↔ node.IsUntypedMember
  type : inherits → decl.type = .anyType
  head : inherits → decl.head.isSome

theorem gives_readGlobalElement_isReadFrom (node : SchemaNode) :
    Gives (readGlobalElement s node) fun declaration => ∀ decl inherits,
      declaration = .element decl inherits → decl.IsReadFrom inherits node := by
  unfold readGlobalElement
  refine .bind_of_forall fun name => ?_
  refine (gives_mapM_isSome _ _).bind fun head hhead => ?_
  refine (gives_typeOr_isNone s node).bind fun type htype => .ok ?_
  rintro _ _ ⟨⟩
  have hinherits : (type.isNone && head.isSome) = true ↔ type.isNone ∧ head.isSome :=
    Bool.and_eq_true_iff
  refine ⟨hinherits.trans ?_, fun h => ?_, fun h => (hinherits.mp h).2⟩
  · rw [htype, hhead]
    exact ⟨fun h => ⟨h.2, h.1.1, h.1.2⟩, fun h => ⟨⟨h.unnamed, h.empty⟩, h.joins⟩⟩
  · rw [Option.isNone_iff_eq_none.mp (hinherits.mp h).1]
    rfl

/-- **Which elements take the type of their head** is told from their elements alone. -/
theorem gives_readDeclaration_isReadFrom (node : SchemaNode) :
    Gives (readDeclaration s node) fun read => ∀ decl inherits,
      read = some (.element decl inherits) → decl.IsReadFrom inherits node := by
  unfold readDeclaration
  split
  · refine (gives_readGlobalElement_isReadFrom s node).bind fun declaration h => .ok ?_
    exact fun decl inherits heq => h decl inherits (Option.some.inj heq)
  · exact .bind_of_forall fun _ => .bind_of_forall fun _ => .ok nofun
  · exact .bind_of_forall fun _ => .bind_of_forall fun _ => .ok nofun
  · unfold readGlobalAttribute
    refine Gives.bind (P := fun declaration => ∀ decl inherits,
      declaration ≠ .element decl inherits) ?_ fun declaration h => .ok fun decl inherits heq =>
        absurd (Option.some.inj heq) (h decl inherits)
    exact .bind_of_forall fun _ => .bind_of_forall fun _ => .bind_of_forall fun _ => .ok nofun
  · exact .bind_of_forall fun _ => .bind_of_forall fun _ => .ok nofun
  · exact .bind_of_forall fun _ => .bind_of_forall fun _ => .ok nofun
  · exact .ok nofun

end

/-! ## Registering -/

namespace Loading

variable {l : Loading} {declarations : List Declaration} {fs : Files}

/-- The loading with other files read and for another target namespace. -/
def relabel (l : Loading) (read : List FileName) (target : Option String) : Loading :=
  { l with model := { l.model with target }, read }

/-- Nothing changes with the same target. -/
theorem eq_relabel (m : Model) (read : List FileName) :
    ({ model := m, read } : Loading) = relabel { model := m } read m.target := by
  cases m
  rfl

theorem register_relabel (read : List FileName) (target : Option String)
    (declaration : Declaration) :
    (l.relabel read target).register declaration
      = (l.register declaration).relabel read target := by
  cases declaration <;> rfl

/-- To register declarations depends on neither the files that are read nor the target namespace. -/
theorem foldl_register_relabel (read : List FileName) (target : Option String) :
    declarations.foldl register (l.relabel read target)
      = (declarations.foldl register l).relabel read target := by
  induction declarations generalizing l with
  | nil => rfl
  | cons declaration rest ih => rw [List.foldl_cons, register_relabel, ih, List.foldl_cons]

theorem elements_register (l : Loading) (declaration : Declaration) :
    (l.register declaration).model.elements = match declaration.element? with
      | some decl => l.model.elements.insert decl.name (decl.numberFrom l.model.next).1
      | none => l.model.elements := by
  cases declaration with
  | element decl inherits =>
    change l.model.elements.insert (decl.numberFrom l.model.next).1.name _ = _
    rw [decl.name_numberFrom]
    rfl
  | type | attr | attributeGroup | group => rfl

theorem untyped_foldl :
    (declarations.foldl register l).untyped = l.untyped ++ untypedNames declarations := by
  induction declarations generalizing l with
  | nil => exact (List.append_nil _).symm
  | cons declaration rest ih =>
    rw [List.foldl_cons, ih, untyped_register, untypedNames, untypedNames, List.filterMap_cons,
      List.append_assoc]
    cases declaration.untypedName? <;> rfl

/-- Elements with new and different names are entered in the order of their declarations. -/
theorem names_foldl (h : (l.model.elements.names ++ elementNames declarations).Nodup) :
    (declarations.foldl register l).model.elements.names
      = l.model.elements.names ++ elementNames declarations := by
  induction declarations generalizing l with
  | nil => exact (List.append_nil _).symm
  | cons declaration rest ih =>
    have hnames : (l.register declaration).model.elements.names
        = l.model.elements.names ++ declaration.element?.toList.map (·.name) := by
      rw [elements_register]
      rw [elementNames_cons] at h
      cases hdecl : declaration.element? with
      | none => exact (List.append_nil _).symm
      | some decl =>
        rw [hdecl] at h
        refine (Table.map_fst_insertInto _ _ _).trans (if_neg fun hmem => ?_)
        exact (List.nodup_append.mp h).2.2 _ hmem _ List.mem_cons_self rfl
    have hrest : ((l.register declaration).model.elements.names ++ elementNames rest).Nodup := by
      rwa [hnames, List.append_assoc, ← elementNames_cons]
    rw [List.foldl_cons, ih hrest, hnames, List.append_assoc, elementNames_cons]

theorem get?_foldl_of_not_mem {name : QName} (h : name ∉ elementNames declarations) :
    (declarations.foldl register l).model.elements.get? name = l.model.elements.get? name := by
  induction declarations generalizing l with
  | nil => rfl
  | cons declaration rest ih =>
    rw [elementNames_cons, List.mem_append, not_or] at h
    rw [List.foldl_cons, ih h.2, elements_register]
    cases hdecl : declaration.element? with
    | none => rfl
    | some decl =>
      rw [hdecl] at h
      exact (Table.get?_insert _ _ _ _).trans (if_neg (List.ne_of_not_mem_cons h.1))

/-- Of elements with different names, each is entered as it is declared, with numbers. -/
theorem exists_get?_foldl (h : (elementNames declarations).Nodup) {decl : ElementDecl}
    {inherits : Bool} (hmem : .element decl inherits ∈ declarations) : ∃ n,
      (declarations.foldl register l).model.elements.get? decl.name
        = some (decl.numberFrom n).1 := by
  induction declarations generalizing l with
  | nil => exact absurd hmem List.not_mem_nil
  | cons declaration rest ih =>
    rw [elementNames_cons] at h
    rw [List.foldl_cons]
    rcases List.mem_cons.mp hmem with rfl | hmem
    · refine ⟨l.model.next, ?_⟩
      rw [get?_foldl_of_not_mem (List.nodup_cons.mp h).1, elements_register]
      exact (Table.get?_insert _ _ _ _).trans (if_pos rfl)
    · exact ih (List.nodup_append.mp h).2.1 hmem

/-! ## Following references -/

/-- The documents that are taken in when these references are followed with these files read,
in the order in which they are read. -/
inductive Takes (fs : Files) : List FileName → List Link → List SchemaDocument → Prop
  | nil {read : List FileName} : Takes fs read [] []
  | known {read : List FileName} {link : Link} {rest : List Link} {name : FileName} {text : String}
      {documents : List SchemaDocument} (hfound : fs.read link.address = .ok (name, text))
      (hknown : name ∈ read) (h : Takes fs read rest documents) :
      Takes fs read (link :: rest) documents
  | taken {read : List FileName} {link : Link} {rest : List Link} {name : FileName} {text : String}
      {document : SchemaDocument} {documents : List SchemaDocument}
      (hfound : fs.read link.address = .ok (name, text)) (hnew : name ∉ read)
      (hread : SchemaDocument.read (some link.address) link.target text = .ok document)
      (h : Takes fs (read ++ [name]) (rest ++ document.links) documents) :
      Takes fs read (link :: rest) (document :: documents)

/-- Where references can be followed, they lead to documents. -/
theorem exists_takes {l l' : Loading} {links : List Link} (h : follow fs l links = .ok l') :
    ∃ documents, Takes fs l.read links documents := by
  induction l, links using follow_induction fs with
  | nil l => exact ⟨[], .nil⟩
  | unreadable l link rest fault hfault =>
    rw [follow_unreadable hfault] at h
    cases h
  | known l link rest name text hfound hknown ih =>
    rw [follow_known hfound hknown] at h
    obtain ⟨documents, hdocuments⟩ := ih h
    exact ⟨documents, .known hfound hknown hdocuments⟩
  | rejected l link rest name text e hfound hnew hrejected =>
    rw [follow_rejected hfound hnew hrejected] at h
    cases h
  | taken l link rest name text document hfound hnew haccepted ih =>
    rw [follow_taken hfound hnew haccepted] at h
    obtain ⟨documents, hdocuments⟩ := ih h
    rw [read_enter] at hdocuments
    exact ⟨document :: documents, .taken hfound hnew haccepted hdocuments⟩

/-- **To follow references is to register what the documents declare**, one after another. -/
theorem Takes.follow {read : List FileName} {links : List Link} {documents : List SchemaDocument}
    (h : Takes fs read links documents) (l : Loading) (target : Option String) : ∃ known,
      Loading.follow fs (l.relabel read target) links
        = .ok (((documents.flatMap (·.declarations)).foldl register l).relabel known target) := by
  induction h generalizing l with
  | @nil read => exact ⟨read, follow_nil⟩
  | known hfound hknown _ ih =>
    rw [follow_known hfound hknown]
    exact ih l
  | @taken read link rest name text document documents hfound hnew hread _ ih =>
    obtain ⟨known, hfollow⟩ := ih (document.declarations.foldl register l)
    refine ⟨known, ?_⟩
    rw [follow_taken hfound hnew hread, List.flatMap_cons, List.foldl_append, ← hfollow]
    exact congrArg (Loading.follow fs · _) (foldl_register_relabel (read ++ [name]) target)

theorem Takes.isRead {read : List FileName} {links : List Link} {documents : List SchemaDocument}
    (h : Takes fs read links documents) : ∀ document ∈ documents, document.IsRead := by
  induction h with
  | nil => exact nofun
  | known _ _ _ ih => exact ih
  | taken _ _ hread _ ih =>
    exact List.forall_mem_cons.mpr ⟨SchemaDocument.gives_read _ _ _ _ hread, ih⟩

end Loading

/-! ## Schemas -/

/-- The documents of a schema declare this: the main document first, and then the others in the
order in which they are read. -/
def Origin.Declares (fs : Files) (origin : Origin) (declarations : List Declaration) : Prop :=
  ∃ main documents, origin.opening fs = .ok main
    ∧ Loading.Takes fs main.known main.document.links documents
    ∧ declarations = (main.document :: documents).flatMap (·.declarations)

variable {fs : Files} {origin : Origin} {m : Model} {declarations : List Declaration}

/-- What can be loaded declares something, be it nothing at all. -/
theorem Origin.exists_declares (h : origin.load fs = .ok m) :
    ∃ declarations, origin.Declares fs declarations := by
  obtain ⟨main, l, hl, -⟩ := exists_loads h
  obtain ⟨documents, htakes⟩ := Loading.exists_takes hl.follow
  rw [Opening.read_entered] at htakes
  exact ⟨_, main, documents, hl.opening, htakes, rfl⟩

/-- **A schema is what its documents declare**, registered in order. -/
theorem Origin.Declares.exists_loads (h : origin.Declares fs declarations) : ∃ main known,
    origin.Loads fs main
      ((declarations.foldl Loading.register {}).relabel known main.document.target) := by
  obtain ⟨main, documents, hopening, htakes, rfl⟩ := h
  have hstart : ({ read := main.known } : Loading)
      = Loading.relabel {} main.known Model.builtin.target := Loading.eq_relabel _ _
  have hentered : main.entered = (main.document.declarations.foldl Loading.register {}).relabel
      main.known main.document.target := by
    rw [Opening.entered, Loading.enter, hstart, Loading.foldl_register_relabel]
    rfl
  obtain ⟨known, hfollow⟩ := htakes.follow
    (main.document.declarations.foldl Loading.register {}) main.document.target
  rw [← hentered, ← List.foldl_append, ← List.flatMap_cons] at hfollow
  exact ⟨main, known, ⟨hopening, hfollow⟩⟩

/-- What is declared has been read from elements. -/
theorem Origin.Declares.exists_node (h : origin.Declares fs declarations)
    {declaration : Declaration} (hmem : declaration ∈ declarations) :
    ∃ s node, readDeclaration s node = .ok (some declaration) := by
  obtain ⟨main, documents, hopening, htakes, rfl⟩ := h
  obtain ⟨address, hread⟩ := read_of_opening hopening
  obtain ⟨document, hdocument, hdeclared⟩ := List.mem_flatMap.mp hmem
  rcases List.mem_cons.mp hdocument with rfl | hdocument
  · exact SchemaDocument.gives_read _ _ _ _ hread declaration hdeclared
  · exact htakes.isRead document hdocument declaration hdeclared

end Specimen

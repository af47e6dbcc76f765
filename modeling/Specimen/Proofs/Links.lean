import Specimen.Proofs.Agreement
import Specimen.Proofs.Folders

/-!
# References between documents

What a document refers to can be said in two ways. A reader of the documents says it with the
folders that the files are in: a location is looked up from the folder of the document in which it
stands. The loading says it with addresses, and reports them as it has put them together. Both lead
to the same files, and two references to one file go on to the same files, however the file is
addressed and whatever namespace is offered to it.
-/

namespace Specimen

/-! ## Locations -/

/-- The location that an element refers to, if it refers to one. -/
def SchemaTag.location? (tag : SchemaTag) : Option String :=
  if tag.name = "include" || tag.name = "redefine" || tag.name = "import" then
    tag.attr? "schemaLocation"
  else none

namespace SchemaDocument

/-- The locations that the document in a text refers to, in their order. -/
def locations (text : String) : List String :=
  match (Xml.readTree text).bind (SchemaNode.ofElement? []) with
  | none => []
  | some node => node.children.filterMap fun child => child.tag.location?

theorem map_address_link? (s : DocumentSetting) (address : Option Address) (tag : SchemaTag) :
    (link? s address tag).map Link.address = tag.location?.map (Address.resolve address) := by
  unfold link? SchemaTag.location?
  split
  · rw [Option.map_map]
    rfl
  · rfl

/-- The references of a document lead to its locations. -/
theorem map_address_links {address : Option Address} {offered : Option String} {text : String}
    {document : SchemaDocument} (h : read address offered text = .ok document) :
    document.links.map Link.address = (locations text).map (Address.resolve address) := by
  obtain ⟨root, hroot⟩ := exists_root_of_read h
  rw [read_eq hroot] at h
  obtain ⟨node, hnode, hname⟩ := exists_schema_of_ofTree h
  rw [ofTree_eq hnode hname] at h
  obtain ⟨declarations, -, rfl⟩ := exists_of_map_eq_ok h
  rw [locations, hroot, Option.bind_some, hnode, List.map_filterMap, List.map_filterMap]
  exact congrArg (List.filterMap · node.children)
    (funext fun child => map_address_link? _ _ child.tag)

end SchemaDocument

/-! ## Reaching files -/

namespace Files

/-- A text in a folder refers to a file. -/
def LinksTo (fs : Files) (folder : FileName) (text : String) (name : FileName) : Prop :=
  ∃ location ∈ SchemaDocument.locations text, ∃ inner,
    (fs.inside folder).read ⟨location⟩ = .ok (name, inner)

/-- A file is reached from a text in a folder by going from file to file, where each location is
looked up from the folder of the file in which it stands. -/
inductive Reaches (fs : Files) (folder : FileName) (text : String) : FileName → Prop
  | first {name : FileName} (h : fs.LinksTo folder text name) : Reaches fs folder text name
  | next {middle name : FileName} {inner : String} (h : Reaches fs folder text middle)
      (hinner : fs.files.lookup middle = some inner)
      (hlink : fs.LinksTo middle.dropLast inner name) : Reaches fs folder text name

variable {fs : Files} {folder : FileName} {text : String}

/-- What the locations of a text in a folder lead to. -/
def destinations (fs : Files) (folder : FileName) (text : String) :
    List (Option (FileName × String)) :=
  (SchemaDocument.locations text).map fun location =>
    ((fs.inside folder).read ⟨location⟩).toOption

theorem linksTo_iff {name : FileName} :
    fs.LinksTo folder text name ↔ ∃ inner, some (name, inner) ∈ fs.destinations folder text := by
  unfold LinksTo destinations
  constructor
  · rintro ⟨location, hlocation, inner, hread⟩
    exact ⟨inner, List.mem_map.mpr ⟨location, hlocation, by rw [hread]; rfl⟩⟩
  · rintro ⟨inner, hmem⟩
    obtain ⟨location, hlocation, heq⟩ := List.mem_map.mp hmem
    refine ⟨location, hlocation, inner, ?_⟩
    exact eq_ok_of_toOption heq

end Files

/-! ## Following one reference -/

namespace Link

/-- What a reference leads to, if it leads to a file. -/
def file? (fs : Files) (link : Link) : Option (FileName × String) := (fs.read link.address).toOption

/-- The document that a reference leads to, or the error that it is reported with. -/
def document (fs : Files) (link : Link) : Except Error SchemaDocument :=
  match fs.read link.address with
  | .error fault => .error (.resource (.unreadable link.address.text fault))
  | .ok (_, text) => SchemaDocument.read (some link.address) link.target text

/-- The reference leads to a file that can be read and is accepted. -/
def Opens (fs : Files) (link : Link) : Prop := ∃ document, link.document fs = .ok document

/-- The references of the document that a reference leads to. -/
def inner (fs : Files) (link : Link) : List Link :=
  match link.document fs with
  | .ok document => document.links
  | .error _ => []

variable {fs : Files} {link other : Link} {name : FileName} {text : String}
  {found : SchemaDocument}

theorem read_of_file? (h : link.file? fs = some (name, text)) :
    fs.read link.address = .ok (name, text) := eq_ok_of_toOption h

theorem file?_of_read (h : fs.read link.address = .ok (name, text)) :
    link.file? fs = some (name, text) := by
  rw [file?, h]
  rfl

theorem document_of_file? (h : link.file? fs = some (name, text)) :
    link.document fs = SchemaDocument.read (some link.address) link.target text := by
  rw [document, read_of_file? h]

theorem inner_of_document (h : link.document fs = .ok found) : link.inner fs = found.links := by
  rw [inner, h]

/-- The file of a document that a reference leads to. -/
theorem exists_file_of_document (h : link.document fs = .ok found) :
    ∃ name text, link.file? fs = some (name, text) := by
  unfold document at h
  split at h
  · cases h
  · next hread => exact ⟨_, _, file?_of_read hread⟩

/-- **Where the document at the end of a reference goes on to** is found from the folder of its
file. -/
theorem map_file?_inner (h : link.document fs = .ok found)
    (hfile : link.file? fs = some (name, text)) :
    found.links.map (file? fs) = fs.destinations name.dropLast text := by
  rw [document_of_file? hfile] at h
  have hlinks := congrArg (List.map fun address => (fs.read address).toOption)
    (SchemaDocument.map_address_links h)
  rw [List.map_map, List.map_map] at hlinks
  refine hlinks.trans (List.map_congr_left fun location _ => ?_)
  exact Files.read_resolve (read_of_file? hfile) location

/-- **Of two references to one file, both are accepted or neither, and both go on to the same files.**
-/
theorem exists_document_alike (h : link.document fs = .ok found)
    (halike : other.file? fs = link.file? fs) : ∃ found', other.document fs = .ok found'
      ∧ found'.links.map (file? fs) = found.links.map (file? fs) := by
  obtain ⟨name, text, hfile⟩ := exists_file_of_document h
  have hfile' := halike.trans hfile
  have hread := (document_of_file? hfile).symm.trans h
  obtain ⟨found', hread'⟩ := SchemaDocument.exists_read hread (some other.address) other.target
  have h' := (document_of_file? hfile').trans hread'
  exact ⟨found', h', (map_file?_inner h' hfile').trans (map_file?_inner h hfile).symm⟩

end Link

/-! ## References in their order -/

/-- The references that are as many documents away from the first ones, in the order in which they
are met. None is left out, also where several lead to one file. -/
def level (fs : Files) (links : List Link) : Nat → List Link
  | 0 => links
  | n + 1 => (level fs links n).flatMap (Link.inner fs)

/-- The error is that of the first reference, level by level, whose file cannot be read or is
refused. -/
def FirstFailure (fs : Files) (links : List Link) (e : Error) : Prop :=
  ∃ n before link behind, level fs links n = before ++ link :: behind ∧ link.document fs = .error e
    ∧ (∀ m < n, ∀ earlier ∈ level fs links m, earlier.Opens fs)
    ∧ ∀ earlier ∈ before, earlier.Opens fs

/-- The references that are left, level by level, when all before them open: those that are left of
a level, and those that are met in the documents before. -/
structure IsAhead (fs : Files) (links : List Link) (n : Nat) (passed left ahead : List Link) :
    Prop where
  split : level fs links n = passed ++ left
  ahead : ahead = left ++ passed.flatMap (Link.inner fs)
  before : ∀ m < n, ∀ link ∈ level fs links m, link.Opens fs
  passed : ∀ link ∈ passed, link.Opens fs

/-- The references that are left at some point. -/
def Ahead (fs : Files) (links ahead : List Link) : Prop :=
  ∃ n passed left, IsAhead fs links n passed left ahead

namespace Ahead

variable {fs : Files} {links ahead : List Link} {link : Link}

theorem start (fs : Files) (links : List Link) : Ahead fs links links :=
  ⟨0, [], links, rfl, (List.append_nil _).symm, nofun, nofun⟩

/-- The next reference stands in the level that has been begun, or is the first one of the next. -/
theorem exists_cons (h : Ahead fs links (link :: ahead)) :
    ∃ n passed left, IsAhead fs links n passed (link :: left) (link :: ahead) := by
  obtain ⟨n, passed, left, hlevel, hahead, hbefore, hpassed⟩ := h
  cases left with
  | cons next left =>
    obtain ⟨rfl, -⟩ := List.cons.inj hahead
    exact ⟨n, passed, left, hlevel, hahead, hbefore, hpassed⟩
  | nil =>
    rw [List.append_nil] at hlevel
    rw [List.nil_append] at hahead
    refine ⟨n + 1, [], ahead, ?_, (List.append_nil _).symm, fun m hm => ?_, nofun⟩
    · rw [level, hlevel, ← hahead]
      rfl
    · rcases Nat.lt_succ_iff_lt_or_eq.mp hm with hm | rfl
      · exact hbefore m hm
      · rwa [hlevel]

theorem step (h : Ahead fs links (link :: ahead)) (hopens : link.Opens fs) :
    Ahead fs links (ahead ++ link.inner fs) := by
  obtain ⟨n, passed, left, hlevel, hahead, hbefore, hpassed⟩ := h.exists_cons
  refine ⟨n, passed ++ [link], left, ?_, ?_, hbefore, ?_⟩
  · rw [hlevel, List.append_assoc, List.singleton_append]
  · have hrest : ahead = left ++ passed.flatMap (Link.inner fs) := (List.cons.inj hahead).2
    rw [hrest, List.flatMap_append, List.flatMap_singleton, List.append_assoc]
  · exact List.forall_mem_append.mpr ⟨hpassed, List.forall_mem_singleton.mpr hopens⟩

theorem steps {passed : List Link} (h : Ahead fs links (passed ++ ahead))
    (hopens : ∀ link ∈ passed, link.Opens fs) :
    Ahead fs links (ahead ++ passed.flatMap (Link.inner fs)) := by
  induction passed generalizing ahead with
  | nil => rwa [List.flatMap_nil, List.append_nil]
  | cons link passed ih =>
    obtain ⟨hlink, hpassed⟩ := List.forall_mem_cons.mp hopens
    have hstep : Ahead fs links (passed ++ ahead ++ link.inner fs) := step h hlink
    rw [List.append_assoc] at hstep
    rw [List.flatMap_cons, ← List.append_assoc]
    exact ih hstep hpassed

/-- The next reference is the first one that fails, if it does. -/
theorem firstFailure (h : Ahead fs links (link :: ahead)) {e : Error}
    (hfails : link.document fs = .error e) : FirstFailure fs links e := by
  obtain ⟨n, passed, left, hlevel, -, hbefore, hpassed⟩ := h.exists_cons
  exact ⟨n, passed, link, left, hlevel, hfails, hbefore, hpassed⟩

end Ahead

end Specimen

import Mathlib.Logic.Basic
import Specimen.Schema.Loading

/-!
# Following references

What a document is read from, and how the loading goes on from one reference to the next: what stops
it, what is passed over, and what is entered. A file that has been read is not looked into again, so
its text may be replaced.
-/

namespace Specimen

/-! ## Texts -/

/-- The characters of a text that is put together from two. A text that is given is read faster from
its characters. -/
theorem Xml.toList_append_eq {front back : String} {cs ds : List Char} (h : front.toList = cs)
    (h' : back.toList = ds) : (front ++ back).toList = cs ++ ds := by
  rw [String.toList_append, h, h']

/-! ## Documents -/

namespace SchemaDocument

variable {node : SchemaNode} {root : Xml.Element} {address : Option Address}
  {offered : Option String} {place : Nat → String}

/-- A document is read from the elements in its root. -/
theorem ofTree_eq (hroot : SchemaNode.ofElement? [] root = some node)
    (hname : node.tag.name = "schema") :
    ofTree address offered place root = (fun declarations =>
      ⟨(setting node.tag offered place).target, declarations, node.children.filterMap fun child =>
        link? (setting node.tag offered place) address child.tag⟩)
      <$> readAll (setting node.tag offered place) node.children := by
  unfold ofTree
  rw [hroot]
  dsimp only
  rw [if_neg (not_not.mpr hname)]
  cases readAll (setting node.tag offered place) node.children <;> rfl

/-- The root of a document that is read is a schema. -/
theorem exists_schema_of_ofTree {document : SchemaDocument}
    (h : ofTree address offered place root = .ok document) :
    ∃ node, SchemaNode.ofElement? [] root = some node ∧ node.tag.name = "schema" := by
  unfold ofTree at h
  split at h
  · cases h
  · next node hnode =>
    split at h
    · cases h
    · next hname => exact ⟨node, hnode, not_not.mp hname⟩

theorem read_eq {text : String} (h : Xml.readTree text = some root) :
    read address offered text
      = ofTree address offered (SchemaDocument.place address text) root := by
  rw [read, h]

theorem exists_root_of_read {text : String} {document : SchemaDocument}
    (h : read address offered text = .ok document) : ∃ root, Xml.readTree text = some root := by
  unfold read at h
  split at h
  · cases h
  · next root hroot => exact ⟨root, hroot⟩

end SchemaDocument

/-! ## Replacing a text -/

/-- What is somewhere, if a file is given another text. -/
def Spot.withText (name : FileName) (text : String) : Spot → Spot
  | .file other old => .file other (if other = name then text else old)
  | .folder other => .folder other

namespace Files

variable {fs : Files} {name other : FileName} {text : String}

/-- The files, with another text for one of them. -/
def withText (fs : Files) (name : FileName) (text : String) : Files :=
  { fs with files := putInto name text fs.files }

theorem lookup_putInto (name other : FileName) (text : String) (files : List (FileName × String)) :
    (putInto name text files).lookup other
      = if other = name then some text else files.lookup other := by
  induction files with
  | nil =>
    by_cases h : other = name
    · rw [if_pos h, h, putInto, List.lookup_cons_self]
    · rw [if_neg h, putInto, List.lookup_cons, beq_false_of_ne h]
  | cons file rest ih =>
    obtain ⟨key, old⟩ := file
    by_cases hkey : key = name
    · rw [putInto, if_pos hkey]
      by_cases h : other = name
      · rw [if_pos h, h, List.lookup_cons_self]
      · rw [if_neg h, List.lookup_cons, List.lookup_cons, hkey, beq_false_of_ne h]
    · rw [putInto, if_neg hkey, List.lookup_cons, List.lookup_cons, ih]
      by_cases h : other = key
      · rw [beq_iff_eq.mpr h]
        exact (if_neg (h ▸ hkey)).symm
      · rw [beq_false_of_ne h]

section

variable (hfile : (fs.files.lookup name).isSome)

include hfile

theorem spot?_withText (other : FileName) :
    (fs.withText name text).spot? other = (fs.spot? other).map (Spot.withText name text) := by
  unfold spot?
  rw [withText, lookup_putInto]
  by_cases h : other = name
  · obtain ⟨old, hold⟩ := Option.isSome_iff_exists.mp hfile
    rw [if_pos h, h, hold]
    exact congrArg some (congrArg (Spot.file name) (if_pos rfl).symm)
  · rw [if_neg h]
    cases fs.files.lookup other with
    | some old => exact congrArg some (congrArg (Spot.file other) (if_neg h).symm)
    | none =>
      dsimp only
      split <;> rfl

theorem step_withText (spot : Spot) (s : String) :
    (fs.withText name text).step (spot.withText name text) s
      = (fs.step spot s).map (Spot.withText name text) := by
  cases spot with
  | file other old => rfl
  | folder other =>
    rw [Spot.withText, step, step]
    split
    · rfl
    · split
      · rfl
      · rw [spot?_withText hfile]
        cases fs.spot? (other ++ [s]) <;> rfl

theorem follow_withText (spot : Spot) (steps : List String) :
    (fs.withText name text).follow (spot.withText name text) steps
      = (fs.follow spot steps).map (Spot.withText name text) := by
  induction steps generalizing spot with
  | nil => rfl
  | cons s rest ih =>
    rw [Files.follow, Files.follow, step_withText hfile]
    cases fs.step spot s with
    | error fault => rfl
    | ok spot => exact ih spot

/-- To give a file another text changes what is read at its addresses, and nothing else. -/
theorem read_withText (text : String) (a : Address) : (fs.withText name text).read a
    = (fs.read a).map fun file => (file.1, if file.1 = name then text else file.2) := by
  have hlocate : (fs.withText name text).locate a
      = (fs.locate a).map (Spot.withText name text) := by
    unfold locate
    split
    · rfl
    · exact follow_withText hfile (.folder (fs.start a)) a.steps
  unfold read
  rw [hlocate]
  cases fs.locate a with
  | error fault => rfl
  | ok spot => cases spot <;> rfl

theorem read_withText_of_ne (text : String) {a : Address} {old : String}
    (h : fs.read a = .ok (other, old)) (hne : other ≠ name) :
    (fs.withText name text).read a = .ok (other, old) := by
  rw [read_withText hfile text, h]
  exact congrArg Except.ok (congrArg (Prod.mk other) (if_neg hne))

end

theorem lookup_of_step {spot : Spot} {s : String} (h : fs.step spot s = .ok (.file name text)) :
    fs.files.lookup name = some text := by
  unfold step at h
  split at h
  · cases h
  · split at h
    · cases h
    · split at h
      · cases h
      · split at h
        · next found =>
          cases h
          unfold spot? at found
          split at found
          · next hlookup =>
            cases found
            exact hlookup
          · split at found <;> cases found
        · cases h

/-- What is read at an address is the text of the file. -/
theorem lookup_of_read {a : Address} (h : fs.read a = .ok (name, text)) :
    fs.files.lookup name = some text := by
  -- Along the steps, the spot is a folder or a file with the text it is listed with.
  have hfollow (steps : List String) (spot : Spot)
      (hspot : ∀ other old, spot = .file other old → fs.files.lookup other = some old)
      (h : fs.follow spot steps = .ok (.file name text)) : fs.files.lookup name = some text := by
    induction steps generalizing spot with
    | nil =>
      cases h
      exact hspot _ _ rfl
    | cons s rest ih =>
      unfold Files.follow at h
      split at h
      · next hstep => exact ih _ (fun other old heq => lookup_of_step (heq ▸ hstep)) h
      · cases h
  unfold read at h
  split at h
  · next hlocate =>
    cases h
    unfold locate at hlocate
    split at hlocate
    · cases hlocate
    · exact hfollow _ _ (fun _ _ heq => by cases heq) hlocate
  · cases h
  · cases h

end Files

namespace Loading

variable {fs : Files} {l : Loading} {link : Link} {rest : List Link} {name : FileName}
  {text : String}

/-! ## One reference -/

theorem follow_nil : follow fs l [] = .ok l := by rw [follow]

/-- A reference to what cannot be read stops the loading. -/
theorem follow_unreadable {fault : FileFault} (h : fs.read link.address = .error fault) :
    follow fs l (link :: rest) = .error (.resource (.unreadable link.address.text fault)) := by
  rw [follow]
  split <;> simp_all

/-- A reference to a file that has been read is passed over. -/
theorem follow_known (h : fs.read link.address = .ok (name, text)) (hknown : name ∈ l.read) :
    follow fs l (link :: rest) = follow fs l rest := by
  rw [follow]
  split <;> simp_all

/-- A reference to a document that is rejected stops the loading. -/
theorem follow_rejected (h : fs.read link.address = .ok (name, text)) (hnew : name ∉ l.read)
    {e : Error} (hread : SchemaDocument.read (some link.address) link.target text = .error e) :
    follow fs l (link :: rest) = .error e := by
  rw [follow]
  split <;> simp_all

/-- A document that is accepted is entered, and its references are put behind the others. -/
theorem follow_taken (h : fs.read link.address = .ok (name, text)) (hnew : name ∉ l.read)
    {document : SchemaDocument}
    (hread : SchemaDocument.read (some link.address) link.target text = .ok document) :
    follow fs l (link :: rest)
      = follow fs (enter { l with read := l.read ++ [name] } document)
        (rest ++ document.links) := by
  rw [follow]
  split <;> simp_all

/-- By the turns of a loading: the first reference may lead to what cannot be read, to a file that
has been read, or to a document that is rejected or accepted. -/
theorem follow_induction (fs : Files) {motive : Loading → List Link → Prop}
    (nil : ∀ l, motive l [])
    (unreadable : ∀ l link rest fault, fs.read link.address = .error fault → motive l (link :: rest))
    (known : ∀ l link rest name text, fs.read link.address = .ok (name, text) → name ∈ l.read →
      motive l rest → motive l (link :: rest))
    (rejected : ∀ l link rest name text e, fs.read link.address = .ok (name, text) → name ∉ l.read →
      SchemaDocument.read (some link.address) link.target text = .error e → motive l (link :: rest))
    (taken : ∀ l link rest name text document, fs.read link.address = .ok (name, text) →
      name ∉ l.read → SchemaDocument.read (some link.address) link.target text = .ok document →
      motive (enter { l with read := l.read ++ [name] } document) (rest ++ document.links) →
        motive l (link :: rest)) (l : Loading) (links : List Link) : motive l links := by
  induction l, links using follow.induct fs with
  | case1 l => exact nil l
  | case2 l link rest fault hfault => exact unreadable l link rest fault hfault
  | case3 l link rest name text hfound hknown ih =>
    exact known l link rest name text hfound (List.contains_iff_mem.mp hknown) ih
  | case4 l link rest name text hfound hknown e hrejected =>
    exact rejected l link rest name text e hfound (mt List.contains_iff_mem.mpr hknown) hrejected
  | case5 l link rest name text hfound hknown document haccepted ih =>
    exact taken l link rest name text document hfound (mt List.contains_iff_mem.mpr hknown)
      haccepted ih

/-- To register what a document declares leaves the target namespace of the schema. -/
theorem target_enter (l : Loading) (document : SchemaDocument) :
    (l.enter document).model.target = l.model.target := by
  unfold enter
  induction document.declarations generalizing l with
  | nil => rfl
  | cons declaration rest ih =>
    rw [List.foldl_cons, ih]
    cases declaration <;> rfl

/-- The element of a document that declares no more than this is registered. -/
theorem elements_enter {document : SchemaDocument} {decl : ElementDecl}
    (h : document.declarations = [.element decl false]) (l : Loading) :
    (l.enter document).model.elements
        = l.model.elements.insert decl.name (decl.numberFrom l.model.next).1
      ∧ (l.enter document).untyped = l.untyped := by
  have hname : (decl.numberFrom l.model.next).1.name = decl.name := by
    cases decl
    rfl
  unfold enter
  rw [h, List.foldl_cons, List.foldl_nil]
  exact ⟨congrArg (l.model.elements.insert · _) hname, rfl⟩

/-! ## Files that have been read -/

/-- **The text of a file that has been read does not matter any more.** -/
theorem follow_withText (hfile : (fs.files.lookup name).isSome) (hread : name ∈ l.read)
    (links : List Link) : follow (fs.withText name text) l links = follow fs l links := by
  induction l, links using follow_induction fs with
  | nil l => rw [follow_nil, follow_nil]
  | unreadable l link rest fault hfault =>
    have hfault' : (fs.withText name text).read link.address = .error fault := by
      rw [Files.read_withText hfile text, hfault]
      rfl
    rw [follow_unreadable hfault, follow_unreadable hfault']
  | known l link rest other old hfound hknown ih =>
    have hfound' := Files.read_withText hfile text link.address
    rw [hfound] at hfound'
    rw [follow_known hfound hknown, follow_known hfound' hknown, ih hread]
  | rejected l link rest other old e hfound hnew hrejected =>
    -- A file that has not been read is another one, so it has the same text.
    have hfound' := Files.read_withText_of_ne hfile text hfound
      (ne_of_mem_of_not_mem hread hnew).symm
    rw [follow_rejected hfound hnew hrejected, follow_rejected hfound' hnew hrejected]
  | taken l link rest other old document hfound hnew haccepted ih =>
    have hfound' := Files.read_withText_of_ne hfile text hfound
      (ne_of_mem_of_not_mem hread hnew).symm
    rw [follow_taken hfound hnew haccepted, follow_taken hfound' hnew haccepted]
    refine ih ?_
    rw [read_enter]
    exact List.mem_append_left _ hread

end Loading

end Specimen

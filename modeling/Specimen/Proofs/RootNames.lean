import Mathlib.Data.List.TakeDrop
import Mathlib.Data.List.TakeWhile
import Specimen.Name.Clark
import Specimen.Proofs.Entries
import Specimen.Proofs.Following

/-!
# Names of roots

The elements that a document may start with are listed by their names, with the namespace in braces,
and the root of a document is asked for in the same notation. A name that is listed is read back as
it was, with two exceptions. A name without braces is taken to be in the target namespace, if there
is one, so an element in no namespace cannot be named beside a target namespace. And a brace inside
of a namespace is taken for the end of it.
-/

namespace Specimen

/-! ## Blanks -/

theorem Text.trimChars_eq_self {cs : List Char} (hfirst : ∀ c ∈ cs.head?, isBlank c = false)
    (hlast : ∀ c ∈ cs.getLast?, isBlank c = false) : trimChars cs = cs := by
  have hkept {l : List Char} (h : ∀ c ∈ l.head?, isBlank c = false) : l.dropWhile isBlank = l := by
    cases l with
    | nil => rfl
    | cons c rest => rw [List.dropWhile_cons, h c rfl, if_neg Bool.false_ne_true]
  unfold trimChars trimStartChars
  rw [hkept hfirst, hkept (List.head?_reverse ▸ hlast), List.reverse_reverse]

/-- A character of a name is neither a blank nor a brace. -/
theorem apart_of_isNamePart {c : Char} (h : isNamePart c = true) :
    Text.isBlank c = false ∧ c ≠ '{' ∧ c ≠ '}' := by
  have hcode : c.toNat = 45 ∨ c.toNat = 46 ∨ (48 ≤ c.toNat ∧ c.toNat ≤ 57) ∨ c.toNat = 183
      ∨ isNameStart c = true := by
    simp only [isNamePart, Bool.or_eq_true, Bool.and_eq_true, beq_iff_eq, decide_eq_true_eq] at h
    rcases h with (((h | rfl) | rfl) | h) | h
    · exact .inr (.inr (.inr (.inr h)))
    · exact .inl rfl
    · exact .inr (.inl rfl)
    · exact .inr (.inr (.inl h))
    · exact .inr (.inr (.inr (.inl h)))
  have hne {d : Char} (h : c.toNat ≠ d.toNat) : c ≠ d := fun heq => h (heq ▸ rfl)
  simp [isNameStart, nameStartRuns] at hcode
  refine ⟨?_, hne ?_, hne ?_⟩
  · simp [Text.isBlank, Text.blankRuns]
    omega
  · simp
    omega
  · simp
    omega

/-! ## Reading a name -/

section

variable {name : String} {n : QName} {target : Option String}

theorem isNamePart_of_isNCName (h : isNCName name = true) : ∀ c ∈ name.toList, isNamePart c := by
  unfold isNCName at h
  split at h
  · cases h
  · next first rest heq =>
    rw [Bool.and_eq_true, List.all_eq_true] at h
    rw [heq]
    intro c hc
    rcases List.mem_cons.mp hc with rfl | hc
    · rw [isNamePart, h.1]
      rfl
    · exact h.2 c hc

theorem ne_nil_of_isNCName (h : isNCName name = true) : name.toList ≠ [] := by
  intro heq
  rw [isNCName, heq] at h
  cases h

theorem splitClark_of_ne {cs : List Char} (h : cs.head? ≠ some '{') : splitClark cs = none := by
  unfold splitClark
  split
  · exact absurd rfl h
  · rfl

/-- A local part alone is read as a name in the target namespace. -/
theorem readClark_localName (h : isNCName name = true) :
    readClark name target = .ok (QName.make target name) := by
  have hparts := isNamePart_of_isNCName h
  have htrim : Text.trim name = name := by
    rw [Text.trim, Text.trimChars_eq_self, String.ofList_toList]
    · exact fun c hc => (apart_of_isNamePart (hparts c (List.mem_of_head? hc))).1
    · exact fun c hc => (apart_of_isNamePart (hparts c (List.mem_of_getLast? hc))).1
  have hsplit : splitClark name.toList = none := splitClark_of_ne fun hhead =>
    (apart_of_isNamePart (hparts _ (List.mem_of_head? hhead))).2.1 rfl
  unfold readClark
  dsimp only
  rw [htrim, hsplit]
  dsimp only
  rw [checkNCName, if_pos h]
  rfl

/-- A URI that is cut off has no brace in it. -/
theorem not_brace_of_splitClark {cs uri localPart : List Char}
    (h : splitClark cs = some (uri, localPart)) : ∀ c ∈ uri, c ≠ '{' ∧ c ≠ '}' := by
  unfold splitClark at h
  split at h
  · next rest =>
    rw [List.span_eq_takeWhile_dropWhile] at h
    split at h
    · next hspan =>
      split at h
      · cases h
      · cases h
        intro c hc
        rw [← (Prod.mk.inj hspan).1] at hc
        have hbrace := List.mem_takeWhile_imp hc
        rw [Bool.and_eq_true, decide_eq_true_eq, decide_eq_true_eq] at hbrace
        exact hbrace
    · cases h
  · cases h

/-- A URI without a brace is cut off between the two braces around it. -/
theorem splitClark_braced {uri : List Char} (huri : ∀ c ∈ uri, c ≠ '{' ∧ c ≠ '}')
    (h : isNCName name = true) :
    splitClark ('{' :: (uri ++ '}' :: name.toList)) = some (uri, name.toList) := by
  have hkept : ∀ c ∈ uri, (c ≠ '{' && c ≠ '}') = true := fun c hc => by
    rw [decide_eq_true (huri c hc).1, decide_eq_true (huri c hc).2]
    rfl
  have hspan : (uri ++ '}' :: name.toList).span (fun c => c ≠ '{' && c ≠ '}')
      = (uri, '}' :: name.toList) := by
    rw [List.span_eq_takeWhile_dropWhile, List.takeWhile_append_of_pos hkept,
      List.dropWhile_append_of_pos hkept]
    exact congrArg (·, '}' :: name.toList) (List.append_nil uri)
  have hline : '\n' ∉ name.toList := fun hmem =>
    absurd (apart_of_isNamePart (isNamePart_of_isNCName h _ hmem)).1 (by decide)
  rw [splitClark, hspan]
  change (if name.toList.isEmpty || name.toList.contains '\n' then none
    else some (uri, name.toList)) = _
  rw [List.isEmpty_eq_false_iff.mpr (ne_nil_of_isNCName h), List.contains_eq_mem,
    decide_eq_false hline]
  rfl

/-! ## Names as they are listed -/

/-- What a name is printed as stands for this name only, in a schema with this target namespace or
with none. -/
def QName.IsUnambiguous (target : Option String) (n : QName) : Prop :=
  match n.uri with
  | none => target.filter (· ≠ "") = none
  | some uri => ∀ c ∈ uri.toList, c ≠ '{' ∧ c ≠ '}'

instance (target : Option String) : (n : QName) → Decidable (n.IsUnambiguous target)
  | ⟨none, _⟩ => inferInstanceAs (Decidable (target.filter (· ≠ "") = none))
  | ⟨some uri, _⟩ => List.decidableBAll (fun c => c ≠ '{' ∧ c ≠ '}') uri.toList

theorem toList_clark_qualified (uri name : String) :
    (QName.mk (some uri) name).clark.toList = '{' :: (uri.toList ++ '}' :: name.toList) := by
  rw [QName.clark, String.toList_append, String.toList_append, String.toList_append,
    List.append_assoc, List.append_assoc]
  rfl

theorem trim_clark_qualified (uri : String) (hname : isNCName name = true) :
    Text.trim (QName.mk (some uri) name).clark = (QName.mk (some uri) name).clark := by
  have hparts := isNamePart_of_isNCName hname
  rw [Text.trim, Text.trimChars_eq_self, String.ofList_toList]
  · rw [toList_clark_qualified]
    rintro c ⟨⟩
    decide
  · rw [toList_clark_qualified]
    intro c hc
    have hlast : name.toList.getLast? = some c := by
      rw [← List.cons_append, List.append_cons, List.getLast?_append_of_ne_nil _
        (ne_nil_of_isNCName hname)] at hc
      exact hc
    exact (apart_of_isNamePart (hparts c (List.mem_of_getLast? hlast))).1

/-- A name with a URI is read as no other name with a URI. -/
theorem readClark_clark_qualified_iff {uri : String} (huri : uri ≠ "")
    (hname : isNCName name = true) :
    readClark (QName.mk (some uri) name).clark target = .ok ⟨some uri, name⟩
      ↔ ∀ c ∈ uri.toList, c ≠ '{' ∧ c ≠ '}' := by
  unfold readClark
  dsimp only
  rw [trim_clark_qualified uri hname, toList_clark_qualified]
  constructor
  · intro h
    split at h
    · next own localPart hsplit =>
      unfold checkNCName at h
      split at h
      · have hown : String.ofList own = uri := by
          have hfilter : (some (String.ofList own)).filter (· ≠ "") = some uri :=
            congrArg QName.uri (Except.ok.inj h)
          exact Option.some.inj (Option.filter_eq_some_iff.mp hfilter).1
        rw [← hown, String.toList_ofList]
        exact not_brace_of_splitClark hsplit
      · cases h
    · unfold checkNCName at h
      split at h
      · next hcheck =>
        have hbrace := isNamePart_of_isNCName hcheck '{'
          (toList_clark_qualified uri name ▸ List.mem_cons_self)
        exact absurd hbrace (by decide)
      · cases h
  · intro h
    have hown : (some uri).filter (· ≠ "") = some uri :=
      Option.filter_eq_some_iff.mpr ⟨rfl, decide_eq_true huri⟩
    rw [splitClark_braced h hname]
    dsimp only
    rw [String.ofList_toList, String.ofList_toList, checkNCName, if_pos hname]
    exact congrArg (fun uri => Except.ok (QName.mk uri name)) hown

/-- **A name is read from what it is printed as exactly if it is unambiguous.** -/
theorem readClark_clark_iff (hproper : n.IsProper) (hname : isNCName n.localName = true) :
    readClark n.clark target = .ok n ↔ n.IsUnambiguous target := by
  obtain ⟨uri, name⟩ := n
  cases uri with
  | none =>
    rw [show (QName.mk none name).clark = name from rfl, readClark_localName hname]
    constructor
    · exact fun h => congrArg QName.uri (Except.ok.inj h)
    · exact fun h => congrArg (fun uri => Except.ok (QName.mk uri name)) h
  | some uri =>
    exact readClark_clark_qualified_iff (fun heq => hproper (congrArg some heq)) hname

end

/-! ## Roots of a schema -/

namespace Model

variable {m : Model} {n : QName}

/-- Schemas that are loaded, from a file or from a text. -/
inductive IsLoaded : Model → Prop
  | file {fs : Files} {address : Address} {m : Model} (h : Model.ofFile fs address = .ok m) :
    IsLoaded m
  | text {fs : Files} {text : String} {m : Model} (h : Model.ofText fs text = .ok m) : IsLoaded m

theorem IsLoaded.of_isKept {P : Model → Prop} (hP : Loading.IsKept P) (h : m.IsLoaded) : P m := by
  cases h with
  | file h => exact hP.gives_ofFile _ _ _ h
  | text h => exact hP.gives_ofText _ _ _ h

theorem mem_rootElements_of_get? {decl : ElementDecl} (h : m.elements.get? n = some decl)
    (habstract : decl.isAbstract = false) : n ∈ m.rootElements := by
  refine List.mem_map.mpr ⟨(n, decl), List.mem_filter.mpr ⟨Table.mem_of_get? h, ?_⟩, rfl⟩
  rw [habstract]
  rfl

theorem NamesElements.get?_of_mem_rootElements (h : m.NamesElements) (hn : n ∈ m.rootElements) :
    ∃ decl, m.elements.get? n = some decl ∧ decl.isAbstract = false := by
  obtain ⟨⟨name, decl⟩, hentry, rfl⟩ := List.mem_map.mp hn
  obtain ⟨hentry, habstract⟩ := List.mem_filter.mp hentry
  exact ⟨decl, h.distinct.get?_of_mem hentry, Bool.not_eq_true' _ ▸ habstract⟩

/-- **A root that is listed can be asked for by the name under which it is listed**, if this name is
unambiguous; and then a document starts with it. -/
theorem readClark_root (hm : m.IsLoaded) (hn : n ∈ m.rootElements)
    (hname : isNCName n.localName = true) :
    (readClark n.clark m.target = .ok n ↔ n.IsUnambiguous m.target)
      ∧ ∃ decl, m.rootElement n = .ok decl ∧ decl.name = n ∧ decl.isAbstract = false := by
  have hnames := hm.of_isKept Loading.isKept_namesElements
  obtain ⟨decl, hget, habstract⟩ := hnames.get?_of_mem_rootElements hn
  have hproper := hnames.proper n (Table.mem_names_of_get? hget)
  refine ⟨readClark_clark_iff hproper hname, decl, ?_, hnames.name_of_get? hget, habstract⟩
  rw [rootElement, hget]

/-- A schema with a target namespace, which imports another one. -/
def importing : String :=
  "<x:schema xmlns:x='http://www.w3.org/2001/XMLSchema' targetNamespace='urn:t'>"
    ++ "<x:import schemaLocation='d'/><x:element name='a' type='b'/></x:schema>"

/-- The schema without a target namespace that is imported. -/
def imported : String :=
  "<x:schema xmlns:x='http://www.w3.org/2001/XMLSchema'><x:element name='c' type='b'/></x:schema>"

theorem readTree_importing : Xml.readTree importing = some ⟨0, some "x", "schema",
    [⟨some "xmlns", "x", Namespace.xsd⟩, ⟨none, "targetNamespace", "urn:t"⟩],
    [.element ⟨77, some "x", "import", [⟨none, "schemaLocation", "d"⟩], []⟩,
      .element ⟨107, some "x", "element", [⟨none, "name", "a"⟩, ⟨none, "type", "b"⟩], []⟩]⟩ := by
  have hchars : importing.toList = _ :=
    Xml.toList_append_eq String.toList_ofList String.toList_ofList
  rw [Xml.readTree, hchars]
  decide +kernel

theorem readTree_imported : Xml.readTree imported = some ⟨0, some "x", "schema",
    [⟨some "xmlns", "x", Namespace.xsd⟩],
    [.element ⟨53, some "x", "element", [⟨none, "name", "c"⟩, ⟨none, "type", "b"⟩], []⟩]⟩ := by
  have hchars : imported.toList = _ := String.toList_ofList
  rw [Xml.readTree, hchars]
  decide +kernel

theorem exists_read_importing : ∃ main a,
    SchemaDocument.read none none importing = .ok main ∧ main.target = some "urn:t"
      ∧ main.links = [⟨⟨"d"⟩, none⟩] ∧ main.declarations = [.element a false]
      ∧ a.name = ⟨some "urn:t", "a"⟩ ∧ a.isAbstract = false := by
  rw [SchemaDocument.read_eq readTree_importing]
  exact ⟨_, _, rfl, rfl, rfl, rfl, rfl, rfl⟩

theorem exists_read_imported : ∃ document c,
    SchemaDocument.read (some ⟨"d"⟩) none imported = .ok document ∧ document.links = []
      ∧ document.declarations = [.element c false]
      ∧ c.name = QName.bare "c" ∧ c.isAbstract = false := by
  rw [SchemaDocument.read_eq readTree_imported]
  exact ⟨_, _, rfl, rfl, rfl, rfl, rfl⟩

/-- The two elements of a schema with a target namespace and one that it imports. -/
theorem exists_importing : ∃ m,
    Model.ofText { files := [(["d"], imported)] } importing = .ok m ∧ m.target = some "urn:t"
      ∧ ⟨some "urn:t", "a"⟩ ∈ m.rootElements ∧ QName.bare "c" ∈ m.rootElements := by
  obtain ⟨main, a, hmain, htarget, hlinks, hdeclared, ha, hna⟩ := exists_read_importing
  obtain ⟨document, c, hread, hend, hdeclared', hc, hnc⟩ := exists_read_imported
  let start : Loading := Loading.enter { read := [] } main
  let l : Loading := { start with model := { start.model with target := main.target } }
  let l' : Loading := Loading.enter { l with read := l.read ++ [["d"]] } document
  have hfollow : Loading.main { files := [(["d"], imported)] } [] main = .ok l' := by
    have hfound : ({ files := [(["d"], imported)] } : Files).read (Link.mk ⟨"d"⟩ none).address
        = .ok (["d"], imported) := by decide +kernel
    have hnew : ["d"] ∉ l.read := by
      rw [show l.read = [] from Loading.read_enter _ _]
      exact List.not_mem_nil
    have htaken : Loading.follow { files := [(["d"], imported)] } l [⟨⟨"d"⟩, none⟩] = _ :=
      Loading.follow_taken hfound hnew hread
    rw [Loading.main, hlinks, htaken, hend, List.append_nil, Loading.follow_nil]
  have hentered := Loading.elements_enter hdeclared { read := [] }
  have hentered' := Loading.elements_enter hdeclared' { l with read := l.read ++ [["d"]] }
  have hfinish : l'.finish = l'.model := by
    rw [Loading.finish, show l'.untyped = [] from hentered'.2.trans hentered.2]
    rfl
  have hload : Model.ofText { files := [(["d"], imported)] } importing = .ok l'.model := by
    unfold Model.ofText
    rw [hmain]
    change (do return (← Loading.main _ [] main).finish) = _
    rw [hfollow]
    exact congrArg Except.ok hfinish
  have hc' : l'.model.elements.get? (QName.bare "c") = some (c.numberFrom l.model.next).1 := by
    rw [hentered'.1, hc, Table.get?_insert, if_pos rfl]
  have ha' : l'.model.elements.get? ⟨some "urn:t", "a"⟩
      = some (a.numberFrom Model.builtin.next).1 := by
    rw [hentered'.1, hc, Table.get?_insert, if_neg (by decide)]
    change start.model.elements.get? _ = _
    rw [hentered.1, ha, Table.get?_insert, if_pos rfl]
  exact ⟨l'.model, hload, (Loading.target_enter _ document).trans htarget,
    mem_rootElements_of_get? ha' ((a.isAbstract_numberFrom _).trans hna),
    mem_rootElements_of_get? hc' ((c.isAbstract_numberFrom _).trans hnc)⟩

/-- A root that can be asked for by its name. -/
theorem readClark_root_importing : ∃ m,
    Model.ofText { files := [(["d"], imported)] } importing = .ok m
      ∧ ⟨some "urn:t", "a"⟩ ∈ m.rootElements ∧ isNCName "a" = true
      ∧ readClark "\x7burn:t\x7da" m.target = .ok ⟨some "urn:t", "a"⟩
      ∧ ∃ decl, m.rootElement ⟨some "urn:t", "a"⟩ = .ok decl ∧ decl.name = ⟨some "urn:t", "a"⟩
        ∧ decl.isAbstract = false := by
  obtain ⟨m, hload, -, ha, -⟩ := exists_importing
  have hname : isNCName "a" = true := by decide
  obtain ⟨hread, hdecl⟩ := readClark_root (.text hload) ha hname
  have hplain : ∀ c ∈ "urn:t".toList, c ≠ '\x7b' ∧ c ≠ '\x7d' := by simp
  exact ⟨m, hload, ha, hname, hread.mpr hplain, hdecl⟩

/-- **Beside a target namespace, an element in no namespace cannot be asked for by its name.** -/
theorem not_readClark_root_imported : ∃ m,
    Model.ofText { files := [(["d"], imported)] } importing = .ok m
      ∧ QName.bare "c" ∈ m.rootElements ∧ isNCName "c" = true
      ∧ readClark (QName.bare "c").clark m.target = .ok ⟨some "urn:t", "c"⟩
      ∧ QName.bare "c" ≠ ⟨some "urn:t", "c"⟩ := by
  obtain ⟨m, hload, htarget, -, hc⟩ := exists_importing
  have hname : isNCName "c" = true := by decide
  have hread : readClark (QName.bare "c").clark m.target = .ok ⟨some "urn:t", "c"⟩ := by
    rw [htarget]
    exact readClark_localName hname
  exact ⟨m, hload, hc, hname, hread, by decide⟩

end Model

end Specimen

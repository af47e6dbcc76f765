import Mathlib.Data.List.Nodup
import Specimen.Proofs.PrefixMap
import Specimen.Proofs.Tags

/-!
# Tags read as they were written

A tag is written with the prefixes of a sound map, for the name of its element, for those of its
attributes and for the namespaces that it declares. As long as every namespace in use is declared on
the tag or around it, and none twice, reading the tag gives every name back in full.
-/

namespace Specimen

open Markup

/-! ## What is added to a tag -/

namespace Markup

/-- What can be added to a tag: the declaration of a namespace, or an attribute. -/
inductive Entry where
  | declares (uri : String)
  | has (uri name value : String)
deriving DecidableEq, Repr

namespace Entry

/-- The namespace that is declared, or that the name of the attribute is in. -/
def uri : Entry → String
  | .declares uri => uri
  | .has uri _ _ => uri

def declared? : Entry → Option String
  | .declares uri => some uri
  | .has .. => none

def attribute? : Entry → Option (String × String × String)
  | .declares _ => none
  | .has uri name value => some (uri, name, value)

/-- An attribute with a local name that has no colon and cannot be taken for a declaration. -/
def IsPlain : Entry → Prop
  | .declares _ => True
  | .has uri name _ => ':' ∉ name.toList ∧ ¬(uri = "" ∧ name = "xmlns")

/-- What is written in the tag. -/
def write (ps : Prefixes) : Entry → String × String
  | .declares uri => ("xmlns:" ++ ps.pfx uri, uri)
  | .has uri name value => (qualify (ps.pfx uri) name, value)

/-- What is read from the tag. -/
def item (ps : Prefixes) : Entry → Item
  | .declares uri => .declares (ps.pfx uri) uri
  | .has uri name value => .has (ps.pfx uri) name value

theorem declared?_item (ps : Prefixes) (entry : Entry) :
    (entry.item ps).declared? = entry.declared?.map fun uri => (ps.pfx uri, uri) := by
  cases entry <;> rfl

theorem attribute?_item (ps : Prefixes) (entry : Entry) :
    (entry.item ps).attribute? = entry.attribute?.map fun attr => (ps.pfx attr.1, attr.2) := by
  cases entry <;> rfl

end Entry

end Markup

/-! ## Scopes -/

namespace Prefixes

/-- Declarations of namespaces, each with its prefix. -/
def scope (ps : Prefixes) (uris : List String) : Bindings := uris.map fun uri => (ps.pfx uri, uri)

/-- Namespaces that may be declared around a place: each has a prefix, comes once, and is not one
of those that need no declaration. -/
structure Declares (ps : Prefixes) (uris : List String) : Prop where
  nodup : uris.Nodup
  isSome : ∀ uri ∈ uris, (ps.get? uri).isSome
  lawful : ∀ uri ∈ uris, uri ≠ "" ∧ uri ≠ Namespace.xml ∧ uri ≠ Namespace.xmlns

/-- Names in a namespace may be used where these are declared. -/
def IsVisible (uris : List String) (uri : String) : Prop :=
  uri = "" ∨ uri = Namespace.xml ∨ uri ∈ uris

variable {ps : Prefixes} {uris : List String} {uri : String}

theorem IsVisible.mono {uris' : List String} (hsub : uris ⊆ uris') (h : IsVisible uris uri) :
    IsVisible uris' uri :=
  h.imp_right (Or.imp_right fun hmem => hsub hmem)

theorem Declares.of_suffix {uris' : List String} (h : ps.Declares (uris' ++ uris)) :
    ps.Declares uris where
  nodup := (List.nodup_append.mp h.nodup).2.1
  isSome := fun uri hmem => h.isSome uri (List.mem_append_right _ hmem)
  lawful := fun uri hmem => h.lawful uri (List.mem_append_right _ hmem)

theorem Declares.of_prefix {uris' : List String} (h : ps.Declares (uris ++ uris')) :
    ps.Declares uris where
  nodup := (List.nodup_append.mp h.nodup).1
  isSome := fun uri hmem => h.isSome uri (List.mem_append_left _ hmem)
  lawful := fun uri hmem => h.lawful uri (List.mem_append_left _ hmem)

/-- Declarations may stay where they are when prefixes are given out. -/
theorem Declares.mono {ps' : Prefixes} (hext : ps'.Extends ps) (h : ps.Declares uris) :
    ps'.Declares uris where
  nodup := h.nodup
  isSome := fun uri hmem => by
    obtain ⟨pfx, hget⟩ := Option.isSome_iff_exists.mp (h.isSome uri hmem)
    rw [hext uri pfx hget]
    rfl
  lawful := h.lawful

/-- A namespace may be declared where it is not. -/
theorem Declares.insert {uris' : List String} (h : ps.Declares (uris ++ uris'))
    (hsome : (ps.get? uri).isSome) (hne : uri ≠ "") (hxmlns : uri ≠ Namespace.xmlns)
    (hnot : ¬(uri = Namespace.xml ∨ uri ∈ uris ++ uris')) :
    ps.Declares (uris ++ [uri] ++ uris') := by
  have hmem {uri' : String} (hmem : uri' ∈ uris ++ [uri] ++ uris') :
      uri' = uri ∨ uri' ∈ uris ++ uris' := by
    simp only [List.mem_append, List.mem_singleton] at hmem ⊢
    tauto
  constructor
  · rw [List.append_assoc, List.singleton_append, List.nodup_middle]
    exact List.nodup_cons.mpr ⟨fun hin => hnot (.inr hin), h.nodup⟩
  · intro uri' hin
    rcases hmem hin with rfl | hin
    · exact hsome
    · exact h.isSome uri' hin
  · intro uri' hin
    rcases hmem hin with rfl | hin
    · exact ⟨hne, fun heq => hnot (.inl heq), hxmlns⟩
    · exact h.lawful uri' hin

theorem scope_eq {ps' : Prefixes} (hext : ps'.Extends ps)
    (hsome : ∀ uri ∈ uris, (ps.get? uri).isSome) : ps'.scope uris = ps.scope uris :=
  List.map_congr_left fun uri hmem => by rw [hext.pfx_eq (.inr (hsome uri hmem))]

theorem scope_append (ps : Prefixes) (uris uris' : List String) :
    ps.scope (uris ++ uris') = ps.scope uris ++ ps.scope uris' := List.map_append

theorem Declares.names (h : ps.Declares uris) : ∀ uri ∈ uris, ps.Names uri :=
  fun uri hmem => .inr (h.isSome uri hmem)

/-! ### What prefixes stand for -/

section
variable (hs : ps.IsSound) (hnames : ∀ uri ∈ uris, ps.Names uri)
include hs hnames

theorem IsSound.names_of_isVisible (h : IsVisible uris uri) : ps.Names uri := by
  rcases h with rfl | rfl | hmem
  · exact .inl rfl
  · exact hs.names_xml
  · exact hnames uri hmem

/-- **The prefix of a namespace that is declared stands for it.** -/
theorem IsSound.lookup_scope (hmem : uri ∈ uris) :
    (ps.scope uris).lookup (ps.pfx uri) = some uri := by
  induction uris with
  | nil => cases hmem
  | cons first rest ih =>
    have hfirst := hnames first List.mem_cons_self
    show List.lookup _ ((ps.pfx first, first) :: ps.scope rest) = _
    rw [List.lookup_cons]
    -- A nearer declaration of the same prefix is one of the same namespace.
    by_cases heq : ps.pfx uri = ps.pfx first
    · rw [heq, beq_self_eq_true]
      exact congrArg some (hs.pfx_injective hfirst (hnames uri hmem) heq.symm)
    · rw [beq_false_of_ne heq]
      have hrest : uri ∈ rest := by
        rcases List.mem_cons.mp hmem with rfl | hrest
        · exact absurd rfl heq
        · exact hrest
      exact ih (fun uri' hmem' => hnames uri' (List.mem_cons_of_mem _ hmem')) hrest

/-- A name without a prefix is in no namespace. -/
theorem IsSound.lookup_scope_empty : ((ps.scope uris).lookup "").getD "" = "" := by
  by_cases hmem : "" ∈ uris
  · have hlookup := hs.lookup_scope hnames hmem
    rw [pfx_empty] at hlookup
    rw [hlookup]
    rfl
  · rw [List.lookup_eq_none_iff.mpr]
    · rfl
    · intro d hd
      obtain ⟨uri, huri, rfl⟩ := List.mem_map.mp hd
      refine bne_iff_ne.mpr fun hempty : "" = ps.pfx uri => hmem ?_
      rwa [← (hs.pfx_eq_empty_iff (hnames uri huri)).mp hempty.symm]

theorem IsSound.uri?_scope (hne : uri ≠ "") (h : IsVisible uris uri) :
    (ps.scope uris).uri? (ps.pfx uri) = some uri := by
  rw [Bindings.uri?]
  split
  · rename_i hxml
    exact congrArg some ((hs.pfx_eq_xml_iff (hs.names_of_isVisible hnames h)).mp hxml).symm
  · rename_i hxml
    rcases h with hempty | rfl | hmem
    · exact absurd hempty hne
    · exact absurd hs.pfx_xml hxml
    · exact hs.lookup_scope hnames hmem

theorem IsSound.elementUri?_scope (h : IsVisible uris uri) :
    (ps.scope uris).elementUri? (ps.pfx uri) = some uri := by
  by_cases hne : uri = ""
  · subst hne
    rw [pfx_empty, Bindings.elementUri?, if_pos rfl, hs.lookup_scope_empty hnames]
  · have hpfx : ps.pfx uri ≠ "" :=
      mt (hs.pfx_eq_empty_iff (hs.names_of_isVisible hnames h)).mp hne
    rw [Bindings.elementUri?, if_neg hpfx]
    exact hs.uri?_scope hnames hne h

theorem IsSound.attributeUri?_scope (h : IsVisible uris uri) :
    (ps.scope uris).attributeUri? (ps.pfx uri) = some uri := by
  by_cases hne : uri = ""
  · subst hne
    rfl
  · have hpfx : ps.pfx uri ≠ "" :=
      mt (hs.pfx_eq_empty_iff (hs.names_of_isVisible hnames h)).mp hne
    rw [Bindings.attributeUri?, if_neg hpfx]
    exact hs.uri?_scope hnames hne h

end

section
variable (hs : ps.IsSound) (hd : ps.Declares uris)
include hs hd

theorem Declares.names_of_isVisible (h : IsVisible uris uri) : ps.Names uri :=
  hs.names_of_isVisible hd.names h

theorem Declares.mayDeclare_scope : MayDeclare (ps.scope uris) := by
  constructor
  · have hfst : (ps.scope uris).map Prod.fst = uris.map ps.pfx := by
      rw [scope, List.map_map]
      rfl
    rw [hfst]
    refine List.Nodup.map_on (fun uri hmem uri' hmem' heq => ?_) hd.nodup
    exact hs.pfx_injective (.inr (hd.isSome uri hmem)) (.inr (hd.isSome uri' hmem')) heq
  · intro d hmem
    obtain ⟨uri, huri, rfl⟩ := List.mem_map.mp hmem
    have hnames : ps.Names uri := .inr (hd.isSome uri huri)
    obtain ⟨hempty, -, hxmlns⟩ := hd.lawful uri huri
    exact ⟨fun _ => hempty, hs.pfx_eq_xml_iff hnames, hs.pfx_ne_xmlns hnames, hxmlns⟩

end

end Prefixes

/-! ## Reading a tag back -/

namespace Markup

open Prefixes

variable {ps : Prefixes}

/-- What was added to a tag is read as it was meant. -/
theorem Entry.read_write (hs : ps.IsSound) {entry : Entry} (hnames : ps.Names entry.uri)
    (hplain : entry.IsPlain) (hdeclared : ∀ uri, entry.declared? = some uri → uri ≠ "") :
    Item.read (entry.write ps) = some (entry.item ps) := by
  have hempty := hs.pfx_eq_empty_iff hnames
  cases entry with
  | declares uri =>
    exact Item.read_declaration (hs.colon_notMem hnames) (mt hempty.mp (hdeclared uri rfl)) uri
  | has uri name value =>
    have hdefault : ¬(ps.pfx uri = "" ∧ name = "xmlns") := fun h =>
      hplain.2 ⟨hempty.mp h.1, h.2⟩
    exact Item.read_attribute (hs.colon_notMem hnames) hplain.1 (hs.pfx_ne_xmlns hnames) hdefault
      value

/-- What was added to a tag does not declare a default namespace. -/
theorem Entry.write_ne_xmlns (hs : ps.IsSound) {entry : Entry} (hnames : ps.Names entry.uri)
    (hplain : entry.IsPlain) (hdeclared : ∀ uri, entry.declared? = some uri → uri ≠ "") :
    (entry.write ps).1 ≠ "xmlns" := by
  intro hname
  have hread := Entry.read_write hs hnames hplain hdeclared
  rw [Item.read, hname] at hread
  have hitem : entry.item ps = .declares "" (entry.write ps).2 := (Option.some.inj hread).symm
  cases entry with
  | declares uri =>
    have hpfx : ps.pfx uri = "" := (Item.declares.inj hitem).1
    exact hdeclared uri rfl ((hs.pfx_eq_empty_iff hnames).mp hpfx)
  | has uri name value => cases hitem

/-- What was written stays as it is when prefixes are given out. -/
theorem Entry.write_eq {ps' : Prefixes} (hext : ps'.Extends ps) {entry : Entry}
    (hnames : ps.Names entry.uri) : entry.write ps' = entry.write ps := by
  have hpfx := hext.pfx_eq hnames
  cases entry with
  | declares uri => exact congrArg (fun pfx => ("xmlns:" ++ pfx, uri)) hpfx
  | has uri name value => exact congrArg (fun pfx => (qualify pfx name, value)) hpfx

theorem mapM_eq_some {α β : Type} {f : α → Option β} {g : α → β} {l : List α}
    (h : ∀ a ∈ l, f a = some (g a)) : l.mapM f = some (l.map g) := by
  induction l with
  | nil => rfl
  | cons a l ih =>
    rw [List.mapM_cons, h a List.mem_cons_self, ih fun b hb => h b (List.mem_cons_of_mem _ hb)]
    rfl

section
variable {entries : List Entry} {outer : List String} (hs : ps.IsSound)
  (hd : ps.Declares (entries.filterMap Entry.declared? ++ outer))
  (hvisible : ∀ entry ∈ entries,
    IsVisible (entries.filterMap Entry.declared? ++ outer) entry.uri)
include hs hd hvisible

theorem items_write (hplain : ∀ entry ∈ entries, entry.IsPlain) :
    (entries.map (Entry.write ps)).mapM Item.read = some (entries.map (Entry.item ps)) := by
  rw [List.mapM_map]
  refine mapM_eq_some fun entry hmem => ?_
  have hnames := hd.names_of_isVisible hs (hvisible entry hmem)
  refine Entry.read_write hs hnames (hplain entry hmem) fun uri huri => ?_
  have hdeclared : uri ∈ entries.filterMap Entry.declared? :=
    List.mem_filterMap.mpr ⟨entry, hmem, huri⟩
  exact (hd.lawful uri (List.mem_append_left _ hdeclared)).1

theorem attributes_items :
    ((entries.map (Entry.item ps)).filterMap Item.attribute?).mapM
        (ps.scope (entries.filterMap Entry.declared? ++ outer)).attribute?
      = some (entries.filterMap Entry.attribute?) := by
  have hmap : (entries.map (Entry.item ps)).filterMap Item.attribute?
      = (entries.filterMap Entry.attribute?).map fun attr => (ps.pfx attr.1, attr.2) := by
    rw [List.filterMap_map, List.map_filterMap]
    exact List.filterMap_congr fun entry _ => entry.attribute?_item ps
  rw [hmap, List.mapM_map, mapM_eq_some (g := id), List.map_id]
  intro attr hmem
  obtain ⟨entry, hentry, hsome⟩ := List.mem_filterMap.mp hmem
  have huri : entry.uri = attr.1 := by
    cases entry with
    | declares _ => cases hsome
    | has _ _ _ => cases hsome; rfl
  have hattr := hs.attributeUri?_scope hd.names (huri ▸ hvisible entry hentry)
  show (Bindings.attributeUri? _ (ps.pfx attr.1)).map _ = _
  rw [hattr]
  rfl

/-- **A tag reads as it was written.** `outer` are the namespaces declared around it. -/
theorem readTag_write {uri name : String}
    (huri : IsVisible (entries.filterMap Entry.declared? ++ outer) uri) (hname : ':' ∉ name.toList)
    (hplain : ∀ entry ∈ entries, entry.IsPlain) :
    readTag (ps.scope outer) (qualify (ps.pfx uri) name) (entries.map (Entry.write ps))
      = some (ps.scope (entries.filterMap Entry.declared?),
          .start uri name (entries.filterMap Entry.attribute?)) := by
  have hdeclared : (entries.map (Entry.item ps)).filterMap Item.declared?
      = ps.scope (entries.filterMap Entry.declared?) := by
    rw [List.filterMap_map, Prefixes.scope, List.map_filterMap]
    exact List.filterMap_congr fun entry _ => entry.declared?_item ps
  have hparts := nameParts_qualify (hs.colon_notMem (hd.names_of_isVisible hs huri)) hname
  have hattributes := attributes_items hs hd hvisible
  have helement := hs.elementUri?_scope hd.names huri
  have hmay := hd.of_prefix.mayDeclare_scope hs
  rw [scope_append] at hattributes helement
  rw [readTag, items_write hs hd hvisible hplain]
  simp only [Option.bind_eq_bind, Option.bind_some, hdeclared, hparts, helement, hattributes,
    if_pos hmay]

end

end Markup

end Specimen

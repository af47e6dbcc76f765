import Specimen.Proofs.TagNames
import Specimen.Writer.Xml

/-!
# Declarations of the writer of XML

Which namespaces are declared around a place, and what asking for a prefix does there: a namespace
that is not declared yet is added to the tag that is held back, or waits for the next one. The rest
of the tag stays as it was, and so does everything that has been put already.
-/

namespace Specimen.XmlWriter

open Markup Prefixes

/-! ## Namespaces that are declared -/

/-- The namespaces that the tag that is held back declares. -/
def heldDeclared (w : XmlWriter) : List String :=
  match w.held with
  | some tag => tag.declared
  | none => []

/-- The namespaces that the open elements declare. -/
def outerDeclared (w : XmlWriter) : List String := w.opened.flatMap OpenElement.declared

/-- All namespaces that are declared, the nearest first. -/
def declared (w : XmlWriter) : List String := w.heldDeclared ++ w.outerDeclared

/-- What a tag declares comes before what is declared around it. -/
theorem declared_of_held {w : XmlWriter} {tag : HeldTag} (hheld : w.held = some tag) :
    w.declared = tag.declared ++ w.outerDeclared := by
  rw [declared, heldDeclared, hheld]

theorem declared_of_held_none {w : XmlWriter} (hheld : w.held = none) :
    w.declared = w.outerDeclared := by
  rw [declared, heldDeclared, hheld]
  rfl

theorem mem_heldDeclared {w : XmlWriter} {uri : String} :
    uri ∈ w.heldDeclared ↔ ∃ tag, w.held = some tag ∧ uri ∈ tag.declared := by
  rw [heldDeclared]
  cases w.held with
  | none => simp
  | some tag => simp

theorem isInScope_iff {w : XmlWriter} {uri : String} :
    w.isInScope uri = true ↔ uri = Namespace.xml ∨ uri ∈ w.declared := by
  have hheld : (match w.held with | some tag => tag.declared.contains uri | none => false) = true
      ↔ uri ∈ w.heldDeclared := by
    rw [mem_heldDeclared]
    cases w.held with
    | none => simp
    | some tag => simp
  have houter : w.opened.any (fun element => element.declared.contains uri) = true
      ↔ uri ∈ w.outerDeclared := by
    simp [outerDeclared]
  rw [isInScope, Bool.or_eq_true, Bool.or_eq_true, houter, beq_iff_eq, declared, List.mem_append,
    or_assoc, or_comm (a := uri ∈ w.outerDeclared)]
  exact or_congr_right (or_congr_left hheld)

/-- The prefixes belong to one namespace each, those of the declared namespaces are given out, and
the namespace of declarations is never declared. -/
structure IsSound (w : XmlWriter) : Prop where
  prefixes : w.prefixes.IsSound
  declares : w.prefixes.Declares w.declared
  awaited : Namespace.xmlns ∉ w.awaited

/-- The tag with this name is held back, and it is what was written for the entries. -/
structure Holds (w : XmlWriter) (name : String) (entries : List Entry) : Prop where
  held_eq : w.held
    = some ⟨name, entries.map (Entry.write w.prefixes), entries.filterMap Entry.declared?⟩
  isVisible : ∀ entry ∈ entries, IsVisible w.declared entry.uri
  isPlain : ∀ entry ∈ entries, entry.IsPlain

/-! ## Asking for a prefix -/

/-- The ways in which asking for a prefix may go: the prefix that is answered and the state then. -/
inductive Asks (w : XmlWriter) (uri : String) : String × XmlWriter → Prop where
  | none (hempty : uri = "") : Asks w uri ("", w)
  | declared (hne : uri ≠ "") (hin : uri = Namespace.xml ∨ uri ∈ w.declared) :
      Asks w uri ((w.prefixes.bind uri).1.1, { w with prefixes := (w.prefixes.bind uri).2 })
  | added {tag : HeldTag} (hne : uri ≠ "") (hnot : ¬(uri = Namespace.xml ∨ uri ∈ w.declared))
      (hheld : w.held = some tag) :
      Asks w uri ((w.prefixes.bind uri).1.1, { w with
        prefixes := (w.prefixes.bind uri).2
        held := some (HeldTag.declare tag (w.prefixes.bind uri).1.1 uri) })
  | awaited {awaited : List String} (hne : uri ≠ "") (hheld : w.held = Option.none)
      (hsub : awaited ⊆ uri :: w.awaited) :
      Asks w uri ((w.prefixes.bind uri).1.1, { w with
        prefixes := (w.prefixes.bind uri).2
        awaited })

theorem ensureDeclared_asks (w : XmlWriter) (uri : String) : w.Asks uri (w.ensureDeclared uri) := by
  rw [ensureDeclared]
  split
  · rename_i hempty
    exact .none hempty
  · rename_i hne
    have hscope := @isInScope_iff { w with prefixes := (w.prefixes.bind uri).2 } uri
    dsimp only
    split
    · rename_i hin
      exact .declared hne (hscope.mp hin)
    · rename_i hnot
      split
      · rename_i tag hheld
        exact .added hne (mt hscope.mpr hnot) hheld
      · rename_i hheld
        -- It waits for the next tag, unless it does so already.
        refine .awaited hne hheld ?_
        split
        · exact List.subset_cons_self _ _
        · intro uri' hmem
          simpa [or_comm] using hmem

/-! ## What asking keeps -/

/-- Prefixes have been given out, and declarations have been added. Nothing has been put, and the tag
that is held back has its name and attributes as before. -/
structure OnlyDeclares (w w' : XmlWriter) : Prop where
  isSound : w'.IsSound
  extends_prefixes : w'.prefixes.Extends w.prefixes
  frame : w' = { w with prefixes := w'.prefixes, held := w'.held, awaited := w'.awaited }
  held_eq_none : w'.held = none ↔ w.held = none
  subset : w.declared ⊆ w'.declared
  holds {name : String} {entries : List Entry} : w.Holds name entries →
    ∃ added, w'.Holds name (entries ++ added) ∧ added.filterMap Entry.attribute? = []

namespace OnlyDeclares

theorem refl {w : XmlWriter} (hs : w.IsSound) : w.OnlyDeclares w where
  isSound := hs
  extends_prefixes := .refl _
  frame := rfl
  held_eq_none := .rfl
  subset := List.Subset.refl _
  holds := fun h => ⟨[], by rwa [List.append_nil], rfl⟩

theorem trans {w w' w'' : XmlWriter} (h : w.OnlyDeclares w') (h' : w'.OnlyDeclares w'') :
    w.OnlyDeclares w'' where
  isSound := h'.isSound
  extends_prefixes := h'.extends_prefixes.trans h.extends_prefixes
  frame := by rw [h'.frame, h.frame]
  held_eq_none := h'.held_eq_none.trans h.held_eq_none
  subset := List.Subset.trans h.subset h'.subset
  holds := fun hholds => by
    obtain ⟨added, hholds, hadded⟩ := h.holds hholds
    obtain ⟨added', hholds, hadded'⟩ := h'.holds hholds
    refine ⟨added ++ added', by rwa [← List.append_assoc], ?_⟩
    rw [List.filterMap_append, hadded, hadded', List.append_nil]

end OnlyDeclares

/-- What is held back stays the same when prefixes are given out. -/
theorem IsSound.write_eq {w : XmlWriter} (hs : w.IsSound) {ps : Prefixes}
    (hext : ps.Extends w.prefixes) {entries : List Entry}
    (hvisible : ∀ entry ∈ entries, IsVisible w.declared entry.uri) :
    entries.map (Entry.write ps) = entries.map (Entry.write w.prefixes) :=
  List.map_congr_left fun entry hmem =>
    Entry.write_eq hext (hs.declares.names_of_isVisible hs.prefixes (hvisible entry hmem))

variable {w : XmlWriter} {tag : HeldTag} {uri : String}

theorem subset_insert (hheld : w.held = some tag) :
    w.declared ⊆ tag.declared ++ [uri] ++ w.outerDeclared := by
  rw [declared_of_held hheld]
  intro uri' hmem
  simp only [List.mem_append] at hmem ⊢
  tauto

/-- A tag holds what it held before, and one declaration more. -/
theorem Holds.declare (hs : w.IsSound) {name : String} {entries : List Entry}
    (h : w.Holds name entries) (hheld : w.held = some tag) (hne : uri ≠ "") :
    Holds { w with
      prefixes := (w.prefixes.bind uri).2
      held := some (HeldTag.declare tag (w.prefixes.bind uri).1.1 uri) } name
      (entries ++ [.declares uri]) := by
  have hpfx : (w.prefixes.bind uri).2.pfx uri = (w.prefixes.bind uri).1.1 :=
    pfx_of_get? hne (get?_bind _ _)
  have hsub : w.declared ⊆ tag.declared ++ [uri] ++ w.outerDeclared := subset_insert hheld
  obtain rfl : tag = _ := Option.some.inj (hheld.symm.trans h.held_eq)
  refine ⟨?_, ?_, ?_⟩
  · rw [List.map_append, List.filterMap_append,
      hs.write_eq (w.prefixes.bind_extends uri) h.isVisible, ← hpfx]
    rfl
  · intro entry hmem
    rcases List.mem_append.mp hmem with hmem | hmem
    · exact (h.isVisible entry hmem).mono hsub
    · rw [List.mem_singleton.mp hmem]
      exact .inr (.inr (by simp [declared, heldDeclared, HeldTag.declare, Entry.uri]))
  · intro entry hmem
    rcases List.mem_append.mp hmem with hmem | hmem
    · exact h.isPlain entry hmem
    · rw [List.mem_singleton.mp hmem]
      trivial

/-- **Asking for a prefix only declares.** -/
theorem IsSound.onlyDeclares (hs : w.IsSound) (hxmlns : uri ≠ Namespace.xmlns) :
    w.OnlyDeclares (w.ensureDeclared uri).2 := by
  have hasks := w.ensureDeclared_asks uri
  have hext := w.prefixes.bind_extends uri
  have hbind := hs.prefixes.bind uri
  generalize w.ensureDeclared uri = result at hasks ⊢
  cases hasks with
  | none _ => exact .refl hs
  | declared hne hin =>
    refine ⟨⟨hbind, hs.declares.mono hext, hs.awaited⟩, hext, rfl, .rfl, List.Subset.refl _,
      fun h => ⟨[], ?_, rfl⟩⟩
    rw [List.append_nil]
    -- A new prefix changes none of those that are in the tag.
    exact ⟨by rw [h.held_eq, hs.write_eq hext h.isVisible], h.isVisible, h.isPlain⟩
  | added hne hnot hheld =>
    have hget : ((w.prefixes.bind uri).2.get? uri).isSome := by
      rw [get?_bind]
      rfl
    have hdeclared := declared_of_held hheld
    have hd := hs.declares.mono hext
    rw [hdeclared] at hd hnot
    refine ⟨⟨hbind, hd.insert hget hne hxmlns hnot, hs.awaited⟩, hext, rfl, ?_,
      subset_insert hheld, fun h => ⟨[.declares uri], h.declare hs hheld hne, rfl⟩⟩
    rw [hheld]
    exact iff_of_false (Option.some_ne_none _) (Option.some_ne_none _)
  | awaited hne hheld hsub =>
    refine ⟨⟨hbind, hs.declares.mono hext, ?_⟩, hext, rfl, .rfl, List.Subset.refl _, fun h => ?_⟩
    · intro hmem
      rcases List.mem_cons.mp (hsub hmem) with heq | hmem
      · exact hxmlns heq.symm
      · exact hs.awaited hmem
    · -- There is no tag that anything could be held in.
      rw [Holds.held_eq h] at hheld
      cases hheld

/-- The answer is the prefix of the namespace from then on. -/
theorem ensureDeclared_fst (w : XmlWriter) (uri : String) :
    (w.ensureDeclared uri).1 = (w.ensureDeclared uri).2.prefixes.pfx uri := by
  have hasks := w.ensureDeclared_asks uri
  generalize w.ensureDeclared uri = result at hasks ⊢
  cases hasks with
  | none hempty => rw [hempty, pfx_empty]
  | declared hne _ => exact (pfx_of_get? hne (get?_bind _ _)).symm
  | added hne _ _ => exact (pfx_of_get? hne (get?_bind _ _)).symm
  | awaited hne _ _ => exact (pfx_of_get? hne (get?_bind _ _)).symm

/-- **In a tag that is held back, a namespace can be used once its prefix has been asked for.** -/
theorem isVisible_ensureDeclared (hheld : w.held ≠ none) (uri : String) :
    IsVisible (w.ensureDeclared uri).2.declared uri := by
  have hasks := w.ensureDeclared_asks uri
  generalize w.ensureDeclared uri = result at hasks ⊢
  cases hasks with
  | none hempty => exact .inl hempty
  | declared _ hin => exact .inr hin
  | added _ _ _ =>
    refine .inr (.inr ?_)
    simp [XmlWriter.declared, heldDeclared, HeldTag.declare]
  | awaited _ hnone _ => exact absurd hnone hheld

theorem IsSound.onlyDeclares_foldl (hs : w.IsSound) {uris : List String}
    (hxmlns : Namespace.xmlns ∉ uris) :
    w.OnlyDeclares (uris.foldl (fun w uri => (w.ensureDeclared uri).2) w) := by
  induction uris generalizing w with
  | nil => exact .refl hs
  | cons uri uris ih =>
    have hfirst := hs.onlyDeclares fun heq : uri = _ => hxmlns (heq ▸ List.mem_cons_self)
    exact hfirst.trans (ih hfirst.isSound fun hmem => hxmlns (List.mem_cons_of_mem _ hmem))

end Specimen.XmlWriter

import Specimen.Proofs.AttributeNames
import Specimen.Proofs.Loaded

/-!
# Entries of a schema

A table has one entry for each name. The elements of a schema that is loaded are entered under the
names of their declarations, and a name in no namespace is not spelled with an empty URI.
-/

namespace Specimen

/-! ## Tables -/

namespace Table

variable {α : Type} {name other : QName} {a : α}

/-- Every name has one entry only. -/
def IsDistinct (t : Table α) : Prop := t.names.Nodup

instance (t : Table α) : Decidable t.IsDistinct := inferInstanceAs (Decidable (List.Nodup _))

theorem map_fst_insertInto (name : QName) (a : α) (entries : List (QName × α)) :
    (insertInto name a entries).map Prod.fst
      = if name ∈ entries.map Prod.fst then entries.map Prod.fst
        else entries.map Prod.fst ++ [name] := by
  induction entries with
  | nil => rfl
  | cons entry rest ih =>
    rw [insertInto]
    split
    · next heq => rw [if_pos (heq ▸ List.mem_cons_self), List.map_cons, List.map_cons]
    · next hne =>
      rw [List.map_cons, ih, List.map_cons]
      have hcons : name ∈ entry.1 :: rest.map Prod.fst ↔ name ∈ rest.map Prod.fst :=
        ⟨fun h => (List.mem_cons.mp h).resolve_left (Ne.symm hne), List.mem_cons_of_mem _⟩
      rw [if_congr hcons rfl rfl]
      split <;> rfl

theorem IsDistinct.insert {t : Table α} (h : t.IsDistinct) (name : QName) (a : α) :
    (t.insert name a).IsDistinct := by
  unfold IsDistinct names Table.insert at *
  rw [map_fst_insertInto]
  split
  · exact h
  · next hnew => exact h.append (List.nodup_singleton name) (List.disjoint_singleton.mpr hnew)

/-- An entry of a table after another one has been made. -/
theorem mem_insertInto_iff {entries : List (QName × α)} {entry : QName × α}
    (h : entry ∈ insertInto name a entries) : entry = (name, a) ∨ entry ∈ entries := by
  induction entries with
  | nil => exact .inl (List.mem_singleton.mp h)
  | cons first rest ih =>
    rw [insertInto] at h
    split at h
    · next heq =>
      rcases List.mem_cons.mp h with rfl | h
      · exact .inl (by rw [heq])
      · exact .inr (List.mem_cons_of_mem _ h)
    · rcases List.mem_cons.mp h with rfl | h
      · exact .inr List.mem_cons_self
      · exact (ih h).imp_right (List.mem_cons_of_mem _)

/-- What is entered under a name is what it stands for. -/
theorem IsDistinct.get?_of_mem {t : Table α} (h : t.IsDistinct) (hmem : (name, a) ∈ t.entries) :
    t.get? name = some a := by
  unfold IsDistinct names at h
  unfold get?
  obtain ⟨before, behind, heq⟩ := List.append_of_mem hmem
  rw [heq] at h ⊢
  rw [List.map_append, List.map_cons] at h
  have hbefore : name ∉ before.map Prod.fst := fun hin =>
    (List.nodup_append.mp h).2.2 name hin name List.mem_cons_self rfl
  refine List.lookup_eq_some_iff.mpr ⟨before, behind, rfl, fun entry hentry => ?_⟩
  exact bne_iff_ne.mpr fun hname => hbefore (hname ▸ List.mem_map_of_mem hentry)

end Table

/-! ## Elements -/

namespace Model

/-- The elements are entered under the names of their declarations, each name once, and none of the
names spells "no namespace" as an empty URI. -/
structure NamesElements (m : Model) : Prop where
  distinct : m.elements.IsDistinct
  name : ∀ entry ∈ m.elements.entries, entry.2.name = entry.1
  proper : ∀ name ∈ m.elements.names, name.IsProper

variable {m : Model}

theorem NamesElements.name_of_get? (h : m.NamesElements) {name : QName} {decl : ElementDecl}
    (hget : m.elements.get? name = some decl) : decl.name = name :=
  h.name _ (Table.mem_of_get? hget)

theorem NamesElements.insert (h : m.NamesElements) {decl : ElementDecl} (next : Nat)
    (hproper : decl.name.IsProper) :
    ({ m with elements := m.elements.insert decl.name decl, next } : Model).NamesElements where
  distinct := h.distinct.insert _ _
  name entry hentry := by
    rcases Table.mem_insertInto_iff hentry with rfl | hentry
    · rfl
    · exact h.name entry hentry
  proper name hname := by
    obtain ⟨entry, hentry, rfl⟩ := List.mem_map.mp hname
    rcases Table.mem_insertInto_iff hentry with rfl | hentry
    · exact hproper
    · exact h.proper _ (List.mem_map_of_mem hentry)

end Model

theorem ElementDecl.name_numberFrom (decl : ElementDecl) (n : Nat) :
    (decl.numberFrom n).1.name = decl.name := by
  cases decl
  rfl

theorem ElementDecl.isAbstract_numberFrom (decl : ElementDecl) (n : Nat) :
    (decl.numberFrom n).1.isAbstract = decl.isAbstract := by
  cases decl
  rfl

/-- The name of a global element that is read is proper. -/
theorem gives_readDeclaration_isProper_name (s : DocumentSetting) (node : SchemaNode) :
    Gives (readDeclaration s node) fun read => ∀ decl inheritsType,
      read = some (.element decl inheritsType) → decl.name.IsProper := by
  unfold readDeclaration
  -- Only a global element is read as one; its name is made with the URI that stands for its
  -- namespace.
  split
  · unfold readGlobalElement
    refine Gives.bind (P := fun declaration => ∀ decl inheritsType,
      declaration = .element decl inheritsType → decl.name.IsProper) ?_ ?_
    · refine .bind_of_forall fun name => .bind_of_forall fun head => .bind_of_forall fun type =>
        .ok ?_
      rintro _ _ ⟨⟩
      exact QName.isProper_make _ _
    · exact fun declaration h => .ok fun decl inheritsType heq => h _ _ (Option.some.inj heq)
  · exact .bind_of_forall fun _ => .bind_of_forall fun _ => .ok nofun
  · exact .bind_of_forall fun _ => .bind_of_forall fun _ => .ok nofun
  · unfold readGlobalAttribute
    refine Gives.bind (P := fun declaration => ∀ decl inheritsType,
      declaration ≠ .element decl inheritsType) ?_ ?_
    · exact .bind_of_forall fun _ => .bind_of_forall fun _ => .bind_of_forall fun _ => .ok nofun
    · exact fun declaration h => .ok fun decl inheritsType heq =>
        absurd (Option.some.inj heq) (h _ _)
  · exact .bind_of_forall fun _ => .bind_of_forall fun _ => .ok nofun
  · exact .bind_of_forall fun _ => .bind_of_forall fun _ => .ok nofun
  · exact .ok nofun

/-- **The elements of a schema that is loaded are entered under their names.** -/
theorem Loading.isKept_namesElements : IsKept Model.NamesElements where
  builtin := ⟨by decide +kernel, by decide +kernel, by decide +kernel⟩
  target h _ := ⟨h.distinct, h.name, h.proper⟩
  register {l s node declaration} hread h := by
    cases declaration with
    | element decl inheritsType =>
      have hproper := gives_readDeclaration_isProper_name s node _ hread decl inheritsType rfl
      exact h.insert _ (decl.name_numberFrom l.model.next ▸ hproper)
    | type | attr | attributeGroup | group => exact ⟨h.distinct, h.name, h.proper⟩
  inheritType {m} h untyped name := by
    unfold inheritType
    split
    · exact h
    · next decl hdecl =>
      split
      · exact h
      · next type _ =>
        have hproper : decl.name.IsProper :=
          h.name_of_get? hdecl ▸ h.proper name (Table.mem_names_of_get? hdecl)
        exact @Model.NamesElements.insert m h { decl with type } m.next hproper

end Specimen

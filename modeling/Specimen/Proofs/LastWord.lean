import Mathlib.Data.List.Induction
import Specimen.Proofs.AttributeNames

/-!
# The last word on an attribute

The attributes in effect are found by going down the derivation of a type from its base, and through
each attribute list use by use: a use takes the place of its name, or a new one at the end, and a
prohibited one takes its name away. What comes out can be said without these steps. All uses of a
type and of its bases stand in one row, those of the outermost base first, and a reference to a
group gives way to the entries of the group. The last use of a name in this row decides whether the
attribute is in effect, and how. It stands where its name has come up first since it was prohibited
for the last time.
-/

namespace Specimen

/-! ## Rows of uses -/

/-- A use of an attribute and the declaration that it is about. -/
structure DeclaredUse where
  use : AttributeUse
  decl : AttributeDecl

namespace DeclaredUse

/-- The name of the attribute. -/
def name (u : DeclaredUse) : QName := u.decl.name

/-- The use says that the attribute may not be present. -/
def IsProhibited (u : DeclaredUse) : Prop := u.use.mode = .prohibited

instance (u : DeclaredUse) : Decidable u.IsProhibited := inferInstanceAs (Decidable (_ = _))

/-- The attribute is as the use has it. A constraint of the use goes before that of the declaration.
-/
structure PutsInEffect (u : DeclaredUse) (attr : EffectiveAttribute) : Prop where
  decl : attr.decl = u.decl
  isRequired : attr.isRequired = true ↔ u.use.mode = .required
  constraint : attr.constraint
    = if u.use.constraint = .free then u.decl.constraint else u.use.constraint

/-- The mode of the use, and its attribute. -/
def entry (u : DeclaredUse) : UseMode × EffectiveAttribute :=
  (u.use.mode, ⟨u.decl, u.use.mode == .required, u.use.constraint.orElse u.decl.constraint⟩)

theorem name_entry (u : DeclaredUse) : u.entry.2.name = u.name := rfl

theorem putsInEffect_entry (u : DeclaredUse) : u.PutsInEffect u.entry.2 where
  decl := rfl
  isRequired := beq_iff_eq
  constraint := by
    show u.use.constraint.orElse u.decl.constraint = _
    cases u.use.constraint <;> simp [ValueConstraint.orElse]

end DeclaredUse

namespace Model

variable {m : Model}

/-- The uses of an attribute list in their order. A reference to a group gives way to the entries of
the group. -/
inductive Expands (m : Model) : List AttributeItem → List DeclaredUse → Prop
  | nil : Expands m [] []
  | use {use : AttributeUse} {decl : AttributeDecl} {rest : List AttributeItem}
      {row : List DeclaredUse} (hd : m.resolveAttribute use.target = .ok decl)
      (h : Expands m rest row) : Expands m (.use use :: rest) (⟨use, decl⟩ :: row)
  | group {name : QName} {group : AttributeGroup} {rest : List AttributeItem}
      {row : List DeclaredUse} (hg : m.attributeGroups.get? name = some group)
      (h : Expands m (group.items ++ rest) row) : Expands m (.group name :: rest) row

/-- The uses of a type: those of its base come before its own. -/
inductive UsesOf (m : Model) : ComplexType → List DeclaredUse → Prop
  | first {type : ComplexType} {own : List DeclaredUse} (h : m.baseType? type = none)
      (ho : m.Expands type.attributes own) : UsesOf m type own
  | derived {type base : ComplexType} {inherited own : List DeclaredUse}
      (h : m.baseType? type = some base) (hb : UsesOf m base inherited)
      (ho : m.Expands type.attributes own) : UsesOf m type (inherited ++ own)

theorem Expands.append {items items' : List AttributeItem} {row row' : List DeclaredUse}
    (h : m.Expands items row) (h' : m.Expands items' row') :
    m.Expands (items ++ items') (row ++ row') := by
  induction h with
  | nil => exact h'
  | use hd _ ih => exact .use hd ih
  | group hg _ ih =>
    rw [List.append_assoc] at ih
    exact .group hg ih

theorem Expands.unique {items : List AttributeItem} {row other : List DeclaredUse}
    (h : m.Expands items row) (h' : m.Expands items other) : other = row := by
  induction h generalizing other with
  | nil =>
    cases h'
    rfl
  | use hd _ ih =>
    cases h' with
    | use hd' h' =>
      obtain rfl := Except.ok.inj (hd.symm.trans hd')
      rw [ih h']
  | group hg _ ih =>
    cases h' with
    | group hg' h' =>
      obtain rfl := Option.some.inj (hg.symm.trans hg')
      exact ih h'

theorem UsesOf.unique {type : ComplexType} {row other : List DeclaredUse} (h : m.UsesOf type row)
    (h' : m.UsesOf type other) : other = row := by
  induction h generalizing other with
  | first h ho =>
    cases h' with
    | first _ ho' => exact ho.unique ho'
    | derived h' => cases h.symm.trans h'
  | derived h _ ho ih =>
    cases h' with
    | first h' => cases h.symm.trans h'
    | derived h' hb' ho' =>
      obtain rfl := Option.some.inj (h.symm.trans h')
      rw [ih hb', ho.unique ho']

/-! ### Rows that are gone through -/

theorem gives_effectiveAttribute (use : AttributeUse) :
    Gives (m.effectiveAttribute use) fun attr =>
      ∃ decl, m.resolveAttribute use.target = .ok decl
        ∧ (use.mode, attr) = DeclaredUse.entry ⟨use, decl⟩ := by
  unfold effectiveAttribute
  exact Gives.bind (P := fun decl => m.resolveAttribute use.target = .ok decl) (fun _ h => h)
    fun decl hdecl => .ok ⟨decl, hdecl, rfl⟩

/-- Entries that are gone through one after another. -/
theorem gives_mapM_expands {f : AttributeItem → Except Error (List (UseMode × EffectiveAttribute))}
    (hf : ∀ item, Gives (f item) fun uses =>
      ∃ row, m.Expands [item] row ∧ uses = row.map DeclaredUse.entry) (items : List AttributeItem) :
    Gives (List.flatten <$> items.mapM f) fun uses =>
      ∃ row, m.Expands items row ∧ uses = row.map DeclaredUse.entry := by
  refine Gives.map (P := fun lists => ∃ row, m.Expands items row
    ∧ lists.flatten = row.map DeclaredUse.entry) ?_ fun _ h => h
  induction items with
  | nil => exact .ok ⟨[], .nil, rfl⟩
  | cons item rest ih =>
    rw [List.mapM_cons]
    refine (hf item).bind fun uses ⟨row, hrow, huses⟩ => ?_
    refine ih.bind fun lists ⟨row', hrow', hlists⟩ => .ok ⟨row ++ row', hrow.append hrow', ?_⟩
    rw [List.flatten_cons, huses, hlists, List.map_append]

theorem gives_flattenItem_expands (steps : Nat) (item : AttributeItem) :
    Gives (m.flattenItem steps item) fun uses =>
      ∃ row, m.Expands [item] row ∧ uses = row.map DeclaredUse.entry := by
  have huse (use : AttributeUse) : Gives (do
      let attr ← m.effectiveAttribute use
      return [(use.mode, attr)]) fun uses =>
        ∃ row, m.Expands [.use use] row ∧ uses = row.map DeclaredUse.entry := by
    refine (gives_effectiveAttribute use).bind fun attr ⟨decl, hdecl, hattr⟩ => .ok ?_
    exact ⟨[⟨use, decl⟩], .use hdecl .nil, by rw [hattr]; rfl⟩
  induction steps generalizing item with
  | zero =>
    cases item with
    | use use => exact huse use
    | group name => exact .error _
  | succ steps ih =>
    cases item with
    | use use => exact huse use
    | group name =>
      refine Gives.bind (fun _ hgroup => get?_of_resolveAttributeGroup hgroup)
        fun group hget uses huses => ?_
      obtain ⟨row, hrow, rfl⟩ := gives_mapM_expands ih group.items uses huses
      exact ⟨row, .group hget (by rwa [List.append_nil]), rfl⟩

/-- The attributes are what the row of uses makes of none. -/
theorem gives_attributesWithin_usesOf (steps : Nat) (type : ComplexType) :
    Gives (m.attributesWithin steps type) fun attrs =>
      ∃ row, m.UsesOf type row ∧ attrs = (row.map DeclaredUse.entry).foldl applyUse [] := by
  intro attrs h
  induction steps using Nat.strongRecOn generalizing type attrs with
  | ind steps ih =>
    obtain ⟨_, own, hitems, rfl, hbase⟩ := attributesWithin_cases h
    obtain ⟨row, hrow, rfl⟩ := gives_mapM_expands (gives_flattenItem_expands _) _ own hitems
    -- The own uses change what the inherited ones have made of none.
    rcases hbase with ⟨rfl, hbase⟩ | ⟨n, base, rfl, hbase, hinherited⟩
    · exact ⟨row, .first hbase hrow, rfl⟩
    · obtain ⟨inherited, huses, rfl⟩ := ih n n.lt_succ_self base _ hinherited
      refine ⟨inherited ++ row, .derived hbase huses hrow, ?_⟩
      rw [List.map_append, List.foldl_append]

end Model

/-! ## What the last use of a name says -/

namespace DeclaredUse

variable {row : List DeclaredUse} {name : QName} {u v : DeclaredUse}

/-- The last use of a name in a row. -/
def IsLast (row : List DeclaredUse) (name : QName) (u : DeclaredUse) : Prop :=
  ∃ before after, row = before ++ u :: after ∧ u.name = name ∧ ∀ v ∈ after, v.name ≠ name

/-- The place in a row of the first use of a name after the last one that prohibits it. -/
def StartsAt (row : List DeclaredUse) (name : QName) (i : Nat) : Prop :=
  ∃ before u after, row = before ++ u :: after ∧ before.length = i ∧ u.name = name
    ∧ (∀ v, IsLast before name v → v.IsProhibited)
    ∧ ∀ v ∈ u :: after, v.name = name → ¬v.IsProhibited

/-- One name starts before the other. -/
def StartsBefore (row : List DeclaredUse) (name name' : QName) : Prop :=
  ∃ i j, StartsAt row name i ∧ StartsAt row name' j ∧ i < j

/-- One more use is the last one of its name, and of no other. -/
theorem isLast_concat_iff :
    IsLast (row ++ [u]) name v ↔ if u.name = name then v = u else IsLast row name v := by
  split
  · next hname =>
    refine ⟨?_, fun h => ⟨row, [], by rw [h], by rw [h, hname], nofun⟩⟩
    rintro ⟨before, after, heq, -, hafter⟩
    -- Either nothing stands behind the last use, or the appended one is among what does.
    rcases List.eq_nil_or_concat after with rfl | ⟨rest, last, rfl⟩
    · exact (List.cons.inj (List.append_inj_right' heq rfl)).1.symm
    · rw [List.concat_eq_append, ← List.cons_append, ← List.append_assoc] at heq
      obtain rfl := (List.cons.inj (List.append_inj_right' heq rfl)).1
      exact absurd hname (hafter u (by simp))
  · next hname =>
    constructor
    · rintro ⟨before, after, heq, hv, hafter⟩
      rcases List.eq_nil_or_concat after with rfl | ⟨rest, last, rfl⟩
      · obtain rfl := (List.cons.inj (List.append_inj_right' heq rfl)).1
        exact absurd hv hname
      · rw [List.concat_eq_append, ← List.cons_append, ← List.append_assoc] at heq
        exact ⟨before, rest, List.append_inj_left' heq rfl, hv, fun w hw => hafter w (by simp [hw])⟩
    · rintro ⟨before, after, rfl, hv, hafter⟩
      refine ⟨before, after ++ [u], by simp, hv, fun w hw => ?_⟩
      rcases List.mem_append.mp hw with hw | hw
      · exact hafter w hw
      · exact List.mem_singleton.mp hw ▸ hname

theorem IsLast.append_left (h : IsLast row name u) (more : List DeclaredUse) :
    IsLast (more ++ row) name u := by
  obtain ⟨before, after, rfl, hu, hafter⟩ := h
  exact ⟨more ++ before, after, by rw [List.append_assoc], hu, hafter⟩

/-- A name that is used has a last use. -/
theorem exists_isLast (row : List DeclaredUse) (h : ∃ u ∈ row, u.name = name) :
    ∃ u ∈ row, IsLast row name u := by
  induction row using List.reverseRecOn with
  | nil =>
    obtain ⟨u, hmem, -⟩ := h
    cases hmem
  | append_singleton row last ih =>
    by_cases hlast : last.name = name
    · exact ⟨last, by simp, isLast_concat_iff.mpr (by rw [if_pos hlast])⟩
    · obtain ⟨u, hmem, hu⟩ := h
      rcases List.mem_append.mp hmem with hmem | hmem
      · obtain ⟨v, hv, hisLast⟩ := ih ⟨u, hmem, hu⟩
        exact ⟨v, List.mem_append_left _ hv, isLast_concat_iff.mpr (by rwa [if_neg hlast])⟩
      · exact absurd (List.mem_singleton.mp hmem ▸ hu) hlast

/-- The last use of a name is one only. -/
theorem IsLast.unique (h : IsLast row name u) (h' : IsLast row name v) : v = u := by
  induction row using List.reverseRecOn with
  | nil =>
    obtain ⟨before, after, heq, -⟩ := h
    simp at heq
  | append_singleton row last ih =>
    rw [isLast_concat_iff] at h h'
    by_cases hlast : last.name = name
    · rw [if_pos hlast] at h h'
      rw [h, h']
    · rw [if_neg hlast] at h h'
      exact ih h h'

theorem StartsAt.le {i j : Nat} (h : StartsAt row name i) (h' : StartsAt row name j) : j ≤ i := by
  by_contra hlt
  obtain ⟨before, u, after, hrow, hi, hu, -, hafter⟩ := h
  obtain ⟨before', u', after', hrow', hj, -, hbefore', -⟩ := h'
  -- What stands from the first place to the second one holds the name, and prohibits it nowhere.
  obtain ⟨between, rfl, hbetween⟩ : ∃ between, before' = before ++ between
      ∧ u :: after = between ++ u' :: after' := by
    rcases List.append_eq_append_iff.mp (hrow.symm.trans hrow') with h | ⟨more, rfl, -⟩
    · exact h
    · rw [List.length_append] at hi
      omega
  cases between with
  | nil => simp_all
  | cons first rest =>
    obtain ⟨rfl, rfl⟩ := List.cons.inj hbetween
    obtain ⟨v, hmem, hlast⟩ := exists_isLast (u :: rest) ⟨u, List.mem_cons_self, hu⟩
    have hprohibited := hbefore' v (hlast.append_left before)
    obtain ⟨_, _, -, hv, -⟩ := hlast
    exact hafter v (List.mem_append_left (u' :: after') hmem) hv hprohibited

/-- A name starts at one place only. -/
theorem StartsAt.existsUnique {i : Nat} (h : StartsAt row name i) : ∃! i, StartsAt row name i :=
  ⟨i, h, fun _ h' => Nat.le_antisymm (h.le h') (h'.le h)⟩

/-- One more use leaves the places of names, unless it prohibits its own. -/
theorem StartsAt.concat {i : Nat} (h : StartsAt row name i)
    (hu : u.name = name → ¬u.IsProhibited) : StartsAt (row ++ [u]) name i := by
  obtain ⟨before, first, after, rfl, hi, hname, hbefore, hafter⟩ := h
  refine ⟨before, first, after ++ [u], by simp, hi, hname, hbefore, fun v hv => ?_⟩
  rw [← List.cons_append] at hv
  rcases List.mem_append.mp hv with hv | hv
  · exact hafter v hv
  · obtain rfl := List.mem_singleton.mp hv
    exact hu

theorem StartsBefore.concat {name' : QName} (h : StartsBefore row name name')
    (hu : u.name = name → ¬u.IsProhibited) (hu' : u.name = name' → ¬u.IsProhibited) :
    StartsBefore (row ++ [u]) name name' := by
  obtain ⟨i, j, hi, hj, hlt⟩ := h
  exact ⟨i, j, hi.concat hu, hj.concat hu', hlt⟩

theorem StartsAt.lt {i : Nat} (h : StartsAt row name i) : i < row.length := by
  obtain ⟨before, first, after, rfl, rfl, -⟩ := h
  simp

/-- A use starts its name if that has not been used, or was prohibited last. -/
theorem startsAt_concat (hrow : ∀ v, IsLast row u.name v → v.IsProhibited)
    (hu : ¬u.IsProhibited) : StartsAt (row ++ [u]) u.name row.length :=
  ⟨row, u, [], rfl, rfl, rfl, hrow, List.forall_mem_singleton.mpr fun _ => hu⟩

end DeclaredUse

open DeclaredUse

/-- These attributes are in effect by the last use of their name: every name once, just those whose
last use does not prohibit them, as that use has them, and ordered by the first use since they were
prohibited for the last time. -/
structure LastWord (row : List DeclaredUse) (attrs : List EffectiveAttribute) : Prop where
  nodup : (attrs.map EffectiveAttribute.name).Nodup
  mem_iff (name : QName) : name ∈ attrs.map EffectiveAttribute.name
    ↔ ∃ u, IsLast row name u ∧ ¬u.IsProhibited
  inEffect : ∀ attr ∈ attrs, ∃ u, IsLast row attr.name u ∧ u.PutsInEffect attr
  starts : ∀ name ∈ attrs.map EffectiveAttribute.name, ∃! i, StartsAt row name i
  ordered : (attrs.map EffectiveAttribute.name).Pairwise (StartsBefore row)

namespace LastWord

variable {row : List DeclaredUse} {attrs : List EffectiveAttribute}

theorem nil : LastWord [] [] where
  nodup := .nil
  mem_iff name := ⟨fun h => absurd h List.not_mem_nil, fun ⟨_, ⟨_, _, h, _⟩, _⟩ => by simp at h⟩
  inEffect := nofun
  starts := nofun
  ordered := .nil

/-- Where the last use of a name prohibits it, no attribute of this name is in effect. -/
theorem not_mem (h : LastWord row attrs) {u : DeclaredUse} (hu : u.IsProhibited)
    (hlast : IsLast row u.name u) : u.name ∉ attrs.map EffectiveAttribute.name := by
  intro hmem
  obtain ⟨v, hv, hnot⟩ := (h.mem_iff u.name).mp hmem
  exact hnot (hlast.unique hv ▸ hu)

/-- A use that prohibits its name takes it away. -/
theorem prohibited (h : LastWord row attrs) {u : DeclaredUse} (hu : u.IsProhibited) :
    LastWord (row ++ [u]) (Model.dropAttribute u.name attrs) where
  nodup := by
    rw [Model.map_name_dropAttribute]
    exact h.nodup.erase _
  mem_iff name := by
    rw [Model.map_name_dropAttribute, h.nodup.mem_erase_iff, h.mem_iff]
    simp only [isLast_concat_iff]
    split
    · next hname =>
      refine iff_of_false (fun hne => hne.1 hname.symm) ?_
      rintro ⟨v, rfl, hv⟩
      exact hv hu
    · next hname => exact and_iff_right (Ne.symm hname)
  inEffect attr hattr := by
    have hname : attr.name ≠ u.name := by
      have hmem := List.mem_map_of_mem (f := EffectiveAttribute.name) hattr
      rw [Model.map_name_dropAttribute, h.nodup.mem_erase_iff] at hmem
      exact hmem.1
    obtain ⟨v, hlast, hv⟩ := h.inEffect attr (Model.dropAttribute_subset _ _ hattr)
    exact ⟨v, isLast_concat_iff.mpr (by rwa [if_neg (Ne.symm hname)]), hv⟩
  starts name hname := by
    rw [Model.map_name_dropAttribute, h.nodup.mem_erase_iff] at hname
    obtain ⟨i, hi, -⟩ := h.starts name hname.2
    exact (hi.concat fun heq => absurd heq.symm hname.1).existsUnique
  ordered := by
    rw [Model.map_name_dropAttribute]
    refine (h.ordered.sublist List.erase_sublist).imp_of_mem fun {name name'} hname hname' => ?_
    rw [h.nodup.mem_erase_iff] at hname hname'
    exact fun hbefore => hbefore.concat (fun heq => absurd heq.symm hname.1)
      fun heq => absurd heq.symm hname'.1

/-- A use whose name is not in effect starts it. -/
theorem startsAt_new (h : LastWord row attrs) {u : DeclaredUse} (hu : ¬u.IsProhibited)
    (hnew : u.name ∉ attrs.map EffectiveAttribute.name) :
    StartsAt (row ++ [u]) u.name row.length := by
  refine startsAt_concat (fun v hv => ?_) hu
  by_contra hprohibited
  exact hnew ((h.mem_iff u.name).mpr ⟨v, hv, hprohibited⟩)

/-- Any other use puts its attribute in effect. -/
theorem put (h : LastWord row attrs) {u : DeclaredUse} (hu : ¬u.IsProhibited) :
    LastWord (row ++ [u]) (Model.putAttribute u.entry.2 attrs) where
  nodup := Model.nodup_putAttribute _ h.nodup
  mem_iff name := by
    rw [Model.mem_map_name_putAttribute, h.mem_iff, name_entry]
    simp only [isLast_concat_iff]
    split
    · next hname => exact iff_of_true (.inl hname.symm) ⟨u, rfl, hu⟩
    · next hname => exact or_iff_right (Ne.symm hname)
  inEffect attr hattr := by
    by_cases hname : attr.name = u.name
    · -- Its name is there only once, so it is what has been put.
      obtain rfl : attr = u.entry.2 := List.inj_on_of_nodup_map (Model.nodup_putAttribute _ h.nodup)
        hattr (Model.mem_putAttribute _ _) hname
      exact ⟨u, isLast_concat_iff.mpr (by rw [if_pos hname.symm]), u.putsInEffect_entry⟩
    · rcases Model.mem_of_mem_putAttribute hattr with rfl | hattr
      · exact absurd rfl hname
      · obtain ⟨v, hlast, hv⟩ := h.inEffect attr hattr
        exact ⟨v, isLast_concat_iff.mpr (by rwa [if_neg (Ne.symm hname)]), hv⟩
  starts name hname := by
    by_cases hold : name ∈ attrs.map EffectiveAttribute.name
    · obtain ⟨i, hi, -⟩ := h.starts name hold
      exact (hi.concat fun _ => hu).existsUnique
    · obtain rfl := (Model.mem_map_name_putAttribute.mp hname).resolve_right hold
      exact (h.startsAt_new hu hold).existsUnique
  ordered := by
    have hordered := h.ordered.imp fun hbefore => hbefore.concat (fun _ => hu) fun _ => hu
    rw [Model.map_name_putAttribute]
    split
    · exact hordered
    · -- A new name comes behind the others, and it starts behind them in the row.
      next hnew =>
      refine List.pairwise_append.mpr ⟨hordered, List.pairwise_singleton _ _, ?_⟩
      intro name hname name' hname'
      obtain rfl := List.mem_singleton.mp hname'
      obtain ⟨i, hi, -⟩ := h.starts name hname
      exact ⟨i, row.length, hi.concat fun _ => hu, h.startsAt_new hu hnew, hi.lt⟩

theorem apply (h : LastWord row attrs) (u : DeclaredUse) :
    LastWord (row ++ [u]) (Model.applyUse attrs u.entry) := by
  have heq : Model.applyUse attrs u.entry = if u.IsProhibited
      then Model.dropAttribute u.name attrs else Model.putAttribute u.entry.2 attrs := by
    obtain ⟨⟨mode, constraint, target⟩, decl⟩ := u
    cases mode <;> rfl
  rw [heq]
  split
  · next hu => exact h.prohibited hu
  · next hu => exact h.put hu

/-- Going through more uses keeps to the last word. -/
theorem foldl (h : LastWord row attrs) (more : List DeclaredUse) :
    LastWord (row ++ more) ((more.map entry).foldl Model.applyUse attrs) := by
  induction more generalizing row attrs with
  | nil => rwa [List.append_nil]
  | cons u rest ih =>
    have hrest := ih (h.apply u)
    rwa [List.append_assoc] at hrest

end LastWord

/-- **The attributes in effect are those of the last word.** There is one row of the uses of a type
and its bases, and the attributes in effect are as the last use of each name has them. -/
theorem Model.attributesOf_lastWord {m : Model} {type : ComplexType}
    {attrs : List EffectiveAttribute} (h : m.attributesOf type = .ok attrs) :
    ∃ row, m.UsesOf type row ∧ (∀ other, m.UsesOf type other → other = row)
      ∧ LastWord row attrs := by
  obtain ⟨row, huses, rfl⟩ := gives_attributesWithin_usesOf _ type attrs h
  exact ⟨row, huses, fun other hother => huses.unique hother, LastWord.nil.foldl row⟩

/-- An attribute that is prohibited and then declared again by a group goes to the end. -/
theorem Model.attributesOf_lastWord_again :
    let use (mode : UseMode) (name : String) : AttributeItem :=
      .use ⟨mode, .free, .inline ⟨.bare name, default, .free⟩⟩
    let base : ComplexType :=
      ⟨none, false, .empty, [use .optional "a", use .optional "b"], none, none⟩
    let group : AttributeGroup := ⟨none, [use .required "b", use .optional "a"], none⟩
    let m : Model :=
      { types := ⟨[(.bare "Base", .complex base)]⟩
        attributeGroups := ⟨[(.bare "g", group)]⟩ }
    let type : ComplexType := ⟨none, false, .empty, [use .prohibited "a", .group (.bare "g")], none,
      some ⟨.extension, .bare "Base"⟩⟩
    ∃ attrs, m.attributesOf type = .ok attrs
      ∧ attrs.map (fun attr => (attr.name.localName, attr.isRequired)) = [("b", true), ("a", false)]
      ∧ ∃ row, m.UsesOf type row ∧ (∀ other, m.UsesOf type other → other = row)
        ∧ LastWord row attrs :=
  ⟨_, rfl, rfl, Model.attributesOf_lastWord rfl⟩

end Specimen

import Mathlib.Data.Finset.Card
import Mathlib.Logic.Relation
import Specimen.Proofs.RootNames
import Specimen.Proofs.WellFormed

/-!
# Finding substitutes

The elements that may stand for an element are found by following heads of substitution groups, and
the types that may stand for a type by following bases. Links may lead in a circle or to nothing that
is declared, and only so many of them are followed. What is found can always be reached by links. In
a schema with no more components than links are followed, all that can be reached is found: a longer
walk passes a component twice, and what lies between can be left out.
-/

namespace Specimen

/-! ## Walks along links -/

namespace Search

variable {α : Type} {follow : α → Option α} {r : α → α → Prop} {a goal : α}

/-- Where a walk is after `n` more links. -/
def walk (follow : α → Option α) (n : Nat) (place : Option α) : Option α :=
  (fun place => place.bind follow)^[n] place

theorem walk_succ (n : Nat) (place : Option α) :
    walk follow (n + 1) place = walk follow n (place.bind follow) :=
  rfl

theorem walk_add (n k : Nat) (place : Option α) :
    walk follow (n + k) place = walk follow n (walk follow k place) :=
  Function.iterate_add_apply _ n k place

/-- A walk that has come to an end does not go on. -/
theorem walk_none (n : Nat) : walk follow n none = none := by
  induction n with
  | zero => rfl
  | succ n ih => rw [walk_succ, Option.bind_none, ih]

/-- What is reached by links is where a walk comes to. -/
theorem transGen_iff (hr : ∀ {a b}, follow a = some b ↔ r a b) :
    Relation.TransGen r a goal ↔ ∃ n, walk follow (n + 1) (some a) = some goal := by
  constructor
  · intro h
    -- A link is added at the end of the path here, and below at the start of the walk.
    induction h with
    | single h => exact ⟨0, hr.mpr h⟩
    | tail _ h ih =>
      obtain ⟨n, hn⟩ := ih
      refine ⟨n + 1, ?_⟩
      rw [Nat.add_comm (n + 1) 1, walk_add, hn]
      exact hr.mpr h
  · rintro ⟨n, hn⟩
    induction n generalizing a with
    | zero => exact .single (hr.mp hn)
    | succ n ih =>
      rw [walk_succ, Option.bind_some] at hn
      cases hfollow : follow a with
      | none =>
        rw [hfollow, walk_none] at hn
        cases hn
      | some b =>
        rw [hfollow] at hn
        exact .head (hr.mp hfollow) (ih hn)

/-- All places of a walk but the last one have a link. -/
theorem exists_link_of_walk {n k : Nat} (h : walk follow (n + 1) (some a) = some goal)
    (hk : k ≤ n) : ∃ b, walk follow k (some a) = some b ∧ (follow b).isSome := by
  rw [show n + 1 = (n - k) + (1 + k) by omega, walk_add, walk_add] at h
  cases hb : walk follow k (some a) with
  | none =>
    rw [hb, walk_none, walk_none] at h
    cases h
  | some b =>
    refine ⟨b, rfl, Option.isSome_iff_ne_none.mpr fun hnone => ?_⟩
    rw [hb, walk_succ, Option.bind_some, hnone, walk_none, walk_none] at h
    cases h

/-- **A goal that is reached is reached within as many links as there are places with a link.** -/
theorem exists_walk_lt {linked : List α} (hlinked : ∀ a, (follow a).isSome → a ∈ linked) {n : Nat}
    (h : walk follow (n + 1) (some a) = some goal) :
    ∃ k < linked.length, walk follow (k + 1) (some a) = some goal := by
  classical
  induction n using Nat.strong_induction_on with
  | h n ih =>
    by_cases hn : n < linked.length
    · exact ⟨n, hn, h⟩
    · -- There are more places on the walk than places with a link, so it is at one of them twice.
      have hcard : (linked.toFinset.image some).card < (Finset.range (n + 1)).card := by
        have := Finset.card_image_le (s := linked.toFinset) (f := some)
        have := linked.toFinset_card_le
        rw [Finset.card_range]
        omega
      have hplaces (k : Nat) (hk : k ∈ Finset.range (n + 1)) :
          walk follow k (some a) ∈ linked.toFinset.image some := by
        obtain ⟨b, hb, hlink⟩ := exists_link_of_walk h (Nat.lt_succ_iff.mp (Finset.mem_range.mp hk))
        rw [hb]
        exact Finset.mem_image_of_mem _ (List.mem_toFinset.mpr (hlinked b hlink))
      obtain ⟨i, j, hij, hj, heq⟩ : ∃ i j, i < j ∧ j ≤ n
          ∧ walk follow i (some a) = walk follow j (some a) := by
        obtain ⟨i, hi, j, hj, hne, heq⟩ :=
          Finset.exists_ne_map_eq_of_card_lt_of_maps_to hcard hplaces
        rw [Finset.mem_range, Nat.lt_succ_iff] at hi hj
        rcases Nat.lt_or_gt_of_ne hne with hlt | hlt
        · exact ⟨i, j, hlt, hj, heq⟩
        · exact ⟨j, i, hlt, hi, heq.symm⟩
      -- The links between the two visits are left out.
      refine ih (n - (j - i)) (by omega) ?_
      rw [show n - (j - i) + 1 = (n + 1 - j) + i by omega, walk_add, heq, ← walk_add,
        show n + 1 - j + j = n + 1 by omega, h]

end Search

/-! ## Tables that are keyed by name -/

namespace Table

variable {α : Type} {name : α → Option QName} {t : Table α} {a : α} {key : QName}

/-- Every component is entered once, under its own name. -/
structure IsKeyedBy (name : α → Option QName) (t : Table α) : Prop where
  distinct : t.IsDistinct
  own : ∀ entry ∈ t.entries, name entry.2 = some entry.1

theorem IsKeyedBy.insert (h : t.IsKeyedBy name) (ha : name a = some key) :
    (t.insert key a).IsKeyedBy name where
  distinct := h.distinct.insert key a
  own := forall_insert h.own ha

/-- A component of the table is what its name stands for. -/
theorem IsKeyedBy.exists_get? (h : t.IsKeyedBy name) (ha : a ∈ t.values) :
    ∃ key, name a = some key ∧ t.get? key = some a := by
  obtain ⟨entry, hentry, rfl⟩ := List.mem_map.mp ha
  exact ⟨entry.1, h.own entry hentry, h.distinct.get?_of_mem hentry⟩

theorem IsKeyedBy.nodup_map_name (h : t.IsKeyedBy name) : (t.values.map name).Nodup := by
  have hnames : t.values.map name = t.names.map some := by
    rw [values, names, List.map_map, List.map_map]
    exact List.map_congr_left h.own
  rw [hnames]
  exact h.distinct.map (Option.some_injective _)

end Table

namespace Model

open Search

/-! ## Bounded searches -/

section

variable {follow : QName → Option QName} {r : QName → QName → Prop} {a goal : QName} {steps : Nat}

theorem leadsTo_iff {place : Option QName} :
    leadsTo follow goal steps place = true ↔ ∃ n < steps, walk follow n place = some goal := by
  induction steps generalizing place with
  | zero => simp [leadsTo]
  | succ steps ih =>
    cases place with
    | none => simp [leadsTo, walk_none]
    | some name =>
      rw [leadsTo, Bool.or_eq_true, beq_iff_eq, ih]
      constructor
      · rintro (rfl | ⟨n, hn, h⟩)
        · exact ⟨0, steps.succ_pos, rfl⟩
        · exact ⟨n + 1, Nat.succ_lt_succ hn, h⟩
      · rintro ⟨_ | n, hn, h⟩
        · exact .inl (Option.some.inj h)
        · exact .inr ⟨n, Nat.lt_of_succ_lt_succ hn, h⟩

theorem transGen_of_leadsTo (hr : ∀ {a b}, follow a = some b ↔ r a b)
    (h : leadsTo follow goal steps (follow a) = true) : Relation.TransGen r a goal := by
  obtain ⟨n, -, hn⟩ := leadsTo_iff.mp h
  exact (transGen_iff hr).mpr ⟨n, hn⟩

/-- **A search with as many steps as there are places with a link finds all that can be reached.** -/
theorem leadsTo_of_transGen (hr : ∀ {a b}, follow a = some b ↔ r a b) {linked : List QName}
    (hlinked : ∀ {a b}, r a b → a ∈ linked) (hsteps : linked.length ≤ steps)
    (h : Relation.TransGen r a goal) : leadsTo follow goal steps (follow a) = true := by
  obtain ⟨n, hn⟩ := (transGen_iff hr).mp h
  have hsome (a : QName) (ha : (follow a).isSome) : a ∈ linked := by
    obtain ⟨b, hb⟩ := Option.isSome_iff_exists.mp ha
    exact hlinked (hr.mp hb)
  obtain ⟨k, hk, hwalk⟩ := exists_walk_lt hsome hn
  exact leadsTo_iff.mpr ⟨k, hk.trans_le hsteps, hwalk⟩

end

/-! ## Links of a schema -/

variable {m : Model}

/-- The global element with this name joins the substitution group of that head. -/
def Joins (m : Model) (name head : QName) : Prop :=
  ∃ decl, m.elements.get? name = some decl ∧ decl.head = some head

/-- The global complex type with this name is derived from that base. -/
def Derives (m : Model) (name base : QName) : Prop :=
  ∃ type derivation, m.types.get? name = some (.complex type)
    ∧ type.derivation = some derivation ∧ derivation.base = base

theorem headOf_eq_some_iff {name head : QName} :
    m.headOf name = some head ↔ m.Joins name head :=
  Option.bind_eq_some_iff

theorem baseOf_eq_some_iff {name base : QName} :
    m.baseOf name = some base ↔ m.Derives name base := by
  unfold baseOf Derives
  cases m.types.get? name with
  | none => simp
  | some definition => cases definition <;> simp

theorem Joins.mem_names {name head : QName} (h : m.Joins name head) : name ∈ m.elements.names := by
  obtain ⟨decl, hget, -⟩ := h
  exact Table.mem_names_of_get? hget

/-! ## Registration -/

/-- Elements and types are entered once each, under their own names. -/
structure IsKeyed (m : Model) : Prop where
  elements : m.elements.IsKeyedBy fun decl => some decl.name
  types : m.types.IsKeyedBy TypeDef.name

/-- Schemas that registration makes, and those that are loaded. A type is registered under its own
name. -/
inductive Registered : Model → Prop
  | builtin : Registered builtin
  | loaded {m : Model} (h : m.IsLoaded) : Registered m
  | target {m : Model} (h : m.Registered) (target : Option String) : Registered { m with target }
  | element {m : Model} (h : m.Registered) (decl : ElementDecl) : Registered (m.addElement decl)
  | type {m m' : Model} (h : m.Registered) (definition : TypeDef)
      (hadd : m.addType definition = .ok m') : Registered m'
  | attr {m : Model} (h : m.Registered) (decl : AttributeDecl) : Registered (m.addAttribute decl)
  | group {m : Model} (h : m.Registered) (name : QName) (group : ModelGroup) :
      Registered (m.addGroup name group)
  | attributeGroup {m m' : Model} (h : m.Registered) (group : AttributeGroup)
      (hadd : m.addAttributeGroup group = .ok m') : Registered m'

theorem Registered.isKeyed (h : m.Registered) : m.IsKeyed := by
  have hloaded {m : Model} (helements : m.elements.IsDistinct) (htypes : m.types.IsDistinct)
      (hw : m.IsWellFormed) : m.IsKeyed :=
    ⟨⟨helements, fun entry hentry => congrArg some (hw.elements entry hentry)⟩, htypes, hw.types⟩
  induction h with
  | builtin => exact hloaded (by decide +kernel) (by decide +kernel) isWellFormed_builtin
  | loaded h =>
    exact hloaded (h.of_isKept Loading.isKept_namesElements).distinct
      (h.of_isKept Loading.isKept_distinctTypes) (h.of_isKept Loading.isKept_wellFormed)
  | target _ _ ih | attr _ _ ih | group _ _ _ ih => exact ⟨ih.elements, ih.types⟩
  | element _ decl ih => exact ⟨ih.elements.insert rfl, ih.types⟩
  | @type m _ _ definition hadd ih =>
    unfold addType at hadd
    split at hadd
    · next name hname =>
      cases hadd
      exact ⟨ih.elements, ih.types.insert ((definition.name_numberFrom m.next).trans hname)⟩
    · cases hadd
  | attributeGroup _ group hadd ih =>
    unfold addAttributeGroup at hadd
    split at hadd
    · cases hadd
      exact ⟨ih.elements, ih.types⟩
    · cases hadd

/-! ## Substitutes -/

/-- The global complex types, in the order of registration. -/
def complexTypes (m : Model) : List ComplexType := m.types.values.filterMap TypeDef.asComplex

theorem mem_complexTypes {type : ComplexType} :
    type ∈ m.complexTypes ↔ .complex type ∈ m.types.values := by
  unfold complexTypes
  rw [List.mem_filterMap]
  constructor
  · rintro ⟨definition, hmem, hcomplex⟩
    cases definition with
    | simple => cases hcomplex
    | complex own =>
      cases hcomplex
      exact hmem
  · exact fun h => ⟨_, h, rfl⟩

/-- The names of the global complex types. -/
def complexNames (m : Model) : List QName := m.complexTypes.filterMap (·.name)

theorem IsKeyed.nodup_elements (h : m.IsKeyed) : (m.elements.values.map (·.name)).Nodup := by
  refine .of_map some ?_
  rw [List.map_map]
  exact h.elements.nodup_map_name

theorem IsKeyed.nodup_complexTypes (h : m.IsKeyed) : (m.complexTypes.map (·.name)).Nodup := by
  have hnames := h.types.nodup_map_name
  unfold complexTypes
  rw [List.Nodup, List.pairwise_map] at hnames ⊢
  refine hnames.filterMap _ fun definition other hne type htype type' htype' => ?_
  cases definition <;> cases htype
  cases other <;> cases htype'
  exact hne

theorem IsKeyed.mem_complexNames (h : m.IsKeyed) {name base : QName} (hd : m.Derives name base) :
    name ∈ m.complexNames := by
  obtain ⟨type, -, hget, -⟩ := hd
  exact List.mem_filterMap.mpr ⟨type, mem_complexTypes.mpr (Table.mem_values_of_get? hget),
    h.types.own _ (Table.mem_of_get? hget)⟩

/-- The head that an element joins is that of its name. -/
theorem IsKeyed.headOf_name (h : m.IsKeyed) {decl : ElementDecl} (hd : decl ∈ m.elements.values) :
    m.headOf decl.name = decl.head := by
  obtain ⟨key, hkey, hget⟩ := h.elements.exists_get? hd
  cases hkey
  rw [headOf, hget, Option.bind_some]

/-- The base of a type is that of its name. -/
theorem IsKeyed.exists_baseOf (h : m.IsKeyed) {type : ComplexType}
    (ht : .complex type ∈ m.types.values) :
    ∃ name, type.name = some name ∧ m.baseOf name = type.derivation.map (·.base) := by
  obtain ⟨name, hname, hget⟩ := h.types.exists_get? ht
  refine ⟨name, hname, ?_⟩
  rw [baseOf, hget]

/-- The global element is another one than `head`, is not abstract, and comes to `head` by joining
substitution groups. -/
structure IsSubstitute (m : Model) (head : QName) (decl : ElementDecl) : Prop where
  registered : decl ∈ m.elements.values
  concrete : decl.isAbstract = false
  other : decl.name ≠ head
  linked : Relation.TransGen m.Joins decl.name head

/-- The global complex type is another one than `base`, is not abstract, and comes to `base` by
derivations. -/
structure IsConcreteSubtype (m : Model) (base : QName) (type : ComplexType) : Prop where
  registered : .complex type ∈ m.types.values
  concrete : type.isAbstract = false
  other : type.name ≠ some base
  linked : ∃ name, type.name = some name ∧ Relation.TransGen m.Derives name base

/-- What a search among some components finds: each at most once, in their order and only such as
have the property. If there are few of them, all that have the property are found. -/
structure Finds {α ν : Type} (name : α → ν) (among : List α) (few : Prop) (P : α → Prop)
    (found : List α) : Prop where
  order : found.Sublist among
  once : (found.map name).Nodup
  sound : ∀ a ∈ found, P a
  complete : few → ∀ a, P a → a ∈ found

theorem IsKeyed.finds_substitutionMembers (h : m.IsKeyed) (head : QName) :
    Finds (·.name) m.elements.values (m.elements.size ≤ chainLimit) (m.IsSubstitute head)
      (m.substitutionMembers head) where
  order := List.filter_sublist
  once := h.nodup_elements.sublist (List.filter_sublist.map _)
  sound decl hd := by
    obtain ⟨hmem, htests⟩ := List.mem_filter.mp hd
    simp only [Bool.and_eq_true, Bool.not_eq_true', bne_iff_ne, ← h.headOf_name hmem] at htests
    obtain ⟨⟨habstract, hother⟩, hleads⟩ := htests
    exact ⟨hmem, habstract, hother, transGen_of_leadsTo headOf_eq_some_iff hleads⟩
  complete hfew decl hd := by
    refine List.mem_filter.mpr ⟨hd.registered, ?_⟩
    simp only [Bool.and_eq_true, Bool.not_eq_true', bne_iff_ne, ← h.headOf_name hd.registered]
    refine ⟨⟨hd.concrete, hd.other⟩, ?_⟩
    refine leadsTo_of_transGen headOf_eq_some_iff Joins.mem_names ?_ hd.linked
    rwa [Table.names, List.length_map]

theorem IsKeyed.finds_concreteSubtypes (h : m.IsKeyed) (base : QName) :
    Finds (·.name) m.complexTypes (m.complexTypes.length ≤ chainLimit) (m.IsConcreteSubtype base)
      (m.concreteSubtypes base) where
  order := List.filter_sublist
  once := h.nodup_complexTypes.sublist (List.filter_sublist.map _)
  sound type ht := by
    obtain ⟨hmem, htests⟩ := List.mem_filter.mp ht
    have hregistered := mem_complexTypes.mp hmem
    obtain ⟨name, hname, hbase⟩ := h.exists_baseOf hregistered
    simp only [Bool.and_eq_true, Bool.not_eq_true', bne_iff_ne, ← hbase] at htests
    obtain ⟨⟨habstract, hother⟩, hleads⟩ := htests
    exact ⟨hregistered, habstract, hother, name, hname,
      transGen_of_leadsTo baseOf_eq_some_iff hleads⟩
  complete hfew type ht := by
    obtain ⟨name, hname, hlinked⟩ := ht.linked
    obtain ⟨name', hname', hbase⟩ := h.exists_baseOf ht.registered
    cases hname.symm.trans hname'
    refine List.mem_filter.mpr ⟨mem_complexTypes.mpr ht.registered, ?_⟩
    simp only [Bool.and_eq_true, Bool.not_eq_true', bne_iff_ne, ← hbase]
    refine ⟨⟨ht.concrete, ht.other⟩, ?_⟩
    refine leadsTo_of_transGen baseOf_eq_some_iff h.mem_complexNames ?_ hlinked
    exact (List.length_filterMap_le _ _).trans hfew

/-- **The searches for substitutes are exact.** In a schema with at most 64 global elements, those
that may stand for a name are found, once each and in the order of registration; likewise the types,
if there are at most 64 complex ones. Whatever the size, all that is found comes to the name by
links, which may lead in a circle or to nothing. -/
theorem finds_substitutes (hm : m.Registered) (name : QName) :
    Finds (·.name) m.elements.values (m.elements.size ≤ 64) (m.IsSubstitute name)
        (m.substitutionMembers name)
      ∧ Finds (·.name) m.complexTypes (m.complexTypes.length ≤ 64) (m.IsConcreteSubtype name)
        (m.concreteSubtypes name) :=
  ⟨hm.isKeyed.finds_substitutionMembers name, hm.isKeyed.finds_concreteSubtypes name⟩

/-- A global element that joins a substitution group. -/
def joining (name head : String) : ElementDecl :=
  ⟨0, .bare name, .named (QName.xsd "string"), .global, false, some (.bare head)⟩

/-- A global complex type that extends another one. -/
def extending (name base : String) : ComplexType :=
  ⟨some (.bare name), false, .empty, [], none, some ⟨.extension, .bare base⟩⟩

/-- Two elements that join each other, one that joins the first of them and one that joins nothing
declared; and types with such bases. -/
def circling : Model :=
  let elements := [joining "a" "b", joining "b" "a", joining "c" "a", joining "d" "none"]
  let types := [extending "s" "t", extending "t" "s", extending "u" "t", extending "v" "none"]
  let withTypes : Model := types.foldl
    (fun (m : Model) type => m.addNamedType (type.name.getD default) (.complex type)) builtin
  elements.foldl addElement withTypes

theorem finds_substitutes_circling :
    circling.Registered ∧ circling.elements.size ≤ 64 ∧ circling.complexTypes.length ≤ 64
      ∧ (circling.substitutionMembers (.bare "a")).map (·.name) = [.bare "b", .bare "c"]
      ∧ (circling.concreteSubtypes (.bare "s")).map (·.name) = [some (.bare "t"), some (.bare "u")]
      ∧ Finds (·.name) circling.elements.values (circling.elements.size ≤ 64)
        (circling.IsSubstitute (.bare "a")) (circling.substitutionMembers (.bare "a"))
      ∧ Finds (·.name) circling.complexTypes (circling.complexTypes.length ≤ 64)
        (circling.IsConcreteSubtype (.bare "s")) (circling.concreteSubtypes (.bare "s")) := by
  have htype {m : Model} (h : m.Registered) (name base : String) :
      (m.addNamedType (.bare name) (.complex (extending name base))).Registered :=
    h.type (.complex (extending name base)) rfl
  have htypes := htype (htype (htype (htype .builtin "s" "t") "t" "s") "u" "t") "v" "none"
  have hpair := (htypes.element (joining "a" "b")).element (joining "b" "a")
  have hm : circling.Registered := (hpair.element (joining "c" "a")).element (joining "d" "none")
  refine ⟨hm, by decide +kernel, by decide +kernel, by decide +kernel, by decide +kernel, ?_, ?_⟩
  · exact (finds_substitutes hm (.bare "a")).1
  · exact (finds_substitutes hm (.bare "s")).2

end Model

end Specimen

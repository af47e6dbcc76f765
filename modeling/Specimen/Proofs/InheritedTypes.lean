import Mathlib.Data.Fintype.Pigeonhole
import Mathlib.Data.Set.Finite.List
import Specimen.Proofs.DeclaredElements
import Specimen.Proofs.Substitutes

/-!
# Types that are taken from heads

An element that joins a substitution group without a type of its own takes the type of its head.
The head may be such an element itself, so the type comes from the first element on the way that has
one of its own. The way may as well lead to nothing that is declared, or run in a circle; then the
type is `xs:anyType`. These are all the cases, and one excludes the others. As long as no more
elements take their types over than heads are followed, each of them gets what it should.
-/

namespace Specimen

/-! ## Where walks lead -/

namespace Search

open Relation

variable {α : Type} {follow : α → Option α} {r : α → α → Prop} {a b c : α}

section

variable (hr : ∀ a b, follow a = some b ↔ r a b)

include hr

theorem rightUnique : Relator.RightUnique r := fun _ _ _ h h' =>
  Option.some.inj (((hr _ _).mpr h).symm.trans ((hr _ _).mpr h'))

theorem eq_of_end (hend : follow a = none) (h : ReflTransGen r a b) : b = a := by
  rcases h.cases_head with rfl | ⟨next, hnext, -⟩
  · rfl
  · cases hend.symm.trans ((hr _ _).mpr hnext)

/-- Links lead to one end at most. -/
theorem end_unique (h : ReflTransGen r a b) (h' : ReflTransGen r a c) (hb : follow b = none)
    (hc : follow c = none) : b = c := by
  rcases h.total_of_right_unique (rightUnique hr) h' with h | h
  · exact (eq_of_end hr hb h).symm
  · exact eq_of_end hr hc h

/-- There is no way out of a circle. -/
theorem transGen_self_of_reflTransGen (hcircle : TransGen r a a) (h : ReflTransGen r a b) :
    TransGen r b b := by
  induction h with
  | refl => exact hcircle
  | tail _ hstep ih =>
    obtain ⟨next, hnext, hback⟩ := TransGen.head'_iff.mp ih
    cases rightUnique hr hstep hnext
    exact .tail' hback hstep

/-- Links that lead to a circle lead to no end. -/
theorem not_end_of_circle (h : ReflTransGen r a c) (hcircle : TransGen r c c)
    (h' : ReflTransGen r a b) : follow b ≠ none := fun hend => by
  have hb : TransGen r b b := by
    rcases h.total_of_right_unique (rightUnique hr) h' with h | h
    · exact transGen_self_of_reflTransGen hr hcircle h
    · cases eq_of_end hr hend h
      exact hcircle
  obtain ⟨next, hnext, -⟩ := TransGen.head'_iff.mp hb
  cases hend.symm.trans ((hr _ _).mpr hnext)

/-- Links that lead to no end can be followed as often as one likes. -/
theorem exists_walk_of_forall (hmore : ∀ b, ReflTransGen r a b → follow b ≠ none) (n : Nat) :
    ∃ b, walk follow n (some a) = some b ∧ ReflTransGen r a b := by
  induction n with
  | zero => exact ⟨a, rfl, .refl⟩
  | succ n ih =>
    obtain ⟨b, hwalk, hb⟩ := ih
    obtain ⟨next, hnext⟩ := Option.ne_none_iff_exists'.mp (hmore b hb)
    refine ⟨next, ?_, hb.tail ((hr _ _).mp hnext)⟩
    rw [Nat.add_comm, walk_add, hwalk]
    exact hnext

/-- A walk that is at a place twice goes in a circle. -/
theorem transGen_of_walk_eq {i j : Nat} (hlt : i < j) {place : Option α}
    (hi : walk follow i place = some a) (hj : walk follow j place = some a) : TransGen r a a := by
  refine (transGen_iff (hr _ _)).mpr ⟨j - i - 1, ?_⟩
  rw [← hi, ← walk_add, show j - i - 1 + 1 + i = j by omega, hi, hj]

/-- **Where few places have a link, links lead to an end or to a circle.** -/
theorem exists_end_or_circle {linked : List α} (hlinked : ∀ a, (follow a).isSome → a ∈ linked)
    (a : α) : (∃ b, ReflTransGen r a b ∧ follow b = none)
      ∨ ∃ c, ReflTransGen r a c ∧ TransGen r c c := by
  by_cases hend : ∃ b, ReflTransGen r a b ∧ follow b = none
  · exact .inl hend
  right
  have hmore (b : α) (hb : ReflTransGen r a b) : follow b ≠ none := fun hnone =>
    hend ⟨b, hb, hnone⟩
  choose place hwalk hreached using exists_walk_of_forall hr hmore
  have hmem (n : Nat) : place n ∈ linked :=
    hlinked _ (Option.isSome_iff_ne_none.mpr (hmore _ (hreached n)))
  -- The walk is at one of the few places twice.
  have := linked.finite_toSet.to_subtype
  obtain ⟨i, j, hne, heq⟩ := Finite.exists_ne_map_eq_of_infinite fun n =>
    (⟨place n, hmem n⟩ : {b | b ∈ linked})
  have hsame : place i = place j := congrArg Subtype.val heq
  refine ⟨place i, hreached i, ?_⟩
  rcases Nat.lt_or_gt_of_ne hne with hlt | hlt
  · exact transGen_of_walk_eq hr hlt (hwalk i) (hsame ▸ hwalk j)
  · exact transGen_of_walk_eq hr hlt (hsame ▸ hwalk j) (hwalk i)

end

end Search

/-! ## Heads that types are taken from -/

namespace Model

variable {m : Model} {untyped : List QName} {name : QName}

/-- The element with this name takes the type of that head. -/
def TakesFrom (m : Model) (untyped : List QName) (name head : QName) : Prop :=
  name ∈ untyped ∧ m.Joins name head

/-- The head that the element with a name takes the type of. -/
def giverOf (m : Model) (untyped : List QName) (name : QName) : Option QName :=
  if name ∈ untyped then m.headOf name else none

theorem giverOf_iff (name head : QName) :
    m.giverOf untyped name = some head ↔ m.TakesFrom untyped name head := by
  unfold giverOf TakesFrom
  split
  · next hmem => exact headOf_eq_some_iff.trans (and_iff_right hmem).symm
  · next hmem => exact iff_of_false nofun fun h => hmem h.1

theorem mem_untyped_of_giverOf (name : QName) (h : (m.giverOf untyped name).isSome) :
    name ∈ untyped := by
  obtain ⟨head, hhead⟩ := Option.isSome_iff_exists.mp h
  exact ((giverOf_iff _ _).mp hhead).1

theorem giverOf_of_not_mem (h : name ∉ untyped) : m.giverOf untyped name = none := if_neg h

theorem giverOf_of_undeclared (h : m.elements.get? name = none) :
    m.giverOf untyped name = none := by
  rw [giverOf, headOf, h]
  exact ite_self none

/-- The way along the heads that types are taken from runs into a circle. -/
def TakesInCircle (m : Model) (untyped : List QName) (name : QName) : Prop :=
  ∃ place, Relation.ReflTransGen (m.TakesFrom untyped) name place
    ∧ Relation.TransGen (m.TakesFrom untyped) place place

/-- The way along the heads that types are taken from leads to an element that has a type of its
own. -/
structure TakesTypeOf (m : Model) (untyped : List QName) (name first : QName)
    (giver : ElementDecl) : Prop where
  linked : Relation.TransGen (m.TakesFrom untyped) name first
  typed : first ∉ untyped
  declared : m.elements.get? first = some giver

/-- The way along the heads that types are taken from leads to a name that is not declared. -/
structure TakesFromNothing (m : Model) (untyped : List QName) (name missing : QName) : Prop where
  linked : Relation.TransGen (m.TakesFrom untyped) name missing
  undeclared : m.elements.get? missing = none

theorem TakesTypeOf.not_takesFromNothing {first missing : QName} {giver : ElementDecl}
    (h : m.TakesTypeOf untyped name first giver) :
    ¬m.TakesFromNothing untyped name missing := fun h' => by
  -- Both would be the end of the same way.
  cases Search.end_unique giverOf_iff h'.linked.to_reflTransGen h.linked.to_reflTransGen
    (giverOf_of_undeclared h'.undeclared) (giverOf_of_not_mem h.typed)
  cases h'.undeclared.symm.trans h.declared

theorem TakesTypeOf.not_takesInCircle {first : QName} {giver : ElementDecl}
    (h : m.TakesTypeOf untyped name first giver) : ¬m.TakesInCircle untyped name := by
  rintro ⟨place, hlinked, hcircle⟩
  exact Search.not_end_of_circle giverOf_iff hlinked hcircle h.linked.to_reflTransGen
    (giverOf_of_not_mem h.typed)

/-- What becomes of a declared element in a schema. It keeps all but its type, and the type as well
if it has one of its own. Else it gets the type of the first element on the way that has one, and
`xs:anyType` if the way leads to nothing or runs into a circle. -/
structure GetsType (m : Model) (untyped : List QName) (decl final : ElementDecl) : Prop where
  same : final = Loading.withType decl final.type
  own : decl.name ∉ untyped → final = decl
  taken : ∀ {first giver}, m.TakesTypeOf untyped decl.name first giver → final.type = giver.type
  dangling : ∀ {missing}, m.TakesFromNothing untyped decl.name missing → final.type = .anyType
  circular : m.TakesInCircle untyped decl.name → final.type = .anyType
  cases : decl.name ∈ untyped → (∃ first giver, m.TakesTypeOf untyped decl.name first giver)
    ∨ (∃ missing, m.TakesFromNothing untyped decl.name missing)
    ∨ m.TakesInCircle untyped decl.name

end Model

namespace Loading

open Search

variable {m m' : Model} {untyped : List QName} {decl : ElementDecl} {type : TypeRef}

/-! ## The search for a type -/

/-- The place is an element that has this type of its own. -/
def OwnsType (m : Model) (untyped : List QName) (type : TypeRef) (place : Option QName) : Prop :=
  ∃ first giver, place = some first ∧ first ∉ untyped ∧ m.elements.get? first = some giver
    ∧ giver.type = type

theorem headType_none (steps : Nat) : headType m untyped steps none = none := by
  cases steps <;> rfl

/-- A search for a type either ends where it begins or goes on at the head. -/
theorem headType_succ (hnames : m.NamesElements) (steps : Nat) (place : Option QName) :
    headType m untyped (steps + 1) place = some type ↔ OwnsType m untyped type place
      ∨ headType m untyped steps (place.bind (m.giverOf untyped)) = some type := by
  cases place with
  | none =>
    rw [headType_none, Option.bind_none, headType_none]
    refine iff_of_false (by rintro ⟨⟩) ?_
    rintro (⟨first, giver, ⟨⟩, -⟩ | ⟨⟨⟩⟩)
  | some name =>
    rw [headType, Option.bind_eq_bind, Option.bind_some, Option.bind_some]
    cases hget : m.elements.get? name with
    | none =>
      rw [Model.giverOf_of_undeclared hget, headType_none]
      refine iff_of_false (by rintro ⟨⟩) ?_
      rintro (⟨first, giver, ⟨⟩, -, hgiver, -⟩ | ⟨⟨⟩⟩)
      cases hget.symm.trans hgiver
    | some decl =>
      rw [Option.bind_eq_bind, Option.bind_some, hnames.name_of_get? hget]
      by_cases hmem : name ∈ untyped
      · rw [if_pos (List.contains_iff_mem.mpr hmem), Model.giverOf, if_pos hmem, Model.headOf, hget,
          Option.bind_some]
        refine (or_iff_right ?_).symm
        rintro ⟨first, giver, ⟨⟩, hfirst, -⟩
        exact hfirst hmem
      · rw [if_neg (mt List.contains_iff_mem.mp hmem), Model.giverOf_of_not_mem hmem, headType_none]
        constructor
        · intro htype
          exact .inl ⟨name, decl, rfl, hmem, hget, Option.some.inj htype⟩
        · rintro (⟨first, giver, ⟨⟩, -, hgiver, rfl⟩ | ⟨⟨⟩⟩)
          cases hget.symm.trans hgiver
          rfl

/-- The type that is found is that of the first element of the walk that has one of its own. -/
theorem headType_eq_some_iff (hnames : m.NamesElements) {steps : Nat} {place : Option QName} :
    headType m untyped steps place = some type
      ↔ ∃ n < steps, OwnsType m untyped type (walk (m.giverOf untyped) n place) := by
  induction steps generalizing place with
  | zero =>
    refine iff_of_false nofun ?_
    rintro ⟨n, hn, -⟩
    exact absurd hn n.not_lt_zero
  | succ steps ih =>
    rw [headType_succ hnames, ih]
    constructor
    · rintro (hown | ⟨n, hn, hown⟩)
      · exact ⟨0, steps.succ_pos, hown⟩
      · exact ⟨n + 1, Nat.succ_lt_succ hn, hown⟩
    · rintro ⟨_ | n, hn, hown⟩
      · exact .inl hown
      · exact .inr ⟨n, Nat.lt_of_succ_lt_succ hn, hown⟩

section

variable (hnames : m.NamesElements) (hget : m.elements.get? decl.name = some decl)
  (hmem : decl.name ∈ untyped)

include hget hmem

theorem walk_succ_name (n : Nat) :
    walk (m.giverOf untyped) (n + 1) (some decl.name) = walk (m.giverOf untyped) n decl.head := by
  rw [walk_succ, Option.bind_some, Model.giverOf, if_pos hmem, Model.headOf, hget,
    Option.bind_some]

include hnames

theorem exists_takesTypeOf {steps : Nat} (h : headType m untyped steps decl.head = some type) :
    ∃ first giver, m.TakesTypeOf untyped decl.name first giver ∧ giver.type = type := by
  obtain ⟨n, -, first, giver, hwalk, hfirst, hgiver, htype⟩ := (headType_eq_some_iff hnames).mp h
  rw [← walk_succ_name hget hmem] at hwalk
  exact ⟨first, giver, ⟨(transGen_iff (Model.giverOf_iff _ _)).mpr ⟨n, hwalk⟩, hfirst, hgiver⟩,
    htype⟩

/-- **The search is long enough** where no more elements take types over than heads are followed. -/
theorem headType_of_takesTypeOf (hfew : untyped.length ≤ chainLimit) {first : QName}
    {giver : ElementDecl} (h : m.TakesTypeOf untyped decl.name first giver) :
    headType m untyped chainLimit decl.head = some giver.type := by
  obtain ⟨n, hwalk⟩ := (transGen_iff (Model.giverOf_iff _ _)).mp h.linked
  obtain ⟨k, hk, hwalk⟩ := exists_walk_lt Model.mem_untyped_of_giverOf hwalk
  rw [walk_succ_name hget hmem] at hwalk
  exact (headType_eq_some_iff hnames).mpr
    ⟨k, hk.trans_le hfew, first, giver, hwalk, h.typed, h.declared, rfl⟩

end

/-! ## The types that are filled in -/

/-- The elements with these names are declared, join a substitution group and have no type of their
own. -/
def JoinUntyped (m : Model) (untyped : List QName) : Prop :=
  ∀ name ∈ untyped, ∃ decl, m.elements.get? name = some decl ∧ decl.type = .anyType
    ∧ decl.head.isSome

section

variable (hjoins : JoinUntyped m untyped)

include hjoins

/-- An element without a type takes it from a head that has one, from nothing, or in a circle. -/
theorem takesType_cases (name : QName) (hmem : name ∈ untyped) :
    (∃ first giver, m.TakesTypeOf untyped name first giver)
      ∨ (∃ missing, m.TakesFromNothing untyped name missing) ∨ m.TakesInCircle untyped name := by
  rcases exists_end_or_circle Model.giverOf_iff Model.mem_untyped_of_giverOf name with
    ⟨first, hlinked, hend⟩ | hcircle
  · have hfirst : first ∉ untyped := fun hfirst => by
      obtain ⟨decl, hget, -, hhead⟩ := hjoins first hfirst
      rw [Model.giverOf, if_pos hfirst, Model.headOf, hget, Option.bind_some] at hend
      rw [hend] at hhead
      cases hhead
    have hlinked : Relation.TransGen (m.TakesFrom untyped) name first :=
      (Relation.reflTransGen_iff_eq_or_transGen.mp hlinked).resolve_left fun heq =>
        hfirst (heq ▸ hmem)
    cases hget : m.elements.get? first with
    | none => exact .inr (.inl ⟨first, hlinked, hget⟩)
    | some giver => exact .inl ⟨first, giver, hlinked, hfirst, hget⟩
  · exact .inr (.inr hcircle)

/-- An element without a type that finds none is left as it is declared. -/
theorem filled_type_of_not_takesTypeOf (hnames : m.NamesElements)
    (hget : m.elements.get? decl.name = some decl) (hmem : decl.name ∈ untyped)
    (h : ∀ first giver, ¬m.TakesTypeOf untyped decl.name first giver) :
    (filled m untyped untyped decl).type = .anyType := by
  obtain ⟨decl', hget', hany, -⟩ := hjoins _ hmem
  cases hget.symm.trans hget'
  cases htype : headType m untyped chainLimit decl.head with
  | none => rw [filled_of_none htype, hany]
  | some type =>
    obtain ⟨first, giver, hfirst, -⟩ := exists_takesTypeOf hnames hget hmem htype
    exact absurd hfirst (h first giver)

/-- **An element whose type is filled in gets the type that it should.** -/
theorem getsType_filled_of_mem (hnames : m.NamesElements) (hfew : untyped.length ≤ chainLimit)
    (hget : m.elements.get? decl.name = some decl) (hmem : decl.name ∈ untyped) :
    m.GetsType untyped decl (filled m untyped untyped decl) where
  same := by
    rw [filled, if_pos hmem]
    split
    · cases decl
      rfl
    · rfl
  own h := absurd hmem h
  taken h := by
    rw [filled_of_some (headType_of_takesTypeOf hnames hget hmem hfew h) hmem]
    rfl
  dangling h := filled_type_of_not_takesTypeOf hjoins hnames hget hmem fun _ _ hfirst =>
    hfirst.not_takesFromNothing h
  circular h := filled_type_of_not_takesTypeOf hjoins hnames hget hmem fun _ _ hfirst =>
    hfirst.not_takesInCircle h
  cases := takesType_cases hjoins decl.name

omit hjoins in
theorem getsType_filled_of_not_mem (hmem : decl.name ∉ untyped) :
    m.GetsType untyped decl (filled m untyped untyped decl) := by
  have hown : filled m untyped untyped decl = decl := by rw [filled, if_neg hmem]
  have hstart {place : QName} (h : Relation.TransGen (m.TakesFrom untyped) decl.name place) :
      False := by
    obtain ⟨next, hnext, -⟩ := Relation.TransGen.head'_iff.mp h
    exact hmem hnext.1
  rw [hown]
  exact {
    same := by
      cases decl
      rfl
    own _ := rfl
    taken h := (hstart h.linked).elim
    dangling h := (hstart h.linked).elim
    circular h := by
      obtain ⟨place, hlinked, hcircle⟩ := h
      exact (hstart (hcircle.trans_right hlinked)).elim
    cases h := absurd h hmem }

theorem getsType_filled (hnames : m.NamesElements) (hfew : untyped.length ≤ chainLimit)
    (hget : m.elements.get? decl.name = some decl) :
    m.GetsType untyped decl (filled m untyped untyped decl) := by
  by_cases hmem : decl.name ∈ untyped
  · exact getsType_filled_of_mem hjoins hnames hfew hget hmem
  · exact getsType_filled_of_not_mem hmem

end

/-! ## The schema with the types filled in -/

section

variable (hnames : m.NamesElements) (h : Fills m untyped untyped m')

include hnames h

/-- An element with a type of its own stays as it is. -/
theorem Fills.get?_of_not_mem {name : QName} (hmem : name ∉ untyped) :
    m'.elements.get? name = m.elements.get? name := by
  rw [h.elements]
  cases hget : m.elements.get? name with
  | none => rfl
  | some decl =>
    rw [Option.map_some, filled, if_neg (hnames.name_of_get? hget ▸ hmem)]

omit hnames in
theorem Fills.takesFrom : m'.TakesFrom untyped = m.TakesFrom untyped := by
  have hhead (name : QName) : m'.headOf name = m.headOf name := by
    rw [Model.headOf, Model.headOf, h.elements]
    cases m.elements.get? name with
    | none => rfl
    | some decl => exact head_filled m untyped untyped decl
  funext name head
  unfold Model.TakesFrom
  rw [← Model.headOf_eq_some_iff, ← Model.headOf_eq_some_iff, hhead]

theorem Fills.takesTypeOf_iff {name first : QName} {giver : ElementDecl} :
    m'.TakesTypeOf untyped name first giver ↔ m.TakesTypeOf untyped name first giver := by
  constructor
  · rintro ⟨hlinked, htyped, hget⟩
    exact ⟨h.takesFrom ▸ hlinked, htyped, h.get?_of_not_mem hnames htyped ▸ hget⟩
  · rintro ⟨hlinked, htyped, hget⟩
    exact ⟨h.takesFrom.symm ▸ hlinked, htyped, (h.get?_of_not_mem hnames htyped).trans hget⟩

omit hnames in
theorem Fills.takesFromNothing_iff {name missing : QName} :
    m'.TakesFromNothing untyped name missing ↔ m.TakesFromNothing untyped name missing := by
  have hget : m'.elements.get? missing = none ↔ m.elements.get? missing = none := by
    rw [h.elements, Option.map_eq_none_iff]
  constructor
  · exact fun hnothing => ⟨h.takesFrom ▸ hnothing.linked, hget.mp hnothing.undeclared⟩
  · exact fun hnothing => ⟨h.takesFrom.symm ▸ hnothing.linked, hget.mpr hnothing.undeclared⟩

/-- From where a type is taken is the same when types are filled in. -/
theorem Fills.getsType {final : ElementDecl} (hgets : m.GetsType untyped decl final) :
    m'.GetsType untyped decl final where
  same := hgets.same
  own := hgets.own
  taken htakes := hgets.taken ((h.takesTypeOf_iff hnames).mp htakes)
  dangling hnothing := hgets.dangling (h.takesFromNothing_iff.mp hnothing)
  circular hcircle := by
    unfold Model.TakesInCircle at hcircle
    rw [h.takesFrom] at hcircle
    exact hgets.circular hcircle
  cases hmem := by
    refine (hgets.cases hmem).imp ?_ (Or.imp ?_ ?_)
    · exact fun ⟨first, giver, htakes⟩ => ⟨first, giver, (h.takesTypeOf_iff hnames).mpr htakes⟩
    · exact fun ⟨missing, hnothing⟩ => ⟨missing, h.takesFromNothing_iff.mpr hnothing⟩
    · unfold Model.TakesInCircle
      rw [h.takesFrom]
      exact id

end

theorem names_inheritType (hnames : m.NamesElements) (untyped : List QName) (name : QName) :
    (inheritType untyped m name).elements.names = m.elements.names := by
  unfold inheritType
  split
  · rfl
  · next decl hget =>
    split
    · rfl
    · refine (Table.map_fst_insertInto _ _ _).trans (if_pos ?_)
      rw [hnames.name_of_get? hget]
      exact Table.mem_names_of_get? hget

/-- To fill in types keeps the elements in their order. -/
theorem names_finish {l : Loading} (hnames : l.model.NamesElements) :
    l.finish.elements.names = l.model.elements.names := by
  have hfold (names : List QName) (m : Model) (hnames : m.NamesElements) :
      (names.foldl (inheritType l.untyped) m).elements.names = m.elements.names := by
    induction names generalizing m with
    | nil => rfl
    | cons name rest ih =>
      rw [List.foldl_cons, ih _ (isKept_namesElements.inheritType hnames l.untyped name),
        names_inheritType hnames]
  exact hfold l.untyped l.model hnames

end Loading

/-! ## Schemas -/

variable {fs : Files} {origin : Origin} {m : Model} {declarations : List Declaration}

/-- Declared elements with a type that is filled in join a substitution group. -/
theorem Origin.Declares.joinUntyped (h : origin.Declares fs declarations)
    (hdistinct : (elementNames declarations).Nodup) {l : Loading} :
    Loading.JoinUntyped (declarations.foldl Loading.register l).model
      (untypedNames declarations) := by
  intro name hname
  obtain ⟨decl, hmem, rfl⟩ := mem_untypedNames.mp hname
  obtain ⟨s, node, hread⟩ := h.exists_node hmem
  have hfrom := gives_readDeclaration_isReadFrom s node _ hread decl true rfl
  obtain ⟨n, hget⟩ := Loading.exists_get?_foldl (l := l) hdistinct hmem
  refine ⟨_, hget, ?_, ?_⟩
  · have hany := hfrom.type rfl
    cases decl
    cases hany
    rfl
  · have hhead := hfrom.head rfl
    cases decl
    exact hhead

/-- The elements of a schema are those that are declared, in the order of their declarations. Each
is as it is declared, with numbers, but for the type that it takes over. -/
structure Model.SettlesElements (m : Model) (declarations : List Declaration) : Prop where
  order : m.elements.names = elementNames declarations
  gets : ∀ {decl inherits}, .element decl inherits ∈ declarations → ∃ n final,
    m.elements.get? decl.name = some final
      ∧ m.GetsType (untypedNames declarations) (decl.numberFrom n).1 final

theorem Model.names_builtin : Model.builtin.elements.names = [] := by decide +kernel

/-- What is declared is entered before the types are filled in. -/
theorem Origin.Declares.exists_entered (h : origin.Declares fs declarations)
    (hm : origin.load fs = .ok m) : ∃ l : Loading, m = l.finish ∧ l.model.NamesElements
      ∧ l.model.elements = (declarations.foldl Loading.register {}).model.elements
      ∧ l.untyped = untypedNames declarations := by
  obtain ⟨main, known, hloads⟩ := h.exists_loads
  obtain ⟨main', l, hl, rfl⟩ := Origin.exists_loads hm
  cases hl.opening.symm.trans hloads.opening
  have hentered := Except.ok.inj (hl.follow.symm.trans hloads.follow)
  refine ⟨l, rfl, hl.of_isKept Loading.isKept_namesElements, ?_, ?_⟩
  · rw [hentered]
    rfl
  · exact (congrArg Loading.untyped hentered).trans Loading.untyped_foldl

theorem Origin.Declares.settlesElements (h : origin.Declares fs declarations)
    (hdistinct : (elementNames declarations).Nodup)
    (hfew : (untypedNames declarations).length ≤ Loading.chainLimit)
    (hm : origin.load fs = .ok m) : m.SettlesElements declarations := by
  obtain ⟨l, rfl, hnames, helements, huntyped⟩ := h.exists_entered hm
  have hfills := Loading.fills_finish hnames
  have hjoins : Loading.JoinUntyped l.model l.untyped := by
    have hjoins := h.joinUntyped hdistinct (l := {})
    unfold Loading.JoinUntyped at hjoins ⊢
    rwa [helements, huntyped]
  refine ⟨?_, fun {decl inherits} hmem => ?_⟩
  · have hstart : ((({} : Loading).model.elements.names) ++ elementNames declarations).Nodup := by
      rwa [Model.names_builtin, List.nil_append]
    rw [Loading.names_finish hnames, helements, Loading.names_foldl hstart, Model.names_builtin,
      List.nil_append]
  · -- The declaration is found after the registration, and then filled with the type that is
    -- settled.
    obtain ⟨n, hget⟩ := Loading.exists_get?_foldl (l := {}) hdistinct hmem
    rw [← helements] at hget
    have hself : l.model.elements.get? (decl.numberFrom n).1.name
        = some (decl.numberFrom n).1 := by
      rwa [decl.name_numberFrom]
    have hgets := hfills.getsType hnames
      (Loading.getsType_filled hjoins hnames (huntyped ▸ hfew) hself)
    have hfinal : l.finish.elements.get? decl.name
        = some (Loading.filled l.model l.untyped l.untyped (decl.numberFrom n).1) := by
      rw [hfills.elements, hget, Option.map_some]
    refine ⟨n, _, hfinal, ?_⟩
    rwa [← huntyped]

/-- **Elements inherit the right types.** What the documents of a schema declare is read from their
elements, and these tell which global elements take the type of their head. If no element is
declared twice and at most 64 take over a type, each of these gets the type of the first element on
its way that has one of its own, and `xs:anyType` where there is none; all else is as it is
declared. -/
theorem Origin.load_inherits (hm : origin.load fs = .ok m) :
    (∃ declarations, origin.Declares fs declarations)
      ∧ ∀ declarations, origin.Declares fs declarations →
        (∀ decl inherits, .element decl inherits ∈ declarations → ∃ s node,
            readDeclaration s node = .ok (some (.element decl inherits))
              ∧ decl.IsReadFrom inherits node)
          ∧ ((elementNames declarations).Nodup → (untypedNames declarations).length ≤ 64 →
            m.SettlesElements declarations) := by
  refine ⟨exists_declares hm, fun declarations h => ⟨fun decl inherits hmem => ?_, ?_⟩⟩
  · obtain ⟨s, node, hread⟩ := h.exists_node hmem
    exact ⟨s, node, hread, gives_readDeclaration_isReadFrom s node _ hread decl inherits rfl⟩
  · exact fun hdistinct hfew => h.settlesElements hdistinct hfew hm

/-- Elements that join substitution groups: two on the way to a type, one that leads to nothing, and
two that join each other. -/
def inheritingText : String :=
  "<x:schema xmlns:x='http://www.w3.org/2001/XMLSchema'><x:element name='c'
  substitutionGroup='b'/><x:element name='b' substitutionGroup='a'/><x:element name='a'
  type='t'/><x:element name='d' substitutionGroup='z'/><x:element name='e'
  substitutionGroup='f'/><x:element name='f' substitutionGroup='e'/></x:schema>"

/-- An element that joins a substitution group, at a place. -/
def joiningElement (offset : Nat) (name head : String) : Xml.Element :=
  ⟨offset, some "x", "element", [⟨none, "name", name⟩, ⟨none, "substitutionGroup", head⟩], []⟩

/-- What it declares. -/
def joiningUntyped (name head : String) : Declaration :=
  .element ⟨0, .bare name, .anyType, .global, false, some (.bare head)⟩ true

/-- What these elements declare. -/
def inheritingDocument : SchemaDocument where
  target := none
  declarations := [joiningUntyped "c" "b", joiningUntyped "b" "a",
    .element ⟨0, .bare "a", .named (.bare "t"), .global, false, none⟩ false,
    joiningUntyped "d" "z", joiningUntyped "e" "f", joiningUntyped "f" "e"]
  links := []

/-- The name of the type of a global element, if it has one. -/
def Model.typeNameOf (m : Model) (name : QName) : Option QName :=
  (m.elements.get? name).bind fun decl =>
    match decl.type with
    | .named type => some type
    | .anonymous _ => none

set_option maxRecDepth 4000 in
/-- The last three of these elements come to no type. -/
theorem Origin.load_inherits_chain : ∃ m declarations,
    (Origin.text inheritingText).load {} = .ok m
      ∧ (Origin.text inheritingText).Declares {} declarations
      ∧ (elementNames declarations).Nodup ∧ (untypedNames declarations).length ≤ 64
      ∧ (elementNames declarations).map m.typeNameOf
        = [some (.bare "t"), some (.bare "t"), some (.bare "t"), some (.xsd "anyType"),
          some (.xsd "anyType"), some (.xsd "anyType")]
      ∧ m.SettlesElements declarations := by
  have hroot : Xml.readTree inheritingText = some (substitutingRoot
      [joiningElement 53 "c" "b", joiningElement 98 "b" "a",
        ⟨141, some "x", "element", [⟨none, "name", "a"⟩, ⟨none, "type", "t"⟩], []⟩,
        joiningElement 173 "d" "z", joiningElement 216 "e" "f", joiningElement 261 "f" "e"]) := by
    -- A text that is given is read faster from its characters.
    have hchars : inheritingText.toList = _ := String.toList_ofList
    rw [Xml.readTree, hchars]
    decide +kernel
  have hread : SchemaDocument.read none none inheritingText = .ok inheritingDocument := by
    rw [SchemaDocument.read_eq hroot]
    rfl
  have hmain : (Origin.text inheritingText).opening {}
      = .ok ⟨[], [], inheritingText, inheritingDocument⟩ := by
    rw [opening, hread]
    rfl
  have hm := load_of_unlinked hmain rfl
  have hdeclares : (Origin.text inheritingText).Declares {} inheritingDocument.declarations :=
    ⟨_, [], hmain, .nil, (List.append_nil _).symm⟩
  have hdistinct : (elementNames inheritingDocument.declarations).Nodup := by decide
  have hfew : (untypedNames inheritingDocument.declarations).length ≤ 64 := by decide
  refine ⟨_, _, hm, hdeclares, hdistinct, hfew, by decide +kernel, ?_⟩
  exact ((load_inherits hm).2 _ hdeclares).2 hdistinct hfew

end Specimen

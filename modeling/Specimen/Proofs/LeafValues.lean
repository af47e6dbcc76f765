import Specimen.Proofs.Evenness
import Specimen.Proofs.Failures

/-!
# Values follow the structure of their type

What a simple type says about its values is said somewhere along its base chain: the facet of a kind,
the variety and the built-in type are each those of the nearest type that has one. A text is allowed
for the type if it is one of the enumerated values; or else, for a list, if it is a row of texts that
are allowed for its items and as many as the lengths ask for; or else, for a union, if it is allowed
for a member; or else if it is made up as the built-in type says.

Filling a leaf ends with a text that is allowed, or the shape of the schema is at fault; so it is for
types that contain themselves as well. The bounds of the policy have no say in this.
-/

namespace Specimen

/-! ## Base chains -/

namespace Model

variable {m : Model} {type : SimpleType} {chain other : List SimpleType} {kind : FacetKind}

/-- The type, what it is derived from, and so on up to a type without a base. A base that is a
complex type stands for its simple content. -/
inductive BaseChain (m : Model) : SimpleType → List SimpleType → Prop
  | last {type : SimpleType} (h : type.base = none) : BaseChain m type [type]
  | derived {type base : SimpleType} {ref : TypeRef} {chain : List SimpleType}
      (h : type.base = some ref) (hr : m.resolveSimple ref = .ok base)
      (hc : BaseChain m base chain) : BaseChain m type (type :: chain)

theorem BaseChain.unique (h : m.BaseChain type chain) (h' : m.BaseChain type other) :
    other = chain := by
  induction h generalizing other with
  | last hnone =>
    cases h' with
    | last => rfl
    | derived hsome => cases hnone.symm.trans hsome
  | derived hbase hr _ ih =>
    cases h' with
    | last hnone => cases hnone.symm.trans hbase
    | derived hbase' hr' hc' =>
      cases hbase.symm.trans hbase'
      cases hr.symm.trans hr'
      rw [ih hc']

theorem gives_ancestorsWithin (steps : Nat) (type : SimpleType) :
    Gives (m.ancestorsWithin steps type) fun ancestors => m.BaseChain type (type :: ancestors) := by
  induction steps generalizing type with
  | zero =>
    unfold ancestorsWithin
    split
    · next hnone => exact .ok (.last hnone)
    · exact .error _
  | succ steps ih =>
    unfold ancestorsWithin
    split
    · next hnone => exact .ok (.last hnone)
    · next ref hbase =>
      refine Gives.bind (P := fun base => m.resolveSimple ref = .ok base) (fun _ h => h) ?_
      intro base hr
      exact (ih base).bind fun rest hc => .ok (.derived hbase hr hc)

theorem gives_chain (type : SimpleType) : Gives (m.chain type) (m.BaseChain type) :=
  (gives_ancestorsWithin _ type).map fun _ h => h

/-- The first type along the base chain that has a property. -/
def IsNearest (m : Model) (type : SimpleType) (P : SimpleType → Prop) (found : SimpleType) : Prop :=
  ∃ before behind, m.BaseChain type (before ++ found :: behind) ∧ (∀ u ∈ before, ¬P u) ∧ P found

theorem IsNearest.property {P : SimpleType → Prop} {found : SimpleType}
    (h : m.IsNearest type P found) : P found :=
  let ⟨_, _, _, _, hp⟩ := h
  hp

/-! ### What types declare -/

/-- The facet of a kind that is declared nearest along the base chain. -/
def HasFacet (m : Model) (type : SimpleType) (kind : FacetKind) (facet : Facet) : Prop :=
  ∃ found, m.IsNearest type (fun u => (u.facets.get? kind).isSome) found
    ∧ found.facets.get? kind = some facet

/-- The enumeration that is declared nearest lists some values. -/
structure Enumerates (m : Model) (type : SimpleType) (values : List String) : Prop where
  declared : m.HasFacet type .enumeration (.enumeration values)
  ne_nil : values ≠ []

/-- The count that is declared nearest. -/
def HasCount (m : Model) (type : SimpleType) (kind : FacetKind) (n : Nat) : Prop :=
  m.HasFacet type kind (.count kind n)

/-- The variety that is declared nearest. A type that does not declare one is atomic, and so is a
chain of such types. -/
def HasVariety (m : Model) (type : SimpleType) (variety : Variety) : Prop :=
  (∃ found, m.IsNearest type (fun u => u.variety ≠ .atomic) found ∧ found.variety = variety)
    ∨ variety = .atomic ∧ ∃ chain, m.BaseChain type chain ∧ ∀ u ∈ chain, u.variety = .atomic

/-- The nearest type along the chain of a type that is built in, by its local name. -/
def HasBuiltin (m : Model) (type : SimpleType) (name : String) : Prop :=
  ∃ builtin, m.IsNearest type (fun u => u.isBuiltin = true) builtin
    ∧ builtin.name.map QName.localName = some name

theorem kind_of_get? {set : FacetSet} {facet : Facet} (h : set.get? kind = some facet) :
    facet.kind = kind := by
  unfold FacetSet.get? at h
  exact eq_of_beq (List.find?_some (p := fun facet : Facet => facet.kind == kind) h)

theorem BaseChain.hasFacet_iff (h : m.BaseChain type chain) {facet : Facet} :
    m.HasFacet type kind facet ↔ nearestFacet kind chain = some facet := by
  unfold nearestFacet
  rw [List.findSome?_eq_some_iff]
  constructor
  · rintro ⟨found, ⟨before, behind, hc, hbefore, -⟩, hfacet⟩
    refine ⟨before, found, behind, h.unique hc |>.symm, hfacet, fun u hu => ?_⟩
    exact Option.not_isSome_iff_eq_none.mp (hbefore u hu)
  · rintro ⟨before, found, behind, rfl, hfacet, hbefore⟩
    refine ⟨found, ⟨before, behind, h, fun u hu => ?_, ?_⟩, hfacet⟩
    · exact Option.not_isSome_iff_eq_none.mpr (hbefore u hu)
    · exact Option.isSome_of_eq_some hfacet

theorem gives_facet (type : SimpleType) (kind : FacetKind) :
    Gives (m.facet type kind) fun found => ∀ facet, found = some facet ↔ m.HasFacet type kind facet :=
  (gives_chain type).map fun _ hc _ => hc.hasFacet_iff.symm

theorem gives_countFacet (type : SimpleType) (kind : FacetKind) :
    Gives (m.countFacet type kind) fun found => ∀ n, found = some n ↔ m.HasCount type kind n := by
  refine (gives_facet type kind).bind fun found hfound => ?_
  unfold HasCount
  split
  · next own n =>
    obtain ⟨_, _, hget⟩ := (hfound _).mp rfl
    obtain rfl : own = kind := kind_of_get? hget
    refine .ok fun k => ?_
    rw [← hfound, Option.some.injEq, Option.some.injEq, Facet.count.injEq]
    exact ⟨fun h => ⟨rfl, h⟩, fun h => h.2⟩
  · next hnone =>
    refine .ok fun n => ⟨nofun, fun h => absurd ((hfound _).mpr h) (hnone _ _)⟩

theorem gives_enumeration (type : SimpleType) :
    Gives (m.enumeration type) fun found =>
      ∀ values, found = some values ↔ m.Enumerates type values := by
  refine (gives_facet type .enumeration).bind fun found hfound => ?_
  split
  · next own =>
    refine .ok fun values => ?_
    split
    · next hempty =>
      refine ⟨nofun, fun h => absurd ?_ h.ne_nil⟩
      have := (hfound _).mpr h.declared
      cases this
      exact List.isEmpty_iff.mp hempty
    · next hempty =>
      constructor
      · rintro ⟨⟩
        exact ⟨(hfound _).mp rfl, fun hnil => hempty (List.isEmpty_iff.mpr hnil)⟩
      · intro h
        have := (hfound _).mpr h.declared
        cases this
        rfl
  · next hnone =>
    exact .ok fun values => ⟨nofun, fun h => absurd ((hfound _).mpr h.declared) (hnone _)⟩

theorem nearestVariety_cases (chain : List SimpleType) :
    (∃ before found behind, chain = before ++ found :: behind ∧ (∀ u ∈ before, u.variety = .atomic)
        ∧ found.variety ≠ .atomic ∧ found.variety = nearestVariety chain)
      ∨ nearestVariety chain = .atomic ∧ ∀ u ∈ chain, u.variety = .atomic := by
  induction chain with
  | nil => exact .inr ⟨rfl, fun _ h => absurd h List.not_mem_nil⟩
  | cons own rest ih =>
    unfold nearestVariety
    split
    · next hown =>
      rcases ih with ⟨before, found, behind, rfl, hbefore, hfound⟩ | ⟨hrest, hall⟩
      · exact .inl ⟨own :: before, found, behind, rfl, List.forall_mem_cons.mpr ⟨hown, hbefore⟩,
          hfound⟩
      · exact .inr ⟨hrest, List.forall_mem_cons.mpr ⟨hown, hall⟩⟩
    · next hown => exact .inl ⟨[], own, rest, rfl, fun _ h => absurd h List.not_mem_nil, hown, rfl⟩

theorem gives_variety (type : SimpleType) : Gives (m.variety type) (m.HasVariety type) := by
  refine (gives_chain type).map fun chain hc => ?_
  rcases nearestVariety_cases chain with
    ⟨before, found, behind, rfl, hbefore, hfound, hvariety⟩ | ⟨hatomic, hall⟩
  · exact .inl ⟨found, ⟨before, behind, hc, fun u hu => not_not.mpr (hbefore u hu), hfound⟩, hvariety⟩
  · exact .inr ⟨hatomic, chain, hc, hall⟩

theorem gives_builtinAncestor (type : SimpleType) :
    Gives (m.builtinAncestor type) fun builtin =>
      m.IsNearest type (fun u => u.isBuiltin = true) builtin := by
  refine (gives_chain type).bind fun chain hc => ?_
  split
  · next builtin hfind =>
    obtain ⟨hbuiltin, before, behind, rfl, hbefore⟩ := List.find?_eq_some_iff_append.mp hfind
    refine .ok ⟨before, behind, hc, fun u hu => ?_, hbuiltin⟩
    simpa using hbefore u hu
  · exact .error _

end Model

/-! ## What is filled in -/

/-- Whatever the supply is, what is filled in has this property. -/
def Filling.Yields {σ α : Type} (filling : Filling σ α) (P : α → Prop) : Prop :=
  ∀ s, Gives (filling s).1 P

namespace Filling.Yields

variable {σ α β : Type} {filling : Filling σ α} {P : α → Prop} {Q : β → Prop}

theorem pure {a : α} (h : P a) : (Pure.pure a : Filling σ α).Yields P := fun _ => .ok h

theorem ask {answer : Except Error α} (h : Gives answer P) :
    (Filling.ask answer : Filling σ α).Yields P := fun _ => h

theorem draw {f : σ → α × σ} (h : ∀ s, P (f s).1) : (Filling.draw f).Yields P :=
  fun s => .ok (h s.source)

theorem bind {f : α → Filling σ β} (h : filling.Yields P) (hf : ∀ a, P a → (f a).Yields Q) :
    (filling >>= f).Yields Q := by
  intro s
  cases hr : filling s with
  | mk result s' =>
    cases result with
    | error e =>
      rw [bind_apply_of_error hr]
      exact .error e
    | ok a =>
      rw [bind_apply_of_ok hr]
      exact hf a (h s a (by rw [hr])) s'

theorem map {f : α → β} (h : filling.Yields P) (hf : ∀ a, P a → Q (f a)) :
    (f <$> filling).Yields Q := by
  rw [map_eq_pure_bind]
  exact h.bind fun a ha => pure (hf a ha)

theorem times (n : Nat) (h : filling.Yields P) :
    (times n filling).Yields fun as => as.length = n ∧ ∀ a ∈ as, P a := by
  induction n with
  | zero => exact pure ⟨rfl, fun _ h => absurd h List.not_mem_nil⟩
  | succ n ih =>
    refine h.bind fun a ha => ih.bind fun rest hrest => pure ⟨?_, ?_⟩
    · rw [List.length_cons, hrest.1]
    · exact List.forall_mem_cons.mpr ⟨ha, hrest.2⟩

end Filling.Yields

namespace Leaf

open Filling

variable {σ : Type} [Source σ] {w : Setting} {m : Model} {now : DateTime} {hint : String}
  {type : SimpleType}

/-- The length of a list. A fixed one goes before all else; otherwise it is between the bounds, if
these are in order. -/
structure HasLength (m : Model) (type : SimpleType) (n : Nat) : Prop where
  fixed : ∀ length, m.HasCount type .length length → n = length
  between : (∀ length, ¬m.HasCount type .length length) →
    (∀ least most, m.HasCount type .minLength least → m.HasCount type .maxLength most →
      least ≤ most) →
    (∀ least, m.HasCount type .minLength least → least ≤ n)
      ∧ ∀ most, m.HasCount type .maxLength most → n ≤ most

/-- A number as it is written, cut to the digits that the type allows: a whole one if there are none
after the point. -/
inductive NumberText (r : NumericRange) : String → Prop
  | whole (h : r.fractionDigits = some 0) (n : Int) : NumberText r (r.cutDigits (toString n))
  | real (h : r.fractionDigits ≠ some 0) (format : Decimal.Format) (x : Float) :
      NumberText r (r.cutDigits (Decimal.render format x))

/-- The texts that are made up for a type, by the local name of the built-in type it comes from. -/
inductive MadeUp (m : Model) (now : DateTime) (hint : String) (type : SimpleType) :
    String → String → Prop
  | yes : MadeUp m now hint type "boolean" "true"
  | no : MadeUp m now hint type "boolean" "false"
  | date : MadeUp m now hint type "date" now.dateText
  | time : MadeUp m now hint type "time" now.timeText
  | dateTime : MadeUp m now hint type "dateTime" now.plainText
  | number {name text : String} {r : NumericRange} (hkind : BuiltinKind.ofName name = .numeric)
      (hr : NumericRange.ofType m type = .ok r) (ht : NumberText r text) :
      MadeUp m now hint type name text
  | hinted {name : String} {least most : Option Nat} (hkind : BuiltinKind.ofName name = .other)
      (hleast : ∀ n, least = some n ↔ m.HasCount type .minLength n)
      (hmost : ∀ n, most = some n ↔ m.HasCount type .maxLength n) (n : Nat) :
      MadeUp m now hint type name (Hint.value hint n least most)

/-- The texts that are allowed for a type by its structure, with at most so many types inside each
other. -/
inductive Allowed (m : Model) (now : DateTime) (hint : String) : Nat → SimpleType → String → Prop
  | enumerated {depth : Nat} {type : SimpleType} {values : List String} {text : String}
      (hvalues : m.Enumerates type values) (ht : text ∈ values) : Allowed m now hint depth type text
  | list {depth : Nat} {type itemType : SimpleType} {item : TypeRef} {items : List String}
      (hplain : ∀ values, ¬m.Enumerates type values) (hvariety : m.HasVariety type (.list item))
      (hitem : m.resolveSimple item = .ok itemType) (hlength : HasLength m type items.length)
      (hitems : ∀ text ∈ items, Allowed m now hint depth itemType text) :
      Allowed m now hint (depth + 1) type (" ".intercalate items)
  | union {depth : Nat} {type memberType : SimpleType} {member : TypeRef} {members : List TypeRef}
      {text : String} (hplain : ∀ values, ¬m.Enumerates type values)
      (hvariety : m.HasVariety type (.union members)) (hmember : member ∈ members)
      (hresolve : m.resolveSimple member = .ok memberType)
      (ht : Allowed m now hint depth memberType text) : Allowed m now hint (depth + 1) type text
  | atomic {depth : Nat} {type : SimpleType} {name text : String}
      (hplain : ∀ values, ¬m.Enumerates type values)
      (hvariety : m.HasVariety type .atomic ∨ m.HasVariety type (.union []))
      (hbuiltin : m.HasBuiltin type name) (ht : MadeUp m now hint type name text) :
      Allowed m now hint (depth + 1) type text

theorem yields_pickValue {values : List String} (hne : values ≠ []) :
    (pickValue values : Filling σ String).Yields (· ∈ values) := by
  refine Yields.bind (P := fun picked => ∃ value ∈ values, picked = some value)
    (.draw fun s => Draw.exists_mem_of_pick hne s) ?_
  rintro _ ⟨value, hmem, rfl⟩
  exact .pure hmem

theorem yields_enumeratedList {values : List String} (hne : values ≠ []) (n : Nat) :
    (enumeratedList values n : Filling σ String).Yields fun text =>
      ∃ items : List String, text = " ".intercalate items ∧ items.length = n
        ∧ ∀ item ∈ items, item ∈ values := by
  obtain ⟨doublings, hpool, henough⟩ := exists_isPool hne n
  refine Yields.bind (P := fun order => order.Perm (doubleUpTo n n values))
    (.draw fun s => Draw.shuffle_perm _ s) fun order horder => .pure ⟨_, rfl, ?_, ?_⟩
  · rw [List.length_take, horder.length_eq, hpool.length]
    omega
  · intro item hitem
    exact (hpool.mem_iff item).mp (horder.mem_iff.mp (List.mem_of_mem_take hitem))

theorem yields_listLength (w : Setting) (type : SimpleType) :
    (listLength w type : Filling σ Nat).Yields (HasLength w.model type) := by
  refine (Yields.ask (Model.gives_countFacet type .length)).bind fun length hlength => ?_
  refine (Yields.ask (Model.gives_countFacet type .minLength)).bind fun minLength hmin => ?_
  refine (Yields.ask (Model.gives_countFacet type .maxLength)).bind fun maxLength hmax => ?_
  refine .draw fun s => ?_
  cases length with
  | some n =>
    refine ⟨fun length h => ?_, fun hfree => absurd ((hlength n).mp rfl) (hfree n)⟩
    exact Option.some.inj ((hlength length).mpr h)
  | none =>
    refine ⟨fun length h => ?_, fun _ horder => ?_⟩
    · cases (hlength length).mpr h
    · have hdeclared (top : Nat) (htop : maxLength = some top) : minLength.getD 0 ≤ top := by
        cases minLength with
        | none => exact Nat.zero_le _
        | some least => exact horder least top ((hmin least).mp rfl) ((hmax top).mp htop)
      obtain ⟨hleast, hmost⟩ :=
        Count.within_mem hdeclared w.policy.minListItems w.policy.maxListItems s
      refine ⟨fun least h => ?_, fun most h => hmost most ((hmax most).mpr h)⟩
      obtain rfl := (hmin least).mpr h
      exact hleast

theorem numberText_drawNumber (r : NumericRange) (s : σ) : NumberText r (r.drawNumber s).1 := by
  unfold NumericRange.drawNumber
  split
  · next hwhole => exact .whole hwhole _
  · next hreal => exact .real hreal _ _

theorem numberText_drawFloat (r : NumericRange) (s : σ) : NumberText r (r.drawFloat s).1 := by
  unfold NumericRange.drawFloat
  split
  · exact numberText_drawNumber r s
  · next hreal => exact .real hreal _ _

theorem exists_name_of_isBuiltin {builtin : SimpleType} (h : builtin.isBuiltin = true) :
    ∃ name, builtin.name = some name := by
  unfold SimpleType.isBuiltin at h
  split at h
  · next name hname => exact ⟨name, hname⟩
  · cases h

/-- The kinds of built-in types that have texts of their own are those of single types. -/
theorem eq_of_ofName (name : String) :
    (BuiltinKind.ofName name = .boolean → name = "boolean")
      ∧ (BuiltinKind.ofName name = .date → name = "date")
      ∧ (BuiltinKind.ofName name = .time → name = "time")
      ∧ (BuiltinKind.ofName name = .dateTime → name = "dateTime") := by
  unfold BuiltinKind.ofName
  split
  · simp
  · simp
  · simp
  · simp
  · split <;> simp

theorem yields_atomicValue (w : Setting) (type : SimpleType) (hint : String) :
    (atomicValue w type hint : Filling σ String).Yields fun text =>
      ∃ name, w.model.HasBuiltin type name ∧ MadeUp w.model w.now hint type name text := by
  refine (Yields.ask (Model.gives_builtinAncestor type)).bind fun builtin hnearest => ?_
  -- The kind of the built-in type says what is made up; the name of the type gives the format.
  obtain ⟨⟨_, name⟩, hname⟩ := exists_name_of_isBuiltin hnearest.property
  have hhas : w.model.HasBuiltin type name := ⟨builtin, hnearest, by rw [hname]; rfl⟩
  obtain ⟨hboolean, hdate, htime, hdateTime⟩ := eq_of_ofName name
  simp only [hname]
  split
  · next hkind =>
    obtain rfl := hboolean hkind
    refine Yields.bind (P := fun _ => True) (.draw fun _ => trivial) fun b _ => .pure ?_
    cases b
    · exact ⟨_, hhas, .no⟩
    · exact ⟨_, hhas, .yes⟩
  · next hkind =>
    refine (Yields.ask (P := fun r => NumericRange.ofType w.model type = .ok r)
      fun _ h => h).bind fun r hr => ?_
    split
    · exact .draw fun s => ⟨_, hhas, .number hkind hr (numberText_drawFloat r s)⟩
    · exact .draw fun s => ⟨_, hhas, .number hkind hr (numberText_drawNumber r s)⟩
  · next hkind =>
    obtain rfl := hdate hkind
    exact .pure ⟨_, hhas, .date⟩
  · next hkind =>
    obtain rfl := htime hkind
    exact .pure ⟨_, hhas, .time⟩
  · next hkind =>
    obtain rfl := hdateTime hkind
    exact .pure ⟨_, hhas, .dateTime⟩
  · next hkind =>
    refine (Yields.ask (Model.gives_countFacet type .minLength)).bind fun least hleast => ?_
    refine (Yields.ask (Model.gives_countFacet type .maxLength)).bind fun most hmost => ?_
    refine Yields.bind (P := fun _ => True) (fun _ => .ok trivial) fun n _ => .pure ?_
    exact ⟨_, hhas, .hinted hkind hleast hmost n⟩

/-- The items of a list are allowed for the type of items if what is filled in for one is. -/
theorem yields_items {itemType : SimpleType} {depth : Nat} {fill : Filling σ String}
    (hfill : fill.Yields (Allowed w.model w.now hint depth itemType)) (n : Nat) :
    (do match ← ask (w.model.enumeration itemType) with
        | some values => enumeratedList values n
        | none => " ".intercalate <$> times n fill : Filling σ String).Yields fun text =>
      ∃ items : List String, text = " ".intercalate items ∧ items.length = n
        ∧ ∀ item ∈ items, Allowed w.model w.now hint depth itemType item := by
  refine (Yields.ask (Model.gives_enumeration itemType)).bind fun found hfound => ?_
  split
  · next values =>
    have hvalues := (hfound values).mp rfl
    intro s text htext
    obtain ⟨items, hjoin, hlength, hitems⟩ := yields_enumeratedList hvalues.ne_nil n s text htext
    exact ⟨items, hjoin, hlength, fun item hitem => .enumerated hvalues (hitems item hitem)⟩
  · exact (Yields.times n hfill).map fun items hitems => ⟨items, rfl, hitems⟩

/-- **What is filled in is allowed.** -/
theorem yields_valueWithin (w : Setting) (hint : String) (steps : Nat) (type : SimpleType) :
    (valueWithin w hint steps type : Filling σ String).Yields
      (Allowed w.model w.now hint steps type) := by
  -- By the steps that are left: an item and a member are filled in with one step less.
  induction steps generalizing type with
  | zero => exact .ask (.error _)
  | succ steps ih =>
    unfold valueWithin
    refine (Yields.ask (Model.gives_enumeration type)).bind fun found hfound => ?_
    split
    · next values =>
      have hvalues := (hfound values).mp rfl
      exact fun s text htext => .enumerated hvalues (yields_pickValue hvalues.ne_nil s text htext)
    · have hplain (values : List String) : ¬w.model.Enumerates type values :=
        fun h => nomatch (hfound values).mpr h
      refine (Yields.ask (Model.gives_variety type)).bind fun variety hvariety => ?_
      split
      · next item =>
        refine (Yields.ask (P := fun t => w.model.resolveSimple item = .ok t)
          fun _ h => h).bind fun itemType hitem => ?_
        refine (yields_listLength w type).bind fun n hn => ?_
        intro s text htext
        obtain ⟨items, rfl, rfl, hitems⟩ := yields_items (ih itemType) n s text htext
        exact .list hplain hvariety hitem hn hitems
      · next first others =>
        refine Yields.bind (P := fun i => i < others.length + 1)
          (.draw fun s => Draw.index_lt (Nat.succ_pos _) s) fun i hi => ?_
        refine (Yields.ask (P := fun t =>
          w.model.resolveSimple ((first :: others).getD i first) = .ok t)
          fun _ h => h).bind fun memberType hmember => ?_
        refine fun s text htext => .union hplain hvariety ?_ hmember (ih memberType s text htext)
        rw [List.getD_eq_getElem?_getD, List.getElem?_eq_getElem hi]
        exact List.getElem_mem hi
      · next hnolist hnounion =>
        intro s text htext
        obtain ⟨name, hname, hmade⟩ := yields_atomicValue w type hint s text htext
        refine .atomic hplain ?_ hname hmade
        cases variety with
        | atomic => exact .inl hvariety
        | list item => exact absurd rfl (hnolist item)
        | union members =>
          cases members with
          | nil => exact .inr hvariety
          | cons first others => exact absurd rfl (hnounion first others)

/-- **A leaf is filled as the structure of its type says, or the shape of the schema is at fault.**
This is so for every type, however its lists and unions contain each other, and whatever the policy
asks for. Dates and times are those that the policy fixes, if it does. -/
theorem value_follows_structure (m : Model) (policy : Policy) (clock : DateTime) (type : SimpleType)
    (hint : String) (s : Supply σ) :
    let w : Setting := ⟨m, policy, policy.now.getD clock⟩
    (∃ text, (value w type hint s).1 = .ok text
        ∧ Allowed m (policy.now.getD clock) hint (nestingLimit + 1) type text)
      ∨ ∃ fault, (value w type hint s).1 = .error (.shape fault) := by
  intro w
  cases hresult : (value w type hint s).1 with
  | ok text => exact .inl ⟨text, rfl, yields_valueWithin w hint _ type s text hresult⟩
  | error e =>
    obtain ⟨fault, rfl⟩ := failsByShape_value w type hint s e hresult
    exact .inr ⟨fault, rfl⟩

end Leaf

end Specimen

import Mathlib.Data.List.Induction
import Specimen.Proofs.Soundness

/-!
# Facets that are declared more than once

Within one step of a derivation the enumerated values add up to one enumeration, and of any other
kind the facet that is declared last counts. So a set holds one facet of each kind at most. Along a
derivation the nearest step that declares a kind counts, and nothing of the steps behind it: values
that are enumerated at different steps do not add up.

A facet says itself of which kind it is. Only for the kind of enumerations does it matter that it is
one: a bound or a count that calls itself an enumeration has no values that could be added.
-/

namespace Specimen

variable {kind : FacetKind} {declared : List Facet} {facet : Facet} {found : Option Facet}

/-! ## What declarations come to -/

/-- The values that a facet enumerates. -/
def Facet.values : Facet → List String
  | .enumeration values => values
  | _ => []

theorem Facet.values_of_ne (h : facet.kind ≠ .enumeration) : facet.values = [] := by
  cases facet with
  | enumeration => exact absurd rfl h
  | bound | count => rfl

/-- What facets that are declared one after another come to for a kind. -/
inductive Merges (kind : FacetKind) (declared : List Facet) : Option Facet → Prop
  /-- None of them is of the kind. -/
  | undeclared (h : ∀ facet ∈ declared, facet.kind ≠ kind) : Merges kind declared none
  /-- Enumerations come to one, with the values of all of them in their order. -/
  | enumerated (hkind : kind = .enumeration) (h : ∃ facet ∈ declared, facet.kind = kind) :
      Merges kind declared (some (.enumeration (declared.flatMap Facet.values)))
  /-- Of any other kind the last facet counts. -/
  | last {before behind : List Facet} {facet : Facet} (hkind : kind ≠ .enumeration)
      (h : declared = before ++ facet :: behind) (hfacet : facet.kind = kind)
      (hbehind : ∀ later ∈ behind, later.kind ≠ kind) : Merges kind declared (some facet)

namespace Merges

/-- A facet of another kind makes no difference. -/
theorem concat_of_ne (h : Merges kind declared found) (hne : facet.kind ≠ kind) :
    Merges kind (declared ++ [facet]) found := by
  cases h with
  | undeclared hnot =>
    exact .undeclared (List.forall_mem_append.mpr ⟨hnot, List.forall_mem_singleton.mpr hne⟩)
  | enumerated hkind hsome =>
    obtain ⟨other, hother, heq⟩ := hsome
    have hvalues : declared.flatMap Facet.values = (declared ++ [facet]).flatMap Facet.values := by
      simp [Facet.values_of_ne (hkind ▸ hne)]
    rw [hvalues]
    exact .enumerated hkind ⟨other, List.mem_append_left _ hother, heq⟩
  | @last before behind latest hkind heq hlatest hbehind =>
    have hconcat : declared ++ [facet] = before ++ latest :: (behind ++ [facet]) := by simp [heq]
    exact .last hkind hconcat hlatest
      (List.forall_mem_append.mpr ⟨hbehind, List.forall_mem_singleton.mpr hne⟩)

/-- What comes to a facet of the kind of enumerations is one, with all the values. -/
theorem exists_values (h : Merges .enumeration declared found) :
    ∃ values : Option (List String), found = values.map Facet.enumeration
      ∧ declared.flatMap Facet.values = values.getD [] := by
  cases h with
  | undeclared hnot =>
    refine ⟨none, rfl, List.flatMap_eq_nil_iff.mpr fun facet hfacet => ?_⟩
    exact Facet.values_of_ne (hnot facet hfacet)
  | enumerated => exact ⟨some _, rfl, rfl⟩
  | last hkind => exact absurd rfl hkind

/-- What is found for a kind is declared, and nothing is found only if nothing is declared. -/
theorem isSome_iff (h : Merges kind declared found) :
    found.isSome ↔ ∃ facet ∈ declared, facet.kind = kind := by
  cases h with
  | undeclared hnot => simpa using hnot
  | enumerated _ hsome => exact iff_of_true rfl hsome
  | @last before behind facet _ heq hfacet _ =>
    exact iff_of_true rfl ⟨facet, by rw [heq]; simp, hfacet⟩

theorem getLast?_filter {before behind : List Facet} (heq : declared = before ++ facet :: behind)
    (hfacet : facet.kind = kind) (hbehind : ∀ later ∈ behind, later.kind ≠ kind) :
    (declared.filter fun facet => facet.kind == kind).getLast? = some facet := by
  have hnone : behind.filter (fun facet => facet.kind == kind) = [] :=
    List.filter_eq_nil_iff.mpr fun later hlater => by simpa using hbehind later hlater
  simp [heq, List.filter_append, hfacet, hnone]

/-- Declarations determine what they come to. -/
theorem unique {other : Option Facet} (h : Merges kind declared found)
    (h' : Merges kind declared other) : found = other := by
  have hsome : found.isSome ↔ other.isSome := h.isSome_iff.trans h'.isSome_iff.symm
  cases h with
  | undeclared => cases other with
    | none => rfl
    | some => exact absurd (hsome.mpr rfl) Bool.false_ne_true
  | enumerated hkind => cases h' with
    | undeclared => exact absurd (hsome.mp rfl) Bool.false_ne_true
    | enumerated => rfl
    | last hne => exact absurd hkind hne
  | last hne heq hfacet hbehind => cases h' with
    | undeclared => exact absurd (hsome.mp rfl) Bool.false_ne_true
    | enumerated hkind => exact absurd hkind hne
    | last _ heq' hfacet' hbehind' =>
      exact (getLast?_filter heq hfacet hbehind).symm.trans
        (getLast?_filter heq' hfacet' hbehind')

end Merges

/-! ## Sets of facets -/

namespace FacetSet

/-- The set of facets that are declared one after another. -/
def declaring (declared : List Facet) : FacetSet := declared.foldl push empty

theorem declaring_concat (declared : List Facet) (facet : Facet) :
    declaring (declared ++ [facet]) = (declaring declared).push facet := by
  rw [declaring, List.foldl_append]
  rfl

/-- The facets of a kind. -/
def ofKind (set : FacetSet) (kind : FacetKind) : List Facet :=
  set.facets.filter fun facet => facet.kind == kind

theorem head?_ofKind (set : FacetSet) (kind : FacetKind) :
    (set.ofKind kind).head? = set.get? kind :=
  List.head?_filter

/-- Values are added to facets of their kind only. -/
theorem filter_addValues_of_ne (hkind : kind ≠ .enumeration) (values : List String)
    (facets : List Facet) :
    (addValues values facets).filter (fun facet => facet.kind == kind)
      = facets.filter fun facet => facet.kind == kind := by
  have hnot (values : List String) : ((Facet.enumeration values).kind == kind) = false :=
    beq_eq_false_iff_ne.mpr hkind.symm
  induction facets with
  | nil => simp [addValues, hnot]
  | cons first rest ih =>
    by_cases hfirst : first.kind = .enumeration
    · cases first with
      | enumeration earlier => simp [addValues, hnot]
      | bound | count => simp [addValues, hfirst, hnot, List.filter_cons]
    · rw [addValues_of_ne hfirst, List.filter_cons, List.filter_cons, ih]

/-- The set in which a facet takes the place of those of its kind. -/
def replace (set : FacetSet) (facet : Facet) : FacetSet :=
  ⟨set.facets.filter (fun earlier => earlier.kind != facet.kind) ++ [facet]⟩

theorem ofKind_replace_self (set : FacetSet) (facet : Facet) :
    (set.replace facet).ofKind facet.kind = [facet] := by
  have hnone : (set.facets.filter fun earlier => earlier.kind != facet.kind).filter
      (fun earlier => earlier.kind == facet.kind) = [] := by
    rw [List.filter_filter, List.filter_eq_nil_iff]
    intro earlier _
    simp
  rw [replace, ofKind, List.filter_append, hnone]
  simp

theorem ofKind_replace_of_ne (set : FacetSet) (hne : facet.kind ≠ kind) :
    (set.replace facet).ofKind kind = set.ofKind kind := by
  have hsame (earlier : Facet) : (earlier.kind == kind && earlier.kind != facet.kind)
      = (earlier.kind == kind) := by
    by_cases heq : earlier.kind = kind
    · simp [heq, hne.symm]
    · simp [heq]
  rw [replace, ofKind, List.filter_append, List.filter_filter]
  simp [hsame, hne, ofKind]

/-- A facet makes no difference to other kinds. -/
theorem ofKind_push_of_ne (set : FacetSet) (hne : facet.kind ≠ kind) :
    (set.push facet).ofKind kind = set.ofKind kind := by
  cases facet with
  | enumeration values => exact filter_addValues_of_ne hne.symm values set.facets
  | bound | count => exact set.ofKind_replace_of_ne hne

/-- Values are added to those that are there. -/
theorem filter_addValues {facets : List Facet} {earlier : Option (List String)}
    (h : facets.filter (fun facet => facet.kind == .enumeration)
      = (earlier.map Facet.enumeration).toList) (values : List String) :
    (addValues values facets).filter (fun facet => facet.kind == .enumeration)
      = [.enumeration (earlier.getD [] ++ values)] := by
  induction facets with
  | nil =>
    cases earlier with
    | none => rfl
    | some => cases h
  | cons first rest ih =>
    -- A set has one enumeration at most, and the values are added where it stands.
    by_cases hfirst : first.kind = .enumeration
    · rw [List.filter_cons, if_pos (beq_iff_eq.mpr hfirst)] at h
      cases earlier with
      | none => cases h
      | some earlier =>
        obtain ⟨rfl, hrest⟩ := List.cons.inj h
        rw [addValues, List.filter_cons, hrest]
        rfl
    · have hnot : ¬(first.kind == .enumeration) = true := mt beq_iff_eq.mp hfirst
      rw [List.filter_cons, if_neg hnot] at h
      rw [addValues_of_ne hfirst, List.filter_cons, if_neg hnot, ih h]

/-- The facets of a kind are what the declarations come to, and there is one at most. -/
def Holds (set : FacetSet) (kind : FacetKind) (declared : List Facet) : Prop :=
  ∃ found, set.ofKind kind = found.toList ∧ Merges kind declared found

/-- A facet that is declared is taken into account. -/
theorem Holds.push {set : FacetSet} (h : set.Holds kind declared)
    (hproper : kind = .enumeration → facet.IsProper) :
    (set.push facet).Holds kind (declared ++ [facet]) := by
  obtain ⟨found, hset, hmerges⟩ := h
  -- A facet of the kind replaces what is there, unless there are values it is added to.
  by_cases hne : facet.kind ≠ kind
  · exact ⟨found, by rw [ofKind_push_of_ne _ hne, hset], hmerges.concat_of_ne hne⟩
  obtain rfl := Decidable.not_not.mp hne
  cases facet with
  | bound | count =>
    have hkind := fun heq => hproper heq heq
    exact ⟨some _, ofKind_replace_self _ _, .last hkind rfl rfl nofun⟩
  | enumeration values =>
    obtain ⟨earlier, rfl, hvalues⟩ := Merges.exists_values hmerges
    have hall : (declared ++ [Facet.enumeration values]).flatMap Facet.values
        = earlier.getD [] ++ values := by simp [hvalues, Facet.values]
    refine ⟨some (.enumeration (earlier.getD [] ++ values)), filter_addValues hset values, ?_⟩
    rw [← hall]
    exact .enumerated rfl ⟨_, List.mem_append_right _ (List.mem_singleton_self _), rfl⟩

/-- **A set holds what has been declared.** -/
theorem holds_declaring (hproper : kind = .enumeration → ∀ facet ∈ declared, facet.IsProper) :
    (declaring declared).Holds kind declared := by
  -- The set grows at its end, so the facets are taken from the end as well.
  induction declared using List.reverseRecOn with
  | nil => exact ⟨none, rfl, .undeclared nofun⟩
  | append_singleton declared facet ih =>
    have hsplit (hkind) := List.forall_mem_append.mp (hproper hkind)
    rw [declaring_concat]
    exact (ih fun hkind => (hsplit hkind).1).push fun hkind =>
      List.forall_mem_singleton.mp (hsplit hkind).2

variable {set : FacetSet}

theorem Holds.merges_get? (h : set.Holds kind declared) :
    Merges kind declared (set.get? kind) := by
  obtain ⟨found, hset, hmerges⟩ := h
  rwa [← head?_ofKind, hset, Option.head?_toList]

theorem Holds.length_ofKind_le (h : set.Holds kind declared) : (set.ofKind kind).length ≤ 1 := by
  obtain ⟨found, hset, -⟩ := h
  rw [hset]
  cases found <;> simp

end FacetSet

/-! ## Steps of a derivation -/

/-- What the steps of a derivation, the nearest first, come to for a kind: what the first of them
that declares it comes to. -/
inductive Effective (kind : FacetKind) : List (List Facet) → Option Facet → Prop
  | none : Effective kind [] none
  | nearest {step : List Facet} {rest : List (List Facet)} {found : Option Facet}
      (hstep : ∃ facet ∈ step, facet.kind = kind) (h : Merges kind step found) :
      Effective kind (step :: rest) found
  | farther {step : List Facet} {rest : List (List Facet)} {found : Option Facet}
      (hstep : ∀ facet ∈ step, facet.kind ≠ kind) (h : Effective kind rest found) :
      Effective kind (step :: rest) found

namespace Effective

variable {steps : List (List Facet)}

/-- The steps determine what they come to. -/
theorem unique {other : Option Facet} (h : Effective kind steps found)
    (h' : Effective kind steps other) : found = other := by
  induction h with
  | none =>
    cases h'
    rfl
  | nearest hstep hmerges =>
    cases h' with
    | nearest _ hmerges' => exact hmerges.unique hmerges'
    | farther hnot =>
      obtain ⟨facet, hfacet, heq⟩ := hstep
      exact absurd heq (hnot facet hfacet)
  | farther hnot _ ih =>
    cases h' with
    | nearest hstep =>
      obtain ⟨facet, hfacet, heq⟩ := hstep
      exact absurd heq (hnot facet hfacet)
    | farther _ hrest => exact ih hrest

/-- **The facet that is found first along a chain** is what its steps come to. -/
theorem of_nearestFacet {chain : List SimpleType}
    (hbuilt : chain.map SimpleType.facets = steps.map FacetSet.declaring)
    (hproper : kind = .enumeration → ∀ step ∈ steps, ∀ facet ∈ step, facet.IsProper) :
    Effective kind steps (Model.nearestFacet kind chain) := by
  induction steps generalizing chain with
  | nil =>
    obtain rfl := List.map_eq_nil_iff.mp hbuilt
    exact .none
  | cons step rest ih =>
    obtain ⟨type, others, rfl, htype, hothers⟩ := List.map_eq_cons_iff.mp hbuilt
    have hmerges := (FacetSet.holds_declaring fun hkind =>
      hproper hkind step List.mem_cons_self).merges_get?
    have hrest := ih hothers fun hkind other hother =>
      hproper hkind other (List.mem_cons_of_mem _ hother)
    rw [Model.nearestFacet, List.findSome?_cons, htype]
    -- A set that has the facet ends the search; one that has it not declares none of this kind.
    cases hget : (FacetSet.declaring step).get? kind with
    | some facet =>
      rw [hget] at hmerges
      exact .nearest (hmerges.isSome_iff.mp rfl) hmerges
    | none =>
      rw [hget] at hmerges
      exact .farther (fun facet hfacet heq =>
        absurd (hmerges.isSome_iff.mpr ⟨facet, hfacet, heq⟩) Bool.false_ne_true) hrest

/-- The values to choose from are those of the enumeration that is found, if it lists any. -/
theorem values_eq_some_iff {values : List String} (h : Effective .enumeration steps found) :
    ((found.map Facet.values).filter fun values => !values.isEmpty) = some values
      ↔ values ≠ [] ∧ Effective .enumeration steps (some (.enumeration values)) := by
  constructor
  · intro heq
    obtain ⟨hmap, hne⟩ := Option.filter_eq_some_iff.mp heq
    obtain ⟨facet, rfl, rfl⟩ := Option.map_eq_some_iff.mp hmap
    cases facet with
    | enumeration values => exact ⟨by simpa [Facet.values] using hne, h⟩
    | bound | count => exact absurd hne Bool.false_ne_true
  · rintro ⟨hne, hvalues⟩
    rw [h.unique hvalues]
    simp [Facet.values, hne]

end Effective

namespace Model

/-- The effective enumeration is the effective facet of its kind, unless that lists no value. -/
theorem enumeration_of_facet {m : Model} {type : SimpleType}
    (h : m.facet type .enumeration = .ok found) :
    m.enumeration type = .ok ((found.map Facet.values).filter fun values => !values.isEmpty) := by
  simp only [enumeration, h]
  cases found with
  | none => rfl
  | some facet =>
    cases facet with
    | bound | count => rfl
    | enumeration values => cases values <;> rfl

/-- Words for texts of five characters at most. -/
def farStep : List Facet := [.enumeration ["red"], .count .maxLength 5, .enumeration ["green"]]

/-- Other words, with two shortest lengths of which the second counts. -/
def nearStep : List Facet :=
  [.count .minLength 1, .enumeration ["blue"], .count .minLength 3, .enumeration ["cyan", "red"]]

/-- The steps of both restrictions and of the built-in types behind them. -/
def wordSteps : List (List Facet) := [nearStep, farStep, [], []]

/-- Texts that are restricted twice. -/
def wordType : SimpleType :=
  nearStep.foldl SimpleType.withFacet (.restriction (.anonymous (.simple
    (farStep.foldl SimpleType.withFacet (.restriction (.builtin "string"))))))

end Model

end Specimen

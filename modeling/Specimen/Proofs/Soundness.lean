import Specimen.Proofs.LoadedNames
import Specimen.Proofs.Unnumbered
import Specimen.Proofs.Upheld

/-!
# Sound components

What it means for a component to be sound in every detail, however deep inside it: occurrence bounds
are in order, a union has a member, no facet is declared twice at one step, a name in no namespace
is not spelled with an empty URI, and a simple type has a base. The only simple type without one is
the built-in type that all come from.

A facet that is added keeps its set sound, and the numbers in a component do not matter.
-/

namespace Specimen

open Details

/-! ## Sound details -/

/-- Only an enumeration is of the kind of enumerations. -/
def Facet.IsProper : Facet → Prop
  | .bound kind _ => kind ≠ .enumeration
  | .count kind _ => kind ≠ .enumeration
  | .enumeration _ => True

instance (facet : Facet) : Decidable facet.IsProper := by
  unfold Facet.IsProper
  split <;> infer_instance

/-- There is one facet of each kind at most. -/
structure FacetSet.IsSound (set : FacetSet) : Prop where
  distinct : (set.facets.map Facet.kind).Nodup
  proper : ∀ facet ∈ set.facets, facet.IsProper

/-- The built-in type that all simple types come from. -/
def SimpleType.anySimpleType : SimpleType := ⟨some (QName.xsd "anySimpleType"), none, .atomic, .empty⟩

/-- A union has a member, no facet is declared twice, and only one type has no base. -/
structure SimpleType.IsSound (type : SimpleType) : Prop where
  members : type.variety ≠ .union []
  facets : type.facets.IsSound
  base : type.base = none → type = anySimpleType

/-- A detail is as the readers of schema documents make it. -/
def Detail.IsSound : Detail → Prop
  | .refers symbol => symbol.name.IsProper
  | .declares name => name.IsProper
  | .occurs bounds => bounds.InOrder
  | .simple type => type.IsSound

/-! ## Sets of facets -/

namespace FacetSet

theorem isSound_empty : empty.IsSound := ⟨List.nodup_nil, fun _ h => absurd h List.not_mem_nil⟩

/-- Values are added behind a facet of another kind. -/
theorem addValues_of_ne {facet : Facet} (h : facet.kind ≠ .enumeration) (values : List String)
    (rest : List Facet) : addValues values (facet :: rest) = facet :: addValues values rest := by
  cases facet with
  | enumeration => exact absurd rfl h
  | bound | count => exact if_neg h

/-- Values are added to an enumeration, which is new or was there. -/
theorem mem_addValues {values : List String} {facets : List Facet} {facet : Facet}
    (h : facet ∈ addValues values facets) : (∃ all, facet = .enumeration all) ∨ facet ∈ facets := by
  induction facets with
  | nil => exact .inl ⟨values, List.mem_singleton.mp h⟩
  | cons first rest ih =>
    cases first with
    | enumeration earlier =>
      rcases List.mem_cons.mp h with rfl | h
      · exact .inl ⟨earlier ++ values, rfl⟩
      · exact .inr (List.mem_cons_of_mem _ h)
    | bound kind | count kind =>
      simp only [addValues] at h
      split at h
      all_goals rcases List.mem_cons.mp h with rfl | h
      · exact .inr List.mem_cons_self
      · rcases List.mem_append.mp h with h | h
        · exact .inr (List.mem_cons_of_mem _ h)
        · exact .inl ⟨values, List.mem_singleton.mp h⟩
      · exact .inr List.mem_cons_self
      · exact (ih h).imp_right (List.mem_cons_of_mem _)

theorem nodup_addValues {values : List String} {facets : List Facet}
    (hproper : ∀ facet ∈ facets, facet.IsProper) (h : (facets.map Facet.kind).Nodup) :
    ((addValues values facets).map Facet.kind).Nodup := by
  induction facets with
  | nil => exact List.nodup_singleton _
  | cons first rest ih =>
    obtain ⟨hfirst, hrest⟩ := List.forall_mem_cons.mp hproper
    obtain ⟨hnew, hnodup⟩ := List.nodup_cons.mp h
    -- A facet of another kind stays in front, and no enumeration behind it is of its kind.
    have hbehind (hkind : first.kind ≠ .enumeration) :
        ((addValues values (first :: rest)).map Facet.kind).Nodup := by
      rw [addValues_of_ne hkind]
      refine List.nodup_cons.mpr ⟨fun hmem => ?_, ih hrest hnodup⟩
      obtain ⟨facet, hfacet, heq⟩ := List.mem_map.mp hmem
      rcases mem_addValues hfacet with ⟨all, rfl⟩ | hfacet
      · exact hkind heq.symm
      · exact hnew (heq ▸ List.mem_map_of_mem hfacet)
    cases first with
    | enumeration earlier => exact h
    | bound => exact hbehind hfirst
    | count => exact hbehind hfirst

/-- Adding a facet replaces the one of its kind, or is put together with it. -/
theorem IsSound.push {set : FacetSet} (h : set.IsSound) {facet : Facet} (hf : facet.IsProper) :
    (set.push facet).IsSound := by
  have hreplace : IsSound
      ⟨set.facets.filter (fun earlier => earlier.kind != facet.kind) ++ [facet]⟩ := by
    refine ⟨?_, fun other hother => ?_⟩
    · rw [List.map_append]
      refine List.Nodup.append (h.distinct.sublist (List.filter_sublist.map _))
        (List.nodup_singleton _) (List.disjoint_singleton.mpr fun hmem => ?_)
      obtain ⟨other, hother, heq⟩ := List.mem_map.mp hmem
      exact bne_iff_ne.mp (List.mem_filter.mp hother).2 heq
    · rcases List.mem_append.mp hother with hother | hother
      · exact h.proper other (List.mem_of_mem_filter hother)
      · exact List.mem_singleton.mp hother ▸ hf
  cases facet with
  | bound | count => exact hreplace
  | enumeration values =>
    refine ⟨nodup_addValues h.proper h.distinct, fun other hother => ?_⟩
    rcases mem_addValues hother with ⟨all, rfl⟩ | hother
    · trivial
    · exact h.proper other hother

theorem IsSound.pushAll {set : FacetSet} (h : set.IsSound) {facets : List Facet}
    (hf : ∀ facet ∈ facets, facet.IsProper) : (facets.foldl FacetSet.push set).IsSound := by
  induction facets generalizing set with
  | nil => exact h
  | cons facet rest ih =>
    obtain ⟨hfirst, hrest⟩ := List.forall_mem_cons.mp hf
    exact ih (h.push hfirst) hrest

end FacetSet

theorem gives_readFacet (kind : FacetKind) (value : String) :
    Gives (Facet.read kind value) Facet.IsProper := by
  unfold Facet.read
  split
  · exact .ok trivial
  · next hne =>
    simp only
    split
    · split
      · exact .ok hne
      · exact .error _
    · exact .ok hne

/-! ## Numbering -/

/-- A detail without the numbers in it. -/
def Detail.unnumbered : Detail → Detail
  | .refers symbol => .refers symbol
  | .declares name => .declares name
  | .occurs bounds => .occurs bounds
  | .simple type => .simple type.unnumbered

theorem map_unnumbered_nameDetails (name : Option QName) :
    (nameDetails name).map Detail.unnumbered = nameDetails name := by
  cases name <;> rfl

theorem map_unnumbered_headDetails (head : Option QName) :
    (headDetails head).map Detail.unnumbered = headDetails head := by
  cases head <;> rfl

theorem map_unnumbered_baseDetails (derivation : Option Derivation) :
    (baseDetails derivation).map Detail.unnumbered = baseDetails derivation := by
  cases derivation <;> rfl

mutual

/-- **A component without its numbers says what it says without numbers.** -/
theorem TypeRef.details_unnumbered : ∀ type : TypeRef,
    type.unnumbered.details = type.details.map Detail.unnumbered
  | .named _ => rfl
  | .anonymous definition => definition.details_unnumbered

theorem TypeDef.details_unnumbered : ∀ definition : TypeDef,
    definition.unnumbered.details = definition.details.map Detail.unnumbered
  | .simple type => type.details_unnumbered
  | .complex type => type.details_unnumbered

theorem SimpleType.details_unnumbered : ∀ type : SimpleType,
    type.unnumbered.details = type.details.map Detail.unnumbered
  | ⟨name, base, variety, facets⟩ => by
    rw [SimpleType.unnumbered, SimpleType.details, SimpleType.details, List.map_cons,
      List.map_append, List.map_append, map_unnumbered_nameDetails, detailsOfBase_unnumbered base,
      variety.details_unnumbered]
    rfl

theorem detailsOfBase_unnumbered : ∀ base : Option TypeRef,
    detailsOfBase (unnumberedBase base) = (detailsOfBase base).map Detail.unnumbered
  | none => rfl
  | some type => type.details_unnumbered

theorem Variety.details_unnumbered : ∀ variety : Variety,
    variety.unnumbered.details = variety.details.map Detail.unnumbered
  | .atomic => rfl
  | .list item => item.details_unnumbered
  | .union members => detailsOfTypes_unnumbered members

theorem detailsOfTypes_unnumbered : ∀ types : List TypeRef,
    detailsOfTypes (unnumberedTypes types) = (detailsOfTypes types).map Detail.unnumbered
  | [] => rfl
  | type :: rest => by
    rw [unnumberedTypes, detailsOfTypes, detailsOfTypes, List.map_append, type.details_unnumbered,
      detailsOfTypes_unnumbered rest]

theorem ComplexType.details_unnumbered : ∀ type : ComplexType,
    type.unnumbered.details = type.details.map Detail.unnumbered
  | ⟨name, isAbstract, content, attributes, wildcard, derivation⟩ => by
    rw [ComplexType.unnumbered, ComplexType.details, ComplexType.details, List.map_append,
      List.map_append, List.map_append, map_unnumbered_nameDetails, map_unnumbered_baseDetails,
      content.details_unnumbered, detailsOfItems_unnumbered attributes]

theorem Content.details_unnumbered : ∀ content : Content,
    content.unnumbered.details = content.details.map Detail.unnumbered
  | .empty => rfl
  | .simple type => type.details_unnumbered
  | .elements particle => particle.details_unnumbered
  | .mixed particle => particle.details_unnumbered

theorem detailsOfItems_unnumbered : ∀ items : List AttributeItem,
    detailsOfItems (unnumberedItems items) = (detailsOfItems items).map Detail.unnumbered
  | [] => rfl
  | item :: rest => by
    rw [unnumberedItems, detailsOfItems, detailsOfItems, List.map_append, item.details_unnumbered,
      detailsOfItems_unnumbered rest]

theorem AttributeItem.details_unnumbered : ∀ item : AttributeItem,
    item.unnumbered.details = item.details.map Detail.unnumbered
  | .use use => use.details_unnumbered
  | .group _ => rfl

theorem AttributeUse.details_unnumbered : ∀ use : AttributeUse,
    use.unnumbered.details = use.details.map Detail.unnumbered
  | ⟨_, _, target⟩ => target.details_unnumbered

theorem AttributeTarget.details_unnumbered : ∀ target : AttributeTarget,
    target.unnumbered.details = target.details.map Detail.unnumbered
  | .global _ => rfl
  | .inline decl => decl.details_unnumbered

theorem AttributeDecl.details_unnumbered : ∀ decl : AttributeDecl,
    decl.unnumbered.details = decl.details.map Detail.unnumbered
  | ⟨name, type, _⟩ => congrArg (Detail.declares name :: ·) type.details_unnumbered

theorem ElementDecl.details_unnumbered : ∀ decl : ElementDecl,
    decl.unnumbered.details = decl.details.map Detail.unnumbered
  | ⟨_, _, type, _, _, head⟩ => by
    rw [ElementDecl.unnumbered, ElementDecl.details, ElementDecl.details, List.map_cons,
      List.map_append, map_unnumbered_headDetails, type.details_unnumbered]
    rfl

theorem Particle.details_unnumbered : ∀ p : Particle,
    p.unnumbered.details = p.details.map Detail.unnumbered
  | ⟨bounds, term⟩ => congrArg (Detail.occurs bounds :: ·) term.details_unnumbered

theorem Term.details_unnumbered : ∀ term : Term,
    term.unnumbered.details = term.details.map Detail.unnumbered
  | .elementRef _ => rfl
  | .element decl => decl.details_unnumbered
  | .group group => group.details_unnumbered
  | .groupRef _ => rfl
  | .any _ => rfl

theorem ModelGroup.details_unnumbered : ∀ group : ModelGroup,
    group.unnumbered.details = group.details.map Detail.unnumbered
  | ⟨_, particles⟩ => detailsOfAll_unnumbered particles

theorem detailsOfAll_unnumbered : ∀ particles : List Particle,
    detailsOfAll (unnumberedParticles particles) = (detailsOfAll particles).map Detail.unnumbered
  | [] => rfl
  | particle :: rest => by
    rw [unnumberedParticles, detailsOfAll, detailsOfAll, List.map_append,
      particle.details_unnumbered, detailsOfAll_unnumbered rest]

end

theorem AttributeGroup.details_unnumbered (group : AttributeGroup) :
    group.unnumbered.details = group.details.map Detail.unnumbered := by
  have hmap : group.details.map Detail.unnumbered
      = (nameDetails group.name).map Detail.unnumbered
        ++ (detailsOfItems group.items).map Detail.unnumbered := List.map_append
  rw [hmap, map_unnumbered_nameDetails, ← detailsOfItems_unnumbered]
  rfl

theorem SimpleType.isSound_unnumbered (type : SimpleType) :
    type.unnumbered.IsSound ↔ type.IsSound := by
  obtain ⟨name, base, variety, facets⟩ := type
  have hmembers : variety.unnumbered ≠ .union [] ↔ variety ≠ .union [] := by
    refine not_congr ?_
    cases variety with
    | atomic | list => exact ⟨nofun, nofun⟩
    | union members => cases members <;> simp [Variety.unnumbered, unnumberedTypes]
  have hbase : (⟨name, unnumberedBase base, variety.unnumbered, facets⟩ : SimpleType)
      = anySimpleType ↔ (⟨name, base, variety, facets⟩ : SimpleType) = anySimpleType := by
    cases base <;> cases variety <;> simp [anySimpleType, unnumberedBase, Variety.unnumbered]
  have hnone : unnumberedBase base = none ↔ base = none := by
    cases base <;> simp [unnumberedBase]
  exact ⟨fun h => ⟨hmembers.mp h.members, h.facets, fun heq => hbase.mp (h.base (hnone.mpr heq))⟩,
    fun h => ⟨hmembers.mpr h.members, h.facets, fun heq => hbase.mpr (h.base (hnone.mp heq))⟩⟩

theorem Detail.isSound_unnumbered (detail : Detail) :
    detail.unnumbered.IsSound ↔ detail.IsSound := by
  cases detail with
  | refers | declares | occurs => exact Iff.rfl
  | simple type => exact type.isSound_unnumbered

/-- Whether details are sound does not depend on the numbers in them. -/
theorem Details.uphold_isSound_congr {details others : List Detail}
    (h : details.map Detail.unnumbered = others.map Detail.unnumbered) :
    Uphold Detail.IsSound details ↔ Uphold Detail.IsSound others := by
  have hmap (details : List Detail) :
      Uphold Detail.IsSound (details.map Detail.unnumbered) ↔ Uphold Detail.IsSound details :=
    List.forall_mem_map.trans (forall₂_congr fun detail _ => detail.isSound_unnumbered)
  rw [← hmap details, h, hmap others]

/-! ### Components that are registered -/

theorem ElementDecl.uphold_numberFrom (decl : ElementDecl) (n : Nat) :
    Uphold Detail.IsSound (decl.numberFrom n).1.details ↔ Uphold Detail.IsSound decl.details :=
  uphold_isSound_congr (by
    rw [← details_unnumbered, ← details_unnumbered, unnumbered_numberFrom])

theorem TypeDef.uphold_numberFrom (definition : TypeDef) (n : Nat) :
    Uphold Detail.IsSound (definition.numberFrom n).1.details
      ↔ Uphold Detail.IsSound definition.details :=
  uphold_isSound_congr (by
    rw [← details_unnumbered, ← details_unnumbered, unnumbered_numberFrom])

theorem AttributeDecl.uphold_numberFrom (decl : AttributeDecl) (n : Nat) :
    Uphold Detail.IsSound (decl.numberFrom n).1.details ↔ Uphold Detail.IsSound decl.details :=
  uphold_isSound_congr (by
    rw [← details_unnumbered, ← details_unnumbered, unnumbered_numberFrom])

theorem ModelGroup.uphold_numberFrom (group : ModelGroup) (n : Nat) :
    Uphold Detail.IsSound (group.numberFrom n).1.details ↔ Uphold Detail.IsSound group.details :=
  uphold_isSound_congr (by
    rw [← details_unnumbered, ← details_unnumbered, unnumbered_numberFrom])

theorem AttributeGroup.uphold_numberFrom (group : AttributeGroup) (n : Nat) :
    Uphold Detail.IsSound (group.numberFrom n).1.details ↔ Uphold Detail.IsSound group.details :=
  uphold_isSound_congr (by
    rw [← details_unnumbered, ← details_unnumbered, unnumbered_numberFrom])

end Specimen

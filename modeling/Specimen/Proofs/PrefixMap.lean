import Specimen.Name.Prefixes
import Specimen.Text.Numeral

/-!
# Prefixes stand for one namespace each

A sound map gives every namespace its usual prefix or a numbered one, and no two namespaces the same.
Asking for a prefix keeps a map sound and takes nothing back. The prefixes are names without a colon,
and none of them is `xmlns`, so that they can stand in tags.
-/

namespace Specimen.Prefixes

/-! ## The prefixes that are given out -/

theorem numbered_injective {m n : Nat} (h : numbered m = numbered n) : m = n :=
  Text.toString_injective ((String.append_right_inj "ns").mp h)

theorem toList_numbered (n : Nat) :
    (numbered n).toList = ['n', 's'] ++ Nat.toDigits 10 n := by
  show ("ns" ++ Nat.repr n).toList = _
  rw [String.toList_append, Nat.repr_eq_ofList_toDigits, String.toList_ofList, String.toList_ofList]

/-- A numbered prefix is none that begins in another way. -/
theorem numbered_ne {s : String} (h : s.toList.head? ≠ some 'n') (n : Nat) : numbered n ≠ s := by
  rintro rfl
  rw [toList_numbered] at h
  exact h rfl

theorem colon_notMem_numbered (n : Nat) : ':' ∉ (numbered n).toList := by
  rw [toList_numbered]
  have hdigits : ':' ∉ Nat.toDigits 10 n := by
    intro h
    have hdigit := Nat.isDigit_of_mem_toDigits (by decide) (by decide) h
    exact absurd hdigit (by decide)
  simpa using hdigits

/-- A prefix that may stand for a namespace: the usual one, or one with a number below `bound`. -/
def IsGiven (bound : Nat) (uri pfx : String) : Prop :=
  (uri = Namespace.xml ∧ pfx = "xml")
    ∨ (uri = Namespace.xsi ∧ pfx = "xsi")
    ∨ (uri = Namespace.xsd ∧ pfx = "xs")
    ∨ ∃ n < bound, pfx = numbered n

namespace IsGiven

variable {bound : Nat} {uri pfx : String}

theorem mono {bound' : Nat} (hle : bound ≤ bound') (h : IsGiven bound uri pfx) :
    IsGiven bound' uri pfx := by
  rcases h with h | h | h | ⟨n, hn, h⟩
  · exact .inl h
  · exact .inr (.inl h)
  · exact .inr (.inr (.inl h))
  · exact .inr (.inr (.inr ⟨n, by omega, h⟩))

theorem ne_empty (h : IsGiven bound uri pfx) : pfx ≠ "" := by
  rcases h with ⟨-, rfl⟩ | ⟨-, rfl⟩ | ⟨-, rfl⟩ | ⟨n, -, rfl⟩
  · decide
  · decide
  · decide
  · exact numbered_ne (by decide) n

theorem ne_xmlns (h : IsGiven bound uri pfx) : pfx ≠ "xmlns" := by
  rcases h with ⟨-, rfl⟩ | ⟨-, rfl⟩ | ⟨-, rfl⟩ | ⟨n, -, rfl⟩
  · decide
  · decide
  · decide
  · exact numbered_ne (by decide) n

theorem colon_notMem (h : IsGiven bound uri pfx) : ':' ∉ pfx.toList := by
  rcases h with ⟨-, rfl⟩ | ⟨-, rfl⟩ | ⟨-, rfl⟩ | ⟨n, -, rfl⟩
  · decide
  · decide
  · decide
  · exact colon_notMem_numbered n

theorem uri_of_xsi (h : IsGiven bound uri "xsi") : uri = Namespace.xsi := by
  rcases h with ⟨-, h⟩ | ⟨h, -⟩ | ⟨-, h⟩ | ⟨n, -, h⟩
  · exact absurd h (by decide)
  · exact h
  · exact absurd h (by decide)
  · exact absurd h.symm (numbered_ne (by decide) n)

theorem uri_of_xs (h : IsGiven bound uri "xs") : uri = Namespace.xsd := by
  rcases h with ⟨-, h⟩ | ⟨-, h⟩ | ⟨h, -⟩ | ⟨n, -, h⟩
  · exact absurd h (by decide)
  · exact absurd h (by decide)
  · exact h
  · exact absurd h.symm (numbered_ne (by decide) n)

theorem number_lt {n : Nat} (h : IsGiven bound uri (numbered n)) : n < bound := by
  rcases h with ⟨-, h⟩ | ⟨-, h⟩ | ⟨-, h⟩ | ⟨m, hm, h⟩
  · exact absurd h (numbered_ne (by decide) n)
  · exact absurd h (numbered_ne (by decide) n)
  · exact absurd h (numbered_ne (by decide) n)
  · exact numbered_injective h ▸ hm

end IsGiven

/-! ## Sound maps -/

/-- Every prefix is one that may be given out, `xml` is among them, and no two namespaces share
one. -/
structure IsSound (ps : Prefixes) : Prop where
  xml : ps.get? Namespace.xml = some "xml"
  given {uri pfx : String} : ps.get? uri = some pfx → IsGiven ps.next uri pfx
  injective {uri uri' pfx : String} :
    ps.get? uri = some pfx → ps.get? uri' = some pfx → uri = uri'

/-- Everything that one map gives is given by another. -/
def Extends (ps' ps : Prefixes) : Prop :=
  ∀ uri pfx, ps.get? uri = some pfx → ps'.get? uri = some pfx

theorem Extends.refl (ps : Prefixes) : ps.Extends ps := fun _ _ h => h

theorem Extends.trans {ps ps' ps'' : Prefixes} (h' : ps''.Extends ps') (h : ps'.Extends ps) :
    ps''.Extends ps :=
  fun uri pfx hget => h' uri pfx (h uri pfx hget)

theorem isSound_empty : ({} : Prefixes).IsSound := by
  have hget {uri pfx : String} (h : ({} : Prefixes).get? uri = some pfx) :
      uri = Namespace.xml ∧ pfx = "xml" := by
    simp only [get?, List.lookup_singleton] at h
    split at h
    · rename_i heq
      exact ⟨by simpa using heq, by simpa using h.symm⟩
    · cases h
  refine ⟨rfl, fun h => ?_, fun h h' => (hget h).1.trans (hget h').1.symm⟩
  obtain ⟨rfl, rfl⟩ := hget h
  exact .inl ⟨rfl, rfl⟩

/-! ## Asking for a prefix -/

theorem get?_add (ps : Prefixes) (uri pfx uri' : String) (next : Nat) :
    (ps.add uri pfx next).get? uri' = (ps.get? uri').or (if uri' = uri then some pfx else none) := by
  simp [add, get?, List.lookup_append]

theorem bind_of_some {ps : Prefixes} {uri pfx : String} (h : ps.get? uri = some pfx) :
    ps.bind uri = ((pfx, false), ps) := by
  rw [bind, h]

/-- What a namespace without a prefix is given. -/
theorem bind_of_none {ps : Prefixes} {uri : String} (h : ps.get? uri = none) :
    ∃ pfx next, ps.bind uri = ((pfx, true), ps.add uri pfx next) ∧ ps.next ≤ next
      ∧ (uri = Namespace.xsi ∧ pfx = "xsi" ∨ uri = Namespace.xsd ∧ pfx = "xs"
        ∨ pfx = numbered ps.next ∧ next = ps.next + 1) := by
  unfold bind
  rw [h]
  by_cases hxsi : uri = Namespace.xsi
  · exact ⟨"xsi", ps.next, if_pos hxsi, Nat.le_refl _, .inl ⟨hxsi, rfl⟩⟩
  · by_cases hxsd : uri = Namespace.xsd
    · exact ⟨"xs", ps.next, (if_neg hxsi).trans (if_pos hxsd), Nat.le_refl _,
        .inr (.inl ⟨hxsd, rfl⟩)⟩
    · exact ⟨numbered ps.next, ps.next + 1, (if_neg hxsi).trans (if_neg hxsd), Nat.le_succ _,
        .inr (.inr ⟨rfl, rfl⟩)⟩

variable (ps : Prefixes) (uri : String)

/-- Asking gives the prefix that the map gives from then on. -/
theorem get?_bind : (ps.bind uri).2.get? uri = some (ps.bind uri).1.1 := by
  cases hget : ps.get? uri with
  | some pfx => rw [bind_of_some hget, hget]
  | none =>
    obtain ⟨pfx, next, heq, -⟩ := bind_of_none hget
    simp [heq, get?_add, hget]

theorem bind_extends : (ps.bind uri).2.Extends ps := by
  intro uri' pfx' hget'
  cases hget : ps.get? uri with
  | some _ => rwa [bind_of_some hget]
  | none =>
    obtain ⟨pfx, next, heq, -⟩ := bind_of_none hget
    simp [heq, get?_add, hget']

/-- Nothing but the namespace that was asked for is given a prefix. -/
theorem get?_bind_cases {uri' pfx : String} (h : (ps.bind uri).2.get? uri' = some pfx) :
    ps.get? uri' = some pfx ∨ uri' = uri ∧ pfx = (ps.bind uri).1.1 := by
  by_cases heq : uri' = uri
  · refine .inr ⟨heq, ?_⟩
    rw [heq, get?_bind] at h
    exact (Option.some.inj h).symm
  · cases hget : ps.get? uri with
    | some _ => exact .inl (by rwa [bind_of_some hget] at h)
    | none =>
      obtain ⟨_, _, hbind, -⟩ := bind_of_none hget
      exact .inl (by simpa [hbind, get?_add, heq] using h)

variable {ps uri}

/-- **A prefix that is given out newly stands for nothing else.** -/
theorem IsSound.get?_ne_bind (h : ps.IsSound) (hnone : ps.get? uri = none) (uri' : String) :
    ps.get? uri' ≠ some (ps.bind uri).1.1 := by
  intro hget
  have hgiven := h.given hget
  have hne : uri' ≠ uri := by
    rintro rfl
    rw [hnone] at hget
    cases hget
  obtain ⟨pfx, next, heq, -, hpfx⟩ := bind_of_none hnone
  rw [heq] at hgiven
  -- The usual prefixes stand for nothing else, and the next number has not been given out yet.
  rcases hpfx with ⟨rfl, rfl⟩ | ⟨rfl, rfl⟩ | ⟨rfl, -⟩
  · exact hne hgiven.uri_of_xsi
  · exact hne hgiven.uri_of_xs
  · exact absurd hgiven.number_lt (Nat.lt_irrefl _)

/-- **Asking for a prefix keeps a map sound.** -/
theorem IsSound.bind (h : ps.IsSound) (uri : String) : (ps.bind uri).2.IsSound := by
  cases hget : ps.get? uri with
  | some pfx => rwa [bind_of_some hget]
  | none =>
    refine ⟨ps.bind_extends uri _ _ h.xml, fun hnew => ?_, fun hnew hnew' => ?_⟩
    · obtain ⟨pfx, next, heq, hle, hpfx⟩ := bind_of_none hget
      rcases get?_bind_cases _ _ hnew with hold | ⟨rfl, rfl⟩
      · exact (h.given hold).mono (by rw [heq]; exact hle)
      · rw [heq]
        rcases hpfx with h | h | ⟨rfl, rfl⟩
        · exact .inr (.inl h)
        · exact .inr (.inr (.inl h))
        · exact .inr (.inr (.inr ⟨ps.next, Nat.lt_succ_self _, rfl⟩))
    · -- Two namespaces share a prefix only if both had it before or both are the one asked for.
      rcases get?_bind_cases _ _ hnew with hold | ⟨rfl, hpfx⟩ <;>
        rcases get?_bind_cases _ _ hnew' with hold' | ⟨rfl, hpfx'⟩
      · exact h.injective hold hold'
      · exact absurd (hpfx' ▸ hold) (h.get?_ne_bind hget _)
      · exact absurd (hpfx ▸ hold') (h.get?_ne_bind hget _)
      · rfl

/-! ## The prefix for a namespace -/

/-- The prefix of names in a namespace, which is empty for names in none. -/
def pfx (ps : Prefixes) (uri : String) : String := if uri = "" then "" else (ps.get? uri).getD ""

/-- Names in the namespace can be written. -/
def Names (ps : Prefixes) (uri : String) : Prop := uri = "" ∨ (ps.get? uri).isSome

@[simp] theorem pfx_empty (ps : Prefixes) : ps.pfx "" = "" := rfl

theorem pfx_of_get? {pfx : String} (hne : uri ≠ "") (h : ps.get? uri = some pfx) :
    ps.pfx uri = pfx := by
  rw [Prefixes.pfx, if_neg hne, h, Option.getD_some]

/-- The prefix of a namespace stays the same. -/
theorem Extends.pfx_eq {ps' : Prefixes} (h : ps'.Extends ps) (hnames : ps.Names uri) :
    ps'.pfx uri = ps.pfx uri := by
  by_cases hne : uri = ""
  · rw [hne, pfx_empty, pfx_empty]
  · obtain ⟨pfx, hget⟩ := Option.isSome_iff_exists.mp (hnames.resolve_left hne)
    rw [pfx_of_get? hne hget, pfx_of_get? hne (h uri pfx hget)]

namespace IsSound

variable (h : ps.IsSound) (hnames : ps.Names uri)
include h hnames

theorem colon_notMem : ':' ∉ (ps.pfx uri).toList := by
  by_cases hne : uri = ""
  · rw [hne, pfx_empty]
    decide
  · obtain ⟨pfx, hget⟩ := Option.isSome_iff_exists.mp (hnames.resolve_left hne)
    rw [pfx_of_get? hne hget]
    exact (h.given hget).colon_notMem

theorem pfx_ne_xmlns : ps.pfx uri ≠ "xmlns" := by
  by_cases hne : uri = ""
  · rw [hne, pfx_empty]
    decide
  · obtain ⟨pfx, hget⟩ := Option.isSome_iff_exists.mp (hnames.resolve_left hne)
    rw [pfx_of_get? hne hget]
    exact (h.given hget).ne_xmlns

/-- Only names in no namespace have no prefix. -/
theorem pfx_eq_empty_iff : ps.pfx uri = "" ↔ uri = "" := by
  refine ⟨fun heq => Classical.byContradiction fun hne => ?_, fun heq => by rw [heq, pfx_empty]⟩
  obtain ⟨pfx, hget⟩ := Option.isSome_iff_exists.mp (hnames.resolve_left hne)
  rw [pfx_of_get? hne hget] at heq
  exact (h.given hget).ne_empty heq

/-- **Different namespaces have different prefixes.** -/
theorem pfx_injective {uri' : String} (hnames' : ps.Names uri') (heq : ps.pfx uri = ps.pfx uri') :
    uri = uri' := by
  by_cases hne : uri = ""
  · rw [hne, pfx_empty] at heq
    rw [hne, (h.pfx_eq_empty_iff hnames').mp heq.symm]
  · have hne' : uri' ≠ "" := by
      rintro rfl
      exact hne ((h.pfx_eq_empty_iff hnames).mp heq)
    obtain ⟨pfx, hget⟩ := Option.isSome_iff_exists.mp (hnames.resolve_left hne)
    obtain ⟨pfx', hget'⟩ := Option.isSome_iff_exists.mp (hnames'.resolve_left hne')
    rw [pfx_of_get? hne hget, pfx_of_get? hne' hget'] at heq
    exact h.injective hget (heq ▸ hget')

end IsSound

theorem IsSound.names_xml (h : ps.IsSound) : ps.Names Namespace.xml := .inr (by simp [h.xml])

theorem IsSound.pfx_xml (h : ps.IsSound) : ps.pfx Namespace.xml = "xml" :=
  pfx_of_get? (by decide) h.xml

/-- Only the namespace of `xml` has this prefix. -/
theorem IsSound.pfx_eq_xml_iff (h : ps.IsSound) (hnames : ps.Names uri) :
    ps.pfx uri = "xml" ↔ uri = Namespace.xml := by
  refine ⟨fun heq => ?_, fun heq => by rw [heq, h.pfx_xml]⟩
  exact h.pfx_injective hnames h.names_xml (heq.trans h.pfx_xml.symm)

end Specimen.Prefixes

import Mathlib.Data.List.Basic
import Mathlib.Data.List.Induction
import Mathlib.Data.List.Nodup
import Specimen.Proofs.PrefixMap

/-!
# Which prefix a namespace is given

Asking a new map for prefixes, one after another, gives every namespace one prefix, whenever and
however often it is asked for. It is the usual prefix of a well-known namespace, and for any other
namespace a number: its place in the order in which the other namespaces are first asked for. So the
prefix depends on the namespaces that have been asked for before, and on none that come later.
-/

namespace Specimen.Prefixes

/-! ## The prefixes to be given -/

/-- The prefix that a well-known namespace always has. -/
def usual? (uri : String) : Option String :=
  if uri = Namespace.xml then some "xml"
  else if uri = Namespace.xsi then some "xsi"
  else if uri = Namespace.xsd then some "xs"
  else none

/-- The namespaces without a usual prefix, in the order in which they are first asked for. -/
def firstUses (asked : List String) : List String :=
  (asked.filter fun uri => (usual? uri).isNone).eraseDups

/-- The prefix of a namespace when these have been asked for. -/
def assigned (asked : List String) (uri : String) : String :=
  (usual? uri).getD (numbered ((firstUses asked).idxOf uri + 1))

variable {asked : List String} {uri : String}

theorem mem_firstUses : uri ∈ firstUses asked ↔ uri ∈ asked ∧ usual? uri = none := by
  rw [firstUses, List.mem_eraseDups, List.mem_filter, Option.isNone_iff_eq_none]

/-- What is asked for later comes behind. -/
theorem firstUses_prefix (asked more : List String) :
    firstUses asked <+: firstUses (asked ++ more) := by
  rw [firstUses, firstUses, List.filter_append, List.eraseDups_append]
  exact List.prefix_append _ _

/-- Only a namespace without a usual prefix that is asked for the first time takes a number. -/
theorem firstUses_concat (asked : List String) (uri : String) : firstUses (asked ++ [uri])
    = firstUses asked ++ if uri ∉ asked ∧ usual? uri = none then [uri] else [] := by
  rw [firstUses, firstUses, List.filter_append, List.eraseDups_append]
  congr 1
  cases husual : usual? uri with
  | some pfx => simp [List.removeAll, husual]
  | none =>
    by_cases hmem : uri ∈ asked
    · simp [List.removeAll, husual, hmem]
    · simp [List.removeAll, husual, hmem, List.eraseDups_cons]

/-- No namespace takes two numbers. -/
theorem nodup_firstUses (asked : List String) : (firstUses asked).Nodup := by
  induction asked using List.reverseRecOn with
  | nil => exact List.nodup_nil
  | append_singleton asked uri ih =>
    rw [firstUses_concat]
    split
    · next h =>
      refine ih.append (List.nodup_singleton uri) (List.disjoint_singleton.mpr fun hmem => ?_)
      exact h.1 (mem_firstUses.mp hmem).1
    · rwa [List.append_nil]

/-- A namespace that has a prefix keeps it, whatever is asked for later. -/
theorem assigned_append (h : usual? uri = none → uri ∈ asked) (more : List String) :
    assigned (asked ++ more) uri = assigned asked uri := by
  rw [assigned, assigned]
  cases husual : usual? uri with
  | some pfx => rfl
  | none =>
    obtain ⟨behind, heq⟩ := firstUses_prefix asked more
    rw [← heq, List.idxOf_append_of_mem (mem_firstUses.mpr ⟨h husual, husual⟩)]

/-- The namespace of `xml` and those that have been asked for have a prefix or have taken a number. -/
theorem asked_of_known (h : uri ∈ Namespace.xml :: asked) (hnone : usual? uri = none) :
    uri ∈ asked := by
  refine (List.mem_cons.mp h).resolve_left fun hxml => ?_
  rw [hxml] at hnone
  cases hnone

/-- The namespace that is asked for the first time takes the next number. -/
theorem assigned_concat (h : uri ∉ asked) : assigned (asked ++ [uri]) uri
    = (usual? uri).getD (numbered ((firstUses asked).length + 1)) := by
  rw [assigned]
  cases husual : usual? uri with
  | some pfx => rfl
  | none =>
    have hnot : uri ∉ firstUses asked := fun hmem => h (mem_firstUses.mp hmem).1
    rw [firstUses_concat, if_pos ⟨h, husual⟩, List.idxOf_append_of_notMem hnot]
    simp

/-! ## No prefix twice -/

theorem usual?_cases {pfx : String} (h : usual? uri = some pfx) :
    uri = Namespace.xml ∧ pfx = "xml" ∨ uri = Namespace.xsi ∧ pfx = "xsi"
      ∨ uri = Namespace.xsd ∧ pfx = "xs" := by
  unfold usual? at h
  split at h
  · exact .inl ⟨‹_›, (Option.some.inj h).symm⟩
  · split at h
    · exact .inr (.inl ⟨‹_›, (Option.some.inj h).symm⟩)
    · split at h
      · exact .inr (.inr ⟨‹_›, (Option.some.inj h).symm⟩)
      · cases h

theorem usual?_injective {uri' pfx : String} (h : usual? uri = some pfx)
    (h' : usual? uri' = some pfx) : uri = uri' := by
  rcases usual?_cases h with ⟨rfl, rfl⟩ | ⟨rfl, rfl⟩ | ⟨rfl, rfl⟩ <;>
    rcases usual?_cases h' with ⟨rfl, hpfx⟩ | ⟨rfl, hpfx⟩ | ⟨rfl, hpfx⟩
  all_goals first | rfl | exact absurd hpfx (by decide)

/-- No number is a usual prefix. -/
theorem numbered_ne_usual {pfx : String} (h : usual? uri = some pfx) (n : Nat) :
    numbered n ≠ pfx := by
  rcases usual?_cases h with ⟨-, rfl⟩ | ⟨-, rfl⟩ | ⟨-, rfl⟩
  all_goals exact numbered_ne (by decide) n

/-- **Two namespaces are not given the same prefix.** -/
theorem assigned_injective {uri' : String} (h : usual? uri = none → uri ∈ asked)
    (heq : assigned asked uri = assigned asked uri') : uri = uri' := by
  rw [assigned, assigned] at heq
  cases husual : usual? uri with
  | some pfx =>
    cases husual' : usual? uri' with
    | some pfx' =>
      rw [husual, husual'] at heq
      exact usual?_injective husual (husual'.trans (congrArg some heq.symm))
    | none =>
      rw [husual, husual'] at heq
      exact absurd heq.symm (numbered_ne_usual husual _)
  | none =>
    cases husual' : usual? uri' with
    | some pfx' =>
      rw [husual, husual'] at heq
      exact absurd heq (numbered_ne_usual husual' _)
    | none =>
      rw [husual, husual'] at heq
      exact (List.idxOf_inj (mem_firstUses.mpr ⟨h husual, husual⟩)).mp
        (Nat.succ.inj (numbered_injective heq))

/-! ## Asking -/

/-- A map from which prefixes for these namespaces have been asked, in this order. -/
structure IsAfter (asked : List String) (ps : Prefixes) : Prop where
  get?_eq (uri : String) :
    ps.get? uri = if uri ∈ Namespace.xml :: asked then some (assigned asked uri) else none
  next_eq : ps.next = (firstUses asked).length + 1

theorem isAfter_empty : IsAfter [] {} where
  get?_eq uri := by
    by_cases h : uri = Namespace.xml
    · rw [h]
      rfl
    · simp [get?, h]
  next_eq := rfl

theorem bind_of_new {ps : Prefixes} (hget : ps.get? uri = none) (hxml : uri ≠ Namespace.xml) :
    ps.bind uri = (((usual? uri).getD (numbered ps.next), true),
      ps.add uri ((usual? uri).getD (numbered ps.next))
        (ps.next + if usual? uri = none then 1 else 0)) := by
  simp only [bind, hget, usual?, if_neg hxml]
  split
  · rfl
  · split <;> rfl

variable {ps : Prefixes}

/-- A namespace that has a prefix is given it again. -/
theorem IsAfter.bind_known (h : ps.IsAfter asked) (hknown : uri ∈ Namespace.xml :: asked) :
    ps.bind uri = ((assigned asked uri, false), ps) ∧ IsAfter (asked ++ [uri]) ps := by
  refine ⟨bind_of_some (by rw [h.get?_eq, if_pos hknown]), fun uri' => ?_, ?_⟩
  · have hiff : uri' ∈ Namespace.xml :: (asked ++ [uri]) ↔ uri' ∈ Namespace.xml :: asked := by
      rw [← List.cons_append, List.mem_append, List.mem_singleton]
      exact or_iff_left_of_imp fun heq => heq ▸ hknown
    rw [h.get?_eq]
    by_cases hknown' : uri' ∈ Namespace.xml :: asked
    · rw [if_pos hknown', if_pos (hiff.mpr hknown'), assigned_append (asked_of_known hknown')]
    · rw [if_neg hknown', if_neg (mt hiff.mp hknown')]
  · have hnot : ¬(uri ∉ asked ∧ usual? uri = none) := fun hnew =>
      hnew.1 (asked_of_known hknown hnew.2)
    rw [h.next_eq, firstUses_concat, if_neg hnot, List.append_nil]

/-- A namespace that has none is given the usual one, or the next number. -/
theorem IsAfter.bind_new (h : ps.IsAfter asked) (hnew : uri ∉ Namespace.xml :: asked) :
    (ps.bind uri).1 = (assigned (asked ++ [uri]) uri, true)
      ∧ IsAfter (asked ++ [uri]) (ps.bind uri).2 := by
  obtain ⟨hxml, hasked⟩ := not_or.mp (mt List.mem_cons.mpr hnew)
  have hget : ps.get? uri = none := by rw [h.get?_eq, if_neg hnew]
  have hpfx : (usual? uri).getD (numbered ps.next) = assigned (asked ++ [uri]) uri := by
    rw [assigned_concat hasked, h.next_eq]
  rw [bind_of_new hget hxml, hpfx]
  refine ⟨rfl, fun uri' => ?_, ?_⟩
  · rw [get?_add, h.get?_eq, ← List.cons_append]
    by_cases hknown : uri' ∈ Namespace.xml :: asked
    · rw [if_pos hknown, if_pos (List.mem_append_left _ hknown), Option.some_or,
        assigned_append (asked_of_known hknown)]
    · rw [if_neg hknown, Option.none_or]
      by_cases heq : uri' = uri
      · rw [if_pos heq, heq, if_pos (List.mem_append_right _ (List.mem_singleton_self _))]
      · rw [if_neg heq, if_neg]
        simpa [heq] using hknown
  · rw [add, h.next_eq, firstUses_concat]
    cases usual? uri <;> simp [hasked]

/-- **A request is answered as the namespaces before it determine.** -/
theorem IsAfter.bind (h : ps.IsAfter asked) (uri : String) :
    (ps.bind uri).1 = (assigned (asked ++ [uri]) uri, decide (uri ∉ Namespace.xml :: asked))
      ∧ IsAfter (asked ++ [uri]) (ps.bind uri).2 := by
  by_cases hknown : uri ∈ Namespace.xml :: asked
  · obtain ⟨hbind, hafter⟩ := h.bind_known hknown
    rw [hbind, assigned_append (asked_of_known hknown), decide_eq_false (not_not_intro hknown)]
    exact ⟨rfl, hafter⟩
  · rw [decide_eq_true hknown]
    exact h.bind_new hknown

/-- The answers to requests, one after another. -/
def answers : Prefixes → List String → List (String × Bool)
  | _, [] => []
  | ps, uri :: rest => (ps.bind uri).1 :: answers (ps.bind uri).2 rest

/-- **Every request is answered with the prefix that is assigned to its namespace in the end.** -/
theorem IsAfter.getElem?_answers (h : ps.IsAfter asked) (uris : List String) (i : Nat) :
    (ps.answers uris)[i]? = uris[i]?.map fun uri =>
      (assigned (asked ++ uris) uri, decide (uri ∉ Namespace.xml :: (asked ++ uris.take i))) := by
  -- With each request the map moves on, and the namespaces that have been asked for with it.
  induction uris generalizing asked ps i with
  | nil => rfl
  | cons uri rest ih =>
    obtain ⟨hanswer, hafter⟩ := h.bind uri
    have hsame : asked ++ uri :: rest = asked ++ [uri] ++ rest := by simp
    cases i with
    | zero =>
      have hmem : uri ∈ asked ++ [uri] := List.mem_append_right _ (List.mem_singleton_self _)
      rw [answers, List.getElem?_cons_zero, List.getElem?_cons_zero, hanswer, hsame, Option.map_some,
        List.take_zero, List.append_nil, assigned_append fun _ => hmem]
    | succ i =>
      rw [answers, List.getElem?_cons_succ, List.getElem?_cons_succ, ih hafter, hsame]
      simp

/-- **Prefixes are injective and stable.** Whatever a new map is asked for, it gives each namespace
one prefix, and no two namespaces the same. The well-known namespaces have their usual prefixes, and
the others are numbered without gaps in the order in which they are first asked for. A prefix is new
on the first request for any namespace but that of `xml`. -/
theorem answers_stable (uris : List String) :
    ∃ prefixOf : String → String,
      ({} : Prefixes).answers uris = uris.mapIdx (fun i uri =>
        (prefixOf uri, decide (uri ≠ Namespace.xml ∧ uri ∉ uris.take i)))
      ∧ (∀ uri ∈ Namespace.xml :: Namespace.xsi :: Namespace.xsd :: uris,
        ∀ uri' ∈ Namespace.xml :: Namespace.xsi :: Namespace.xsd :: uris,
          prefixOf uri = prefixOf uri' → uri = uri')
      ∧ prefixOf Namespace.xml = "xml" ∧ prefixOf Namespace.xsi = "xsi"
      ∧ prefixOf Namespace.xsd = "xs"
      ∧ ∀ k (h : k < (firstUses uris).length),
        prefixOf (firstUses uris)[k] = "ns" ++ toString (k + 1) := by
  refine ⟨assigned uris, List.ext_getElem? fun i => ?_, ?_, rfl, rfl, rfl, fun k h => ?_⟩
  · rw [isAfter_empty.getElem?_answers, List.getElem?_mapIdx]
    simp [not_or]
  · refine fun uri h uri' _ heq => assigned_injective (fun hnone => ?_) heq
    simp only [List.mem_cons] at h
    obtain rfl | rfl | rfl | hasked := h
    exacts [absurd hnone (by decide), absurd hnone (by decide), absurd hnone (by decide), hasked]
  · obtain ⟨-, hnone⟩ := mem_firstUses.mp (List.getElem_mem h)
    rw [assigned, hnone, (nodup_firstUses uris).idxOf_getElem]
    rfl

example : ({} : Prefixes).answers ["urn:a", Namespace.xsi, "urn:b", Namespace.xml, "urn:a"]
    = [("ns1", true), ("xsi", true), ("ns2", true), ("xml", false), ("ns1", false)] := by decide

end Specimen.Prefixes

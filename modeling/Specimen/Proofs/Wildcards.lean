import Mathlib.Data.List.Nodup
import Mathlib.Data.List.Perm.Subperm
import Specimen.Proofs.Steps
import Specimen.Text.Numeral

/-!
# Namespaces that wildcards admit

Every namespace attribute that can be read admits a namespace, but for one without a word. The
namespace that is chosen for a wildcard is one that it admits. For a wildcard that refuses some
URIs this is a matter of counting: the numbered namespaces are all different, so one more of them
than there are URIs cannot all be refused.
-/

namespace Specimen

/-- The namespaces that a constraint admits. -/
def NamespaceConstraint.Admits : NamespaceConstraint → String → Prop
  | .any, _ => True
  | .among uris, uri => uri ∈ uris
  | .except uris, uri => uri ∉ uris

/-! ## Lists that are read -/

namespace NamespaceConstraint

theorem prefix_of_collect {target : String} {words uris uris' : List String}
    (h : collect target uris words = .ok uris') : uris <+: uris' := by
  induction words generalizing uris with
  | nil =>
    cases h
    exact List.prefix_refl _
  | cons word rest ih =>
    rw [collect] at h
    obtain ⟨uri, -, h⟩ := exists_of_bind_eq_ok h
    refine List.IsPrefix.trans ?_ (ih h)
    split
    · exact List.prefix_refl _
    · exact List.prefix_append _ _

theorem collect_cons_ne_nil {target word : String} {words : List String} :
    collect target [] (word :: words) ≠ .ok [] := by
  intro h
  rw [collect] at h
  obtain ⟨uri, -, h⟩ := exists_of_bind_eq_ok h
  exact absurd (prefix_of_collect h) (by simp)

/-- **A list of no namespaces is read from an attribute without a word**, and from no other one. -/
theorem read_eq_among_nil_iff (value : String) (target : Option String) :
    read value target = .ok (.among []) ↔ Text.words (Text.trim value) = [] := by
  unfold read
  simp only
  split
  · rename_i h
    exact iff_of_false nofun (by rw [h]; decide +kernel)
  · rename_i h
    exact iff_of_false nofun (by rw [h]; decide +kernel)
  · cases Text.words (Text.trim value) with
    | nil => exact iff_of_true rfl rfl
    | cons word rest =>
      refine iff_of_false (fun h => ?_) nofun
      cases hcollect : collect (target.getD "") [] (word :: rest) with
      | error e => simp [hcollect] at h
      | ok uris =>
        rw [hcollect] at h
        cases h
        exact collect_cons_ne_nil hcollect

end NamespaceConstraint

/-! ## Namespaces that are chosen -/

namespace Document

/-- The numbered namespace is not refused, unless all that are tried before the last one are. -/
theorem numberedNamespace_cases (excluded : List String) (steps i : Nat) :
    numberedNamespace excluded steps i ∉ excluded
      ∨ ∀ j, i ≤ j → j < i + steps → wildcardNamespace ++ toString j ∈ excluded := by
  induction steps generalizing i with
  | zero => exact .inr fun j hle hlt => absurd hlt (by omega)
  | succ steps ih =>
    rw [numberedNamespace]
    split
    · rename_i hi
      refine (ih (i + 1)).imp_right fun h j hle hlt => ?_
      by_cases hj : j = i
      · rw [hj]
        exact List.contains_iff_mem.mp hi
      · exact h j (by omega) (by omega)
    · rename_i hi
      exact .inl fun hmem => hi (List.contains_iff_mem.mpr hmem)

/-- The namespace without a number, and those with the first numbers. -/
def candidates (n : Nat) : List String :=
  wildcardNamespace :: (List.range n).map fun j => wildcardNamespace ++ toString (1 + j)

theorem candidates_nodup (n : Nat) : (candidates n).Nodup := by
  have hne : ∀ j : Nat, wildcardNamespace ++ toString j ≠ wildcardNamespace := by
    intro j h
    have hempty : toString j = "" := by
      rw [← String.append_right_inj wildcardNamespace, h, String.append_empty]
    exact Nat.repr_ne_empty hempty
  refine List.nodup_cons.mpr ⟨?_, List.Nodup.map ?_ List.nodup_range⟩
  · intro hmem
    obtain ⟨j, -, hj⟩ := List.mem_map.mp hmem
    exact hne _ hj
  · intro a b hab
    have := Text.toString_injective ((String.append_right_inj _).mp hab)
    omega

/-- **There is always a namespace that is not refused.** -/
theorem unlistedNamespace_not_mem (excluded : List String) :
    unlistedNamespace excluded ∉ excluded := by
  unfold unlistedNamespace
  split
  · rename_i h
    refine (numberedNamespace_cases excluded excluded.length 1).resolve_right fun hall => ?_
    -- One candidate more than there are refused URIs, and each of them refused.
    have hsub : candidates excluded.length ⊆ excluded := by
      intro uri huri
      rcases List.mem_cons.mp huri with rfl | huri
      · exact List.contains_iff_mem.mp h
      · obtain ⟨j, hj, rfl⟩ := List.mem_map.mp huri
        exact hall (1 + j) (by omega) (by have := List.mem_range.mp hj; omega)
    have hle := ((candidates_nodup excluded.length).subperm hsub).length_le
    simp only [candidates, List.length_cons, List.length_map, List.length_range] at hle
    omega
  · rename_i h
    exact fun hmem => h (List.contains_iff_mem.mpr hmem)

/-- **A wildcard is given a namespace that it admits**, and without a call. -/
theorem decides_chooseNamespace {σ : Type} [Source σ] (constraint : NamespaceConstraint) :
    Walk.Decides (chooseNamespace constraint : Walk σ String) constraint.Admits := by
  unfold chooseNamespace
  cases constraint with
  | any => exact .pure trivial
  | «except» uris => exact .pure (unlistedNamespace_not_mem uris)
  | among uris =>
    refine Walk.Decides.bind (.draw (P := fun picked => ∀ uri, picked = some uri → uri ∈ uris) ?_) ?_
    · intro s uri hpicked
      unfold Draw.pick at hpicked
      split at hpicked
      · cases hpicked
      · exact List.mem_of_getElem? hpicked
    · intro picked hpicked
      cases picked with
      | none => exact .fail (.invariant _)
      | some uri => exact .pure (hpicked uri rfl)

end Document

end Specimen

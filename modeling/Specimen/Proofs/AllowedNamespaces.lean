import Specimen.Proofs.Draws
import Specimen.Proofs.Wildcards

/-!
# Namespaces that an attribute allows

What the value of a `namespace` attribute allows, said of its words: all namespaces, all but the
target namespace and none, or those that the words stand for. A value is refused only for a word
that begins like a keyword and is none. What is read from one that is accepted admits what the value
allows, so a wildcard is given a namespace that is allowed. Where some are refused, it is the first
one of a numbered row that is not among them, and comes no later in the row than there are refused
ones.
-/

namespace Specimen

/-! ## Values of the attribute -/

namespace NamespaceConstraint

/-- The word begins like a keyword. -/
def IsReserved (word : String) : Prop := ∃ rest, word.toList = '#' :: '#' :: rest

/-- The namespace that a word stands for in a schema with this target namespace, or with none. The
empty URI is no namespace. -/
inductive Names (target : Option String) : String → String → Prop
  | noNamespace : Names target "##local" ""
  | targetNamespace : Names target "##targetNamespace" (target.getD "")
  | itself {word : String} (h : ¬IsReserved word) : Names target word word

/-- The value of the attribute allows the namespace, or no namespace if the URI is empty. -/
inductive Allows (value : String) (target : Option String) : String → Prop
  | any {uri : String} (h : Text.trim value = "##any") : Allows value target uri
  | other {uri : String} (h : Text.trim value = "##other") (htarget : target ≠ some uri)
      (hsome : uri ≠ "") : Allows value target uri
  | listed {word uri : String} (hany : Text.trim value ≠ "##any")
      (hother : Text.trim value ≠ "##other") (hword : word ∈ Text.words (Text.trim value))
      (hnames : Names target word uri) : Allows value target uri

/-- The value is a list with a word that begins like a keyword and is none. -/
structure HasUnknownKeyword (value : String) : Prop where
  notAny : Text.trim value ≠ "##any"
  notOther : Text.trim value ≠ "##other"
  word : ∃ word ∈ Text.words (Text.trim value), IsReserved word ∧ word ≠ "##local"
    ∧ word ≠ "##targetNamespace"

variable {target word uri : String} {words uris : List String}

/-! ### Words -/

theorem isReserved_iff (word : String) : word.toList.take 2 = ['#', '#'] ↔ IsReserved word := by
  unfold IsReserved
  generalize word.toList = cs
  constructor
  · intro h
    match cs with
    | [] => cases h
    | [_] => cases h
    | a :: b :: rest =>
      cases h
      exact ⟨rest, rfl⟩
  · rintro ⟨rest, rfl⟩
    rfl

theorem wordUri_eq_error_iff :
    (∃ e, wordUri target word = .error e)
      ↔ IsReserved word ∧ word ≠ "##local" ∧ word ≠ "##targetNamespace" := by
  rw [← isReserved_iff]
  unfold wordUri
  by_cases hlocal : word = "##local"
  · simp [hlocal]
  · by_cases htarget : word = "##targetNamespace"
    · simp [htarget]
    · rw [if_neg hlocal, if_neg htarget, and_iff_left ⟨hlocal, htarget⟩]
      split
      · next h => exact iff_of_true ⟨_, rfl⟩ h
      · next h => exact iff_of_false (fun ⟨_, he⟩ => nomatch he) h

theorem wordUri_eq_ok_iff {target : Option String} :
    wordUri (target.getD "") word = .ok uri ↔ Names target word uri := by
  unfold wordUri
  constructor
  · intro h
    split at h
    · next hlocal =>
      cases h
      exact hlocal ▸ .noNamespace
    · split at h
      · next htarget =>
        cases h
        exact htarget ▸ .targetNamespace
      · split at h
        · cases h
        · next hreserved =>
          cases h
          exact .itself (mt (isReserved_iff word).mpr hreserved)
  · intro h
    cases h with
    | noNamespace => rfl
    | targetNamespace => rfl
    | itself h =>
      -- Both keywords are reserved words.
      have hlocal : word ≠ "##local" := fun heq => h ⟨"local".toList, by rw [heq]; rfl⟩
      have htarget : word ≠ "##targetNamespace" := fun heq =>
        h ⟨"targetNamespace".toList, by rw [heq]; rfl⟩
      rw [if_neg hlocal, if_neg htarget, if_neg (mt (isReserved_iff word).mp h)]

/-! ### Lists of words -/

theorem collect_eq_error_iff :
    (∃ e, collect target uris words = .error e)
      ↔ ∃ word ∈ words, ∃ e, wordUri target word = .error e := by
  induction words generalizing uris with
  | nil =>
    refine iff_of_false (by rintro ⟨_, ⟨⟩⟩) ?_
    rintro ⟨_, hmem, -⟩
    exact List.not_mem_nil hmem
  | cons word rest ih =>
    rw [collect, List.exists_mem_cons_iff]
    cases hword : wordUri target word with
    | error e => exact iff_of_true ⟨e, rfl⟩ (.inl ⟨e, rfl⟩)
    | ok uri => exact ih.trans (or_iff_right (by rintro ⟨_, ⟨⟩⟩)).symm

theorem mem_of_collect {collected : List String} (h : collect target uris words = .ok collected) :
    uri ∈ collected ↔ uri ∈ uris ∨ ∃ word ∈ words, wordUri target word = .ok uri := by
  induction words generalizing uris with
  | nil =>
    cases h
    exact (or_iff_left fun ⟨_, h, _⟩ => List.not_mem_nil h).symm
  | cons word rest ih =>
    rw [collect] at h
    obtain ⟨own, hword, h⟩ := exists_of_bind_eq_ok h
    have hmem : uri ∈ (if uris.contains own then uris else uris ++ [own])
        ↔ uri ∈ uris ∨ own = uri := by
      split
      · next hcontains =>
        refine (or_iff_left_of_imp ?_).symm
        rintro rfl
        exact List.contains_iff_mem.mp hcontains
      · rw [List.mem_append, List.mem_singleton, eq_comm]
    rw [ih h, hmem, List.exists_mem_cons_iff, hword, or_assoc, Except.ok.injEq]

/-! ### Reading -/

/-- **A value is refused for a word that begins like a keyword and is none**, and only for that. -/
theorem read_eq_error_iff (value : String) (target : Option String) :
    (∃ e, read value target = .error e) ↔ HasUnknownKeyword value := by
  unfold read
  simp only
  split
  · next h => exact iff_of_false (fun ⟨_, h⟩ => nomatch h) fun hunknown => hunknown.notAny h
  · next h => exact iff_of_false (fun ⟨_, h⟩ => nomatch h) fun hunknown => hunknown.notOther h
  · next hany hother =>
    have hmap :
        (∃ e, among <$> collect (target.getD "") [] (Text.words (Text.trim value)) = .error e)
          ↔ ∃ e, collect (target.getD "") [] (Text.words (Text.trim value)) = .error e := by
      cases collect (target.getD "") [] (Text.words (Text.trim value)) with
      | error e => exact iff_of_true ⟨e, rfl⟩ ⟨e, rfl⟩
      | ok uris => exact iff_of_false (fun ⟨_, h⟩ => nomatch h) fun ⟨_, h⟩ => nomatch h
    rw [hmap, collect_eq_error_iff]
    simp only [wordUri_eq_error_iff]
    exact ⟨fun h => ⟨hany, hother, h⟩, HasUnknownKeyword.word⟩

/-- All namespaces but the target namespace and none are admitted by an exception. -/
theorem not_mem_other_iff {target : Option String} {uri : String} :
    uri ∉ (if target.getD "" = "" then [""] else [target.getD "", ""])
      ↔ target ≠ some uri ∧ uri ≠ "" := by
  cases target with
  | none => simp
  | some own =>
    by_cases hown : own = ""
    · subst hown
      simp [eq_comm]
    · simp [hown, eq_comm]

theorem allows_of_other {value : String} {target : Option String} {uri : String}
    (h : Text.trim value = "##other") :
    Allows value target uri ↔ target ≠ some uri ∧ uri ≠ "" := by
  constructor
  · intro hallows
    cases hallows with
    | any h' => exact absurd (h.symm.trans h') (by decide)
    | other _ htarget hsome => exact ⟨htarget, hsome⟩
    | listed _ h' => exact absurd h h'
  · rintro ⟨htarget, hsome⟩
    exact .other h htarget hsome

theorem allows_of_listed {value : String} {target : Option String} {uri : String}
    (hany : Text.trim value ≠ "##any") (hother : Text.trim value ≠ "##other") :
    Allows value target uri ↔ ∃ word ∈ Text.words (Text.trim value), Names target word uri := by
  constructor
  · intro hallows
    cases hallows with
    | any h => exact absurd h hany
    | other h => exact absurd h hother
    | listed _ _ hword hnames => exact ⟨_, hword, hnames⟩
  · rintro ⟨word, hword, hnames⟩
    exact .listed hany hother hword hnames

/-- **What is read from a value admits what the value allows.** -/
theorem admits_iff_allows {value : String} {target : Option String}
    {constraint : NamespaceConstraint} (h : read value target = .ok constraint) (uri : String) :
    constraint.Admits uri ↔ Allows value target uri := by
  unfold read at h
  simp only at h
  split at h
  · next hany =>
    cases h
    exact iff_of_true trivial (.any hany)
  · next hother =>
    cases h
    exact not_mem_other_iff.trans (allows_of_other hother).symm
  · next hany hother =>
    rw [allows_of_listed hany hother]
    cases hcollect : collect (target.getD "") [] (Text.words (Text.trim value)) with
    | error e =>
      rw [hcollect] at h
      cases h
    | ok uris =>
      rw [hcollect] at h
      cases h
      refine (mem_of_collect hcollect).trans ((or_iff_right List.not_mem_nil).trans ?_)
      simp only [wordUri_eq_ok_iff]

end NamespaceConstraint

/-! ## Namespaces for wildcards -/

namespace Document

open NamespaceConstraint

/-- The row of namespaces that are tried, one after another. -/
def candidate : Nat → String
  | 0 => wildcardNamespace
  | k + 1 => wildcardNamespace ++ toString (k + 1)

theorem candidates_eq (n : Nat) : candidates n = (List.range (n + 1)).map candidate := by
  rw [candidates, List.range_succ_eq_map, List.map_cons, List.map_map]
  refine congrArg (wildcardNamespace :: ·) (List.map_congr_left fun k _ => ?_)
  rw [Nat.add_comm]
  rfl

/-- The search passes over refused numbers only. -/
theorem exists_numberedNamespace (excluded : List String) (steps i : Nat) :
    ∃ k, numberedNamespace excluded steps (i + 1) = candidate (i + k + 1)
      ∧ ∀ j < k, candidate (i + j + 1) ∈ excluded := by
  induction steps generalizing i with
  | zero => exact ⟨0, rfl, fun j hj => absurd hj j.not_lt_zero⟩
  | succ steps ih =>
    rw [numberedNamespace]
    split
    · next hi =>
      obtain ⟨k, heq, hpassed⟩ := ih (i + 1)
      refine ⟨k + 1, ?_, fun j hj => ?_⟩
      · rw [heq, show i + 1 + k + 1 = i + (k + 1) + 1 by omega]
      · cases j with
        | zero => exact List.contains_iff_mem.mp hi
        | succ j =>
          rw [show i + (j + 1) + 1 = i + 1 + j + 1 by omega]
          exact hpassed j (by omega)
    · exact ⟨0, rfl, fun j hj => absurd hj j.not_lt_zero⟩

/-- All candidates before the one that is found are refused. -/
theorem exists_unlistedNamespace (excluded : List String) :
    ∃ k, unlistedNamespace excluded = candidate k ∧ ∀ j < k, candidate j ∈ excluded := by
  unfold unlistedNamespace
  split
  · next h =>
    obtain ⟨k, heq, hpassed⟩ := exists_numberedNamespace excluded excluded.length 0
    refine ⟨k + 1, by rw [heq, Nat.zero_add], fun j hj => ?_⟩
    cases j with
    | zero => exact List.contains_iff_mem.mp h
    | succ j =>
      have hmem := hpassed j (by omega)
      rwa [Nat.zero_add] at hmem
  · exact ⟨0, rfl, fun j hj => absurd hj j.not_lt_zero⟩

theorem candidate_ne_empty (k : Nat) : candidate k ≠ "" := by
  have happend (suffix : String) : wildcardNamespace ++ suffix ≠ "" := fun h =>
    absurd (congrArg String.length h) (by rw [String.length_append]; simp [wildcardNamespace])
  cases k with
  | zero => decide
  | succ k => exact happend _

/-- The namespace is the first of the row that is not refused, and comes no later in it than there
are refused ones. -/
structure IsFirstUnlisted (excluded : List String) (k : Nat) (uri : String) : Prop where
  eq : uri = candidate k
  bound : k ≤ excluded.length
  unlisted : uri ∉ excluded
  listed : ∀ j < k, candidate j ∈ excluded
  nonempty : uri ≠ ""

theorem exists_isFirstUnlisted (excluded : List String) :
    ∃ k, IsFirstUnlisted excluded k (unlistedNamespace excluded) := by
  obtain ⟨k, heq, hlisted⟩ := exists_unlistedNamespace excluded
  refine ⟨k, heq, ?_, unlistedNamespace_not_mem excluded, hlisted, heq ▸ candidate_ne_empty k⟩
  cases k with
  | zero => exact Nat.zero_le _
  | succ k =>
    -- The candidates before this one are all different, and each of them is refused.
    have hsub : candidates k ⊆ excluded := by
      intro uri huri
      rw [candidates_eq] at huri
      obtain ⟨j, hj, rfl⟩ := List.mem_map.mp huri
      exact hlisted j (List.mem_range.mp hj)
    have hle := ((candidates_nodup k).subperm hsub).length_le
    rwa [candidates_eq, List.length_map, List.length_range] at hle

/-- No namespace is chosen only where the constraint lists none. -/
theorem eq_among_nil_of_runs {σ : Type} [Source σ] {constraint : NamespaceConstraint}
    {s s' : Supply σ} {st : List (Step (Supply σ))} {e : Error}
    (h : (chooseNamespace constraint : Walk σ String).Runs s st (.error e) s') :
    constraint = .among [] := by
  unfold chooseNamespace at h
  cases constraint with
  | any => cases (Walk.runs_pure h).2.1
  | «except» uris => cases (Walk.runs_pure h).2.1
  | among uris =>
    rcases Walk.runs_bind h with ⟨_, -, hdraw⟩ | ⟨picked, s₁, st₁, st₂, hdraw, hrest, -⟩
    · cases (Walk.runs_draw hdraw).2.1
    · obtain ⟨-, hpicked, -⟩ := Walk.runs_draw hdraw
      cases hpicked
      cases hpick : (Draw.pick uris s.source).1 with
      | none => rw [(Draw.pick_eq_none_iff uris s.source).mp hpick]
      | some uri =>
        rw [hpick] at hrest
        cases (Walk.runs_pure hrest).2.1

/-- **Wildcards are given namespaces that their attribute allows.** The value of the attribute is
refused exactly for a word that begins like a keyword and is none. From any other value a constraint
is read that admits what the value allows, and whatever the source, the namespace that is chosen
for it is allowed; there is one, unless the value has no word. For some refused namespaces the one
that is found is the first of a numbered row that is none of them. -/
theorem chooseNamespace_allows {σ : Type} [Source σ] (value : String) (target : Option String) :
    ((∃ e, read value target = .error e) ↔ HasUnknownKeyword value)
      ∧ (∀ constraint, read value target = .ok constraint →
        (∀ uri, constraint.Admits uri ↔ Allows value target uri)
        ∧ ∀ s st r s', (chooseNamespace constraint : Walk σ String).Runs s st r s' →
          (∀ uri, r = .ok uri → Allows value target uri)
          ∧ ∀ e, r = .error e → Text.words (Text.trim value) = [])
      ∧ ∀ excluded, ∃ k, IsFirstUnlisted excluded k (unlistedNamespace excluded) := by
  refine ⟨read_eq_error_iff value target, fun constraint h => ⟨admits_iff_allows h, ?_⟩,
    exists_isFirstUnlisted⟩
  intro s st r s' hr
  obtain ⟨-, -, hadmits⟩ := decides_chooseNamespace constraint s st r s' hr
  refine ⟨fun uri huri => (admits_iff_allows h uri).mp (hadmits uri huri), ?_⟩
  rintro e rfl
  rw [eq_among_nil_of_runs hr] at h
  exact (read_eq_among_nil_iff value target).mp h

end Document

end Specimen

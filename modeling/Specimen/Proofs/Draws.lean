import Specimen.Generate.Walk

/-!
# What draws can lead to

Whatever words a source yields, a shuffle only changes the order, one of the items of a list is
picked, a whole number lies between its bounds, and a count lies in the declared range, whatever the
policy asks for.
-/

namespace Specimen

variable {σ α : Type} [Source σ]

/-! ## Shuffles -/

namespace Draw

theorem shuffleFrom_perm (i : Nat) (items : Array α) (s : σ) :
    (shuffleFrom i items s).1.Perm items := by
  induction i generalizing items s with
  | zero => exact .rfl
  | succ i ih =>
    rw [shuffleFrom]
    generalize shortIndex (i + 2) s = drawn
    obtain ⟨j, s⟩ := drawn
    refine (ih (items.swapIfInBounds (i + 1) j) s).trans ?_
    unfold Array.swapIfInBounds
    split
    · split
      · exact Array.swap_perm _ _
      · exact .rfl
    · exact .rfl

/-- **A shuffle loses nothing and adds nothing.** -/
theorem shuffle_perm (items : List α) (s : σ) : (shuffle items s).1.Perm items :=
  Array.Perm.toList (shuffleFrom_perm (items.length - 1) items.toArray s)

/-! ## Numbers below a bound -/

omit [Source σ] in
theorem belowFrom_lt {draw : σ → Nat × σ} {bits n : Nat}
    (hdraw : ∀ s, (draw s).1 < Nat.pow 2 bits) (hn : 0 < n) (retries : Nat) (s : σ) :
    (belowFrom draw bits n retries s).1 < n := by
  have hbelow (w : Nat) (hw : w < Nat.pow 2 bits) : w * n / Nat.pow 2 bits < n :=
    Nat.div_lt_of_lt_mul (Nat.mul_lt_mul_of_pos_right hw hn)
  induction retries generalizing s with
  | zero => exact hbelow _ (hdraw s)
  | succ retries ih =>
    simp only [belowFrom]
    split
    · exact hbelow _ (hdraw s)
    · exact ih _

theorem index_lt {n : Nat} (hn : 0 < n) (s : σ) : (index n s).1 < n :=
  belowFrom_lt (fun s => (next64 s).1.toNat_lt) hn patience s

/-- **One of the items is picked, unless there is none.** -/
theorem pick_eq_none_iff (items : List α) (s : σ) : (pick items s).1 = none ↔ items = [] := by
  unfold pick
  split
  · rename_i h
    exact iff_of_true rfl (List.isEmpty_iff.mp h)
  · rename_i h
    have hne : items ≠ [] := fun hnil => h (List.isEmpty_iff.mpr hnil)
    have hlt := index_lt (List.length_pos_iff.mpr hne) s
    exact iff_of_false (fun hnone => absurd (List.getElem?_eq_none_iff.mp hnone) (by omega)) hne

theorem exists_mem_of_pick {items : List α} (hne : items ≠ []) (s : σ) :
    ∃ item ∈ items, (pick items s).1 = some item := by
  cases h : (pick items s).1 with
  | none => exact absurd ((pick_eq_none_iff items s).mp h) hne
  | some item =>
    refine ⟨item, ?_, rfl⟩
    unfold pick at h
    split at h
    · cases h
    · exact List.mem_of_getElem? h

/-! ## Numbers between bounds -/

theorem roundBetween_mem {lo hi : Int} (h : lo ≤ hi) (x : Float) :
    lo ≤ Decimal.roundBetween lo hi x ∧ Decimal.roundBetween lo hi x ≤ hi := by
  unfold Decimal.roundBetween
  split <;> omega

/-- The whole number at `u` between two bounds, in whatever order these are given. -/
def intAt (a b : Int) (u : Float) : Int := if b < a then scaleInt b a u else scaleInt a b u

/-- The number lies between its bounds, whatever `u` is. -/
theorem intAt_mem (a b : Int) (u : Float) : min a b ≤ intAt a b u ∧ intAt a b u ≤ max a b := by
  simp only [intAt, scaleInt]
  split
  · have h := roundBetween_mem (show b ≤ a by omega) (scale (Decimal.ofInt b) (Decimal.ofInt a) u)
    omega
  · have h := roundBetween_mem (show a ≤ b by omega) (scale (Decimal.ofInt a) (Decimal.ofInt b) u)
    omega

theorem int_mem (a b : Int) (s : σ) : min a b ≤ (int a b s).1 ∧ (int a b s).1 ≤ max a b :=
  intAt_mem a b (unit s).1

/-- The whole number at `u` between two bounds that are not negative. -/
def natAt (a b : Nat) (u : Float) : Nat := (intAt a b u).toNat

theorem natAt_mem (a b : Nat) (u : Float) : min a b ≤ natAt a b u ∧ natAt a b u ≤ max a b := by
  have h := intAt_mem (a : Int) b u
  simp only [natAt]
  omega

/-- One number of the unit interval is drawn, and nothing else. -/
theorem nat_eq (a b : Nat) (s : σ) : nat a b s = (natAt a b (unit s).1, (unit s).2) := rfl

theorem nat_mem (a b : Nat) (s : σ) : min a b ≤ (nat a b s).1 ∧ (nat a b s).1 ≤ max a b :=
  natAt_mem a b (unit s).1

end Draw

/-! ## Counts -/

namespace Occurs

/-- The bounds are in order. -/
def InOrder (o : Occurs) : Prop := ∀ max, o.max = some max → o.min ≤ max

instance : DecidablePred InOrder
  | ⟨_, none⟩ => isTrue fun _ h => nomatch h
  | ⟨min, some max⟩ =>
    decidable_of_iff (min ≤ max) ⟨fun h _ hm => Option.some.inj hm ▸ h, fun h => h max rfl⟩

theorem contains_iff {o : Occurs} {n : Nat} :
    o.contains n = true ↔ o.min ≤ n ∧ ∀ max, o.max = some max → n ≤ max := by
  cases o with
  | mk min max => cases max <;> simp [contains]

end Occurs

namespace Count

/-- The bounds of a count lie in the declared range, also when those of the policy are reversed. -/
theorem bounds_mem {min : Nat} {max : Option Nat} (h : ∀ top, max = some top → min ≤ top)
    (policyMin policyMax : Nat) :
    (min ≤ (bounds min max policyMin policyMax).1
        ∧ ∀ top, max = some top → (bounds min max policyMin policyMax).1 ≤ top)
      ∧ (min ≤ (bounds min max policyMin policyMax).2
        ∧ ∀ top, max = some top → (bounds min max policyMin policyMax).2 ≤ top) := by
  have hmin : min ≤ max.getD (Nat.max min policyMax) := by
    cases max with
    | none => exact Nat.le_max_left _ _
    | some top => exact h top rfl
  have hmax : ∀ top, max = some top → max.getD (Nat.max min policyMax) = top := by
    rintro top rfl
    rfl
  -- The last number that is allowed is the declared one, or else as large as it needs to be.
  unfold bounds
  generalize max.getD (Nat.max min policyMax) = last at hmin hmax
  simp only
  split
  · exact ⟨⟨Nat.le_refl _, h⟩, hmin, fun top ht => Nat.le_of_eq (hmax top ht)⟩
  · rename_i hc
    simp only [Bool.or_eq_true, decide_eq_true_eq, not_or, Nat.not_lt] at hc
    refine ⟨⟨Nat.le_max_left _ _, fun top ht => ?_⟩, Nat.le_min.mpr ⟨hmin, hc.1⟩, fun top ht => ?_⟩
    · exact Nat.max_le.mpr ⟨h top ht, hmax top ht ▸ hc.2⟩
    · exact hmax top ht ▸ Nat.min_le_left _ _

theorem within_mem {min : Nat} {max : Option Nat} (h : ∀ top, max = some top → min ≤ top)
    (policyMin policyMax : Nat) (s : σ) :
    min ≤ (within min max policyMin policyMax s).1
      ∧ ∀ top, max = some top → (within min max policyMin policyMax s).1 ≤ top := by
  obtain ⟨⟨hlow, hlow'⟩, hhigh, hhigh'⟩ := bounds_mem h policyMin policyMax
  simp only [within]
  split
  · exact ⟨hlow, hlow'⟩
  · have hmem := Draw.nat_mem (bounds min max policyMin policyMax).1
      (bounds min max policyMin policyMax).2 s
    refine ⟨by omega, fun top ht => ?_⟩
    have := hlow' top ht
    have := hhigh' top ht
    omega

/-- **A term is repeated as often as its particle allows**, whatever the policy and the source. -/
theorem contains_ofOccurs {occurs : Occurs} (h : occurs.InOrder) (policy : Policy) (s : σ) :
    occurs.contains (ofOccurs policy occurs s).1 = true := by
  rw [Occurs.contains_iff]
  unfold ofOccurs
  split
  · rename_i ho
    simp only [Occurs.isOptional, Bool.and_eq_true, beq_iff_eq] at ho
    rw [ho.1, ho.2]
    simp only [Option.some.injEq, forall_eq']
    split <;> simp
  · exact within_mem h policy.minElements policy.maxElements s

end Count

namespace Document

/-- The number of branches that are visited is one that the choice may occur, if the policy asks for
no more and there are enough of them. -/
theorem contains_branchCount {policy : Policy} {occurs : Occurs} {n : Nat} (h : occurs.InOrder)
    (hp : policy.exhaustiveChoices = false) (hn : occurs.min ≤ n) :
    occurs.contains (branchCount policy occurs n) = true := by
  rw [Occurs.contains_iff]
  unfold branchCount
  cases hm : occurs.max with
  | none => exact ⟨hn, by simp⟩
  | some max =>
    have hmax := h max hm
    simp only [hp, Option.some.injEq, forall_eq', Bool.false_eq_true, if_false]
    exact ⟨Nat.le_min.mpr ⟨hn, hmax⟩, Nat.min_le_right n max⟩

theorem branchCount_le (policy : Policy) (occurs : Occurs) (n : Nat) :
    branchCount policy occurs n ≤ n := by
  unfold branchCount
  split
  · split <;> omega
  · exact Nat.le_refl _

end Document

end Specimen

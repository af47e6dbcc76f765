import Mathlib.Data.List.Count
import Mathlib.Data.List.Nodup
import Mathlib.Data.List.Perm.Basic
import Mathlib.Tactic.Ring
import Specimen.Draw.Scripted
import Specimen.Proofs.Draws
import Specimen.Proofs.Leaves

/-!
# How evenly a list covers an enumeration

The items of a list of enumerated values are the first ones of a pool in random order, and the pool
holds every value equally often: as often as it takes for enough items if the values are doubled
again and again. So no value has more items than copies in the pool, and none has fewer than the
others leave over. The values are used evenly, whatever the order is, if and only if one copy of
each is enough, or no more than one item is left over; in between, the order may prefer some values
to others.
-/

namespace Specimen.Leaf

open Filling

variable {values pool order : List String} {n doublings : Nat}

/-! ## The pool -/

/-- The pool holds the values, doubled so many times, and no more than `n` items ask for. -/
structure IsPool (values : List String) (n doublings : Nat) (pool : List String) : Prop where
  count (v : String) : pool.count v = 2 ^ doublings * values.count v
  length : pool.length = 2 ^ doublings * values.length
  least : doublings = 0 ∨ 2 ^ (doublings - 1) * values.length < n

theorem IsPool.double (h : IsPool values n doublings pool) (hn : pool.length < n) :
    IsPool values n (doublings + 1) (pool ++ pool) where
  count v := by rw [List.count_append, h.count]; ring
  length := by rw [List.length_append, h.length]; ring
  least := .inr (by simpa [← h.length] using hn)

/-- What the steps of the doubling come to. One step is as good as one item, since there is an item
to begin with. -/
theorem IsPool.doubleUpTo (h : IsPool values n doublings pool) (hne : pool ≠ []) (steps : Nat)
    (hsteps : n ≤ pool.length + steps) :
    ∃ doublings, IsPool values n doublings (doubleUpTo n steps pool)
      ∧ n ≤ (Leaf.doubleUpTo n steps pool).length := by
  induction steps generalizing doublings pool with
  | zero => exact ⟨doublings, h, hsteps⟩
  | succ steps ih =>
    rw [Leaf.doubleUpTo]
    by_cases hn : pool.length < n
    · rw [if_pos hn]
      have hpos : 0 < pool.length := List.length_pos_iff.mpr hne
      refine ih (h.double hn) (by simp [hne]) ?_
      rw [List.length_append]
      omega
    · rw [if_neg hn]
      exact ⟨doublings, h, Nat.le_of_not_lt hn⟩

theorem exists_isPool (hne : values ≠ []) (n : Nat) :
    ∃ doublings, IsPool values n doublings (doubleUpTo n n values)
      ∧ n ≤ 2 ^ doublings * values.length := by
  have hstart : IsPool values n 0 values := ⟨by simp, by simp, .inl rfl⟩
  obtain ⟨doublings, h, hn⟩ := hstart.doubleUpTo hne n (by omega)
  exact ⟨doublings, h, h.length ▸ hn⟩

/-! ## What is taken from the pool -/

/-- How often the values are among the first `n` items of a pool in some order. -/
structure Covers (values : List String) (n doublings : Nat) (items : List String) : Prop where
  length : items.length = n
  mem : ∀ item ∈ items, item ∈ values
  atMost : ∀ v ∈ values, items.count v ≤ 2 ^ doublings
  atLeast : ∀ v ∈ values, n + 2 ^ doublings ≤ items.count v + 2 ^ doublings * values.length

theorem IsPool.mem_iff (h : IsPool values n doublings pool) (v : String) : v ∈ pool ↔ v ∈ values := by
  rw [← List.count_pos_iff, ← List.count_pos_iff, h.count]
  exact ⟨Nat.pos_of_mul_pos_left, Nat.mul_pos (Nat.two_pow_pos _)⟩

theorem IsPool.count_eq (h : IsPool values n doublings pool) (hdistinct : values.Nodup)
    {v : String} (hv : v ∈ values) : pool.count v = 2 ^ doublings := by
  rw [h.count, List.count_eq_one_of_mem hdistinct hv, Nat.mul_one]

theorem IsPool.covers (h : IsPool values n doublings pool) (hn : n ≤ 2 ^ doublings * values.length)
    (hdistinct : values.Nodup) (horder : order.Perm pool) :
    Covers values n doublings (order.take n) := by
  have hlength : order.length = 2 ^ doublings * values.length := by rw [horder.length_eq, h.length]
  have hcount (v : String) (hv : v ∈ values) :
      (order.take n).count v + (order.drop n).count v = 2 ^ doublings := by
    rw [← List.count_append, List.take_append_drop, horder.count_eq, h.count_eq hdistinct hv]
  constructor
  · rw [List.length_take]
    omega
  · intro item hitem
    exact (h.mem_iff item).mp (horder.mem_iff.mp (List.mem_of_mem_take hitem))
  · intro v hv
    have := hcount v hv
    omega
  · intro v hv
    have := hcount v hv
    -- What is left over holds no more items of the value than are left over.
    have hrest : (order.drop n).count v ≤ (order.drop n).length := List.count_le_length
    rw [List.length_drop] at hrest
    omega

/-! ## Evenness -/

/-- The items are values, and each value has as many of them as its share, rounded down or up. -/
def IsEven (values items : List String) : Prop :=
  (∀ item ∈ items, item ∈ values) ∧ ∀ v ∈ values, items.length / values.length ≤ items.count v
    ∧ items.count v ≤ (items.length + values.length - 1) / values.length

instance (values items : List String) : Decidable (IsEven values items) :=
  inferInstanceAs (Decidable (_ ∧ _))

/-- A count is a share of `n` items, rounded down or up, if it differs by less than one from it. -/
theorem share_iff {n k count : Nat} (hk : 0 < k) :
    n / k ≤ count ∧ count ≤ (n + k - 1) / k ↔ n < count * k + k ∧ count * k < n + k := by
  rw [Nat.le_div_iff_mul_le hk, ← Nat.lt_succ_iff, Nat.div_lt_iff_lt_mul hk, Nat.succ_mul]
  omega

theorem Covers.share_iff {items : List String} (h : Covers values n doublings items) {v : String}
    (hv : v ∈ values) : items.length / values.length ≤ items.count v
      ∧ items.count v ≤ (items.length + values.length - 1) / values.length
      ↔ n < items.count v * values.length + values.length
        ∧ items.count v * values.length < n + values.length := by
  rw [h.length]
  exact Leaf.share_iff (List.length_pos_of_mem hv)

/-- One value takes all items, one copy of each value is enough, or no more than one item is left
over. -/
def LeavesNoChoice (k n doublings : Nat) : Prop := k = 1 ∨ n ≤ k ∨ 2 ^ doublings * k ≤ n + 1

theorem IsPool.doublings_eq_zero (h : IsPool values n doublings pool) (hn : n ≤ values.length) :
    doublings = 0 := by
  rcases h.least with hzero | hless
  · exact hzero
  · have : 1 * values.length ≤ 2 ^ (doublings - 1) * values.length :=
      Nat.mul_le_mul_right _ (Nat.two_pow_pos _)
    omega

theorem IsPool.isEven (h : IsPool values n doublings pool) (hn : n ≤ 2 ^ doublings * values.length)
    (hdistinct : values.Nodup) (hchoice : LeavesNoChoice values.length n doublings)
    (horder : order.Perm pool) : IsEven values (order.take n) := by
  have hcovers := h.covers hn hdistinct horder
  refine ⟨hcovers.mem, fun v hv => (hcovers.share_iff hv).mpr ?_⟩
  have hpos : 0 < values.length := List.length_pos_of_mem hv
  have hmost := hcovers.atMost v hv
  have hleast := hcovers.atLeast v hv
  have hall : (order.take n).count v ≤ (order.take n).length := List.count_le_length
  rw [hcovers.length] at hall
  generalize (order.take n).count v = count at hmost hleast hall ⊢
  by_cases hone : values.length = 1
  · rw [hone] at hleast ⊢
    omega
  rcases hchoice with hone' | hfew | hfull
  · exact absurd hone' hone
  · rw [h.doublings_eq_zero hfew] at hmost hleast
    have hcount : count = 0 ∨ count = 1 := by omega
    rcases hcount with rfl | rfl <;> omega
  · -- Every copy is used, or all but one.
    have hcopies : 2 ^ doublings = count ∨ 2 ^ doublings = count + 1 := by omega
    rcases hcopies with hcopies | hcopies
    · rw [hcopies] at hn hfull hleast
      omega
    · rw [hcopies, Nat.succ_mul] at hn hfull hleast
      omega

/-- The pool with the copies of one value in front. -/
theorem perm_replicate_append (h : IsPool values n doublings pool) (hdistinct : values.Nodup)
    {v : String} (hv : v ∈ values) :
    (List.replicate (2 ^ doublings) v ++ pool.filter (! · == v)).Perm pool := by
  have hperm := List.filter_append_perm (· == v) pool
  rwa [List.filter_beq, h.count_eq hdistinct hv] at hperm

/-- If there is a choice, some order prefers one value to the others, or the others to it. -/
theorem IsPool.exists_not_isEven (h : IsPool values n doublings pool)
    (hn : n ≤ 2 ^ doublings * values.length) (hdistinct : values.Nodup) (hne : values ≠ [])
    (hchoice : ¬ LeavesNoChoice values.length n doublings) :
    ∃ order : List String, order.Perm pool ∧ ¬ IsEven values (order.take n) := by
  simp only [LeavesNoChoice, not_or, Nat.not_le] at hchoice
  obtain ⟨hone, hfew, hfull⟩ := hchoice
  obtain ⟨v, hv⟩ := List.exists_mem_of_ne_nil values hne
  have hpos : 0 < values.length := List.length_pos_of_mem hv
  have hfront := perm_replicate_append h hdistinct hv
  have hothers : (pool.filter (! · == v)).count v = 0 :=
    List.count_eq_zero.mpr fun hmem => by simpa using (List.mem_filter.mp hmem).2
  have hlength := hfront.length_eq
  rw [List.length_append, List.length_replicate, h.length] at hlength
  obtain ⟨half, rfl⟩ : ∃ half, doublings = half + 1 := Nat.exists_eq_succ_of_ne_zero fun hzero => by
    rw [hzero] at hn
    omega
  have hleast : 2 ^ half * values.length < n := h.least.resolve_left (by omega)
  have htwo : 2 ^ half * 2 ≤ 2 ^ half * values.length := Nat.mul_le_mul_left _ (by omega)
  have hhalf : 0 < 2 ^ half := Nat.two_pow_pos half
  have hcopies : 2 ^ (half + 1) = 2 ^ half * 2 := pow_succ 2 half
  by_cases hroom : n + values.length ≤ 2 ^ (half + 1) * values.length
  · -- All copies of the value come first, and these are too many.
    refine ⟨_, hfront, fun heven => ?_⟩
    have hshare := ((h.covers hn hdistinct hfront).share_iff hv).mp (heven.2 v hv)
    have hcount : 2 ^ (half + 1)
        ≤ ((List.replicate (2 ^ (half + 1)) v ++ pool.filter (! · == v)).take n).count v := by
      rw [List.take_append, List.take_replicate, List.count_append, List.count_replicate_self]
      omega
    have := Nat.mul_le_mul_right values.length hcount
    omega
  · -- All copies of the value come last, and two of them are left over.
    have hback := List.perm_append_comm.trans hfront
    refine ⟨_, hback, fun heven => ?_⟩
    have hshare := ((h.covers hn hdistinct hback).share_iff hv).mp (heven.2 v hv)
    have hnone : ((pool.filter (! · == v)).take n).count v = 0 :=
      Nat.eq_zero_of_le_zero (hothers ▸ (List.take_sublist n _).count_le v)
    have hcount : ((pool.filter (! · == v) ++ List.replicate (2 ^ (half + 1)) v).take n).count v + 2
        ≤ 2 ^ (half + 1) := by
      rw [List.take_append, List.take_replicate, List.count_append, List.count_replicate_self, hnone]
      omega
    have := Nat.mul_le_mul_right values.length hcount
    rw [Nat.add_mul] at this
    omega

/-! ## Lists -/

theorem ne_nil_of_enumeration {m : Model} {type : SimpleType}
    (h : m.enumeration type = .ok (some values)) : values ≠ [] := by
  rintro rfl
  unfold Model.enumeration at h
  obtain ⟨found, -, h⟩ := exists_of_bind_eq_ok h
  split at h
  · split at h <;> simp_all [pure, Except.pure]
  · cases h

/-- The items are the first ones of the shuffled pool. -/
theorem valueWithin_of_list {σ : Type} [Source σ] {w : Setting} {type itemType : SimpleType}
    {item : TypeRef} (hplain : w.model.enumeration type = .ok none)
    (hlist : w.model.variety type = .ok (.list item))
    (hitem : w.model.resolveSimple item = .ok itemType)
    (hvalues : w.model.enumeration itemType = .ok (some values))
    (hint : String) (steps : Nat) {s s' : Supply σ} (hn : listLength w type s = (.ok n, s')) :
    let shuffled := Draw.shuffle (doubleUpTo n n values) s'.source
    valueWithin w hint (steps + 1) type s
      = (.ok (" ".intercalate (shuffled.1.take n)), { s' with source := shuffled.2 }) := by
  rw [valueWithin, hplain, ask_ok_bind, hlist, ask_ok_bind]
  simp only
  rw [hitem, ask_ok_bind, bind_apply_of_ok hn, hvalues, ask_ok_bind]
  rfl

/-- **A list of enumerated values covers the enumeration as evenly as its pool does.** The items are
the first ones of the pool in some order. In every order each value has at most as many items as it
has copies in the pool, and at least as many as the copies of the others leave over; and the values
are used evenly in every order if and only if there is no choice. -/
theorem list_covers {σ : Type} [Source σ] {w : Setting} {type itemType : SimpleType} {item : TypeRef}
    (hplain : w.model.enumeration type = .ok none)
    (hlist : w.model.variety type = .ok (.list item))
    (hitem : w.model.resolveSimple item = .ok itemType)
    (hvalues : w.model.enumeration itemType = .ok (some values)) (hdistinct : values.Nodup)
    (hint : String) (steps : Nat) {s s' : Supply σ} (hn : listLength w type s = (.ok n, s')) :
    ∃ doublings, IsPool values n doublings (doubleUpTo n n values)
      ∧ n ≤ 2 ^ doublings * values.length
      ∧ (∃ (order : List String) (s'' : Supply σ), order.Perm (doubleUpTo n n values)
        ∧ valueWithin w hint (steps + 1) type s = (.ok (" ".intercalate (order.take n)), s''))
      ∧ (∀ order : List String, order.Perm (doubleUpTo n n values) →
        Covers values n doublings (order.take n))
      ∧ ((∀ order : List String, order.Perm (doubleUpTo n n values) → IsEven values (order.take n))
        ↔ LeavesNoChoice values.length n doublings) := by
  have hne := ne_nil_of_enumeration hvalues
  obtain ⟨doublings, hpool, henough⟩ := exists_isPool hne n
  refine ⟨doublings, hpool, henough, ?_, fun order => hpool.covers henough hdistinct, ?_, ?_⟩
  · -- The order of this run is that of the shuffle; the rest is said of every order.
    exact ⟨_, _, Draw.shuffle_perm (doubleUpTo n n values) s'.source,
      valueWithin_of_list hplain hlist hitem hvalues hint steps hn⟩
  · intro heven
    by_contra hchoice
    obtain ⟨order, horder, hnot⟩ := hpool.exists_not_isEven henough hdistinct hne hchoice
    exact hnot (heven order horder)
  · intro hchoice order horder
    exact hpool.isEven henough hdistinct hchoice horder

/-- One of three letters. -/
def letter : SimpleType :=
  (SimpleType.restriction (.builtin "string")).withFacet (.enumeration ["a", "b", "c"])

/-- A list of `n` of the letters. -/
def letters (n : Nat) : SimpleType :=
  (SimpleType.restriction (.anonymous (.simple (.listOf (.anonymous (.simple letter)))))).withFacet
    (.count .length n)

theorem chain_letters (n : Nat) : Model.builtin.chain (letters n)
    = .ok [letters n, .listOf (.anonymous (.simple letter)),
        BuiltinType.definition ⟨"anySimpleType", none, none, []⟩] := by
  rfl

theorem plain_letters (n : Nat) : Model.builtin.enumeration (letters n) = .ok none := by
  simp only [Model.enumeration, Model.facet, chain_letters]
  rfl

theorem variety_letters (n : Nat) :
    Model.builtin.variety (letters n) = .ok (.list (.anonymous (.simple letter))) := by
  simp only [Model.variety, chain_letters]
  rfl

theorem resolve_letter :
    Model.builtin.resolveSimple (.anonymous (.simple letter)) = .ok letter := by
  rfl

theorem enumeration_letter : Model.builtin.enumeration letter = .ok (some ["a", "b", "c"]) := by
  rfl

theorem listLength_letters {σ : Type} [Source σ] (policy : Policy) (now : DateTime) (n : Nat)
    (s : Supply σ) : listLength ⟨Model.builtin, policy, now⟩ (letters n) s = (.ok n, s) := by
  have hlength : Model.builtin.countFacet (letters n) .length = .ok (some n) := by
    simp only [Model.countFacet, Model.facet, chain_letters]
    rfl
  have hmin : Model.builtin.countFacet (letters n) .minLength = .ok none := by
    simp only [Model.countFacet, Model.facet, chain_letters]
    rfl
  have hmax : Model.builtin.countFacet (letters n) .maxLength = .ok none := by
    simp only [Model.countFacet, Model.facet, chain_letters]
    rfl
  unfold listLength
  rw [hlength, ask_ok_bind, hmin, ask_ok_bind, hmax, ask_ok_bind]
  rfl

/-- Two of three letters: one copy of each is enough, so no letter is used twice in any order. -/
theorem list_covers_two :
    let w : Setting := ⟨Model.builtin, {}, default⟩
    let s : Supply Scripted := ⟨{}, ⟨[], 0⟩⟩
    w.model.enumeration (letters 2) = .ok none
      ∧ w.model.variety (letters 2) = .ok (.list (.anonymous (.simple letter)))
      ∧ w.model.resolveSimple (.anonymous (.simple letter)) = .ok letter
      ∧ w.model.enumeration letter = .ok (some ["a", "b", "c"]) ∧ ["a", "b", "c"].Nodup
      ∧ listLength w (letters 2) s = (.ok 2, s)
      ∧ ∀ order : List String, order.Perm ["a", "b", "c"] →
        IsEven ["a", "b", "c"] (order.take 2) := by
  intro w s
  have hdistinct : ["a", "b", "c"].Nodup := by decide
  have hlength : listLength w (letters 2) s = (.ok 2, s) := listLength_letters _ _ 2 s
  obtain ⟨_, _, _, _, _, heven⟩ := @list_covers _ 2 _ _ w _ _ _ (plain_letters 2) (variety_letters 2)
    resolve_letter enumeration_letter hdistinct "x" 32 s s hlength
  refine ⟨plain_letters 2, variety_letters 2, resolve_letter, enumeration_letter, hdistinct,
    hlength, ?_⟩
  exact heven.mpr (.inr (.inl (by decide)))

/-- Two copies of each letter in an order that has one letter last. -/
theorem shuffle_letters :
    (Draw.shuffle (doubleUpTo 4 4 ["a", "b", "c"])
      (⟨[0xD5555556, 0x66666667, 0, 0, 0], 0⟩ : Scripted)).1 = ["b", "b", "a", "a", "c", "c"] := by
  decide +kernel

/-- **A value may be left out although others are used twice.** Four of three letters are taken from
two copies of each. -/
theorem not_isEven_of_four :
    let w : Setting := ⟨Model.builtin, {}, default⟩
    let s : Supply Scripted := ⟨{}, ⟨[0xD5555556, 0x66666667, 0, 0, 0], 0⟩⟩
    w.model.enumeration letter = .ok (some ["a", "b", "c"])
      ∧ listLength w (letters 4) s = (.ok 4, s)
      ∧ (value w (letters 4) "x" s).1 = .ok (" ".intercalate ["b", "b", "a", "a"])
      ∧ ¬ IsEven ["a", "b", "c"] ["b", "b", "a", "a"] := by
  intro w s
  have hlength : listLength w (letters 4) s = (.ok 4, s) := listLength_letters _ _ 4 s
  refine ⟨enumeration_letter, hlength, ?_, by decide⟩
  have hvalue := @valueWithin_of_list _ 4 _ _ w _ _ _ (plain_letters 4) (variety_letters 4)
    resolve_letter enumeration_letter "x" nestingLimit s s hlength
  rw [value, hvalue, shuffle_letters]
  rfl

end Specimen.Leaf

import Mathlib.Data.List.Dedup
import Mathlib.Data.List.Induction
import Mathlib.Data.List.Nodup
import Specimen.Schema.Cache

/-!
# What a cache remembers

Requests are made of a cache one after another, each by whatever address its file has, and who asks
for a result brings what makes it. What was handed out since the results were last cleared settles
what is answered next. The main result, `isMemo_run`, says so for every run of requests: a result is
made only for a file that has none, a result that there is is handed out itself, a failure changes
nothing that can be seen, and the results that are kept are counted.

The invariant `Remembers` ties the filled slots to the turns of the run. The slots that failures have
left empty have no part in it, which is what makes them invisible.
-/

namespace Specimen

namespace Cache

variable {α σ : Type}

/-! ## Runs -/

/-- What is asked of a cache. -/
inductive Request (α σ : Type) where
  | fetch (a : Address) (make : Address → σ → Except Error α × σ)
  | contains (a : Address)
  | size
  | isEmpty
  | clear

/-- What a cache answers. -/
inductive Answer (α : Type) where
  | fetched (result : Except Error (Cached α))
  | told (yes : Bool)
  | counted (number : Nat)
  | cleared

/-- A request and its answer. -/
structure Turn (α σ : Type) where
  request : Request α σ
  answer : Answer α

/-- Answers a request. -/
def serve (c : Cache α) (fs : Files) : Request α σ → σ → Answer α × Cache α × σ
  | .fetch a make, s => let (result, c, s) := c.fetch fs a make s; (.fetched result, c, s)
  | .contains a, s => (.told (c.contains fs a), c, s)
  | .size, s => (.counted c.size, c, s)
  | .isEmpty, s => (.told c.isEmpty, c, s)
  | .clear, s => (.cleared, c.clear, s)

/-- Answers requests one after another. -/
def run (fs : Files) : List (Request α σ) → Cache α → σ → List (Turn α σ) × Cache α × σ
  | [], c, s => ([], c, s)
  | request :: rest, c, s =>
    let (answer, c, s) := c.serve fs request s
    let (turns, c, s) := run fs rest c s
    (⟨request, answer⟩ :: turns, c, s)

/-! ## What was handed out -/

/-- Notes a result that is handed out behind those before it, and forgets all when they are cleared.
-/
def note (fs : Files) (noted : List (Address × Cached α)) (turn : Turn α σ) :
    List (Address × Cached α) :=
  match turn.request, turn.answer with
  | .clear, _ => []
  | .fetch a _, .fetched (.ok cached) =>
    match key fs a with
    | .ok key => noted ++ [(key, cached)]
    | .error _ => noted
  | _, _ => noted

/-- The results that were handed out since the last time they were cleared, each with the one address
of its file. -/
def handedOut (fs : Files) (turns : List (Turn α σ)) : List (Address × Cached α) :=
  turns.foldl (note fs) []

/-- The first result that was handed out for a file since the last time they were cleared. -/
def first (fs : Files) (turns : List (Turn α σ)) (key : Address) : Option (Cached α) :=
  (handedOut fs turns).lookup key

/-- The files that a result was handed out for since the last time they were cleared. -/
def known (fs : Files) (turns : List (Turn α σ)) : List Address :=
  ((handedOut fs turns).map Prod.fst).dedup

/-- What a cache does next after the turns of a run. -/
structure IsMemo (fs : Files) (turns : List (Turn α σ)) (c : Cache α) : Prop where
  /-- For a file that has a result nothing is made: what would make it leaves no trace. -/
  hit : ∀ {a key cached}, Cache.key fs a = .ok key → first fs turns key = some cached →
    ∀ (make : Address → σ → Except Error α × σ) (s : σ), c.fetch fs a make s = (.ok cached, c, s)
  /-- A result that is made is handed out, and it is none of those before it. -/
  made : ∀ {a key value} {make : Address → σ → Except Error α × σ} {s s' : σ},
    Cache.key fs a = .ok key → first fs turns key = none → make key s = (.ok value, s') →
    ∃ cached c', c.fetch fs a make s = (.ok cached, c', s') ∧ cached.value = value ∧
      ∀ turn ∈ turns, ∀ old, turn.answer = .fetched (.ok old) → old.serial ≠ cached.serial
  /-- A failure to make a result is reported and changes nothing that can be seen. -/
  failed : ∀ {a key e} {make : Address → σ → Except Error α × σ} {s s' : σ},
    Cache.key fs a = .ok key → first fs turns key = none → make key s = (.error e, s') →
    ∃ c', c.fetch fs a make s = (.error e, c', s') ∧
      (∀ b, c'.contains fs b = c.contains fs b) ∧ c'.size = c.size
  /-- An address that leads nowhere is reported, and nothing is made. -/
  missing : ∀ {a e}, Cache.key fs a = .error e →
    ∀ (make : Address → σ → Except Error α × σ) (s : σ), c.fetch fs a make s = (.error e, c, s)
  contains : ∀ a, c.contains fs a = true ↔
    ∃ key cached, Cache.key fs a = .ok key ∧ first fs turns key = some cached
  size : c.size = (known fs turns).length
  isEmpty : c.isEmpty = true ↔ known fs turns = []

/-! ## Slots -/

/-- Every key has one slot only. -/
def IsDistinct (c : Cache α) : Prop := (c.slots.map Prod.fst).Nodup

/-- The keys whose slots are filled. -/
def filled (c : Cache α) : List Address := (c.slots.filter (·.2.isSome)).map Prod.fst

variable {fs : Files} {c : Cache α} {a key other : Address} {cached : Cached α} {value : α} {e : Error}
variable {make : Address → σ → Except Error α × σ} {s s' : σ} {turns : List (Turn α σ)}

theorem size_eq (c : Cache α) : c.size = c.filled.length := by
  rw [filled, List.length_map, size, List.countP_eq_length_filter]

theorem IsDistinct.lookup_of_mem {slots : List (Address × Option (Cached α))}
    (h : (slots.map Prod.fst).Nodup) {slot : Address × Option (Cached α)} (hmem : slot ∈ slots) :
    slots.lookup slot.1 = some slot.2 := by
  induction slots with
  | nil => exact absurd hmem List.not_mem_nil
  | cons first rest ih =>
    obtain ⟨hfirst, hrest⟩ := List.nodup_cons.mp h
    rcases List.mem_cons.mp hmem with rfl | hmem
    · exact List.lookup_cons_self
    · have hne : (slot.1 == first.1) = false :=
        beq_false_of_ne fun heq => hfirst (heq ▸ List.mem_map_of_mem hmem)
      rw [List.lookup_cons, hne]
      exact ih hrest hmem

theorem mem_filled_iff (h : c.IsDistinct) : key ∈ c.filled ↔ (c.get? key).isSome := by
  rw [filled, List.mem_map]
  constructor
  · rintro ⟨slot, hslot, rfl⟩
    obtain ⟨hmem, hsome⟩ := List.mem_filter.mp hslot
    rw [get?, IsDistinct.lookup_of_mem h hmem]
    exact hsome
  · intro hsome
    obtain ⟨cached, hcached⟩ := Option.isSome_iff_exists.mp hsome
    obtain ⟨before, behind, heq, -⟩ :=
      List.lookup_eq_some_iff.mp (Option.join_eq_some_iff.mp hcached)
    have hmem : (key, some cached) ∈ c.slots := by rw [heq]; exact List.mem_append_cons_self
    exact ⟨(key, some cached), List.mem_filter.mpr ⟨hmem, rfl⟩, rfl⟩

/-! ### A slot that is reserved -/

@[simp] theorem next_reserve (c : Cache α) (key : Address) : (c.reserve key).next = c.next := by
  unfold reserve
  split <;> rfl

/-- An empty slot is as good as none. -/
@[simp] theorem get?_reserve (c : Cache α) (key other : Address) :
    (c.reserve key).get? other = c.get? other := by
  unfold reserve
  split
  · rfl
  · next hnone =>
    rw [get?, get?, List.lookup_append]
    cases hother : c.slots.lookup other with
    | some slot => rfl
    | none =>
      rw [Option.none_or, List.lookup_cons]
      split <;> rfl

@[simp] theorem size_reserve (c : Cache α) (key : Address) : (c.reserve key).size = c.size := by
  unfold reserve size
  split
  · rfl
  · rw [List.countP_append]
    rfl

theorem contains_reserve (c : Cache α) (key : Address) (fs : Files) (a : Address) :
    (c.reserve key).contains fs a = c.contains fs a := by
  unfold contains
  split
  · rw [get?_reserve]
  · rfl

theorem reserve_of_get? (h : c.get? key = some cached) : c.reserve key = c := by
  rw [get?, Option.join_eq_some_iff] at h
  exact if_pos (by rw [h]; rfl)

theorem isSome_lookup_reserve (c : Cache α) (key : Address) :
    ((c.reserve key).slots.lookup key).isSome := by
  unfold reserve
  split
  · assumption
  · rw [List.lookup_append, List.lookup_cons_self]
    exact Option.isSome_or.trans (Bool.or_true _)

theorem IsDistinct.reserve (h : c.IsDistinct) (key : Address) : (c.reserve key).IsDistinct := by
  unfold Cache.reserve
  split
  · exact h
  · next hnone =>
    rw [List.lookup_isSome_iff] at hnone
    rw [IsDistinct, List.map_append]
    refine List.Nodup.append h (List.nodup_singleton key) (List.disjoint_singleton.mpr fun hmem => ?_)
    obtain ⟨slot, hslot, hkey⟩ := List.mem_map.mp hmem
    exact hnone ⟨slot, hslot, beq_iff_eq.mpr hkey.symm⟩

/-! ### A slot that is filled -/

theorem lookup_fill (slots : List (Address × Option (Cached α))) (key other : Address) :
    (slots.map fun slot => if slot.1 = key then (key, some cached) else slot).lookup other
      = if other = key then (slots.lookup other).map fun _ => some cached
        else slots.lookup other := by
  induction slots with
  | nil => exact (ite_self none).symm
  | cons slot rest ih =>
    rw [List.map_cons]
    by_cases hslot : slot.1 = key <;> by_cases hother : other = slot.1
    · rw [if_pos hslot, List.lookup_cons, List.lookup_cons, beq_iff_eq.mpr hother,
        beq_iff_eq.mpr (hother.trans hslot), if_pos (hother.trans hslot)]
      rfl
    · rw [if_pos hslot, List.lookup_cons, List.lookup_cons, beq_false_of_ne hother,
        beq_false_of_ne (hslot ▸ hother)]
      exact ih
    · rw [if_neg hslot, List.lookup_cons, List.lookup_cons, beq_iff_eq.mpr hother,
        if_neg (hother ▸ hslot)]
    · rw [if_neg hslot, List.lookup_cons, List.lookup_cons, beq_false_of_ne hother]
      exact ih

theorem get?_fill (hsome : (c.slots.lookup key).isSome) (value : α) (other : Address) :
    (c.fill key value).2.get? other = if other = key then some ⟨c.next, value⟩ else c.get? other := by
  unfold fill get?
  rw [lookup_fill]
  split
  · next heq =>
    obtain ⟨slot, hslot⟩ := Option.isSome_iff_exists.mp hsome
    rw [heq, hslot]
    rfl
  · rfl

theorem IsDistinct.fill (h : c.IsDistinct) (key : Address) (value : α) :
    (c.fill key value).2.IsDistinct := by
  have hkeys : ((c.fill key value).2.slots).map Prod.fst = c.slots.map Prod.fst := by
    unfold Cache.fill
    rw [List.map_map]
    refine List.map_congr_left fun slot _ => ?_
    rw [Function.comp_apply]
    split
    · next heq => exact heq.symm
    · rfl
  rw [IsDistinct, hkeys]
  exact h

/-! ## Fetching -/

theorem fetch_missing (hkey : Cache.key fs a = .error e) :
    c.fetch fs a make s = (.error e, c, s) := by
  rw [fetch, hkey]

theorem fetch_hit (hkey : Cache.key fs a = .ok key) (hget : c.get? key = some cached) :
    c.fetch fs a make s = (.ok cached, c, s) := by
  rw [fetch, hkey]
  simp only [reserve_of_get? hget, hget]

theorem fetch_failed (hkey : Cache.key fs a = .ok key) (hget : c.get? key = none)
    (hmake : make key s = (.error e, s')) :
    c.fetch fs a make s = (.error e, c.reserve key, s') := by
  rw [fetch, hkey]
  simp only [get?_reserve, hget, hmake]

theorem fetch_made (hkey : Cache.key fs a = .ok key) (hget : c.get? key = none)
    (hmake : make key s = (.ok value, s')) :
    c.fetch fs a make s = (.ok ⟨c.next, value⟩, ((c.reserve key).fill key value).2, s') := by
  rw [fetch, hkey]
  simp only [get?_reserve, hget, hmake]
  rw [fill, next_reserve]

/-! ## What is kept over a run -/

/-- A cache keeps what was handed out first since the results were last cleared, and the numbers it
will give are new. -/
structure Remembers (fs : Files) (turns : List (Turn α σ)) (c : Cache α) : Prop where
  distinct : c.IsDistinct
  get? : ∀ key, c.get? key = first fs turns key
  serial : ∀ turn ∈ turns, ∀ cached, turn.answer = .fetched (.ok cached) → cached.serial < c.next

theorem handedOut_concat (turns : List (Turn α σ)) (turn : Turn α σ) :
    handedOut fs (turns ++ [turn]) = note fs (handedOut fs turns) turn := by
  rw [handedOut, List.foldl_append]
  rfl

theorem first_fetched (hkey : Cache.key fs a = .ok key) (turns : List (Turn α σ))
    (other : Address) :
    first fs (turns ++ [⟨.fetch a make, .fetched (.ok cached)⟩]) other
      = (first fs turns other).or (if other = key then some cached else none) := by
  have hnote : note fs (handedOut fs turns) ⟨.fetch a make, .fetched (.ok cached)⟩
      = handedOut fs turns ++ [(key, cached)] := by
    simp only [note, hkey]
  rw [first, handedOut_concat, hnote, List.lookup_append, first, List.lookup_cons]
  split
  · next heq => rw [if_pos (beq_iff_eq.mp heq)]
  · next hne => rw [if_neg (beq_eq_false_iff_ne.mp hne), List.lookup_nil]

/-- What was handed out was an answer. -/
theorem exists_turn {entry : Address × Cached α} (hentry : entry ∈ handedOut fs turns) :
    ∃ turn ∈ turns, turn.answer = .fetched (.ok entry.2) := by
  induction turns using List.reverseRecOn with
  | nil => exact absurd hentry List.not_mem_nil
  | append_singleton turns turn ih =>
    have hbefore : entry ∈ handedOut fs turns →
        ∃ earlier ∈ turns ++ [turn], earlier.answer = .fetched (.ok entry.2) :=
      fun h => (ih h).imp fun _ => And.imp_left (List.mem_append_left _)
    rw [handedOut_concat, note] at hentry
    split at hentry
    · exact absurd hentry List.not_mem_nil
    · next hanswer =>
      split at hentry
      · rcases List.mem_append.mp hentry with hentry | hentry
        · exact hbefore hentry
        · obtain rfl := List.mem_singleton.mp hentry
          exact ⟨turn, List.mem_concat_self, hanswer⟩
      · exact hbefore hentry
    · exact hbefore hentry

namespace Remembers

theorem empty : Remembers fs ([] : List (Turn α σ)) {} where
  distinct := List.nodup_nil
  get? _ := rfl
  serial _ hturn := absurd hturn List.not_mem_nil

theorem serial_of_get? (h : Remembers fs turns c) (hget : c.get? key = some cached) :
    cached.serial < c.next := by
  rw [h.get?, first, List.lookup_eq_some_iff] at hget
  obtain ⟨before, behind, heq, -⟩ := hget
  obtain ⟨turn, hturn, hanswer⟩ :=
    exists_turn (heq ▸ List.mem_append_cons_self : (key, cached) ∈ handedOut fs turns)
  exact h.serial turn hturn cached hanswer

/-- A turn that hands out nothing, nor clears, leaves the cache as it was up to empty slots. -/
theorem silent (h : Remembers fs turns c) {turn : Turn α σ} {c' : Cache α}
    (hnote : ∀ noted, note fs noted turn = noted)
    (hanswer : ∀ cached, turn.answer ≠ .fetched (.ok cached)) (hdistinct : c'.IsDistinct)
    (hget : ∀ key, c'.get? key = c.get? key) (hnext : c'.next = c.next) :
    Remembers fs (turns ++ [turn]) c' where
  distinct := hdistinct
  get? key := by rw [hget, h.get?, first, first, handedOut_concat, hnote]
  serial := by
    intro other hother cached hcached
    rcases List.mem_append.mp hother with hother | hother
    · exact hnext ▸ h.serial other hother cached hcached
    · exact absurd (List.mem_singleton.mp hother ▸ hcached) (hanswer cached)

/-- A result that is handed out again changes nothing. -/
theorem again (h : Remembers fs turns c) (hkey : Cache.key fs a = .ok key)
    (hget : c.get? key = some cached) :
    Remembers fs (turns ++ [⟨.fetch a make, .fetched (.ok cached)⟩]) c where
  distinct := h.distinct
  get? other := by
    rw [first_fetched hkey, ← h.get?]
    split
    · next heq => rw [heq, hget, Option.some_or]
    · rw [Option.or_none]
  serial := by
    intro turn hturn old hold
    rcases List.mem_append.mp hturn with hturn | hturn
    · exact h.serial turn hturn old hold
    · obtain rfl := List.mem_singleton.mp hturn
      obtain rfl : cached = old := Except.ok.inj (Answer.fetched.inj hold)
      exact h.serial_of_get? hget

/-- A result that is made fills a slot. -/
theorem made (h : Remembers fs turns c) (hkey : Cache.key fs a = .ok key)
    (hget : c.get? key = none) (value : α) :
    Remembers fs (turns ++ [⟨.fetch a make, .fetched (.ok ⟨c.next, value⟩)⟩])
      ((c.reserve key).fill key value).2 where
  distinct := (h.distinct.reserve key).fill key value
  get? other := by
    rw [first_fetched hkey, get?_fill (isSome_lookup_reserve c key), next_reserve, get?_reserve,
      ← h.get?]
    split
    · next heq => rw [heq, hget, Option.none_or]
    · rw [Option.or_none]
  serial := by
    intro turn hturn old hold
    have hnext : ((c.reserve key).fill key value).2.next = c.next + 1 := by rw [fill, next_reserve]
    rw [hnext]
    rcases List.mem_append.mp hturn with hturn | hturn
    · exact Nat.lt_succ_of_lt (h.serial turn hturn old hold)
    · obtain rfl := List.mem_singleton.mp hturn
      obtain rfl : ⟨c.next, value⟩ = old := Except.ok.inj (Answer.fetched.inj hold)
      exact Nat.lt_succ_self c.next

theorem cleared (h : Remembers fs turns c) :
    Remembers fs (turns ++ [⟨.clear, .cleared⟩]) c.clear where
  distinct := List.nodup_nil
  get? key := by
    rw [first, handedOut_concat]
    rfl
  serial := by
    intro turn hturn old hold
    rcases List.mem_append.mp hturn with hturn | hturn
    · exact h.serial turn hturn old hold
    · exact nomatch List.mem_singleton.mp hturn ▸ hold

/-- What one request keeps. -/
theorem serve (h : Remembers fs turns c) (request : Request α σ) (s : σ) :
    Remembers fs (turns ++ [⟨request, (c.serve fs request s).1⟩]) (c.serve fs request s).2.1 := by
  -- Of the requests, only a clearing and a value that is made change what is remembered.
  cases request with
  | fetch a make =>
    cases hkey : Cache.key fs a with
    | error e =>
      have hfetch : c.fetch fs a make s = (.error e, c, s) := fetch_missing hkey
      simp only [Cache.serve, hfetch]
      exact h.silent (fun _ => rfl) (fun _ => nofun) h.distinct (fun _ => rfl) rfl
    | ok key =>
      cases hget : c.get? key with
      | some cached =>
        have hfetch : c.fetch fs a make s = (.ok cached, c, s) := fetch_hit hkey hget
        simp only [Cache.serve, hfetch]
        exact h.again hkey hget
      | none =>
        rcases hmake : make key s with ⟨e | value, s'⟩
        · have hfetch := fetch_failed hkey hget hmake
          simp only [Cache.serve, hfetch]
          exact h.silent (fun _ => rfl) (fun _ => nofun) (h.distinct.reserve key)
            (get?_reserve c key) (next_reserve c key)
        · have hfetch := fetch_made hkey hget hmake
          simp only [Cache.serve, hfetch]
          exact h.made hkey hget value
  | contains | size | isEmpty =>
    exact h.silent (fun _ => rfl) (fun _ => nofun) h.distinct (fun _ => rfl) rfl
  | clear => exact h.cleared

/-- What a run keeps. -/
theorem run (h : Remembers fs turns c) (requests : List (Request α σ)) (s : σ) :
    Remembers fs (turns ++ (Cache.run fs requests c s).1) (Cache.run fs requests c s).2.1 := by
  induction requests generalizing turns c s with
  | nil => rwa [Cache.run, List.append_nil]
  | cons request rest ih =>
    have hrest := ih (h.serve request s) (c.serve fs request s).2.2
    rwa [List.append_assoc] at hrest

/-! ## What is answered -/

/-- The filled slots are those of the files that a result was handed out for. -/
theorem size_eq (h : Remembers fs turns c) : c.size = (known fs turns).length := by
  rw [Cache.size_eq]
  have hnodup : c.filled.Nodup := h.distinct.sublist (List.filter_sublist.map Prod.fst)
  refine ((List.perm_ext_iff_of_nodup hnodup (List.nodup_dedup _)).mpr fun key => ?_).length_eq
  rw [mem_filled_iff h.distinct, h.get?, first, List.lookup_isSome_iff, List.mem_dedup,
    List.mem_map]
  exact exists_congr fun entry => and_congr_right fun _ => beq_iff_eq.trans eq_comm

theorem contains_iff (h : Remembers fs turns c) (a : Address) : c.contains fs a = true ↔
    ∃ key cached, Cache.key fs a = .ok key ∧ first fs turns key = some cached := by
  unfold Cache.contains
  cases hkey : Cache.key fs a with
  | error e => exact ⟨nofun, fun ⟨_, _, hok, _⟩ => nomatch hok⟩
  | ok key =>
    simp only [h.get?, Option.isSome_iff_exists]
    exact ⟨fun ⟨cached, hcached⟩ => ⟨key, cached, rfl, hcached⟩,
      fun ⟨_, cached, hok, hcached⟩ => ⟨cached, Except.ok.inj hok ▸ hcached⟩⟩

theorem isMemo (h : Remembers fs turns c) : IsMemo fs turns c where
  hit hkey hfirst make s := fetch_hit hkey ((h.get? _).trans hfirst)
  made {a key value make s s'} hkey hfirst hmake :=
    ⟨⟨c.next, value⟩, _, fetch_made hkey ((h.get? _).trans hfirst) hmake, rfl,
      fun turn hturn old hold => Nat.ne_of_lt (h.serial turn hturn old hold)⟩
  failed hkey hfirst hmake :=
    ⟨_, fetch_failed hkey ((h.get? _).trans hfirst) hmake, contains_reserve c _ fs,
      size_reserve c _⟩
  missing hkey make s := fetch_missing hkey
  contains := h.contains_iff
  size := h.size_eq
  isEmpty := by rw [Cache.isEmpty, beq_iff_eq, h.size_eq, List.length_eq_zero_iff]

end Remembers

/-- **After every run of requests on a new cache, the cache does next what the results that were
handed out since they were last cleared settle**: it makes none that it has, hands out the very one
it has, and shows nothing of its failures. -/
theorem isMemo_run (fs : Files) (requests : List (Request α σ)) (s : σ) :
    IsMemo fs (run fs requests {} s).1 (run fs requests {} s).2.1 :=
  (Remembers.empty.run requests s).isMemo

end Cache

end Specimen

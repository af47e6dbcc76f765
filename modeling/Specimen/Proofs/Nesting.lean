import Mathlib.Algebra.BigOperators.Group.Finset.Basic
import Mathlib.Algebra.Order.BigOperators.Group.Finset
import Mathlib.Data.List.Dedup
import Specimen.Proofs.Decisions

/-!
# How deep elements nest

At every moment of a run the open elements form a chain. A chain is bounded if no declaration stands
on it more than three times; since every one of its elements comes from a declaration of the schema,
but perhaps one that stands for a wildcard, a bounded chain is not long.

A walk is described by the chains it starts from and those it ends with. In between, its steps keep
the chain bounded, and an element is left out only where its declaration already stands three times
on the chain.
-/

namespace Specimen

/-- The numbers of the element declarations of a schema, each once. -/
def Model.declarationIds (m : Model) : List Nat := (m.declarations.map ElementDecl.id).dedup

/-! ## Paths -/

namespace Path

variable {m : Model} {path : Path}

/-- The numbers of the declarations on a path, the innermost first. -/
def ids (path : Path) : List Nat := path.elements.map ElementDecl.id

theorem recursionDepth_eq (path : Path) (decl : ElementDecl) :
    path.recursionDepth decl = path.ids.count decl.id := by
  rw [recursionDepth, ids, List.count, List.countP_map]
  rfl

/-- All elements are declared in the schema, and no declaration stands more than three times. -/
structure IsBounded (m : Model) (path : Path) : Prop where
  declared : ∀ decl ∈ path.elements, .element decl ∈ m.parts
  count : ∀ id, path.ids.count id ≤ 3

namespace IsBounded

theorem empty : IsBounded m .empty :=
  ⟨fun _ h => absurd h List.not_mem_nil, fun _ => Nat.zero_le 3⟩

theorem element (h : path.IsBounded m) {decl : ElementDecl} (hd : .element decl ∈ m.parts)
    (hn : path.recursionDepth decl ≤ Document.recursionLimit) :
    (path.push (.element decl)).IsBounded m where
  declared other hother := by
    rcases List.mem_cons.mp hother with rfl | hother
    · exact hd
    · exact h.declared other hother
  count id := by
    rw [recursionDepth_eq, Document.recursionLimit] at hn
    have hids : (path.push (.element decl)).ids = decl.id :: path.ids := rfl
    rw [hids, List.count_cons]
    split
    · rename_i hid
      rw [beq_iff_eq.mp hid] at hn
      omega
    · exact h.count id

theorem complexType (h : path.IsBounded m) (type : ComplexType) (own : Option Wildcard) :
    (path.push (.complexType type own)).IsBounded m :=
  ⟨h.declared, h.count⟩

theorem group (h : path.IsBounded m) (compositor : Compositor) :
    (path.push (.group compositor)).IsBounded m :=
  ⟨h.declared, h.count⟩

theorem mem_declarationIds (h : path.IsBounded m) {id : Nat} (hid : id ∈ path.ids) :
    id ∈ m.declarationIds := by
  obtain ⟨decl, hdecl, rfl⟩ := List.mem_map.mp hid
  rw [Model.declarationIds, List.mem_dedup]
  exact List.mem_map_of_mem (List.mem_filterMap.mpr ⟨_, h.declared decl hdecl, rfl⟩)

/-- **A bounded path has at most three elements for each declaration.** -/
theorem length_ids_le (h : path.IsBounded m) : path.ids.length ≤ 3 * m.declarationIds.length := by
  have hsub : path.ids.toFinset ⊆ m.declarationIds.toFinset := by
    intro id hid
    rw [List.mem_toFinset] at hid ⊢
    exact h.mem_declarationIds hid
  calc path.ids.length
      = ∑ id ∈ path.ids.toFinset, path.ids.count id := path.ids.sum_toFinset_count_eq_length.symm
    _ ≤ path.ids.toFinset.card * 3 := Finset.sum_le_card_nsmul _ _ 3 fun id _ => h.count id
    _ ≤ m.declarationIds.toFinset.card * 3 := Nat.mul_le_mul_right 3 (Finset.card_le_card hsub)
    _ ≤ 3 * m.declarationIds.length := by
      have := m.declarationIds.toFinset_card_le
      omega

end IsBounded

end Path

/-! ## Chains of open elements -/

/-- The number of the declaration that an element comes from. -/
def Frame.declarationId? (f : Frame) : Option Nat := f.origin.map fun origin => origin.1.id

namespace Outline

variable {σ : Type} {m : Model} {o : Outline} {st st' : List (Step σ)}

/-- The numbers of the declarations of the open elements, the innermost first. An element that stands
for a wildcard has none. -/
def chain (o : Outline) : List (Option Nat) := o.opened.map Frame.declarationId?

/-- How many open elements come from a declaration. -/
def openCount (o : Outline) (id : Nat) : Nat := o.chain.count (some id)

/-- At most three of the open elements come from the same declaration, and no more elements are open
than this allows for, and one for a wildcard. -/
structure IsBounded (m : Model) (o : Outline) : Prop where
  openCount_le : ∀ id, o.openCount id ≤ 3
  length_le : o.opened.length ≤ 3 * m.declarationIds.length + 1

/-- An element is left out only where three of the open elements come from its declaration. -/
def LeavesOut (o : Outline) : Step σ → Prop
  | .noted (.leftOut decl) => o.openCount decl.id = 3
  | _ => True

/-- The steps keep the chain bounded, and leave elements out only where they may. -/
def StaysBounded (m : Model) (o : Outline) : List (Step σ) → Prop
  | [] => o.IsBounded m
  | step :: rest => o.IsBounded m ∧ o.LeavesOut step ∧ (o.take step).StaysBounded m rest

theorem StaysBounded.isBounded (h : o.StaysBounded m st) : o.IsBounded m := by
  cases st with
  | nil => exact h
  | cons step rest => exact h.1

theorem StaysBounded.append (h : o.StaysBounded m st) (h' : (o.takeAll st).StaysBounded m st') :
    o.StaysBounded m (st ++ st') := by
  induction st generalizing o with
  | nil => exact h'
  | cons step rest ih => exact ⟨h.1, h.2.1, ih h.2.2 h'⟩

/-- What a run that stays bounded says of each of its moments. -/
theorem StaysBounded.at (h : o.StaysBounded m (st ++ st')) :
    (o.takeAll st).StaysBounded m st' := by
  induction st generalizing o with
  | nil => exact h
  | cons step rest ih => exact ih h.2.2

/-- Nothing is about to start, and the open elements are those of a path. -/
structure StandsAt (ids : List Nat) (o : Outline) : Prop where
  next_eq : o.next = none
  chain_eq : o.chain = ids.map some

/-- An element of a declaration is about to start. -/
structure Starts (ids : List Nat) (decl : ElementDecl) (o : Outline) : Prop where
  next_eq : o.next.map (fun origin => origin.1.id) = some decl.id
  chain_eq : o.chain = ids.map some

/-- The innermost element stands for a wildcard. -/
structure StandsInWildcard (ids : List Nat) (o : Outline) : Prop where
  next_eq : o.next = none
  chain_eq : o.chain = none :: ids.map some

theorem length_opened (o : Outline) : o.opened.length = o.chain.length := by
  rw [chain, List.length_map]

theorem count_map_some (ids : List Nat) (id : Nat) : (ids.map some).count (some id) = ids.count id :=
  List.count_map_of_injective ids some (Option.some_injective Nat) id

theorem chain_onTop (change : Frame → Frame) (hchange : ∀ f, (change f).origin = f.origin)
    (opened : List Frame) :
    (onTop change opened).map Frame.declarationId? = opened.map Frame.declarationId? := by
  cases opened with
  | nil => rfl
  | cons f outer => simp [Frame.declarationId?, hchange]

/-- A plain step leaves the chain as it is, and nothing else is about to start than before. -/
theorem take_of_isPlain {step : Step σ} (h : step.IsPlain) :
    (o.take step).next = o.next ∧ (o.take step).chain = o.chain := by
  cases step with
  | noted n => exact h.elim
  | refused c s e => exact ⟨rfl, rfl⟩
  | made c s answer =>
    cases c with
    | «attribute» uri name value =>
      exact ⟨rfl, chain_onTop (fun f => f.add [(uri, name, value)] [] []) (fun _ => rfl) o.opened⟩
    | text value => exact ⟨rfl, chain_onTop (fun f => f.add [] [] [value]) (fun _ => rfl) o.opened⟩
    | startElement uri name => cases h
    | endElement => cases h
    | startDocument => exact ⟨rfl, rfl⟩
    | declarePrefix uri => exact ⟨rfl, rfl⟩
    | comment value => exact ⟨rfl, rfl⟩
    | endDocument => exact ⟨rfl, rfl⟩

theorem chain_startElement (o : Outline) (uri name : String) (s : σ) (answer : String) :
    (o.take (.made (.startElement uri name) s answer)).chain
      = (o.next.map fun origin => origin.1.id) :: o.chain := by
  have hrest := chain_onTop (fun f => f.add [] [⟨o.next.map Prod.fst, uri, name⟩] [])
    (fun _ => rfl) o.opened
  simp only [take, chain, List.map_cons, hrest]
  rfl

theorem take_endElement {ids : List Nat} {top : Option Nat} (s : σ) (answer : String)
    (hnext : o.next = none) (hchain : o.chain = top :: ids.map some) :
    (o.take (.made .endElement s answer)).StandsAt ids := by
  rcases o with ⟨_ | ⟨f, outer⟩, closed, next⟩
  · cases hchain
  · exact ⟨hnext, (List.cons.inj hchain).2⟩

/-! ### Chains are bounded -/

variable {path : Path}

theorem openCount_eq {ids : List Nat} (h : o.chain = ids.map some) (id : Nat) :
    o.openCount id = ids.count id := by
  rw [openCount, h, count_map_some]

theorem isBounded_of_chain (hp : path.IsBounded m) (h : o.chain = path.ids.map some) :
    o.IsBounded m where
  openCount_le id := by
    rw [openCount_eq h]
    exact hp.count id
  length_le := by
    have := hp.length_ids_le
    rw [length_opened, h, List.length_map]
    omega

theorem StandsAt.isBounded (hp : path.IsBounded m) (h : o.StandsAt path.ids) : o.IsBounded m :=
  isBounded_of_chain hp h.chain_eq

theorem Starts.isBounded (hp : path.IsBounded m) {decl : ElementDecl} (h : o.Starts path.ids decl) :
    o.IsBounded m :=
  isBounded_of_chain hp h.chain_eq

theorem StandsInWildcard.isBounded (hp : path.IsBounded m) (h : o.StandsInWildcard path.ids) :
    o.IsBounded m where
  openCount_le id := by
    have := hp.count id
    rw [openCount, h.chain_eq, List.count_cons_of_ne (by simp), count_map_some]
    exact this
  length_le := by
    have := hp.length_ids_le
    rw [length_opened, h.chain_eq, List.length_cons, List.length_map]
    omega

theorem staysBounded_of_isPlain (hp : path.IsBounded m) (h : o.StandsAt path.ids)
    (hst : ∀ step ∈ st, step.IsPlain) :
    o.StaysBounded m st ∧ (o.takeAll st).StandsAt path.ids := by
  induction st generalizing o with
  | nil => exact ⟨h.isBounded hp, h⟩
  | cons step rest ih =>
    have hstep := hst step List.mem_cons_self
    obtain ⟨hnext, hchain⟩ := o.take_of_isPlain hstep
    obtain ⟨hstays, hstands⟩ := ih ⟨hnext.trans h.next_eq, hchain.trans h.chain_eq⟩
      fun step hmem => hst step (List.mem_cons_of_mem _ hmem)
    refine ⟨⟨h.isBounded hp, ?_, hstays⟩, hstands⟩
    cases step with
    | noted n => exact hstep.elim
    | made => trivial
    | refused => trivial

end Outline

/-- Where the elements are open that the path has come through, its bounds hold for them. -/
theorem Path.IsBounded.standsAt {m : Model} {path : Path} (hp : path.IsBounded m) (o : Outline)
    (h : o.StandsAt path.ids) : o.IsBounded m :=
  h.isBounded hp

/-! ## Walks between chains -/

namespace Walk

variable {σ α β : Type} {m : Model} {Pre M Post : Outline → Prop} {walk : Walk σ α}

/-- Started where `Pre` holds, the walk keeps the chain of open elements bounded and, if it succeeds,
`Post` holds where it ends. It does not fail because a bound is reached. -/
def Keeps (m : Model) (Pre : Outline → Prop) (walk : Walk σ α) (Post : Outline → Prop) : Prop :=
  ∀ s st r s', walk.Runs s st r s' → ∀ o : Outline, Pre o →
    o.StaysBounded m st ∧ EndsWell st r ∧ ∀ a, r = .ok a → Post (o.takeAll st)

namespace Keeps

theorem bind {f : α → Walk σ β} (h : Keeps m Pre walk M) (hf : ∀ a, Keeps m M (f a) Post) :
    Keeps m Pre (walk >>= f) Post := by
  intro s st r s' hr o ho
  rcases runs_bind hr with ⟨e, rfl, hr₁⟩ | ⟨a, s₁, st₁, st₂, hr₁, hr₂, rfl⟩
  · obtain ⟨hstays, hend, -⟩ := h _ _ _ _ hr₁ o ho
    exact ⟨hstays, fun he => hend (congrArg Except.error (Except.error.inj he)), fun _ hb => nomatch hb⟩
  · obtain ⟨hstays, -, hmid⟩ := h _ _ _ _ hr₁ o ho
    obtain ⟨hstays', hend, hpost⟩ := hf a _ _ _ _ hr₂ _ (hmid a rfl)
    refine ⟨hstays.append hstays', fun he => ?_, fun b hb => ?_⟩
    · obtain ⟨c, t, hmem⟩ := hend he
      exact ⟨c, t, List.mem_append_right _ hmem⟩
    · rw [Outline.takeAll_append]
      exact hpost b hb

/-- A question about the schema before a walk. -/
theorem ask_bind {answer : Except Error α} {f : α → Walk σ β} (h : NotEndless answer)
    (hpre : ∀ o, Pre o → o.IsBounded m) (hf : ∀ a, answer = .ok a → Keeps m Pre (f a) Post) :
    Keeps m Pre (ask answer >>= f) Post := by
  intro s st r s' hr o ho
  rcases runs_bind hr with ⟨e, rfl, hr₁⟩ | ⟨a, s₁, st₁, st₂, hr₁, hr₂, rfl⟩
  · obtain ⟨rfl, rfl, -⟩ := runs_ask hr₁
    refine ⟨hpre o ho, ?_, fun _ hb => nomatch hb⟩
    exact .of_notEndless fun he => h (congrArg Except.error (Except.error.inj he))
  · obtain ⟨rfl, ha, -⟩ := runs_ask hr₁
    exact hf a ha.symm _ _ _ _ hr₂ o ho

/-- A decision before a walk. -/
theorem decide_bind {P : α → Prop} {f : α → Walk σ β} (h : Decides walk P)
    (hpre : ∀ o, Pre o → o.IsBounded m) (hf : ∀ a, P a → Keeps m Pre (f a) Post) :
    Keeps m Pre (walk >>= f) Post := by
  intro s st r s' hr o ho
  rcases runs_bind hr with ⟨e, rfl, hr₁⟩ | ⟨a, s₁, st₁, st₂, hr₁, hr₂, rfl⟩
  · obtain ⟨rfl, hend, -⟩ := h _ _ _ _ hr₁
    refine ⟨hpre o ho, ?_, fun _ hb => nomatch hb⟩
    exact .of_notEndless fun he => hend (congrArg Except.error (Except.error.inj he))
  · obtain ⟨rfl, -, ha⟩ := h _ _ _ _ hr₁
    exact hf a (ha a rfl) _ _ _ _ hr₂ o ho

variable {path : Path}

/-- A plain walk stays at its place. -/
theorem plain (hp : path.IsBounded m) (h : walk.IsPlain) :
    Keeps m (Outline.StandsAt path.ids) walk (Outline.StandsAt path.ids) := by
  intro s st r s' hr o ho
  obtain ⟨hplain, hend⟩ := h _ _ _ _ hr
  obtain ⟨hstays, hstands⟩ := Outline.staysBounded_of_isPlain hp ho hplain
  exact ⟨hstays, hend, fun _ _ => hstands⟩

theorem each {walk : β → Walk σ Unit} {l : List β} (hp : path.IsBounded m)
    (h : ∀ b ∈ l, Keeps m (Outline.StandsAt path.ids) (walk b) (Outline.StandsAt path.ids)) :
    Keeps m (Outline.StandsAt path.ids) (each l walk) (Outline.StandsAt path.ids) := by
  induction l with
  | nil => exact plain hp (.pure ())
  | cons b rest ih =>
    exact (h b List.mem_cons_self).bind fun _ => ih fun c hc => h c (List.mem_cons_of_mem _ hc)

theorem times {walk : Walk σ Unit} (n : Nat) (hp : path.IsBounded m)
    (h : Keeps m (Outline.StandsAt path.ids) walk (Outline.StandsAt path.ids)) :
    Keeps m (Outline.StandsAt path.ids) (times n walk) (Outline.StandsAt path.ids) := by
  induction n with
  | zero => exact plain hp (.pure ())
  | succ n ih => exact h.bind fun _ => ih

/-- A call, by the chains before and after it. -/
theorem tell {c : Call} (hpre : ∀ o, Pre o → o.IsBounded m)
    (hpost : ∀ o s answer, Pre o → (o.take (.made c s answer) : Outline).IsBounded m
      ∧ Post (o.take (.made c (s : Supply σ) answer))) :
    Keeps m Pre (tell c : Walk σ Unit) Post := by
  intro s st r s' hr o ho
  obtain ⟨-, ⟨answer, rfl, rfl⟩ | ⟨e, rfl, rfl⟩⟩ := runs_tell hr
  · obtain ⟨hbounded, hpost⟩ := hpost o s answer ho
    exact ⟨⟨hpre o ho, trivial, hbounded⟩, .of_notEndless (.ok ()), fun _ _ => hpost⟩
  · refine ⟨⟨hpre o ho, trivial, hpre o ho⟩, fun he => ⟨c, s, ?_⟩, fun _ hb => nomatch hb⟩
    rw [Except.error.inj he]
    exact List.mem_singleton_self _

/-- A note, by the chains before and after it. -/
theorem note {n : Note} (hpre : ∀ o, Pre o → o.IsBounded m)
    (hout : ∀ o, Pre o → o.LeavesOut (.noted n : Step (Supply σ)))
    (hpost : ∀ o, Pre o → (o.take (.noted n : Step (Supply σ))).IsBounded m
      ∧ Post (o.take (.noted n : Step (Supply σ)))) :
    Keeps m Pre (note n : Walk σ Unit) Post := by
  intro s st r s' hr o ho
  obtain ⟨rfl, rfl, -⟩ := runs_note hr
  obtain ⟨hbounded, hpost⟩ := hpost o ho
  exact ⟨⟨hpre o ho, hout o ho, hbounded⟩, .of_notEndless (.ok ()), fun _ _ => hpost⟩

end Keeps

end Walk

end Specimen

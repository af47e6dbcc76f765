import Specimen.Proofs.ContentMarks
import Specimen.Proofs.Interruption
import Specimen.Proofs.Order
import Specimen.Proofs.Standing

/-!
# Two runs side by side

What is written depends on the answers of a writer in two places only: a prefix stands in the name
of an announced type, and in the names of a content model. A run looks at neither again, but for one
question about a content model, which does not depend on prefixes. So two runs that are answered in
different ways make the same calls, up to these texts, and come to the same end.

Two runs are compared part by part. The left one may also make remarks, which the right one leaves
out: it may ask for prefixes and write comments. It may fail over them, and then nothing is said of
the right one.
-/

namespace Specimen

/-! ## Texts with prefixes -/

/-- A part of a text: words that are there whatever the prefixes are, or the prefix of a
namespace. -/
inductive Word where
  | plain (text : String)
  | pfx (uri : String)

namespace Prefixes

variable {ps ps' : Prefixes} {a a' b b' : String}

/-- A word, with these prefixes. -/
def word (ps : Prefixes) : Word → String
  | .plain text => text
  | .pfx uri => ps.pfx uri

/-- A text, with these prefixes. -/
def spell (ps : Prefixes) (words : List Word) : String := String.join (words.map ps.word)

/-- The two texts are the same up to the prefixes. -/
def SameText (ps ps' : Prefixes) (a a' : String) : Prop :=
  ∃ words, a = ps.spell words ∧ a' = ps'.spell words

theorem spell_append (ps : Prefixes) (words words' : List Word) :
    ps.spell (words ++ words') = ps.spell words ++ ps.spell words' := by
  rw [spell, List.map_append, String.join_append]
  rfl

namespace SameText

theorem refl (a : String) : SameText ps ps' a a :=
  ⟨[.plain a], by simp [spell, word], by simp [spell, word]⟩

theorem pfx (uri : String) : SameText ps ps' (ps.pfx uri) (ps'.pfx uri) :=
  ⟨[.pfx uri], by simp [spell, word], by simp [spell, word]⟩

theorem append (h : SameText ps ps' a a') (h' : SameText ps ps' b b') :
    SameText ps ps' (a ++ b) (a' ++ b') := by
  obtain ⟨words, rfl, rfl⟩ := h
  obtain ⟨words', rfl, rfl⟩ := h'
  exact ⟨words ++ words', (spell_append _ _ _).symm, (spell_append _ _ _).symm⟩

theorem intercalate (separator : String) {texts texts' : List String}
    (h : List.Forall₂ (SameText ps ps') texts texts') :
    SameText ps ps' (separator.intercalate texts) (separator.intercalate texts') := by
  induction h with
  | nil => exact refl _
  | cons hfirst hrest ih =>
    cases hrest with
    | nil => simpa using hfirst
    | cons _ _ =>
      rw [String.intercalate_cons_cons, String.intercalate_cons_cons]
      exact (hfirst.append (refl separator)).append ih

end SameText

/-! ### Marks of variable content -/

/-- No mark stands in a prefix. -/
theorem IsGiven.isVariable_eq_false {bound : Nat} {uri pfx : String} (h : IsGiven bound uri pfx) :
    ContentModel.isVariable pfx = false := by
  rcases h with ⟨-, rfl⟩ | ⟨-, rfl⟩ | ⟨-, rfl⟩ | ⟨n, -, rfl⟩
  · decide
  · decide
  · decide
  · rw [ContentModel.isVariable, toList_numbered, List.any_append]
    refine Bool.or_eq_false_iff.mpr ⟨by decide, List.any_eq_false.mpr fun c hc => ?_⟩
    have hdigit := Nat.isDigit_of_mem_toDigits (by decide) (by decide) hc
    have hmarks : ∀ c ∈ ContentModel.variableMarks, c.isDigit = false := by
      simp [ContentModel.variableMarks]
    intro hmark
    rw [hmarks c (List.contains_iff_mem.mp hmark)] at hdigit
    cases hdigit

theorem IsSound.isVariable_pfx (h : ps.IsSound) (uri : String) :
    ContentModel.isVariable (ps.pfx uri) = false := by
  by_cases hne : uri = ""
  · rw [hne, pfx_empty]
    rfl
  · cases hget : ps.get? uri with
    | none =>
      rw [Prefixes.pfx, if_neg hne, hget]
      rfl
    | some pfx =>
      rw [pfx_of_get? hne hget]
      exact (h.given hget).isVariable_eq_false

/-- **Whether a content model allows more than one row does not depend on the prefixes.** -/
theorem SameText.isVariable_eq (hs : ps.IsSound) (hs' : ps'.IsSound) (h : SameText ps ps' a a') :
    ContentModel.isVariable a = ContentModel.isVariable a' := by
  obtain ⟨words, rfl, rfl⟩ := h
  induction words with
  | nil => rfl
  | cons first words ih =>
    have hcons (ps : Prefixes) : ps.spell (first :: words) = ps.word first ++ ps.spell words := by
      simp [spell]
    rw [hcons, hcons, ContentModel.isVariable_append, ContentModel.isVariable_append, ih]
    cases first with
    | plain text => rfl
    | pfx uri => rw [word, word, hs.isVariable_pfx, hs'.isVariable_pfx]

end Prefixes

/-! ## Calls of two runs -/

open Prefixes

/-- The two calls are the same, up to the prefixes in the name of an announced type and in the text
of a comment. -/
inductive Call.Alike (ps ps' : Prefixes) : Call → Call → Prop
  | same (c : Call) : Alike ps ps' c c
  | type (name : QName) : Alike ps ps'
      (.attribute Namespace.xsi "type" (Markup.qualify (ps.pfx name.namespaceUri) name.localName))
      (.attribute Namespace.xsi "type" (Markup.qualify (ps'.pfx name.namespaceUri) name.localName))
  | comment {text text' : String} (h : SameText ps ps' text text') :
      Alike ps ps' (.comment text) (.comment text')

/-- A call that adds nothing to a document but comments: a request for a prefix, or a comment. -/
def Call.IsRemark (c : Call) : Prop := c.kind = .declarePrefix ∨ c.kind = .comment

instance : DecidablePred Call.IsRemark := fun _ => inferInstanceAs (Decidable (_ ∨ _))

/-- The calls of two runs, each with the state at that moment, go along with each other. Where
remarks are `allowed`, the left run may make some that the right one does not make, and the right
one writes no comments. -/
inductive Alongside {τ : Type} (allowed : Prop) (ps ps' : Prefixes) :
    List (Call × τ) → List (Call × τ) → Prop
  | nil : Alongside allowed ps ps' [] []
  | both {c c' : Call} {s : τ} {l l' : List (Call × τ)} (h : c.Alike ps ps' c')
      (hc : allowed → c'.kind ≠ .comment) (hl : Alongside allowed ps ps' l l') :
      Alongside allowed ps ps' ((c, s) :: l) ((c', s) :: l')
  | remark {c : Call} {s : τ} {l l' : List (Call × τ)} (h : allowed) (hc : c.IsRemark)
      (hl : Alongside allowed ps ps' l l') : Alongside allowed ps ps' ((c, s) :: l) l'

namespace Alongside

variable {τ : Type} {allowed : Prop} {ps ps' : Prefixes} {l l' l₁ l₁' : List (Call × τ)}

theorem append (h : Alongside allowed ps ps' l l') (h₁ : Alongside allowed ps ps' l₁ l₁') :
    Alongside allowed ps ps' (l ++ l₁) (l' ++ l₁') := by
  induction h with
  | nil => exact h₁
  | both h hc _ ih => exact .both h hc ih
  | remark h hc _ ih => exact .remark h hc ih

/-- Remarks beside nothing. -/
theorem remarks (h : allowed) (hl : ∀ x ∈ l, x.1.IsRemark) : Alongside allowed ps ps' l [] := by
  induction l with
  | nil => exact .nil
  | cons x l ih =>
    exact .remark h (hl x List.mem_cons_self) (ih fun y hy => hl y (List.mem_cons_of_mem _ hy))

/-- Without remarks, the two rows have the same length. -/
theorem forall₂ (h : Alongside False ps ps' l l') :
    List.Forall₂ (fun x x' => x.1.Alike ps ps' x'.1 ∧ x.2 = x'.2) l l' := by
  induction h with
  | nil => exact .nil
  | both h _ _ ih => exact .cons ⟨h, rfl⟩ ih
  | remark h _ _ _ => exact h.elim

end Alongside

/-- The calls of some steps, each with the state at that moment. -/
def callsOf {σ : Type} (st : List (Step σ)) : List (Call × σ) := st.filterMap Step.call?

@[simp] theorem callsOf_append {σ : Type} (st st' : List (Step σ)) :
    callsOf (st ++ st') = callsOf st ++ callsOf st' := List.filterMap_append

/-! ## Walks side by side -/

/-- Two results: the same error, or values that are related. -/
inductive SameResult {α β : Type} (R : α → β → Prop) : Except Error α → Except Error β → Prop
  | error (e : Error) : SameResult R (.error e) (.error e)
  | ok {a : α} {b : β} (h : R a b) : SameResult R (.ok a) (.ok b)

theorem SameResult.eq {α : Type} {r r' : Except Error α} (h : SameResult Eq r r') : r = r' := by
  cases h with
  | error e => rfl
  | ok h => rw [h]

namespace Walk

variable {σ α β γ δ : Type}

/-- Runs of the two walks that are answered with these prefixes go along with each other and end in
the same way, unless the left one fails over a remark. -/
def Beside (allowed : Prop) (ps ps' : Prefixes) (R : α → β → Prop) (walk : Walk σ α)
    (walk' : Walk σ β) : Prop :=
  ∀ s st r t st' r' t', walk.Runs s st r t → walk'.Runs s st' r' t' →
    (∀ step ∈ st, step.IsAnswered ps) → (∀ step ∈ st', step.IsAnswered ps') →
      (allowed ∧ ∃ e, r = .error e)
        ∨ SameResult R r r' ∧ t' = t ∧ Alongside allowed ps ps' (callsOf st) (callsOf st')

/-- A walk without steps always goes the same way. -/
theorem IsSilent.eq_stop {walk : Walk σ α} (h : walk.IsSilent) (s : Supply σ) :
    ∃ r t, walk s = .stop r t := by
  have hr := h _ _ _ _ (Script.runs_steps (walk s) ({} : Recorder))
  cases hw : walk s with
  | stop r t => exact ⟨r, t, rfl⟩
  | call c t next =>
    rw [hw, Script.steps] at hr
    split at hr <;> cases hr
  | note n next =>
    rw [hw] at hr
    cases hr

namespace Beside

variable {allowed : Prop} {ps ps' : Prefixes} {R : α → β → Prop} {S : γ → δ → Prop}
  {walk : Walk σ α} {walk' : Walk σ β}

theorem imp {R' : α → β → Prop} (h : Beside allowed ps ps' R walk walk')
    (hR : ∀ a b, R a b → R' a b) : Beside allowed ps ps' R' walk walk' := by
  intro s st r t st' r' t' hr hr' hst hst'
  refine (h _ _ _ _ _ _ _ hr hr' hst hst').imp_right fun ⟨hsame, hrest⟩ => ⟨?_, hrest⟩
  cases hsame with
  | error e => exact .error e
  | ok hab => exact .ok (hR _ _ hab)

theorem pure {a : α} {b : β} (h : R a b) :
    Beside allowed ps ps' R (Pure.pure a : Walk σ α) (Pure.pure b) := by
  intro s st r t st' r' t' hr hr' _ _
  obtain ⟨rfl, rfl, rfl⟩ := runs_pure hr
  obtain ⟨rfl, rfl, rfl⟩ := runs_pure hr'
  exact .inr ⟨.ok h, rfl, .nil⟩

theorem of_isSilent {walk : Walk σ α} (h : walk.IsSilent) :
    Beside allowed ps ps' Eq walk walk := by
  intro s st r t st' r' t' hr hr' _ _
  obtain ⟨r₀, t₀, hw⟩ := h.eq_stop s
  rw [Runs, hw] at hr hr'
  cases hr
  cases hr'
  refine .inr ⟨?_, rfl, .nil⟩
  cases r with
  | error e => exact .error e
  | ok a => exact .ok rfl

theorem fail (e : Error) : Beside allowed ps ps' R (fail e : Walk σ α) (Walk.fail e) := by
  intro s st r t st' r' t' hr hr' _ _
  obtain ⟨rfl, rfl, rfl⟩ := runs_fail hr
  obtain ⟨rfl, rfl, rfl⟩ := runs_fail hr'
  exact .inr ⟨.error e, rfl, .nil⟩

theorem note (n : Note) : Beside allowed ps ps' Eq (note n : Walk σ Unit) (Walk.note n) := by
  intro s st r t st' r' t' hr hr' _ _
  obtain ⟨rfl, rfl, rfl⟩ := runs_note hr
  obtain ⟨rfl, rfl, rfl⟩ := runs_note hr'
  exact .inr ⟨.ok rfl, rfl, .nil⟩

/-- The answer to a request is the prefix. -/
theorem request (uri : String) :
    Beside allowed ps ps' (fun a a' => a = ps.pfx uri ∧ a' = ps'.pfx uri)
      (call (.declarePrefix uri) : Walk σ String) (call (.declarePrefix uri)) := by
  intro s st r t st' r' t' hr hr' hst hst'
  obtain ⟨rfl, ⟨a, rfl, rfl⟩ | ⟨e, rfl, -⟩⟩ := runs_call hr
  · obtain ⟨rfl, ⟨a', rfl, rfl⟩ | ⟨e, rfl, -⟩⟩ := runs_call hr'
    · have ha := (hst _ List.mem_cons_self).2
      have ha' := (hst' _ List.mem_cons_self).2
      exact .inr ⟨.ok ⟨ha, ha'⟩, rfl, .both (.same _) (fun _ => by nofun) .nil⟩
    · exact (hst' _ List.mem_cons_self).elim
  · exact (hst _ List.mem_cons_self).elim

theorem tell {c c' : Call} (h : c.Alike ps ps' c') (hc : allowed → c'.kind ≠ .comment) :
    Beside allowed ps ps' Eq (tell c : Walk σ Unit) (Walk.tell c') := by
  intro s st r t st' r' t' hr hr' hst hst'
  obtain ⟨rfl, ⟨a, rfl, rfl⟩ | ⟨e, rfl, -⟩⟩ := runs_tell hr
  · obtain ⟨rfl, ⟨a', rfl, rfl⟩ | ⟨e, rfl, -⟩⟩ := runs_tell hr'
    · exact .inr ⟨.ok rfl, rfl, .both h hc .nil⟩
    · exact (hst' _ List.mem_cons_self).elim
  · exact (hst _ List.mem_cons_self).elim

/-- A call that is the same on both sides. -/
theorem tellSame {c : Call} (hc : c.kind ≠ .comment) :
    Beside allowed ps ps' Eq (Walk.tell c : Walk σ Unit) (Walk.tell c) := tell (.same c) fun _ => hc

theorem bind {f : α → Walk σ γ} {f' : β → Walk σ δ} (h : Beside allowed ps ps' R walk walk')
    (hf : ∀ a b, R a b → Beside allowed ps ps' S (f a) (f' b)) :
    Beside allowed ps ps' S (walk >>= f) (walk' >>= f') := by
  intro s st r t st' r' t' hr hr' hst hst'
  rcases runs_bind hr with ⟨e, rfl, hr₁⟩ | ⟨a, s₁, st₁, st₂, hr₁, hr₂, rfl⟩
  · rcases runs_bind hr' with ⟨e', rfl, hr₁'⟩ | ⟨b, s₁', st₁', st₂', hr₁', -, rfl⟩
    · rcases h _ _ _ _ _ _ _ hr₁ hr₁' hst hst' with ⟨hallowed, -⟩ | ⟨hsame, hrest⟩
      · exact .inl ⟨hallowed, e, rfl⟩
      · cases hsame
        exact .inr ⟨.error _, hrest⟩
    · obtain ⟨hst₁', -⟩ := List.forall_mem_append.mp hst'
      rcases h _ _ _ _ _ _ _ hr₁ hr₁' hst hst₁' with ⟨hallowed, -⟩ | ⟨hsame, -⟩
      · exact .inl ⟨hallowed, e, rfl⟩
      · cases hsame
  · obtain ⟨hst₁, hst₂⟩ := List.forall_mem_append.mp hst
    rcases runs_bind hr' with ⟨e', rfl, hr₁'⟩ | ⟨b, s₁', st₁', st₂', hr₁', hr₂', rfl⟩
    · rcases h _ _ _ _ _ _ _ hr₁ hr₁' hst₁ hst' with ⟨-, _, he⟩ | ⟨hsame, -⟩
      · cases he
      · cases hsame
    · obtain ⟨hst₁', hst₂'⟩ := List.forall_mem_append.mp hst'
      rcases h _ _ _ _ _ _ _ hr₁ hr₁' hst₁ hst₁' with ⟨-, _, he⟩ | ⟨hsame, rfl, halong⟩
      · cases he
      · cases hsame with
        | ok hab =>
          refine (hf a b hab _ _ _ _ _ _ _ hr₂ hr₂' hst₂ hst₂').imp_right ?_
          rintro ⟨hsame, rfl, halong'⟩
          rw [callsOf_append, callsOf_append]
          exact ⟨hsame, rfl, halong.append halong'⟩

/-- A decision that both make. -/
theorem silent_bind {walk : Walk σ α} {f : α → Walk σ γ} {f' : α → Walk σ δ} (h : walk.IsSilent)
    (hf : ∀ a, Beside allowed ps ps' S (f a) (f' a)) :
    Beside allowed ps ps' S (walk >>= f) (walk >>= f') :=
  (of_isSilent h).bind fun a _ hab => hab ▸ hf a

/-- Parts whose results do not matter. -/
theorem andThen {walk walk' : Walk σ Unit} {f : Unit → Walk σ γ} {f' : Unit → Walk σ δ}
    (h : Beside allowed ps ps' Eq walk walk') (hf : Beside allowed ps ps' S (f ()) (f' ())) :
    Beside allowed ps ps' S (walk >>= f) (walk' >>= f') :=
  h.bind fun _ _ _ => hf

theorem each {ι : Type} {walk walk' : ι → Walk σ Unit} {l : List ι}
    (h : ∀ i, Beside allowed ps ps' Eq (walk i) (walk' i)) :
    Beside allowed ps ps' Eq (each l walk) (Walk.each l walk') := by
  induction l with
  | nil => exact pure rfl
  | cons i rest ih => exact (h i).andThen ih

theorem times {walk walk' : Walk σ Unit} (n : Nat) (h : Beside allowed ps ps' Eq walk walk') :
    Beside allowed ps ps' Eq (times n walk) (Walk.times n walk') := by
  induction n with
  | zero => exact pure rfl
  | succ n ih => exact h.andThen ih

end Beside

/-! ### Remarks -/

/-- The walk makes remarks and does nothing else: it makes no other call and uses nothing up. -/
def OnlyRemarks (walk : Walk σ α) : Prop :=
  ∀ s st r t, walk.Runs s st r t → t = s ∧ ∀ x ∈ callsOf st, x.1.IsRemark

namespace OnlyRemarks

theorem comment (text : String) : OnlyRemarks (tell (.comment text) : Walk σ Unit) := by
  intro s st r t hr
  obtain ⟨rfl, ⟨answer, rfl, -⟩ | ⟨e, rfl, -⟩⟩ := runs_tell hr
  · exact ⟨rfl, fun x hx => List.mem_singleton.mp hx ▸ .inr rfl⟩
  · exact ⟨rfl, fun x hx => List.mem_singleton.mp hx ▸ .inr rfl⟩

theorem bind {walk : Walk σ α} {f : α → Walk σ β} (h : walk.OnlyRemarks)
    (hf : ∀ a, (f a).OnlyRemarks) : (walk >>= f).OnlyRemarks := by
  intro s st r t hr
  rcases runs_bind hr with ⟨e, rfl, hr₁⟩ | ⟨a, s₁, st₁, st₂, hr₁, hr₂, rfl⟩
  · exact h _ _ _ _ hr₁
  · obtain ⟨rfl, hst₁⟩ := h _ _ _ _ hr₁
    obtain ⟨rfl, hst₂⟩ := hf a _ _ _ _ hr₂
    rw [callsOf_append]
    exact ⟨rfl, List.forall_mem_append.mpr ⟨hst₁, hst₂⟩⟩

end OnlyRemarks

theorem OnlyAsks.onlyRemarks {walk : Walk σ α} (h : walk.OnlyAsks) : walk.OnlyRemarks := by
  intro s st r t hr
  obtain ⟨rfl, hst⟩ := h _ _ _ _ hr
  refine ⟨rfl, fun x hx => ?_⟩
  obtain ⟨step, hmem, hstep⟩ := List.mem_filterMap.mp hx
  obtain ⟨uri, ⟨answer, rfl⟩ | ⟨e, rfl⟩⟩ := hst step hmem
  · cases hstep
    exact .inl rfl
  · cases hstep
    exact .inl rfl

end Walk

/-! ## Content models side by side -/

namespace ContentModel

open Walk

variable {σ : Type} {allowed : Prop} {ps ps' : Prefixes} {m : Model}

theorem beside_renderName (name : QName) :
    Beside allowed ps ps' (SameText ps ps') (renderName name : Walk σ String) (renderName name) := by
  unfold renderName
  split
  · exact .pure (.refl _)
  · refine (Beside.request _).bind fun a a' h => .pure ?_
    rw [h.1, h.2]
    exact ((SameText.pfx _).append (.refl _)).append (.refl _)

theorem beside_renderAll {render : Particle → Walk σ String}
    (h : ∀ p, Beside allowed ps ps' (SameText ps ps') (render p) (render p))
    (particles : List Particle) :
    Beside allowed ps ps' (List.Forall₂ (SameText ps ps')) (renderAll render particles)
      (renderAll render particles) := by
  induction particles with
  | nil => exact .pure .nil
  | cons p rest ih =>
    exact (h p).bind fun a a' ha => ih.bind fun l l' hl => .pure (.cons ha hl)

theorem beside_renderGroup {render : Particle → Walk σ String}
    (h : ∀ p, Beside allowed ps ps' (SameText ps ps') (render p) (render p)) (group : ModelGroup) :
    Beside allowed ps ps' (SameText ps ps') (renderGroup render group) (renderGroup render group) :=
  (beside_renderAll h group.particles).bind fun _ _ htexts =>
    .pure (((SameText.refl _).append (.intercalate _ htexts)).append (.refl _))

theorem beside_renderParticle {render : ModelGroup → Walk σ String}
    (h : ∀ group, Beside allowed ps ps' (SameText ps ps') (render group) (render group))
    (p : Particle) :
    Beside allowed ps ps' (SameText ps ps') (renderParticle m render p)
      (renderParticle m render p) := by
  have hterm : Beside allowed ps ps' (SameText ps ps') (renderTerm m render p.term)
      (renderTerm m render p.term) := by
    cases p.term with
    | elementRef name => exact beside_renderName _
    | element decl => exact beside_renderName _
    | group group => exact h group
    | groupRef name => exact Beside.silent_bind (.ask _) h
    | any wildcard => exact .pure (.refl _)
  exact hterm.bind fun a a' ha => .pure (ha.append (.refl _))

/-- **A content model is the same up to the prefixes.** -/
theorem beside_renderWithin (m : Model) (steps : Nat) (p : Particle) :
    Beside allowed ps ps' (SameText ps ps') (renderWithin m steps p : Walk σ String)
      (renderWithin m steps p) := by
  induction steps generalizing p with
  | zero => exact beside_renderParticle (fun _ => .fail _) p
  | succ steps ih => exact beside_renderParticle (fun group => beside_renderGroup ih group) p

end ContentModel

/-! ## Settings -/

/-- The same setting, with comments on content models or without. -/
def Leaf.Setting.annotating (w : Leaf.Setting) (b : Bool) : Leaf.Setting :=
  { w with policy := { w.policy with annotateContentModel := b } }

/-- What a leaf is filled with does not depend on comments. -/
theorem Leaf.value_annotating {σ : Type} [Source σ] (w : Leaf.Setting) (b : Bool)
    (type : SimpleType) (hint : String) :
    (Leaf.value (w.annotating b) type hint : Filling σ String) = Leaf.value w type hint := by
  have hwithin : ∀ (steps : Nat) (type : SimpleType),
      (valueWithin (w.annotating b) hint steps type : Filling σ String)
        = valueWithin w hint steps type := by
    intro steps
    induction steps with
    | zero => exact fun type => rfl
    | succ steps ih =>
      intro type
      have ih : (valueWithin (w.annotating b) hint steps : SimpleType → Filling σ String)
          = valueWithin w hint steps := funext ih
      unfold valueWithin
      rw [ih]
      rfl
  exact hwithin _ type

/-! ## Documents side by side -/

namespace Document

open Walk

variable {σ : Type} {allowed : Prop} {ps ps' : Prefixes} {w : Leaf.Setting} {b : Bool}
  {visit visit' : Visit σ} {path : Path}

theorem beside_announce (type : ComplexType) (isSubstitute : Bool) :
    Beside allowed ps ps' Eq (announce type isSubstitute : Walk σ Unit)
      (announce type isSubstitute) := by
  unfold announce announceType
  split
  · split
    · exact .fail _
    · rename_i name _
      refine (Beside.request name.namespaceUri).bind fun a a' h => ?_
      obtain ⟨rfl, rfl⟩ := h
      exact .tell (.type name) fun _ => by nofun
  · exact .pure rfl

/-- The right run annotates as the left one does or, where remarks are allowed, not at all. -/
def Matches (allowed : Prop) (w : Leaf.Setting) (b : Bool) : Prop :=
  ¬allowed ∧ b = w.policy.annotateContentModel ∨ allowed ∧ b = false

/-- An annotation makes remarks only. -/
theorem onlyRemarks_annotate (declared : TypeDef) : (annotate w declared : Walk σ Unit).OnlyRemarks := by
  have hpure : (pure () : Walk σ Unit).OnlyRemarks := (OnlyAsks.pure ()).onlyRemarks
  unfold annotate
  split
  · exact hpure
  · split
    · refine (OnlyAsks.ask _).onlyRemarks.bind fun content => ?_
      split
      · exact hpure
      · refine (ContentModel.onlyAsks_render _ _).onlyRemarks.bind fun model => ?_
        unfold comment
        split
        · exact .comment model
        · exact hpure
    · exact hpure

theorem beside_annotate (hs : ps.IsSound) (hs' : ps'.IsSound) (hb : Matches allowed w b)
    (declared : TypeDef) :
    Beside allowed ps ps' Eq (annotate w declared : Walk σ Unit)
      (annotate (w.annotating b) declared) := by
  rcases hb with ⟨hnot, rfl⟩ | ⟨hallowed, rfl⟩
  · have hsame : w.annotating w.policy.annotateContentModel = w := rfl
    rw [hsame]
    unfold annotate
    split
    · exact .pure rfl
    · split
      · refine Beside.silent_bind (.ask _) fun content => ?_
        split
        · exact .pure rfl
        · refine (ContentModel.beside_renderWithin _ _ _).bind fun a a' h => ?_
          unfold comment
          rw [h.isVariable_eq hs hs']
          split
          · exact .tell (.comment h) fun h => absurd h hnot
          · exact .pure rfl
      · exact .pure rfl
  · intro s st r t st' r' t' hr hr' _ _
    obtain ⟨rfl, hremarks⟩ := onlyRemarks_annotate declared _ _ _ _ hr
    have hpure : (annotate (w.annotating false) declared : Walk σ Unit) = pure () := by
      cases declared <;> rfl
    rw [hpure] at hr'
    obtain ⟨rfl, rfl, rfl⟩ := runs_pure hr'
    cases r with
    | error e => exact .inl ⟨hallowed, e, rfl⟩
    | ok u => exact .inr ⟨.ok rfl, rfl, .remarks hallowed hremarks⟩

theorem beside_content (hv : ∀ path p, Beside allowed ps ps' Eq (visit path p) (visit' path p))
    (type : ComplexType) :
    Beside allowed ps ps' Eq (content w visit path type)
      (content (w.annotating b) visit' path type) := by
  refine Beside.silent_bind (.ask (w.model.contentOf type)) fun content => ?_
  split
  · exact hv _ _
  · exact .pure rfl

variable [Source σ]

theorem beside_wildcard (own : Wildcard) :
    Beside allowed ps ps' Eq (wildcard path own : Walk σ Unit) (wildcard path own) := by
  refine Beside.silent_bind (.of_decides (decides_chooseNamespace own.namespaces)) fun uri => ?_
  split
  · exact .tellSame (by nofun)
  · exact (Beside.tellSame (by nofun)).andThen (.tellSame (by nofun))

theorem beside_writeAttribute (attr : EffectiveAttribute) :
    Beside allowed ps ps' Eq (writeAttribute w attr : Walk σ Unit)
      (writeAttribute (w.annotating b) attr) := by
  have hvalue : (attributeValue (w.annotating b) attr : Walk σ (Option String))
      = attributeValue w attr := by
    unfold attributeValue freeValue
    simp only [Leaf.value_annotating]
    rfl
  unfold writeAttribute
  rw [hvalue]
  refine Beside.silent_bind (isSilent_attributeValue attr) fun value => ?_
  split
  · exact .tellSame fun h => by cases h
  · exact .pure rfl

theorem beside_attributeWildcard (own : Option Wildcard) :
    Beside allowed ps ps' Eq (attributeWildcard path own : Walk σ Unit)
      (attributeWildcard path own) := by
  cases own with
  | none => exact .pure rfl
  | some own => exact beside_wildcard own

theorem beside_text (decl : ElementDecl) (type : TypeDef) :
    Beside allowed ps ps' Eq (text w decl type : Walk σ Unit) (text (w.annotating b) decl type) := by
  refine Beside.silent_bind (.ask (w.model.textType type)) fun textType => ?_
  split
  · rename_i textType
    rw [Leaf.value_annotating]
    exact Beside.silent_bind (.fill _) fun value => .tellSame (by nofun)
  · exact .pure rfl

section
variable (hv : ∀ path p, Beside allowed ps ps' Eq (visit path p) (visit' path p))
include hv

theorem beside_structured (type : TypeDef) (isSubstitute : Bool) :
    Beside allowed ps ps' Eq (structured w visit path type isSubstitute)
      (structured (w.annotating b) visit' path type isSubstitute) := by
  cases type with
  | simple type => exact .pure rfl
  | complex type =>
    simp only [structured, complexType]
    split
    · exact .fail _
    · refine (beside_announce type isSubstitute).andThen ?_
      refine Beside.silent_bind (.ask (w.model.wildcardOf type)) fun own => ?_
      refine Beside.silent_bind (.ask (w.model.attributesOf type)) fun attrs => ?_
      refine (Beside.each fun attr => beside_writeAttribute attr).andThen ?_
      exact (beside_attributeWildcard own).andThen (beside_content hv type)

end

section
variable (hs : ps.IsSound) (hs' : ps'.IsSound) (hb : Matches allowed w b)
  (hv : ∀ path p, Beside allowed ps ps' Eq (visit path p) (visit' path p))
include hs hs' hb hv

theorem beside_concreteElement (decl : ElementDecl) :
    Beside allowed ps ps' Eq (concreteElement w visit path decl)
      (concreteElement (w.annotating b) visit' path decl) := by
  unfold concreteElement
  split
  · exact .note _
  · refine Beside.silent_bind (.ask (w.model.resolveType decl.type)) fun declared => ?_
    refine Beside.silent_bind (.of_decides (decides_effectiveType declared)) fun chosen => ?_
    obtain ⟨type, isSubstitute⟩ := chosen
    refine (beside_annotate hs hs' hb declared).andThen ?_
    refine (Beside.note _).andThen ((Beside.tellSame (by nofun)).andThen ?_)
    refine (beside_structured hv type isSubstitute).andThen ?_
    exact (beside_text decl type).andThen (.tellSame (by nofun))

theorem beside_element (decl : ElementDecl) :
    Beside allowed ps ps' Eq (element w visit path decl)
      (element (w.annotating b) visit' path decl) := by
  unfold element
  split
  · exact Beside.silent_bind (.of_decides (decides_chooseSubstitute decl)) fun member =>
      beside_concreteElement hs hs' hb hv member
  · exact beside_concreteElement hs hs' hb hv decl

omit hs hs' hb hv in
theorem beside_repeated {walk walk' : Walk σ Unit} (occurs : Occurs)
    (h : Beside allowed ps ps' Eq walk walk') :
    Beside allowed ps ps' Eq (repeated w occurs walk) (repeated (w.annotating b) occurs walk') :=
  Beside.silent_bind (.draw (Count.ofOccurs w.policy occurs)) fun n => .times n h

omit hs hs' hb in
theorem beside_modelGroup (group : ModelGroup) (occurs : Occurs) :
    Beside allowed ps ps' Eq (modelGroup w visit path group occurs)
      (modelGroup (w.annotating b) visit' path group occurs) := by
  unfold modelGroup
  split
  · exact Beside.silent_bind (.draw (Draw.shuffle group.particles)) fun shuffled => .each (hv _)
  · refine beside_repeated occurs ?_
    exact Beside.silent_bind (.of_decides (decides_order group)) fun particles => .each (hv _)

/-- Particles go along with each other if the particles inside them do. -/
theorem beside_particle (path : Path) (p : Particle) :
    Beside allowed ps ps' Eq (particle w visit path p)
      (particle (w.annotating b) visit' path p) := by
  obtain ⟨occurs, term⟩ := p
  cases term with
  | group group => exact beside_modelGroup hv group occurs
  | groupRef name =>
    exact Beside.silent_bind (.ask (w.model.resolveGroup name)) fun group =>
      beside_modelGroup hv group occurs
  | element decl => exact beside_repeated occurs (beside_element hs hs' hb hv decl)
  | elementRef name =>
    refine beside_repeated occurs ?_
    exact Beside.silent_bind (.ask (w.model.resolveElement name)) fun decl =>
      beside_element hs hs' hb hv decl
  | any own => exact beside_repeated occurs (beside_wildcard own)

end

section
variable (hs : ps.IsSound) (hs' : ps'.IsSound) (hb : Matches allowed w b)
include hs hs' hb

theorem beside_visit (steps : Nat) (path : Path) (p : Particle) :
    Beside allowed ps ps' Eq (Document.visit w steps path p : Walk σ Unit)
      (Document.visit (w.annotating b) steps path p) := by
  induction steps generalizing path p with
  | zero => exact .fail _
  | succ steps ih => exact beside_particle hs hs' hb ih path p

/-- **Two runs for a document go along with each other.** -/
theorem beside_walk (root : QName) :
    Beside allowed ps ps' Eq (walk w root : Walk σ Unit) (walk (w.annotating b) root) := by
  refine Beside.silent_bind (.ask (w.model.rootElement root)) fun decl => ?_
  refine (Beside.tellSame (by nofun)).andThen ((Beside.tellSame (by nofun)).andThen ?_)
  refine Beside.andThen ?_ ((beside_element hs hs' hb (beside_visit hs hs' hb _) decl).andThen
    (.tellSame (by nofun)))
  unfold declareRoot
  split
  · exact .tellSame (by nofun)
  · exact .pure rfl

end

end Document

end Specimen

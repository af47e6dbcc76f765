import Specimen.Proofs.Failures

/-!
# Steps of a run

A run as the row of its steps: the calls that were made, each with the state at that moment and the
answer, and the notes in between. `Script.steps` computes the steps of a run with a writer.

Facts about all runs are proved for `Script.Runs`, which leaves the answers open: any text may be
the answer to a call, and any call may be refused. It has one rule for each part of a script, and for
each way to put walks together one lemma that takes a run of the whole apart.
-/

namespace Specimen

/-- A step of a run. -/
inductive Step (σ : Type) where
  | made (call : Call) (state : σ) (answer : String)
  | refused (call : Call) (state : σ) (error : Error)
  | noted (note : Note)

namespace Script

variable {σ α β ω : Type}

/-! ## Runs of scripts -/

/-- The steps of a run with a writer. -/
def steps [Writer ω] : Script σ α → ω → List (Step σ)
  | stop _ _, _ => []
  | call c s next, w =>
    match Writer.perform c w with
    | (.ok answer, w) => .made c s answer :: (next answer).steps w
    | (.error e, _) => [.refused c s e]
  | note n next, w => .noted n :: next.steps w

/-- The script may lead through these steps to this result and this state. -/
inductive Runs : Script σ α → List (Step σ) → Except Error α → σ → Prop
  | stop {r : Except Error α} {s : σ} : Runs (stop r s) [] r s
  | made {c : Call} {s s' : σ} {next : String → Script σ α} {answer : String}
      {st : List (Step σ)} {r : Except Error α} (h : Runs (next answer) st r s') :
      Runs (call c s next) (.made c s answer :: st) r s'
  | refused {c : Call} {s : σ} {next : String → Script σ α} {e : Error} :
      Runs (call c s next) [.refused c s e] (.error e) s
  | noted {n : Note} {next : Script σ α} {st : List (Step σ)} {r : Except Error α} {s' : σ}
      (h : Runs next st r s') : Runs (note n next) (.noted n :: st) r s'

/-- **Every run with a writer is one that the script may lead through.** -/
theorem runs_steps [Writer ω] (script : Script σ α) (w : ω) :
    script.Runs (script.steps w) (script.run w).1.1 (script.run w).1.2 := by
  induction script generalizing w with
  | stop r s => exact .stop
  | call c s next ih =>
    unfold steps run
    rcases hc : Writer.perform c w with ⟨answer | answer, w'⟩
    · exact .refused
    · exact .made (ih answer w')
  | note n next ih => exact .noted (ih w)

/-- A run of two scripts one after the other ends inside the first one, or has a run of the second
one behind a run of the first one. -/
theorem runs_bind {script : Script σ α} {f : α → σ → Script σ β} {st : List (Step σ)}
    {r : Except Error β} {s' : σ} (h : (script.bind f).Runs st r s') :
    (∃ e, r = .error e ∧ script.Runs st (.error e) s')
      ∨ ∃ a s₁ st₁ st₂, script.Runs st₁ (.ok a) s₁ ∧ (f a s₁).Runs st₂ r s' ∧ st = st₁ ++ st₂ := by
  induction script generalizing st with
  | stop result s =>
    cases result with
    | error e => cases h; exact .inl ⟨e, rfl, .stop⟩
    | ok a => exact .inr ⟨a, s, [], st, .stop, h, rfl⟩
  | call c s next ih =>
    cases h with
    | refused => exact .inl ⟨_, rfl, .refused⟩
    | made h =>
      rcases ih _ h with ⟨e, rfl, he⟩ | ⟨a, s₁, st₁, st₂, h₁, h₂, rfl⟩
      · exact .inl ⟨e, rfl, .made he⟩
      · exact .inr ⟨a, s₁, _, st₂, .made h₁, h₂, rfl⟩
  | note n next ih =>
    cases h with
    | noted h =>
      rcases ih h with ⟨e, rfl, he⟩ | ⟨a, s₁, st₁, st₂, h₁, h₂, rfl⟩
      · exact .inl ⟨e, rfl, .noted he⟩
      · exact .inr ⟨a, s₁, _, st₂, .noted h₁, h₂, rfl⟩

end Script

/-! ## Runs of walks -/

namespace Walk

variable {σ α β : Type} {s s' : Supply σ} {st : List (Step (Supply σ))}

/-- The walk may lead from a supply through these steps to this result and this supply. -/
def Runs (walk : Walk σ α) (s : Supply σ) (st : List (Step (Supply σ))) (r : Except Error α)
    (s' : Supply σ) : Prop :=
  (walk s).Runs st r s'

/-- A walk that is made of another one and what follows it either ends in the first or goes on from
its result. -/
theorem runs_bind {walk : Walk σ α} {f : α → Walk σ β} {r : Except Error β}
    (h : (walk >>= f).Runs s st r s') :
    (∃ e, r = .error e ∧ walk.Runs s st (.error e) s')
      ∨ ∃ a s₁ st₁ st₂, walk.Runs s st₁ (.ok a) s₁ ∧ (f a).Runs s₁ st₂ r s' ∧ st = st₁ ++ st₂ :=
  Script.runs_bind h

theorem runs_bind_ok {walk : Walk σ α} {f : α → Walk σ β} {b : β}
    (h : (walk >>= f).Runs s st (.ok b) s') :
    ∃ a s₁ st₁ st₂, walk.Runs s st₁ (.ok a) s₁ ∧ (f a).Runs s₁ st₂ (.ok b) s' ∧ st = st₁ ++ st₂ := by
  rcases runs_bind h with ⟨e, he, -⟩ | h
  · cases he
  · exact h

theorem runs_pure {a : α} {r : Except Error α} (h : (pure a : Walk σ α).Runs s st r s') :
    st = [] ∧ r = .ok a ∧ s' = s := by
  cases h
  exact ⟨rfl, rfl, rfl⟩

/-- A walk whose result is made of the result of another one. -/
theorem runs_bind_pure_ok {walk : Walk σ α} {f : α → β} {b : β}
    (h : (walk >>= fun a => pure (f a)).Runs s st (.ok b) s') :
    ∃ a, walk.Runs s st (.ok a) s' ∧ b = f a := by
  obtain ⟨a, s₁, st₁, st₂, hwalk, hpure, rfl⟩ := runs_bind_ok h
  obtain ⟨rfl, hb, rfl⟩ := runs_pure hpure
  rw [List.append_nil]
  exact ⟨a, hwalk, Except.ok.inj hb⟩

theorem runs_fail {e : Error} {r : Except Error α} (h : (fail e : Walk σ α).Runs s st r s') :
    st = [] ∧ r = .error e ∧ s' = s := by
  cases h
  exact ⟨rfl, rfl, rfl⟩

theorem runs_ask {answer r : Except Error α} (h : (ask answer : Walk σ α).Runs s st r s') :
    st = [] ∧ r = answer ∧ s' = s := by
  cases h
  exact ⟨rfl, rfl, rfl⟩

theorem runs_fill {filling : Filling σ α} {r : Except Error α} (h : (fill filling).Runs s st r s') :
    st = [] ∧ r = (filling s).1 ∧ s' = (filling s).2 := by
  cases h
  exact ⟨rfl, rfl, rfl⟩

theorem runs_draw {f : σ → α × σ} {r : Except Error α} (h : (draw f).Runs s st r s') :
    st = [] ∧ r = .ok (f s.source).1 ∧ s' = { s with source := (f s.source).2 } :=
  runs_fill h

theorem runs_call {c : Call} {r : Except Error String} (h : (call c : Walk σ String).Runs s st r s') :
    s' = s ∧ ((∃ answer, st = [.made c s answer] ∧ r = .ok answer)
      ∨ ∃ e, st = [.refused c s e] ∧ r = .error e) := by
  cases h with
  | made h => cases h; exact ⟨rfl, .inl ⟨_, rfl, rfl⟩⟩
  | refused => exact ⟨rfl, .inr ⟨_, rfl, rfl⟩⟩

theorem runs_tell {c : Call} {r : Except Error Unit} (h : (tell c : Walk σ Unit).Runs s st r s') :
    s' = s ∧ ((∃ answer, st = [.made c s answer] ∧ r = .ok ())
      ∨ ∃ e, st = [.refused c s e] ∧ r = .error e) := by
  cases h with
  | made h => cases h; exact ⟨rfl, .inl ⟨_, rfl, rfl⟩⟩
  | refused => exact ⟨rfl, .inr ⟨_, rfl, rfl⟩⟩

theorem runs_tell_ok {c : Call} {u : Unit} (h : (tell c : Walk σ Unit).Runs s st (.ok u) s') :
    ∃ answer, st = [.made c s answer] ∧ s' = s := by
  rcases runs_tell h with ⟨rfl, ⟨answer, rfl, -⟩ | ⟨e, -, he⟩⟩
  · exact ⟨answer, rfl, rfl⟩
  · cases he

theorem runs_note {n : Note} {r : Except Error Unit} (h : (note n : Walk σ Unit).Runs s st r s') :
    st = [.noted n] ∧ r = .ok () ∧ s' = s := by
  cases h with
  | noted h => cases h; exact ⟨rfl, rfl, rfl⟩

/-! ## Decisions -/

/-- The walk makes no call and no note, and its result, if there is one, is as described. -/
def Decides (walk : Walk σ α) (P : α → Prop) : Prop :=
  ∀ s st r s', walk.Runs s st r s' → st = [] ∧ NotEndless r ∧ ∀ a, r = .ok a → P a

namespace Decides

variable {walk : Walk σ α} {P : α → Prop} {Q : β → Prop}

theorem pure {a : α} (h : P a) : Decides (Pure.pure a : Walk σ α) P := by
  intro s st r s' hr
  obtain ⟨rfl, rfl, -⟩ := runs_pure hr
  exact ⟨rfl, .ok a, fun b hb => Except.ok.inj hb ▸ h⟩

theorem fail {e : Error} (h : NotEndless (.error e : Except Error α)) :
    Decides (fail e : Walk σ α) P := by
  intro s st r s' hr
  obtain ⟨rfl, rfl, -⟩ := runs_fail hr
  exact ⟨rfl, h, fun b hb => nomatch hb⟩

theorem draw {f : σ → α × σ} (h : ∀ s, P (f s).1) : Decides (draw f) P := by
  intro s st r s' hr
  obtain ⟨rfl, rfl, -⟩ := runs_draw hr
  exact ⟨rfl, .ok _, fun b hb => Except.ok.inj hb ▸ h s.source⟩

theorem bind {f : α → Walk σ β} (h : Decides walk P) (hf : ∀ a, P a → Decides (f a) Q) :
    Decides (walk >>= f) Q := by
  intro s st r s' hr
  rcases runs_bind hr with ⟨e, rfl, hr₁⟩ | ⟨a, s₁, st₁, st₂, hr₁, hr₂, rfl⟩
  · obtain ⟨rfl, hend, -⟩ := h _ _ _ _ hr₁
    exact ⟨rfl, fun he => hend (congrArg Except.error (Except.error.inj he)), fun b hb => nomatch hb⟩
  · obtain ⟨rfl, -, ha⟩ := h _ _ _ _ hr₁
    obtain ⟨rfl, hb⟩ := hf a (ha a rfl) _ _ _ _ hr₂
    exact ⟨rfl, hb⟩

end Decides

/-! ## Walks without steps -/

/-- The walk makes no call and no note. -/
def IsSilent (walk : Walk σ α) : Prop := ∀ s st r s', walk.Runs s st r s' → st = []

namespace IsSilent

variable {walk : Walk σ α}

theorem of_decides {P : α → Prop} (h : walk.Decides P) : walk.IsSilent :=
  fun s st r s' hr => (h s st r s' hr).1

theorem pure (a : α) : IsSilent (Pure.pure a : Walk σ α) := fun _ _ _ _ hr => (runs_pure hr).1

theorem ask (answer : Except Error α) : IsSilent (ask answer : Walk σ α) :=
  fun _ _ _ _ hr => (runs_ask hr).1

theorem fill (filling : Filling σ α) : IsSilent (fill filling) := fun _ _ _ _ hr => (runs_fill hr).1

theorem draw (f : σ → α × σ) : IsSilent (draw f) := fun _ _ _ _ hr => (runs_draw hr).1

theorem bind {f : α → Walk σ β} (h : walk.IsSilent) (hf : ∀ a, (f a).IsSilent) :
    (walk >>= f).IsSilent := by
  intro s st r s' hr
  rcases runs_bind hr with ⟨e, rfl, hr₁⟩ | ⟨a, s₁, st₁, st₂, hr₁, hr₂, rfl⟩
  · exact h _ _ _ _ hr₁
  · rw [h _ _ _ _ hr₁, hf a _ _ _ _ hr₂, List.append_nil]

end IsSilent

end Walk

/-- The steps of the run for a document. -/
def Document.steps {σ ω : Type} [Source σ] [Writer ω] (w : Leaf.Setting) (root : QName) (source : σ)
    (writer : ω) : List (Step (Supply σ)) :=
  (walk w root { source }).steps writer

end Specimen

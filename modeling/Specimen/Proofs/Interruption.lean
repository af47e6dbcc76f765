import Mathlib.Data.List.Basic
import Specimen.Draw.Scripted
import Specimen.Proofs.Steps
import Specimen.Writer.Interrupted

/-!
# Runs that a writer breaks off

A run with a writer that refuses a call, next to the run that goes on. Up to the refused call the two
are the same, and then nothing follows: no call, no draw, and no other failure.

What such a writer does with calls after the refusal is left open, so it does not matter.
-/

namespace Specimen

/-! ## The calls of a run -/

/-- The call of a step, with the state at that moment. -/
def Step.call? {σ : Type} : Step σ → Option (Call × σ)
  | made c s _ => some (c, s)
  | refused c s _ => some (c, s)
  | noted _ => none

namespace Script

variable {σ α ω : Type} [Writer ω]

/-- The calls that are made in a run with a writer, each with the state at that moment. -/
def calls (script : Script σ α) (w : ω) : List (Call × σ) := (script.steps w).filterMap Step.call?

@[simp] theorem calls_stop (r : Except Error α) (s : σ) (w : ω) : (stop r s).calls w = [] := rfl

@[simp] theorem calls_note (n : Note) (next : Script σ α) (w : ω) :
    (note n next).calls w = next.calls w := rfl

theorem calls_call_ok {c : Call} {s : σ} {next : String → Script σ α} {w w' : ω} {answer : String}
    (h : Writer.perform c w = (.ok answer, w')) :
    (call c s next).calls w = (c, s) :: (next answer).calls w' := by
  simp only [calls, steps, h]
  rfl

theorem calls_call_error {c : Call} {s : σ} {next : String → Script σ α} {w w' : ω} {e : Error}
    (h : Writer.perform c w = (.error e, w')) : (call c s next).calls w = [(c, s)] := by
  simp only [calls, steps, h]
  rfl

/-- Whatever is answered, the call comes first. -/
theorem exists_calls_call (c : Call) (s : σ) (next : String → Script σ α) (w : ω) :
    ∃ rest, (call c s next).calls w = (c, s) :: rest := by
  rcases h : Writer.perform c w with ⟨answer | answer, w'⟩
  · exact ⟨[], calls_call_error h⟩
  · exact ⟨_, calls_call_ok h⟩

/-- **The calls of a run are what the writer has been through.** -/
theorem run_writer (script : Script σ α) (w : ω) :
    (script.run w).2 = (performAll ((script.calls w).map Prod.fst) w).2 := by
  induction script generalizing w with
  | stop r s => rfl
  | call c s next ih =>
    rcases hc : Writer.perform c w with ⟨answer | answer, w'⟩
    · simp [calls_call_error hc, run, performAll, hc]
    · simp [calls_call_ok hc, run, performAll, hc, ih]
  | note n next ih => simpa [run] using ih w

end Script

/-! ## Writers that refuse a call -/

/-- How many of some calls are of a kind. -/
def CallKind.count (kind : CallKind) (calls : List Call) : Nat := calls.countP fun c => c.kind = kind

@[simp] theorem CallKind.count_nil (kind : CallKind) : kind.count [] = 0 := rfl

theorem CallKind.count_cons (kind : CallKind) (c : Call) (calls : List Call) :
    kind.count (c :: calls) = kind.count calls + if c.kind = kind then 1 else 0 := by
  simp [count, List.countP_cons]

/-- Where there are enough calls of a kind, there is an `n`-th one. -/
theorem CallKind.exists_nth {σ : Type} {kind : CallKind} {n : Nat} {calls : List (Call × σ)}
    (hpos : 0 < n) (h : n ≤ kind.count (calls.map Prod.fst)) :
    ∃ before c s rest, calls = before ++ (c, s) :: rest ∧ c.kind = kind
      ∧ kind.count (before.map Prod.fst) + 1 = n := by
  induction calls generalizing n with
  | nil => simp at h; omega
  | cons first calls ih =>
    obtain ⟨c, s⟩ := first
    rw [List.map_cons, CallKind.count_cons] at h
    by_cases hk : c.kind = kind
    · by_cases hn : n = 1
      · exact ⟨[], c, s, calls, rfl, hk, by simp [hn]⟩
      · obtain ⟨before, d, t, rest, rfl, hd, hcount⟩ := ih (n := n - 1) (by omega)
          (by simp only [hk, if_true] at h; omega)
        refine ⟨(c, s) :: before, d, t, rest, rfl, hd, ?_⟩
        rw [List.map_cons, CallKind.count_cons, if_pos hk]
        omega
    · obtain ⟨before, d, t, rest, rfl, hd, hcount⟩ := ih hpos (by simpa [hk] using h)
      refine ⟨(c, s) :: before, d, t, rest, rfl, hd, ?_⟩
      simpa [CallKind.count_cons, hk] using hcount

/-- A call of the kind that comes first has none before it. -/
theorem CallKind.eq_first {σ : Type} {kind : CallKind} {before rest rest' : List (Call × σ)}
    {call first : Call × σ} (h : before ++ call :: rest = first :: rest')
    (hfirst : first.1.kind = kind) (hcount : kind.count (before.map Prod.fst) = 0) :
    before = [] ∧ call = first := by
  cases before with
  | nil => exact ⟨rfl, (List.cons.inj h).1⟩
  | cons other before =>
    obtain ⟨rfl, -⟩ := List.cons.inj h
    rw [List.map_cons, CallKind.count_cons, if_pos hfirst] at hcount
    omega

/-- A writer that answers as another one does, but for the `n`-th call of a kind, which it refuses.
It is asked only for calls behind calls that the other one takes. -/
structure Refuses {ω ω' : Type} [Writer ω] [Writer ω'] (kind : CallKind) (n : Nat) (e : Error)
    (w : ω) (calm : ω') : Prop where
  pos : 0 < n
  agrees : ∀ calls c, (performAll calls calm).1 = .ok () → kind.count (calls ++ [c]) < n →
    (Writer.perform c (performAll calls w).2).1 = (Writer.perform c (performAll calls calm).2).1
  refuses : ∀ calls c, (performAll calls calm).1 = .ok () → kind.count calls + 1 = n →
    c.kind = kind → (Writer.perform c (performAll calls w).2).1 = .error e

namespace Refuses

variable {σ α ω ω' : Type} [Writer ω] [Writer ω'] {kind : CallKind} {n : Nat} {e : Error} {w : ω}
  {calm : ω'} {c : Call}

/-- The call that is refused comes first. -/
theorem perform_error (h : Refuses kind n e w calm) (hk : c.kind = kind) (hn : n = 1) :
    (Writer.perform c w).1 = .error e :=
  h.refuses [] c rfl (by simp [hn]) hk

/-- The call that is refused comes later. -/
theorem perform_eq (h : Refuses kind n e w calm) (hc : ¬(c.kind = kind ∧ n = 1)) :
    (Writer.perform c w).1 = (Writer.perform c calm).1 := by
  refine h.agrees [] c rfl ?_
  have hpos := h.pos
  by_cases hk : c.kind = kind
  · have hn : n ≠ 1 := fun hn => hc ⟨hk, hn⟩
    simp only [List.nil_append, CallKind.count_cons, CallKind.count_nil, hk, if_true]
    omega
  · simpa [CallKind.count_cons, hk] using hpos

/-- Behind a call that both take, one call fewer of the kind is left if it was one. -/
theorem after (h : Refuses kind n e w calm) (hc : ¬(c.kind = kind ∧ n = 1)) {answer : String}
    {w₁ : ω} {calm₁ : ω'} (hw : Writer.perform c w = (.ok answer, w₁))
    (hcalm : Writer.perform c calm = (.ok answer, calm₁)) :
    Refuses kind (n - if c.kind = kind then 1 else 0) e w₁ calm₁ where
  pos := by
    have hpos := h.pos
    by_cases hk : c.kind = kind
    · have hn : n ≠ 1 := fun hn => hc ⟨hk, hn⟩
      simp only [hk, if_true]
      omega
    · simpa [hk] using hpos
  agrees calls d hok hlt := by
    have := h.agrees (c :: calls) d (by simpa [performAll, hcalm] using hok)
      (by rw [List.cons_append, CallKind.count_cons]; omega)
    simpa [performAll, hw, hcalm] using this
  refuses calls d hok hn hd := by
    have hpos := h.pos
    have hle : (if c.kind = kind then 1 else 0) ≤ n := by split <;> omega
    have := h.refuses (c :: calls) d (by simpa [performAll, hcalm] using hok)
      (by rw [CallKind.count_cons]; omega) hd
    simpa [performAll, hw] using this

end Refuses

/-! ## Scripts -/

namespace Script

variable {σ α ω ω' : Type} [Writer ω] [Writer ω']

/-- Where a call of the kind is the `n`-th one, the run of the refusing writer ends with it. -/
theorem run_of_refuses {kind : CallKind} {n : Nat} {e : Error} {w : ω} {calm : ω'}
    (script : Script σ α) (h : Refuses kind n e w calm) {before rest : List (Call × σ)} {c : Call}
    {s : σ} (hcalls : script.calls calm = before ++ (c, s) :: rest) (hk : c.kind = kind)
    (hn : kind.count (before.map Prod.fst) + 1 = n) :
    script.calls w = before ++ [(c, s)] ∧ (script.run w).1 = (.error e, s) := by
  induction script generalizing w calm n before with
  | stop r s' => simp at hcalls
  | note m next ih => simpa [run] using ih h hcalls hn
  | call d t next ih =>
    by_cases hd : d.kind = kind ∧ n = 1
    · -- The first call is refused, so it is the one that is asked for.
      obtain ⟨rest', hfirst⟩ := exists_calls_call d t next calm
      rw [hfirst] at hcalls
      obtain ⟨rfl, hcall⟩ := CallKind.eq_first hcalls.symm hd.1 (by omega)
      cases hcall
      have herror := h.perform_error hd.1 hd.2
      rcases hp : Writer.perform c w with ⟨answer, w₁⟩
      obtain rfl : answer = .error e := by rw [hp] at herror; exact herror
      exact ⟨calls_call_error hp, by simp [run, hp]⟩
    · have heq := h.perform_eq hd
      rcases hp : Writer.perform d calm with ⟨answer, calm₁⟩
      rcases hp' : Writer.perform d w with ⟨answer', w₁⟩
      obtain rfl : answer' = answer := by rw [hp, hp'] at heq; exact heq
      cases answer' with
      | error e' =>
        -- Both refuse the first call, which is not the `n`-th of the kind.
        rw [calls_call_error hp] at hcalls
        obtain ⟨rfl, hcall⟩ : before = [] ∧ (d, t) = (c, s) := by
          cases before with
          | nil => exact ⟨rfl, (List.cons.inj hcalls).1⟩
          | cons => simp at hcalls
        cases hcall
        exact absurd ⟨hk, by simpa using hn.symm⟩ hd
      | ok answer =>
        rw [calls_call_ok hp] at hcalls
        cases before with
        | nil =>
          obtain ⟨⟨rfl, rfl⟩, -⟩ : (d = c ∧ t = s) ∧ _ := by simpa using hcalls
          exact absurd ⟨hk, by simpa using hn.symm⟩ hd
        | cons first before =>
          obtain ⟨rfl, hnext⟩ := List.cons.inj hcalls
          simp only [List.map_cons, CallKind.count_cons] at hn
          obtain ⟨hcalls', hrun⟩ := ih answer (h.after hd hp' hp) hnext (by omega)
          exact ⟨by rw [calls_call_ok hp', hcalls', List.cons_append],
            by simpa [run, hp'] using hrun⟩

/-- Where fewer than `n` calls are of the kind, the refusing writer changes nothing. -/
theorem run_of_refuses_later {kind : CallKind} {n : Nat} {e : Error} {w : ω} {calm : ω'}
    (script : Script σ α) (h : Refuses kind n e w calm)
    (hlt : kind.count ((script.calls calm).map Prod.fst) < n) :
    script.calls w = script.calls calm ∧ (script.run w).1 = (script.run calm).1 := by
  induction script generalizing w calm n with
  | stop r s' => exact ⟨rfl, rfl⟩
  | note m next ih => simpa [run] using ih h hlt
  | call d t next ih =>
    have hpos := h.pos
    rcases hp : Writer.perform d calm with ⟨answer, calm₁⟩
    -- The refused call is not this one, as the script without the refusal has fewer of its kind.
    have hd : ¬(d.kind = kind ∧ n = 1) := by
      rintro ⟨hk, rfl⟩
      cases answer with
      | error e' => simp [calls_call_error hp, CallKind.count_cons, hk] at hlt
      | ok answer => simp [calls_call_ok hp, CallKind.count_cons, hk] at hlt
    have heq := h.perform_eq hd
    rcases hp' : Writer.perform d w with ⟨answer', w₁⟩
    obtain rfl : answer' = answer := by rw [hp, hp'] at heq; exact heq
    cases answer' with
    | error e' =>
      exact ⟨by rw [calls_call_error hp, calls_call_error hp'], by simp [run, hp, hp']⟩
    | ok answer =>
      simp only [calls_call_ok hp, List.map_cons, CallKind.count_cons] at hlt
      obtain ⟨hcalls, hrun⟩ := ih answer (h.after hd hp' hp) (by omega)
      exact ⟨by rw [calls_call_ok hp, calls_call_ok hp', hcalls], by simpa [run, hp, hp'] using hrun⟩

end Script

/-! ## Interrupted recorders -/

namespace Interrupted

theorem perform_refused {c : Call} {w : Interrupted} (hk : c.kind = w.kind) (hl : w.left = 1) :
    (w.perform c).1 = .error refusal := by
  cases hr : w.hasRefused <;> simp [perform, hk, hl, hr]

theorem perform_taken {c : Call} {w : Interrupted} (hr : w.hasRefused = false)
    (hc : ¬(c.kind = w.kind ∧ w.left = 1)) :
    w.perform c = ((w.recorder.perform c).1,
      { w with
        recorder := (w.recorder.perform c).2
        left := if c.kind = w.kind then w.left - 1 else w.left }) := by
  by_cases hk : c.kind = w.kind
  · have hl : w.left ≠ 1 := fun hl => hc ⟨hk, hl⟩
    simp [perform, hr, hk, hl]
  · simp [perform, hr, hk]

/-- Before the call to be refused, the recorder inside is where one that is left alone would be. -/
theorem performAll_eq {calls : List Call} {r : Recorder} {kind : CallKind} {n k : Nat}
    (hok : (performAll calls r).1 = .ok ()) (hn : kind.count calls < n) :
    (performAll calls (⟨r, kind, n, false, k⟩ : Interrupted)).2
      = ⟨(performAll calls r).2, kind, n - kind.count calls, false, k⟩ := by
  induction calls generalizing r n with
  | nil => simp [performAll]
  | cons c calls ih =>
    rw [CallKind.count_cons] at hn
    have htaken := perform_taken (c := c) (w := ⟨r, kind, n, false, k⟩) rfl <| by
      rintro ⟨hk, hl⟩
      simp only at hk hl
      simp only [hk, if_true] at hn
      omega
    rcases hp : Recorder.perform c r with ⟨answer | answer, r₁⟩
    · simp [performAll, Writer.perform, hp] at hok
    · simp only [performAll, Writer.perform, hp, htaken] at hok ⊢
      rw [ih hok (by split at hn <;> simp only [*, if_true, if_false] <;> omega), CallKind.count_cons]
      congr 1
      split <;> omega

/-- **An interrupted recorder refuses the call it is made for.** -/
theorem refuses (kind : CallKind) {n : Nat} (hn : 0 < n) (k : Nat) :
    Refuses kind n refusal (⟨{}, kind, n, false, k⟩ : Interrupted) ({} : Recorder) where
  pos := hn
  agrees calls c hok hlt := by
    have hcount : kind.count (calls ++ [c])
        = kind.count calls + if c.kind = kind then 1 else 0 := by
      simp [CallKind.count, List.countP_append, List.countP_cons]
    rw [hcount] at hlt
    rw [performAll_eq hok (by omega)]
    refine congrArg Prod.fst (perform_taken rfl ?_)
    rintro ⟨hk, hl⟩
    simp only at hk hl
    simp only [hk, if_true] at hlt
    omega
  refuses calls c hok hcount hk := by
    rw [performAll_eq hok (by omega)]
    exact perform_refused hk (by simp only; omega)

end Interrupted

/-! ## Documents -/

namespace Document

variable {σ ω : Type} [Source σ] [Writer ω]

/-- The calls that are made for a document, each with the source as it was at that moment. -/
def calls (w : Leaf.Setting) (root : QName) (source : σ) (writer : ω) : List (Call × σ) :=
  ((walk w root { source }).calls writer).map fun x => (x.1, x.2.source)

theorem calls_map_fst (w : Leaf.Setting) (root : QName) (source : σ) (writer : ω) :
    (calls w root source writer).map Prod.fst
      = ((walk w root { source }).calls writer).map Prod.fst := by
  simp [calls, Function.comp_def]

theorem generate_writer (w : Leaf.Setting) (root : QName) (source : σ) (writer : ω) :
    (generate w root source writer).writer
      = (performAll ((calls w root source writer).map Prod.fst) writer).2 := by
  rw [calls_map_fst]
  exact Script.run_writer _ _

/-- A schema with an element that holds another one. -/
def nestedElements : Leaf.Setting where
  model :=
    let inner : ElementDecl := ⟨0, .bare "b", .anonymous (.complex default), .local, false, none⟩
    let type : ComplexType := ⟨none, false, .elements ⟨.once, .element inner⟩, [], none, none⟩
    Model.builtin.addElement ⟨0, .bare "a", .anonymous (.complex type), .global, false, none⟩
  policy := { annotateContentModel := false }
  now := default

end Document

end Specimen

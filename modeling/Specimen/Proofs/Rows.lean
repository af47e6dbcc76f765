import Specimen.CommandLine.Run

/-!
# Rows of samples

A request reads its schema, its root name and its policy once, and then each of its samples is the
text of a seed by itself. So a row of samples is put out in full or not at all: in full if there is
a text for every seed, and with the failure of the first seed that has none otherwise. A row may be
broken at any place, and what is behind is the row that begins with the seed of that place.
-/

namespace Specimen

namespace Document

variable {text : UInt64 → Except Error String} {texts : List String} {m n : Nat} {seed : UInt64}
  {e : Error}

/-- The seed at a place of a row. It begins again at zero after the largest one. -/
def seedAt (seed : UInt64) (i : Nat) : UInt64 := seed + UInt64.ofNat i

@[simp] theorem seedAt_zero (seed : UInt64) : seedAt seed 0 = seed := by
  simp [seedAt]

theorem seedAt_add (seed : UInt64) (i j : Nat) :
    seedAt (seedAt seed i) j = seedAt seed (i + j) := by
  simp only [seedAt, UInt64.ofNat_add, UInt64.add_assoc]

theorem seedAt_succ (seed : UInt64) (i : Nat) : seedAt (seed + 1) i = seedAt seed (i + 1) := by
  rw [Nat.add_comm, ← seedAt_add]
  rfl

/-! ## Rows that succeed and rows that fail -/

theorem samples_succ (text : UInt64 → Except Error String) (n : Nat) (seed : UInt64) :
    samples text (n + 1) seed
      = (text seed).bind fun first => (samples text n (seed + 1)).map (first :: ·) := by
  rw [samples]
  cases text seed with
  | error e => rfl
  | ok first => cases samples text n (seed + 1) <;> rfl

theorem samples_succ_eq_ok_iff : samples text (n + 1) seed = .ok texts
    ↔ ∃ first rest, text seed = .ok first ∧ samples text n (seed + 1) = .ok rest
      ∧ texts = first :: rest := by
  rw [samples_succ]
  cases text seed with
  | error e => simp [Except.bind]
  | ok first => cases samples text n (seed + 1) <;> simp [Except.bind, Except.map, eq_comm]

theorem samples_succ_eq_error_iff : samples text (n + 1) seed = .error e
    ↔ text seed = .error e ∨ (∃ first, text seed = .ok first)
      ∧ samples text n (seed + 1) = .error e := by
  rw [samples_succ]
  cases text seed with
  | error e => simp [Except.bind]
  | ok first => cases samples text n (seed + 1) <;> simp [Except.bind, Except.map]

/-- The texts are those of the seeds, in the order of the seeds. -/
def AreTexts (text : UInt64 → Except Error String) (seed : UInt64) (texts : List String) : Prop :=
  ∀ i (h : i < texts.length), text (seedAt seed i) = .ok texts[i]

theorem areTexts_nil : AreTexts text seed [] := fun i hi => absurd hi (Nat.not_lt_zero i)

theorem areTexts_cons {first : String} : AreTexts text seed (first :: texts)
    ↔ text seed = .ok first ∧ AreTexts text (seed + 1) texts := by
  constructor
  · intro h
    have hfirst := h 0 (Nat.zero_lt_succ _)
    rw [seedAt_zero] at hfirst
    refine ⟨hfirst, fun i hi => ?_⟩
    rw [seedAt_succ]
    exact h (i + 1) (Nat.succ_lt_succ hi)
  · rintro ⟨hfirst, hrest⟩ i hi
    cases i with
    | zero => rwa [seedAt_zero]
    | succ i =>
      rw [← seedAt_succ]
      exact hrest i (Nat.lt_of_succ_lt_succ hi)

/-- A row succeeds if there is a text for each of its seeds, and consists of these texts. -/
theorem samples_eq_ok_iff (n : Nat) (seed : UInt64) (texts : List String) :
    samples text n seed = .ok texts ↔ texts.length = n ∧ AreTexts text seed texts := by
  induction n generalizing seed texts with
  | zero =>
    constructor
    · rintro ⟨⟩
      exact ⟨rfl, areTexts_nil⟩
    · rintro ⟨hlength, -⟩
      rw [List.eq_nil_of_length_eq_zero hlength]
      rfl
  | succ n ih =>
    rw [samples_succ_eq_ok_iff]
    constructor
    · rintro ⟨first, rest, hfirst, hrest, rfl⟩
      obtain ⟨hlength, htexts⟩ := (ih _ _).mp hrest
      exact ⟨congrArg Nat.succ hlength, areTexts_cons.mpr ⟨hfirst, htexts⟩⟩
    · rintro ⟨hlength, htexts⟩
      obtain ⟨first, rest, rfl⟩ := List.exists_cons_of_length_eq_add_one hlength
      obtain ⟨hfirst, hrest⟩ := areTexts_cons.mp htexts
      exact ⟨first, rest, hfirst, (ih _ _).mpr ⟨Nat.succ.inj hlength, hrest⟩, rfl⟩

/-- There is no text for the seed at place `i`, and there is one for each seed before it. -/
structure FailsFirstAt (text : UInt64 → Except Error String) (seed : UInt64) (i : Nat)
    (e : Error) : Prop where
  fails : text (seedAt seed i) = .error e
  before : ∀ j < i, ∃ t, text (seedAt seed j) = .ok t

theorem failsFirstAt_zero : FailsFirstAt text seed 0 e ↔ text seed = .error e := by
  constructor
  · rintro ⟨hfails, -⟩
    rwa [seedAt_zero] at hfails
  · intro hfails
    exact ⟨by rwa [seedAt_zero], fun j hj => absurd hj (Nat.not_lt_zero j)⟩

theorem failsFirstAt_succ {i : Nat} : FailsFirstAt text seed (i + 1) e
    ↔ (∃ t, text seed = .ok t) ∧ FailsFirstAt text (seed + 1) i e := by
  constructor
  · rintro ⟨hfails, hbefore⟩
    have hfirst := hbefore 0 (Nat.zero_lt_succ i)
    rw [seedAt_zero] at hfirst
    refine ⟨hfirst, by rwa [seedAt_succ], fun j hj => ?_⟩
    rw [seedAt_succ]
    exact hbefore (j + 1) (Nat.succ_lt_succ hj)
  · rintro ⟨hfirst, hfails, hbefore⟩
    refine ⟨by rwa [← seedAt_succ], fun j hj => ?_⟩
    cases j with
    | zero => rwa [seedAt_zero]
    | succ j =>
      rw [← seedAt_succ]
      exact hbefore j (Nat.lt_of_succ_lt_succ hj)

/-- A row fails if there is no text for one of its seeds, and the failure is that of the first such
seed. -/
theorem samples_eq_error_iff (n : Nat) (seed : UInt64) :
    samples text n seed = .error e ↔ ∃ i < n, FailsFirstAt text seed i e := by
  induction n generalizing seed with
  | zero =>
    constructor
    · rintro ⟨⟩
    · rintro ⟨i, hi, -⟩
      exact absurd hi (Nat.not_lt_zero i)
  | succ n ih =>
    rw [samples_succ_eq_error_iff, ih]
    constructor
    · rintro (hfails | ⟨hfirst, i, hi, hfailure⟩)
      · exact ⟨0, Nat.zero_lt_succ n, failsFirstAt_zero.mpr hfails⟩
      · exact ⟨i + 1, Nat.succ_lt_succ hi, failsFirstAt_succ.mpr ⟨hfirst, hfailure⟩⟩
    · rintro ⟨i, hi, hfailure⟩
      cases i with
      | zero => exact .inl (failsFirstAt_zero.mp hfailure)
      | succ i =>
        obtain ⟨hfirst, hrest⟩ := failsFirstAt_succ.mp hfailure
        exact .inr ⟨hfirst, i, Nat.lt_of_succ_lt_succ hi, hrest⟩

/-- A row is broken at a place. -/
theorem samples_add (text : UInt64 → Except Error String) (m n : Nat) (seed : UInt64) :
    samples text (m + n) seed
      = (samples text m seed).bind fun front =>
          (samples text n (seedAt seed m)).map (front ++ ·) := by
  induction m generalizing seed with
  | zero =>
    rw [Nat.zero_add, seedAt_zero, samples]
    cases samples text n seed <;> rfl
  | succ m ih =>
    rw [Nat.succ_add, samples_succ, samples_succ, ih, seedAt_succ]
    cases text seed with
    | error e => rfl
    | ok first =>
      cases samples text m (seed + 1) with
      | error e => rfl
      | ok front => cases samples text n (seedAt seed (m + 1)) <;> rfl

end Document

/-! ## Requests -/

namespace CommandLine

open Document

/-- What makes the sample of a seed: what a request reads before it makes any. -/
def sampler (fs : Files) (clock : DateTime) (request : Request) :
    Except Error (UInt64 → Except Error String) := do
  let model ← Model.openFile fs ⟨request.schema⟩
  let root ← readClark request.root model.target
  let policy ← match request.config with
    | some config => Policy.ofFile fs ⟨config⟩
    | none => .ok {}
  let setting : Leaf.Setting := ⟨model, policy, policy.now.getD clock⟩
  return Document.sample setting root (match request.form with
    | .xml => .xml request.indent
    | .events => .events)

/-- Puts a text out: on the standard output, or into the file that the request names. -/
def putOut (fs : Files) (output : Option String) (text : String) : Outcome :=
  match output with
  | none => .done fs text
  | some output =>
    match fs.write ⟨output⟩ text with
    | .ok fs => .done fs ""
    | .error fault => .failed fs fault.message

variable {fs : Files} {clock : DateTime} {request : Request} {e : Error}

/-- The text of a row of samples that are otherwise made as a request says. -/
def rowText (fs : Files) (clock : DateTime) (request : Request) (seed : UInt64) (count : Nat) :
    Except Error String :=
  (requestedSamples fs clock { request with seed, count }).map String.join

theorem requestedSamples_eq (fs : Files) (clock : DateTime) (request : Request) :
    requestedSamples fs clock request
      = (sampler fs clock request).bind fun text => samples text request.count request.seed := by
  unfold requestedSamples sampler
  cases Model.openFile fs ⟨request.schema⟩ with
  | error e => rfl
  | ok model =>
    simp only [bind, Except.bind]
    cases readClark request.root model.target with
    | error e => rfl
    | ok root =>
      cases request.config with
      | none => rfl
      | some config =>
        simp only
        cases Policy.ofFile fs ⟨config⟩ <;> rfl

/-- Seed and count have no part in what is read before. -/
theorem rowText_eq (fs : Files) (clock : DateTime) (request : Request) (seed : UInt64)
    (count : Nat) : rowText fs clock request seed count
      = (sampler fs clock request).bind fun text => (samples text count seed).map String.join := by
  have hsampler : sampler fs clock { request with seed, count } = sampler fs clock request := rfl
  rw [rowText, requestedSamples_eq, hsampler]
  cases sampler fs clock request <;> rfl

theorem rowText_one (fs : Files) (clock : DateTime) (request : Request) (seed : UInt64) :
    rowText fs clock request seed 1 = (sampler fs clock request).bind fun text => text seed := by
  rw [rowText_eq]
  cases sampler fs clock request with
  | error e => rfl
  | ok text =>
    simp only [Except.bind, samples_succ]
    cases text seed with
    | error e => rfl
    | ok first => exact congrArg Except.ok (by simp)

theorem rowText_eq_ok_iff {seed : UInt64} {count : Nat} {row : String} :
    rowText fs clock request seed count = .ok row
      ↔ ∃ text texts, sampler fs clock request = .ok text ∧ texts.length = count
        ∧ AreTexts text seed texts ∧ row = String.join texts := by
  rw [rowText_eq]
  cases sampler fs clock request with
  | error e => simp [Except.bind]
  | ok text =>
    constructor
    · intro h
      cases hrow : samples text count seed with
      | error e => simp [Except.bind, hrow, Except.map] at h
      | ok texts =>
        simp only [Except.bind, hrow, Except.map, Except.ok.injEq] at h
        obtain ⟨hlength, htexts⟩ := (samples_eq_ok_iff count seed texts).mp hrow
        exact ⟨text, texts, rfl, hlength, htexts, h.symm⟩
    · rintro ⟨_, texts, ⟨⟩, hlength, htexts, rfl⟩
      have hrow := (samples_eq_ok_iff count seed texts).mpr ⟨hlength, htexts⟩
      simp only [Except.bind, hrow, Except.map]

theorem rowText_eq_error_iff {seed : UInt64} {count : Nat} :
    rowText fs clock request seed count = .error e
      ↔ sampler fs clock request = .error e
        ∨ ∃ text i, sampler fs clock request = .ok text ∧ i < count
          ∧ FailsFirstAt text seed i e := by
  rw [rowText_eq]
  cases sampler fs clock request with
  | error e => simp [Except.bind]
  | ok text =>
    have hrow : (samples text count seed).map String.join = .error e
        ↔ samples text count seed = .error e := by
      cases samples text count seed <;> simp [Except.map]
    simp only [Except.bind, hrow, samples_eq_error_iff]
    simp

theorem rowText_add (fs : Files) (clock : DateTime) (request : Request) (seed : UInt64)
    (m n : Nat) : rowText fs clock request seed (m + n)
      = (rowText fs clock request seed m).bind fun front =>
          (rowText fs clock request (seedAt seed m) n).map (front ++ ·) := by
  rw [rowText_eq, rowText_eq, rowText_eq]
  cases sampler fs clock request with
  | error e => rfl
  | ok text =>
    simp only [Except.bind, samples_add]
    cases samples text m seed with
    | error e => rfl
    | ok front =>
      cases samples text n (seedAt seed m) with
      | error e => rfl
      | ok back => exact congrArg Except.ok String.join_append

/-- All samples are made before the first one is put out. -/
theorem runGenerate_eq (fs : Files) (clock : DateTime) (request : Request) :
    match rowText fs clock request request.seed request.count with
    | .ok row => runGenerate fs clock request = putOut fs request.output row
    | .error e => runGenerate fs clock request
        = { code := 1, stdout := "", stderr := "Error: " ++ e.message ++ "\n", files := fs } := by
  rw [runGenerate, rowText]
  cases requestedSamples fs clock request with
  | error e => rfl
  | ok texts =>
    simp only [Except.map]
    cases request.output <;> rfl

end CommandLine

end Specimen

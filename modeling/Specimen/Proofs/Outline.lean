import Specimen.Proofs.Plain

/-!
# Outlines of runs

What the steps of a run say of the elements that are written: which declaration and type each comes
from, its name, its attributes, its texts and the elements directly inside it. An outline is read
off the steps one by one, so there is one at every moment of a run, however the run ends.
-/

namespace Specimen

/-- An element is left out. -/
def Step.isLeftOut {σ : Type} : Step σ → Bool
  | noted (.leftOut _) => true
  | _ => false

/-- An element inside another one: its declaration, none where it stands for a wildcard, and its
name. -/
structure Child where
  decl : Option ElementDecl
  uri : String
  name : String

/-- What has been written of an element. One that stands for a wildcard has no origin. -/
structure Frame where
  origin : Option (ElementDecl × TypeDef)
  uri : String
  name : String
  attributes : List (String × String × String) := []
  children : List Child := []
  texts : List String := []

/-- More attributes, children and texts of an element. -/
def Frame.add (f : Frame) (attributes : List (String × String × String)) (children : List Child)
    (texts : List String) : Frame :=
  { f with
    attributes := f.attributes ++ attributes
    children := f.children ++ children
    texts := f.texts ++ texts }

/-- The elements that are open, the innermost one first, those that have been ended, and where the
element comes from that is started next. -/
structure Outline where
  opened : List Frame := []
  closed : List Frame := []
  next : Option (ElementDecl × TypeDef) := none

namespace Outline

variable {σ : Type}

/-- Changes the innermost element, if there is one. -/
def onTop (change : Frame → Frame) : List Frame → List Frame
  | [] => []
  | f :: outer => change f :: outer

/-- Reads a step. -/
def take (o : Outline) : Step σ → Outline
  | .noted (.element decl type) => { o with next := some (decl, type) }
  | .made (.startElement uri name) _ _ =>
    { o with
      opened := { origin := o.next, uri, name }
        :: onTop (fun f => f.add [] [⟨o.next.map Prod.fst, uri, name⟩] []) o.opened
      next := none }
  | .made (.attribute uri name value) _ _ =>
    { o with opened := onTop (fun f => f.add [(uri, name, value)] [] []) o.opened }
  | .made (.text value) _ _ => { o with opened := onTop (fun f => f.add [] [] [value]) o.opened }
  | .made .endElement _ _ =>
    match o.opened with
    | [] => o
    | f :: outer => { o with opened := outer, closed := o.closed ++ [f] }
  | _ => o

/-- Reads steps. -/
def takeAll (o : Outline) (steps : List (Step σ)) : Outline := steps.foldl take o

/-- The outline after some steps. -/
def ofSteps (steps : List (Step σ)) : Outline := takeAll {} steps

@[simp] theorem takeAll_nil (o : Outline) : o.takeAll ([] : List (Step σ)) = o := rfl

@[simp] theorem takeAll_cons (o : Outline) (step : Step σ) (steps : List (Step σ)) :
    o.takeAll (step :: steps) = (o.take step).takeAll steps := rfl

theorem takeAll_append (o : Outline) (steps steps' : List (Step σ)) :
    o.takeAll (steps ++ steps') = (o.takeAll steps).takeAll steps' :=
  List.foldl_append

@[simp] theorem onTop_nil (change : Frame → Frame) : onTop change [] = [] := rfl

@[simp] theorem onTop_cons (change : Frame → Frame) (f : Frame) (outer : List Frame) :
    onTop change (f :: outer) = change f :: outer := rfl

end Outline

/-! ## Steps inside an element -/

/-- Whatever element is open, the steps add attributes, children and texts to it and end the elements
`done`. -/
def Adds {σ : Type} (steps : List (Step σ)) (attributes : List (String × String × String))
    (children : List Child) (texts : List String) (done : List Frame) : Prop :=
  ∀ opened closed, (⟨opened, closed, none⟩ : Outline).takeAll steps
    = ⟨Outline.onTop (fun f => f.add attributes children texts) opened, closed ++ done, none⟩

namespace Adds

variable {σ : Type} {steps steps' : List (Step σ)} {attrs attrs' : List (String × String × String)}
  {kids kids' : List Child} {texts texts' : List String} {done done' : List Frame}

theorem nil : Adds ([] : List (Step σ)) [] [] [] [] := by
  intro opened closed
  cases opened <;> simp [Frame.add]

theorem append (h : Adds steps attrs kids texts done) (h' : Adds steps' attrs' kids' texts' done') :
    Adds (steps ++ steps') (attrs ++ attrs') (kids ++ kids') (texts ++ texts') (done ++ done') := by
  intro opened closed
  rw [Outline.takeAll_append, h, h']
  cases opened <;> simp [Frame.add]

theorem cons {step : Step σ} (h : Adds [step] attrs kids texts done)
    (h' : Adds steps attrs' kids' texts' done') :
    Adds (step :: steps) (attrs ++ attrs') (kids ++ kids') (texts ++ texts') (done ++ done') :=
  append h h'

/-- A plain step adds an attribute or a text, or nothing. -/
theorem of_isPlain {step : Step σ} (h : step.IsPlain) : ∃ attrs texts, Adds [step] attrs [] texts [] := by
  have hidle : ∀ {step : Step σ}, (∀ o : Outline, o.take step = o) → Adds [step] [] [] [] [] := by
    intro step htake opened closed
    rw [Outline.takeAll_cons, htake]
    exact nil opened closed
  cases step with
  | noted n => exact h.elim
  | refused c s e => exact ⟨[], [], hidle fun o => rfl⟩
  | made c s answer =>
    cases c with
    | «attribute» uri name value =>
      refine ⟨[(uri, name, value)], [], fun opened closed => ?_⟩
      simp [Outline.take]
    | text value =>
      refine ⟨[], [value], fun opened closed => ?_⟩
      simp [Outline.take]
    | startElement uri name => cases h
    | endElement => cases h
    | startDocument => exact ⟨[], [], hidle fun o => rfl⟩
    | declarePrefix uri => exact ⟨[], [], hidle fun o => rfl⟩
    | comment value => exact ⟨[], [], hidle fun o => rfl⟩
    | endDocument => exact ⟨[], [], hidle fun o => rfl⟩

/-- Plain steps add attributes and texts only. -/
theorem of_forall_isPlain (h : ∀ step ∈ steps, step.IsPlain) :
    ∃ attrs texts, Adds steps attrs [] texts [] := by
  induction steps with
  | nil => exact ⟨[], [], nil⟩
  | cons step rest ih =>
    obtain ⟨attrs, texts, hstep⟩ := of_isPlain (h step List.mem_cons_self)
    obtain ⟨attrs', texts', hrest⟩ := ih fun step hmem => h step (List.mem_cons_of_mem _ hmem)
    exact ⟨attrs ++ attrs', texts ++ texts', cons hstep hrest⟩

/-- An element that stands for a wildcard. -/
theorem wildcard (uri name : String) (s s' : σ) (answer answer' : String) :
    Adds [.made (.startElement uri name) s answer, .made .endElement s' answer']
      [] [⟨none, uri, name⟩] [] [{ origin := none, uri, name }] := by
  intro opened closed
  cases opened <;> simp [Outline.take, Frame.add]

/-- An element with what is written between its tags. -/
theorem element (h : Adds steps attrs kids texts done) (decl : ElementDecl) (type : TypeDef)
    (uri name : String) (s s' : σ) (answer answer' : String) :
    Adds (.noted (.element decl type) :: .made (.startElement uri name) s answer
        :: (steps ++ [.made .endElement s' answer']))
      [] [⟨some decl, uri, name⟩] []
      (done ++ [⟨some (decl, type), uri, name, attrs, kids, texts⟩]) := by
  intro opened closed
  simp only [Outline.takeAll_cons, Outline.take, Outline.takeAll_append, Option.map_some]
  rw [h]
  cases opened <;> simp [Frame.add]

end Adds

end Specimen

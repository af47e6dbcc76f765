import Specimen.Proofs.Plain

/-!
# Walks with a greater bound

The recursion of a walk goes by a bound, and a walk that reaches it fails. With a greater bound the
walk goes the same way, but for what lies behind such failures; so where the bound is never reached,
a greater one makes no difference at all.
-/

namespace Specimen

/-! ## Scripts -/

namespace Script

variable {σ α β : Type}

/-- The second script goes the same way as the first one, and on where that one has reached its
bound. -/
inductive Reaches : Script σ α → Script σ α → Prop
  | endless {s : σ} {script : Script σ α} : Reaches (stop (.error .endless) s) script
  | stop {r : Except Error α} {s : σ} : Reaches (stop r s) (stop r s)
  | call {c : Call} {s : σ} {next next' : String → Script σ α}
      (h : ∀ answer, Reaches (next answer) (next' answer)) : Reaches (call c s next) (call c s next')
  | note {n : Note} {next next' : Script σ α} (h : Reaches next next') :
      Reaches (note n next) (note n next')

namespace Reaches

theorem refl (script : Script σ α) : Reaches script script := by
  induction script with
  | stop r s => exact .stop
  | call c s next ih => exact .call ih
  | note n next ih => exact .note ih

theorem bind {a b : Script σ α} {f g : α → σ → Script σ β} (h : Reaches a b)
    (hf : ∀ x s, Reaches (f x s) (g x s)) : Reaches (a.bind f) (b.bind g) := by
  induction h with
  | endless => exact .endless
  | @stop r s =>
    cases r with
    | ok x => exact hf x s
    | error e => exact .stop
  | call h ih => exact .call ih
  | note h ih => exact .note ih

/-- Where the bound is not reached, the two are the same. -/
theorem eq {a b : Script σ α} (h : Reaches a b)
    (hend : ∀ st r s', a.Runs st r s' → r = .error .endless → ∃ c s, .refused c s .endless ∈ st) :
    a = b := by
  -- An `endless` that no writer has reported would be an end of the left script, so its rule is
  -- never used.
  induction h with
  | endless =>
    obtain ⟨c, s, hmem⟩ := hend _ _ _ .stop rfl
    exact absurd hmem List.not_mem_nil
  | stop => rfl
  | @call c s next next' h ih =>
    congr 1
    funext answer
    refine ih answer fun st r s' hr he => ?_
    obtain ⟨d, t, hmem⟩ := hend _ _ _ (.made hr) he
    rcases List.mem_cons.mp hmem with hmem | hmem
    · cases hmem
    · exact ⟨d, t, hmem⟩
  | @note n next next' h ih =>
    congr 1
    refine ih fun st r s' hr he => ?_
    obtain ⟨d, t, hmem⟩ := hend _ _ _ (.noted hr) he
    rcases List.mem_cons.mp hmem with hmem | hmem
    · cases hmem
    · exact ⟨d, t, hmem⟩

end Reaches

end Script

/-! ## Walks -/

namespace Walk

variable {σ α β : Type} {walk walk' : Walk σ α}

/-- From every supply, the second walk goes the same way as the first one, and on where that one has
reached its bound. -/
def Reaches (walk walk' : Walk σ α) : Prop := ∀ s, Script.Reaches (walk s) (walk' s)

namespace Reaches

theorem refl (walk : Walk σ α) : Reaches walk walk := fun s => .refl (walk s)

theorem bind {f g : α → Walk σ β} (h : Reaches walk walk') (hf : ∀ a, Reaches (f a) (g a)) :
    Reaches (walk >>= f) (walk' >>= g) :=
  fun s => (h s).bind fun a s' => hf a s'

theorem each {walk walk' : β → Walk σ Unit} (h : ∀ b, Reaches (walk b) (walk' b)) (l : List β) :
    Reaches (each l walk) (each l walk') := by
  induction l with
  | nil => exact refl _
  | cons b rest ih => exact (h b).bind fun _ => ih

theorem times {walk walk' : Walk σ Unit} (h : Reaches walk walk') (n : Nat) :
    Reaches (times n walk) (times n walk') := by
  induction n with
  | zero => exact refl _
  | succ n ih => exact h.bind fun _ => ih

end Reaches

end Walk

/-! ## Documents -/

namespace Document

open Walk

variable {σ : Type} [Source σ] {w : Leaf.Setting} {visit visit' : Visit σ}

/-- The walk through particles reaches as far, wherever it starts. -/
def VisitReaches (visit visit' : Visit σ) : Prop := ∀ path p, Reaches (visit path p) (visit' path p)

theorem reaches_structured (h : VisitReaches visit visit') (path : Path) (type : TypeDef)
    (isSubstitute : Bool) :
    Reaches (structured w visit path type isSubstitute) (structured w visit' path type isSubstitute) := by
  cases type with
  | simple type => exact .refl _
  | complex type =>
    simp only [structured, complexType]
    split
    · exact .refl _
    · refine (Reaches.refl _).bind fun _ => (Reaches.refl _).bind fun own => ?_
      refine (Reaches.refl _).bind fun attrs => (Reaches.refl _).bind fun _ => ?_
      refine (Reaches.refl _).bind fun _ => (Reaches.refl _).bind fun content => ?_
      split
      · exact h _ _
      · exact .refl _

theorem reaches_concreteElement (h : VisitReaches visit visit') (path : Path) (decl : ElementDecl) :
    Reaches (concreteElement w visit path decl) (concreteElement w visit' path decl) := by
  unfold concreteElement
  split
  · exact .refl _
  · refine (Reaches.refl _).bind fun declared => (Reaches.refl _).bind fun chosen => ?_
    refine (Reaches.refl _).bind fun _ => (Reaches.refl _).bind fun _ => ?_
    refine (Reaches.refl _).bind fun _ => ?_
    exact (reaches_structured h _ _ _).bind fun _ => .refl _

theorem reaches_element (h : VisitReaches visit visit') (path : Path) (decl : ElementDecl) :
    Reaches (element w visit path decl) (element w visit' path decl) := by
  unfold element
  split
  · exact (Reaches.refl _).bind fun member => reaches_concreteElement h path member
  · exact reaches_concreteElement h path decl

theorem reaches_modelGroup (h : VisitReaches visit visit') (path : Path) (group : ModelGroup)
    (occurs : Occurs) :
    Reaches (modelGroup w visit path group occurs) (modelGroup w visit' path group occurs) := by
  unfold modelGroup
  split
  · exact (Reaches.refl _).bind fun shuffled => .each (h _) _
  · refine (Reaches.refl _).bind fun count => .times ?_ count
    exact (Reaches.refl _).bind fun particles => .each (h _) particles

theorem visitReaches_particle (h : VisitReaches visit visit') :
    VisitReaches (particle w visit) (particle w visit') := by
  rintro path ⟨occurs, term⟩
  cases term with
  | group group => exact reaches_modelGroup h path group occurs
  | groupRef name => exact (Reaches.refl _).bind fun group => reaches_modelGroup h path group occurs
  | element decl =>
    exact (Reaches.refl _).bind fun count => (reaches_element h path decl).times count
  | elementRef name =>
    refine (Reaches.refl _).bind fun count => Reaches.times ?_ count
    exact (Reaches.refl _).bind fun decl => reaches_element h path decl
  | any own => exact .refl _

theorem visitReaches_visit (steps more : Nat) :
    VisitReaches (Document.visit w steps : Visit σ) (Document.visit w (steps + more)) := by
  induction steps with
  | zero => exact fun path p s => .endless
  | succ steps ih =>
    rw [Nat.succ_add]
    exact visitReaches_particle ih

/-- **With a greater bound a walk goes the same way**, and perhaps further. -/
theorem reaches_walkWithin (w : Leaf.Setting) (root : QName) (steps more : Nat) :
    Reaches (walkWithin steps w root : Walk σ Unit) (walkWithin (steps + more) w root) := by
  refine (Reaches.refl _).bind fun decl => (Reaches.refl _).bind fun _ => ?_
  refine (Reaches.refl _).bind fun _ => (Reaches.refl _).bind fun _ => ?_
  exact (reaches_element (visitReaches_visit steps more) _ decl).bind fun _ => .refl _

end Document

end Specimen

import Specimen.Proofs.AttributeNames
import Specimen.Proofs.LastWord

/-!
# Attributes and their values in a tag

An element of a complex type goes through the attributes in effect for its type, one after another,
and decides on each of them. Which attributes stand in its tag, and with which values, follows from
these decisions and from nothing else. Before them stands the announcement of a type in the place of
an abstract one, and behind them the attribute for a wildcard.
-/

namespace Specimen

/-! ## Attributes among events -/

/-- The attributes that are reported, each with its URI, its local name and its value. -/
def attributesIn (l : List Event) : List (String × String × String) :=
  l.filterMap fun e => e.call.attribute?

/-- The attributes in a tag, given the events behind the start. -/
def tagAttributes (behind : List Event) : List (String × String × String) :=
  attributesIn (behind.takeWhile Event.isTagPart)

theorem attributesIn_append (l l' : List Event) :
    attributesIn (l ++ l') = attributesIn l ++ attributesIn l' :=
  List.filterMap_append

theorem map_tagAttributes (behind : List Event) :
    (tagAttributes behind).map (fun attr => (attr.1, attr.2.1)) = tagNames behind := by
  rw [tagAttributes, attributesIn, List.map_filterMap]
  rfl

theorem tagAttributes_append {tag : List Event} (h : ∀ e ∈ tag, e.isTagPart = true)
    (l : List Event) : tagAttributes (tag ++ l) = attributesIn tag ++ tagAttributes l := by
  rw [tagAttributes, List.takeWhile_append_of_pos h, attributesIn_append, tagAttributes]

/-- Inside an element there are no attributes before the next tag. -/
theorem Event.IsInside.tagAttributes {l : List Event} (h : Event.IsInside l) (after : List Event) :
    Specimen.tagAttributes (l ++ .endElement :: after) = [] := by
  have hnames := h.tagNames after
  rw [← map_tagAttributes] at hnames
  exact List.map_eq_nil_iff.mp hnames

namespace Document

open Walk Stretch

variable {σ : Type} [Source σ] {w : Leaf.Setting} {s s' : Supply σ} {st : List (Step (Supply σ))}

/-! ## Rows of attributes -/

/-- The attributes are decided on in their order, and those that are written stand in a row. -/
inductive DecidedRow (σ : Type) [Source σ] (w : Leaf.Setting) :
    List EffectiveAttribute → List (String × String × String) → Prop
  | nil : DecidedRow σ w [] []
  | omitted {attr : EffectiveAttribute} {attrs : List EffectiveAttribute}
      {row : List (String × String × String)} (h : Decided σ w attr none)
      (hrow : DecidedRow σ w attrs row) : DecidedRow σ w (attr :: attrs) row
  | written {attr : EffectiveAttribute} {attrs : List EffectiveAttribute} {value : String}
      {row : List (String × String × String)} (h : Decided σ w attr (some value))
      (hrow : DecidedRow σ w attrs row) :
      DecidedRow σ w (attr :: attrs) ((attr.name.namespaceUri, attr.name.localName, value) :: row)

/-- What is written is some of the attributes in effect, in their order. -/
theorem DecidedRow.sublist {attrs : List EffectiveAttribute} {row : List (String × String × String)}
    (h : DecidedRow σ w attrs row) : (row.map fun attr => (attr.1, attr.2.1)).Sublist
      (attrs.map fun attr => attr.name.pair) := by
  induction h with
  | nil => simp
  | omitted _ _ ih => exact ih.cons _
  | written _ _ ih => exact ih.cons_cons _

/-- The turns of the attributes make a row. -/
theorem decidedRow_of_runs {attrs : List EffectiveAttribute}
    (h : (each attrs (writeAttribute w) : Walk σ Unit).Runs s st (.ok ()) s') :
    DecidedRow σ w attrs (attributesIn (eventsOf st)) := by
  induction attrs generalizing s st with
  | nil =>
    obtain ⟨rfl, -, -⟩ := runs_pure h
    exact .nil
  | cons attr rest ih =>
    obtain ⟨_, s₁, own, more, hown, hmore, rfl⟩ := runs_bind_ok h
    obtain ⟨value, s₂, st₁, st₂, hvalue, htell, rfl⟩ := runs_bind_ok hown
    have hrow := ih hmore
    have hdecided := decided_of_runs hvalue
    obtain rfl := isSilent_attributeValue attr _ _ _ _ hvalue
    rw [eventsOf_append, attributesIn_append]
    cases value with
    | none =>
      obtain ⟨rfl, -, -⟩ := runs_pure htell
      exact .omitted hdecided hrow
    | some text =>
      obtain ⟨answer, rfl, -⟩ := runs_tell_ok htell
      exact .written hdecided hrow

/-! ## Elements -/

/-- The tag of an element has the attributes of the runs that make it. Its type is one of the schema,
or it is ended at once. -/
theorem ElementRun.exists_tagAttributes {decl : ElementDecl} {declared : TypeDef}
    {type : ComplexType} {remarks inner words rest : List (Step (Supply σ))} {answer : String}
    (h : ElementRun w decl declared (.complex type) remarks inner words s s')
    (hm : w.model.Numbered)
    (ht : .type type ∈ w.model.parts
      ∨ ∃ after, eventsOf (inner ++ (words ++ .made .endElement s' answer :: rest))
        = .endElement :: after) :
    ∃ attrs own, ∃ announcement row wild : List (Step (Supply σ)),
      TagRun w declared type attrs own announcement row wild
      ∧ tagAttributes (eventsOf (inner ++ (words ++ .made .endElement s' answer :: rest)))
        = attributesIn (eventsOf announcement)
          ++ (attributesIn (eventsOf row) ++ attributesIn (eventsOf wild)) := by
  obtain ⟨attrs, own, announcement, row, wild, inside, htag, hevents, hinside⟩ := h.exists_tagRun
  have hafter := tagAttributes_append htag.isTagPart (inside ++ .endElement :: eventsOf rest)
  have hnone : tagAttributes (inside ++ .endElement :: eventsOf rest) = [] := by
    rcases ht with ht | ⟨after, hend⟩
    · exact (hinside hm ht).tagAttributes _
    · -- There is no attribute before the end, so there is none in this part of the tag.
      rw [← hevents, hend] at hafter
      exact (List.append_eq_nil_iff.mp hafter.symm).2
  refine ⟨attrs, own, announcement, row, wild, htag, ?_⟩
  rw [hevents, hafter, hnone, List.append_nil, attributesIn_append, attributesIn_append]

/-- In a run that succeeds, the type that an element is generated for is one of the schema, unless
the element is ended at once. -/
theorem mem_parts_of_noted {ω : Type} [Writer ω] {root : QName} {source : σ} {writer : ω}
    (hm : w.model.Numbered) (hok : (generate w root source writer).result = .ok ())
    {before behind : List (Step (Supply σ))} {decl : ElementDecl} {type : ComplexType}
    {uri name answer : String}
    (heq : steps w root source writer = before ++ .noted (.element decl (.complex type))
      :: .made (.startElement uri name) s answer :: behind) :
    .type type ∈ w.model.parts ∨ ∃ after, eventsOf behind = .endElement :: after := by
  have hruns := Script.runs_steps (walk w root { source }) writer
  rw [show ((walk w root { source }).run writer).1.1 = .ok () from hok] at hruns
  rw [List.append_cons] at heq
  have hbegun := (leads_walk hm root _ _ _ hruns).2 _ _ _ _ _ _ heq
  generalize hfront : before ++ [Step.noted (.element decl (.complex type))] = front at hbegun
  cases hbegun with
  | wildcard hn => exact .inr ⟨_, rfl⟩
  | declared hmade =>
    obtain ⟨-, hnote⟩ := List.append_inj' hfront rfl
    cases hnote
    exact .inl (hmade.mem_parts type rfl)

/-- A type with a required attribute, an optional one, a fixed one and one with a default. It prohibits
an attribute that it inherits, and it has an attribute wildcard. -/
def decidedType : ComplexType :=
  let use (mode : UseMode) (name : String) (constraint : ValueConstraint) : AttributeItem :=
    .use ⟨mode, constraint, .inline ⟨.bare name, .builtin "string", .free⟩⟩
  ⟨some (.bare "T"), false, .empty, [use .required "r" .free, use .prohibited "p" .free,
    use .optional "o" .free, use .required "f" (.fixed "v"), use .optional "d" (.default "w")],
    some ⟨3, .any⟩, some ⟨.extension, .bare "Base"⟩⟩

/-- The schema with an element of this type. Fixed values are written, defaults are not, and optional
attributes are written empty. -/
def deciding : Leaf.Setting where
  model :=
    let inherited : AttributeItem :=
      .use ⟨.optional, .free, .inline ⟨.bare "p", .builtin "string", .free⟩⟩
    let base : ComplexType := ⟨some (.bare "Base"), false, .empty, [inherited], none, none⟩
    ((Model.builtin.addNamedType (.bare "Base") (.complex base)).addNamedType (.bare "T")
      (.complex decidedType)).addElement
        ⟨0, .bare "a", .named (.bare "T"), .global, false, none⟩
  policy :=
    { optionalAttributes := .never, fixedAttributes := .always, defaultAttributes := .never,
      optionalAttributeAsEmptyString := .always }
  now := default

end Document

end Specimen

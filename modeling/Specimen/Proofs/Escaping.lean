import Mathlib.Data.List.TakeDrop
import Specimen.Writer.Markup
import Specimen.Xml.Reader

/-!
# Reading what was escaped

The writer puts references in the place of five characters, and leaves all others as they are. A
reader replaces the references again. But it does not give back every text: line breaks become line
feeds, and in the value of an attribute all kinds of space become blanks. Characters that are
referred to are spared from this, but those of space are never referred to.

So the text that is read is the one that was written with its line breaks unified, and the value that
is read has blanks for all space besides.
-/

namespace Specimen.Xml

/-! ## Line breaks -/

/-- A text as it is read from character data. -/
def normalizedText (value : String) : String := String.ofList (unifyBreaks value.toList)

/-- A text as it is read from the value of an attribute. -/
def normalizedValue (value : String) : String :=
  String.ofList ((unifyBreaks value.toList).map blanked)

theorem unifyBreaks_cons (c : Char) (cs : List Char) :
    unifyBreaks (c :: cs)
      = if c = '\r' then (if cs.head? = some '\n' then unifyBreaks cs else '\n' :: unifyBreaks cs)
        else c :: unifyBreaks cs := by
  cases cs with
  | nil => by_cases h : c = '\r' <;> simp [unifyBreaks, h]
  | cons d cs => by_cases h : c = '\r' <;> simp [unifyBreaks, h]

/-- A character that is no part of a line break parts the line breaks before it from those behind
it. -/
theorem unifyBreaks_append_cons {c : Char} (hr : c ≠ '\r') (hn : c ≠ '\n') (cs cs' : List Char) :
    unifyBreaks (cs ++ c :: cs') = unifyBreaks cs ++ c :: unifyBreaks cs' := by
  induction cs with
  | nil => rw [List.nil_append, unifyBreaks_cons, if_neg hr, unifyBreaks, List.nil_append]
  | cons d cs ih =>
    have hhead : (cs ++ c :: cs').head? = some '\n' ↔ cs.head? = some '\n' := by
      cases cs with
      | nil => simp [hn]
      | cons => rfl
    rw [List.cons_append, unifyBreaks_cons, unifyBreaks_cons, ih]
    simp only [hhead]
    split
    · split <;> rfl
    · rfl

theorem cr_notMem_unifyBreaks (cs : List Char) : '\r' ∉ unifyBreaks cs := by
  induction cs with
  | nil => exact List.not_mem_nil
  | cons c cs ih =>
    rw [unifyBreaks_cons]
    split
    · split
      · exact ih
      · exact List.not_mem_cons_of_ne_of_not_mem (by decide) ih
    · rename_i hne
      exact List.not_mem_cons_of_ne_of_not_mem (fun h => hne h.symm) ih

theorem unifyBreaks_eq_self {cs : List Char} (h : '\r' ∉ cs) : unifyBreaks cs = cs := by
  induction cs with
  | nil => rfl
  | cons c cs ih =>
    obtain ⟨hc, hcs⟩ := not_or.mp (mt List.mem_cons.mpr h)
    rw [unifyBreaks_cons, if_neg (fun heq => hc heq.symm), ih hcs]

theorem unifyBreaks_ne_nil {cs : List Char} (h : cs ≠ []) : unifyBreaks cs ≠ [] := by
  induction cs with
  | nil => exact absurd rfl h
  | cons c cs ih =>
    rw [unifyBreaks_cons]
    split
    · split
      · rename_i hhead
        exact ih fun hnil => by simp [hnil] at hhead
      · exact List.cons_ne_nil _ _
    · exact List.cons_ne_nil _ _

/-- **A text is read unchanged exactly if there is no carriage return in it.** -/
theorem normalizedText_eq_self {value : String} :
    normalizedText value = value ↔ '\r' ∉ value.toList := by
  rw [normalizedText, ← String.toList_inj, String.toList_ofList]
  refine ⟨fun h => ?_, unifyBreaks_eq_self⟩
  rw [← h]
  exact cr_notMem_unifyBreaks _

theorem blanked_eq_self {c : Char} (h : isSpace c = true → c = ' ') : blanked c = c := by
  rw [blanked]
  split
  · rename_i hspace
    exact (h hspace).symm
  · rfl

theorem eq_blank_of_blanked {c : Char} (h : isSpace (blanked c) = true) : blanked c = ' ' := by
  rw [blanked] at h ⊢
  split
  · rfl
  · rename_i hspace
    rw [if_neg hspace] at h
    exact absurd h hspace

/-- **A value is read unchanged exactly if there is no space in it but blanks.** -/
theorem normalizedValue_eq_self {value : String} :
    normalizedValue value = value ↔ ∀ c ∈ value.toList, isSpace c = true → c = ' ' := by
  rw [normalizedValue, ← String.toList_inj, String.toList_ofList]
  constructor
  · intro h c hc hspace
    rw [← h] at hc
    obtain ⟨d, -, rfl⟩ := List.mem_map.mp hc
    exact eq_blank_of_blanked hspace
  · intro h
    have hcr : '\r' ∉ value.toList := fun hmem => absurd (h _ hmem rfl) (by decide)
    rw [unifyBreaks_eq_self hcr]
    exact (List.map_congr_left fun c hc => blanked_eq_self (h c hc)).trans (List.map_id _)

/-! ## Characters of an escaped text -/

open Markup

/-- What holds of all characters of a list can be tested, one character after the other. -/
theorem forall_mem_of_all {P : Char → Prop} [DecidablePred P] {l : List Char}
    (h : (l.all fun c => decide (P c)) = true) : ∀ c ∈ l, P c :=
  fun c hc => of_decide_eq_true (List.all_eq_true.mp h c hc)

/-- The characters that references are written for. -/
def special : List Char := ['<', '>', '&', '\'', '"']

/-- What a reader cuts out of an escaped text for a character. -/
def escapedPiece (c : Char) : Piece := if escapeChar c = [c] then .plain c else .referred c

theorem escapeChar_eq_self {c : Char} (h : c ∉ special) : escapeChar c = [c] := by
  simp only [special, List.mem_cons, List.not_mem_nil, or_false, not_or] at h
  obtain ⟨h₁, h₂, h₃, h₄, h₅⟩ := h
  rw [escapeChar, if_neg h₁, if_neg h₂, if_neg h₃, if_neg h₄, if_neg h₅]

/-- A text without special characters is written as it is. -/
theorem escape_eq_self {s : String} (h : ∀ c ∈ s.toList, c ∉ special) : escape s = s := by
  have hflat (l : List Char) (h : ∀ c ∈ l, c ∉ special) : l.flatMap escapeChar = l := by
    induction l with
    | nil => rfl
    | cons c l ih =>
      obtain ⟨hc, hl⟩ := List.forall_mem_cons.mp h
      rw [List.flatMap_cons, escapeChar_eq_self hc, ih hl, List.singleton_append]
  rw [escape, hflat _ h, String.ofList_toList]

theorem escapedPiece_plain {c : Char} (h : c ∉ special) : escapedPiece c = .plain c :=
  if_pos (escapeChar_eq_self h)

theorem escapedPiece_special : ∀ c ∈ special,
    escapedPiece c = .referred c ∧ c ≠ '\r' ∧ c ≠ '\n' ∧ blanked c = c :=
  forall_mem_of_all (by decide)

/-- What holds of a character that stands for itself, and of the special ones with their references,
holds of all. -/
theorem escapeChar_induction {P : Char → List Char → Prop} (plain : ∀ c, c ∉ special → P c [c])
    (lt : P '<' "&lt;".toList) (gt : P '>' "&gt;".toList) (amp : P '&' "&amp;".toList)
    (apos : P '\'' "&apos;".toList) (quot : P '"' "&quot;".toList) (c : Char) :
    P c (escapeChar c) := by
  by_cases h : c ∈ special
  · simp only [special, List.mem_cons, List.not_mem_nil, or_false] at h
    rcases h with rfl | rfl | rfl | rfl | rfl
    · exact lt
    · exact gt
    · exact amp
    · exact apos
    · exact quot
  · rw [escapeChar_eq_self h]
    exact plain c h

/-- None of the two brackets and the two quotation marks stand in an escaped text. -/
theorem notMem_escape (l : List Char) :
    ∀ c ∈ ['<', '>', '\'', '"'], c ∉ l.flatMap escapeChar := by
  have hone (d : Char) : ∀ c ∈ ['<', '>', '\'', '"'], c ∉ escapeChar d := by
    refine escapeChar_induction (P := fun _ cs => ∀ c ∈ ['<', '>', '\'', '"'], c ∉ cs)
      (fun d hd c hc hmem => hd ?_) (forall_mem_of_all (by decide)) (forall_mem_of_all (by decide))
      (forall_mem_of_all (by decide)) (forall_mem_of_all (by decide))
      (forall_mem_of_all (by decide)) d
    obtain rfl := List.mem_singleton.mp hmem
    have hsub : ['<', '>', '\'', '"'] ⊆ special := by decide
    exact hsub hc
  intro c hc hmem
  obtain ⟨d, -, hd⟩ := List.mem_flatMap.mp hmem
  exact hone d c hc hd

/-- An escaped text has only permitted characters exactly if those that are escaped are permitted. -/
theorem all_isChar_escape (l : List Char) : (l.flatMap escapeChar).all isChar = l.all isChar := by
  have hone (d : Char) : (escapeChar d).all isChar = isChar d :=
    escapeChar_induction (P := fun d cs => cs.all isChar = isChar d) (fun d _ => by simp)
      (by decide) (by decide) (by decide) (by decide) (by decide) d
  rw [List.all_flatMap]
  exact congrArg l.all (funext hone)

theorem escape_ne_nil {value : String} (hne : value ≠ "") : (escape value).toList ≠ [] := by
  have hone (c : Char) : escapeChar c ≠ [] :=
    escapeChar_induction (P := fun _ cs => cs ≠ []) (fun c _ => List.cons_ne_nil c [])
      (by decide) (by decide) (by decide) (by decide) (by decide) c
  rw [escape, String.toList_ofList]
  intro h
  cases hvalue : value.toList with
  | nil => exact hne (String.toList_eq_nil_iff.mp hvalue)
  | cons c l =>
    rw [hvalue, List.flatMap_cons] at h
    exact hone c (List.append_eq_nil_iff.mp h).1

/-- **An escaped text is cut into the characters that were escaped.** -/
theorem pieces_escape (l : List Char) : pieces (l.flatMap escapeChar) = some (l.map escapedPiece) := by
  have hone (c : Char) (cs : List Char) : piecesFrom none (escapeChar c ++ cs)
      = (piecesFrom none cs).map (escapedPiece c :: ·) := by
    by_cases hc : c ∈ special
    · simp only [special, List.mem_cons, List.not_mem_nil, or_false] at hc
      rcases hc with rfl | rfl | rfl | rfl | rfl <;> exact Option.map_eq_bind.symm
    · have hamp : c ≠ '&' := fun h => hc (by simp [h, special])
      rw [escapeChar_eq_self hc, List.singleton_append, piecesFrom, if_neg hamp,
        escapedPiece_plain hc]
  induction l with
  | nil => rfl
  | cons c l ih =>
    have hrest : piecesFrom none (l.flatMap escapeChar) = some (l.map escapedPiece) := ih
    rw [List.flatMap_cons, pieces, hone, hrest]
    rfl

/-! ## Values of attributes -/

theorem head?_escapedPiece (l : List Char) :
    (l.map escapedPiece).head? = some (.plain '\n') ↔ l.head? = some '\n' := by
  cases l with
  | nil => simp
  | cons c l =>
    have hpiece : escapedPiece c = .plain '\n' ↔ c = '\n' := by
      rw [escapedPiece]
      constructor
      · split
        · exact Piece.plain.inj
        · exact nofun
      · rintro rfl
        rfl
    simpa using hpiece

/-- What stands for the pieces of an escaped text outside of entities. -/
theorem valueOf_escape (expand : Budget → String → Option (List Char × Budget)) {budget : Budget}
    (hb : budget.isInside = false) (l : List Char) :
    valueOf expand budget (l.map escapedPiece) = some ((unifyBreaks l).map blanked, budget) := by
  induction l with
  | nil => rfl
  | cons c l ih =>
    rw [List.map_cons, unifyBreaks_cons]
    by_cases hc : c ∈ special
    · obtain ⟨hpiece, hr, -, hblank⟩ := escapedPiece_special _ hc
      rw [hpiece, valueOf, ih]
      simp [hb, hr, hblank]
    · rw [escapedPiece_plain hc, valueOf, ih]
      by_cases hr : c = '\r'
      · subst hr
        by_cases hhead : l.head? = some '\n'
        · simp [hhead, (head?_escapedPiece l).mpr hhead]
        · have hpieces := mt (head?_escapedPiece l).mp hhead
          simp only [hhead, hpieces]
          rfl
      · simp [hr]

/-- Reads the value of an attribute from the equals sign on, in a document without entities. -/
def attributeAt? (cs : List Char) : Option (String × List Char) := do
  let (text, rest) ← readValue cs
  let (value, _) ← readAttributeValue [] .full text
  return (value, rest)

theorem upTo_of_notMem {c : Char} {cs : List Char} (h : c ∉ cs) (rest : List Char) :
    upTo [c] (cs ++ c :: rest) = some (cs, rest) := by
  induction cs with
  | nil => simp [upTo]
  | cons d cs ih =>
    obtain ⟨hd, hcs⟩ := not_or.mp (mt List.mem_cons.mpr h)
    rw [List.cons_append, upTo, if_neg (by simp [hd]), ih hcs]
    rfl

/-- The literal of a value is found, and permitted if the value is. -/
theorem readValue_escape (l rest : List Char) :
    readValue ('=' :: '"' :: (l.flatMap escapeChar ++ '"' :: rest))
      = if l.all isChar then some (l.flatMap escapeChar, rest) else none := by
  have hlit : readLiteral ('"' :: (l.flatMap escapeChar ++ '"' :: rest))
      = some (l.flatMap escapeChar, rest) :=
    upTo_of_notMem (notMem_escape _ '"' (by decide)) rest
  have hall : (l.flatMap escapeChar).all (fun c => isChar c && c ≠ '<') = l.all isChar := by
    rw [← all_isChar_escape, Bool.eq_iff_iff, List.all_eq_true, List.all_eq_true]
    refine forall₂_congr fun c hc => ?_
    have hne : c ≠ '<' := fun heq => notMem_escape _ '<' (by decide) (heq ▸ hc)
    simp [hne]
  have hspace : skipSpace ('"' :: (l.flatMap escapeChar ++ '"' :: rest))
      = '"' :: (l.flatMap escapeChar ++ '"' :: rest) := rfl
  have hafter : after? "=" (skipSpace ('=' :: '"' :: (l.flatMap escapeChar ++ '"' :: rest)))
      = some ('"' :: (l.flatMap escapeChar ++ '"' :: rest)) := rfl
  simp only [readValue, hafter, Option.bind_eq_bind, Option.bind_some, hspace, hlit, hall]

/-- The literal of a value stands for the value, but for space. -/
theorem readAttributeValue_escape (entities : Entities) (value : String) :
    readAttributeValue entities .full (value.toList.flatMap escapeChar)
      = some (normalizedValue value, .full) := by
  rw [readAttributeValue, readAttributeText, pieces_escape]
  simp only [Option.bind_eq_bind, Option.bind_some]
  rw [valueOf_escape _ rfl]
  rfl

/-- **A value is read as it was written, but for space**, whatever follows it. -/
theorem attributeAt?_escape {value : String} (h : ∀ c ∈ value.toList, isChar c = true)
    (rest : List Char) :
    attributeAt? ('=' :: '"' :: ((escape value).toList ++ '"' :: rest))
      = some (normalizedValue value, rest) := by
  rw [escape, String.toList_ofList, attributeAt?, readValue_escape, if_pos (List.all_eq_true.mpr h)]
  simp only [Option.bind_eq_bind, Option.bind_some, readAttributeValue_escape]
  rfl

/-! ## Character data -/

theorem addPieces_escape (expand : Reading → String → Option Reading) {state : Reading}
    (hb : state.budget.isInside = false) (l text plain : List Char) :
    addPieces expand text plain state (l.map escapedPiece)
      = some (state.addText (text ++ unifyBreaks (plain.reverse ++ l))) := by
  induction l generalizing text plain with
  | nil => rw [List.map_nil, addPieces, List.append_nil]
  | cons c l ih =>
    rw [List.map_cons]
    by_cases hc : c ∈ special
    · obtain ⟨hpiece, hr, hn, -⟩ := escapedPiece_special _ hc
      rw [hpiece, addPieces, hb, unifyBreaks_append_cons hr hn]
      simp [ih]
    · rw [escapedPiece_plain hc, addPieces, ih]
      simp

/-- A word is not found where one of its characters is missing. -/
theorem upTo_eq_none {c : Char} {word cs : List Char} (hword : c ∈ word) (hcs : c ∉ cs) :
    upTo word cs = none := by
  induction cs with
  | nil => rfl
  | cons d cs ih =>
    have hfront : ¬word.isPrefixOf (d :: cs) = true := fun h =>
      hcs ((List.isPrefixOf_iff_prefix.mp h).subset hword)
    rw [upTo, if_neg hfront, ih fun hmem => hcs (List.mem_cons_of_mem _ hmem)]
    rfl

/-- **A text is read as it was written, but for line breaks**, if its characters are permitted. -/
theorem readText_escape (expand : Reading → String → Option Reading) {state : Reading}
    (hb : state.budget.isInside = false) (value : String) :
    readText expand state (escape value).toList
      = if value.toList.all isChar then some (state.addText (unifyBreaks value.toList)) else none := by
  rw [escape, String.toList_ofList, readText]
  have hnone : upTo [']', ']', '>'] (value.toList.flatMap escapeChar) = none :=
    upTo_eq_none (by decide) (notMem_escape _ '>' (by decide))
  rw [all_isChar_escape, hnone, Option.isNone_none, Bool.and_true]
  split
  · rw [pieces_escape, Option.bind_some, addPieces_escape expand hb]
    rfl
  · rfl

/-- Reads the character data up to the next markup, in a document without entities: the nodes that it
adds to a tree, and what is left. -/
def textAt? (cs : List Char) : Option (List Node × List Char) := do
  let (text, rest) := cs.span (· ≠ '<')
  let state ← readText (fun _ _ => none) {} text
  return (state.draft.nodes, rest)

/-- An escaped text ends with the next bracket. -/
theorem span_escape (value : String) (rest : List Char) :
    ((escape value).toList ++ '<' :: rest).span (· ≠ '<') = ((escape value).toList, '<' :: rest) := by
  have hnot : ∀ c ∈ (escape value).toList, decide (c ≠ '<') = true := by
    rw [escape, String.toList_ofList]
    exact fun c hc => decide_eq_true fun heq => notMem_escape _ '<' (by decide) (heq ▸ hc)
  rw [List.span_eq_takeWhile_dropWhile, List.takeWhile_append_of_pos hnot,
    List.dropWhile_append_of_pos hnot]
  simp

/-- **A text that is not empty is read as one node** up to the markup behind it. -/
theorem textAt?_escape {value : String} (hne : value ≠ "")
    (h : ∀ c ∈ value.toList, isChar c = true) (rest : List Char) :
    textAt? ((escape value).toList ++ '<' :: rest)
      = some ([.text (normalizedText value)], '<' :: rest) := by
  have hbreaks : (unifyBreaks value.toList).isEmpty = false :=
    List.isEmpty_eq_false_iff.mpr (unifyBreaks_ne_nil fun h => hne (String.toList_eq_nil_iff.mp h))
  have hread : readText (fun _ _ => none) {} (escape value).toList
      = some (Reading.addText {} (unifyBreaks value.toList)) :=
    (readText_escape _ rfl value).trans (if_pos (List.all_eq_true.mpr h))
  rw [textAt?, span_escape]
  simp only [hread, Option.bind_eq_bind, Option.bind_some, Reading.addText, Draft.addText, hbreaks]
  rfl

end Specimen.Xml

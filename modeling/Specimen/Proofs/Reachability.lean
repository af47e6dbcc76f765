import Mathlib.Data.List.Flatten
import Mathlib.Data.List.Nodup
import Specimen.Proofs.Links

/-!
# The files that are read

Loading reads the files that can be reached from the main document, each once, and ends however they
refer to each other: each file that is read adds its references to those that are left, and no file
is read again. Where a file cannot be read or is refused, the loading ends with the error of the
first reference that fails when all references are followed level by level. The loading itself
follows fewer of them. What it passes over leads to files that have been read, or to the same file
as a reference that comes before.
-/

namespace Specimen

/-! ## Turns -/

namespace Files

/-- The number of references in the files that have not been read. -/
def unfollowed (fs : Files) (read : List FileName) : Nat :=
  ((fs.files.filter fun file => !read.contains file.1).flatMap fun file =>
    SchemaDocument.locations file.2).length

/-- To read a file takes its references from those that have not been met. -/
theorem unfollowed_append {fs : Files} {read : List FileName} {name : FileName} {text : String}
    (hfile : (name, text) ∈ fs.files) (hnew : read.contains name = false) :
    (SchemaDocument.locations text).length + fs.unfollowed (read ++ [name])
      ≤ fs.unfollowed read := by
  have hle (files : List (FileName × String)) :
      ((files.filter fun file => !(read ++ [name]).contains file.1).flatMap fun file =>
        SchemaDocument.locations file.2).length
      ≤ ((files.filter fun file => !read.contains file.1).flatMap fun file =>
        SchemaDocument.locations file.2).length := by
    refine ((List.monotone_filter_right files fun file h => ?_).flatMap _).length_le
    rw [Bool.not_eq_true', List.contains_append, Bool.or_eq_false_iff] at h
    rw [h.1, Bool.not_false]
  obtain ⟨before, behind, heq⟩ := List.append_of_mem hfile
  have hbefore := hle before
  have hbehind := hle behind
  have hmet : (!(read ++ [name]).contains name) = false := by
    rw [List.contains_iff_mem.mpr (List.mem_append_right _ List.mem_cons_self), Bool.not_true]
  have hunmet : (!read.contains name) = true := by rw [hnew, Bool.not_false]
  unfold unfollowed
  rw [heq, List.filter_append, List.filter_append, List.filter_cons, List.filter_cons, hmet, hunmet,
    if_neg Bool.false_ne_true, if_pos rfl, List.flatMap_append, List.flatMap_append,
    List.flatMap_cons, List.length_append, List.length_append, List.length_append]
  dsimp only
  omega

end Files

namespace Loading

/-- Follows references in a limited number of turns, and tells how far the loading has come also
where an error has ended it. A file that is refused has been read. -/
def followWithin (fs : Files) : Nat → Loading → List Link → Option (Loading × Except Error Unit)
  | _, l, [] => some (l, .ok ())
  | 0, _, _ :: _ => none
  | turns + 1, l, link :: rest =>
    match fs.read link.address with
    | .error fault => some (l, .error (.resource (.unreadable link.address.text fault)))
    | .ok (name, text) =>
      if l.read.contains name then followWithin fs turns l rest
      else
        match SchemaDocument.read (some link.address) link.target text with
        | .error e => some ({ l with read := l.read ++ [name] }, .error e)
        | .ok document =>
          followWithin fs turns (enter { l with read := l.read ++ [name] } document)
            (rest ++ document.links)

/-- **The loading ends** after as many turns as there are references in all, at the latest. -/
theorem exists_followWithin (fs : Files) (l : Loading) (links : List Link) :
    ∃ turns ≤ links.length + fs.unfollowed l.read, ∃ l' outcome,
      followWithin fs turns l links = some (l', outcome)
        ∧ follow fs l links = outcome.map fun _ => l' := by
  induction l, links using follow_induction fs with
  | nil l => exact ⟨0, Nat.zero_le _, l, .ok (), rfl, follow_nil⟩
  | unreadable l link rest fault hfault =>
    refine ⟨1, by rw [List.length_cons]; omega, l, .error _, ?_, follow_unreadable hfault⟩
    rw [followWithin, hfault]
  | known l link rest name text hfound hknown ih =>
    obtain ⟨turns, hturns, l', outcome, hrun, hfollow⟩ := ih
    refine ⟨turns + 1, by rw [List.length_cons]; omega, l', outcome, ?_, ?_⟩
    · rw [followWithin, hfound]
      exact (if_pos (List.contains_iff_mem.mpr hknown)).trans hrun
    · rw [follow_known hfound hknown, hfollow]
  | rejected l link rest name text e hfound hnew hrejected =>
    refine ⟨1, by rw [List.length_cons]; omega, { l with read := l.read ++ [name] }, .error e, ?_,
      follow_rejected hfound hnew hrejected⟩
    rw [followWithin, hfound]
    dsimp only
    rw [if_neg (mt List.contains_iff_mem.mp hnew), hrejected]
  | taken l link rest name text document hfound hnew haccepted ih =>
    obtain ⟨turns, hturns, l', outcome, hrun, hfollow⟩ := ih
    have hunread := mt List.contains_iff_mem.mp hnew
    refine ⟨turns + 1, ?_, l', outcome, ?_, ?_⟩
    -- The references that are put in the queue leave the files that have not been read.
    · have hfewer := Files.unfollowed_append (Files.mem_of_read hfound)
        (Bool.eq_false_iff.mpr hunread)
      have hlinks := congrArg List.length (SchemaDocument.map_address_links haccepted)
      rw [read_enter, List.length_append] at hturns
      dsimp only at hturns
      rw [List.length_map, List.length_map] at hlinks
      rw [List.length_cons]
      omega
    · rw [followWithin, hfound]
      dsimp only
      rw [if_neg hunread, haccepted]
      exact hrun
    · rw [follow_taken hfound hnew haccepted, hfollow]

/-- What every turn keeps, of the files that have been read and the references that are left. -/
structure IsKeptByTurns (fs : Files) (I : List FileName → List Link → Prop) : Prop where
  known : ∀ {read : List FileName} {link : Link} {rest : List Link} {name : FileName}
    {text : String}, I read (link :: rest) → link.file? fs = some (name, text) → name ∈ read →
      I read rest
  taken : ∀ {read : List FileName} {link : Link} {rest : List Link} {name : FileName}
    {text : String} {found : SchemaDocument}, I read (link :: rest) →
      link.file? fs = some (name, text) → name ∉ read → link.document fs = .ok found →
        I (read ++ [name]) (rest ++ found.links)

/-- **What every turn keeps holds where the loading ends**: with nothing left, or with the reference
that has failed in front. -/
theorem IsKeptByTurns.run {fs : Files} {I : List FileName → List Link → Prop}
    (hI : IsKeptByTurns fs I) {turns : Nat} {l l' : Loading} {links : List Link}
    {outcome : Except Error Unit} (h : I l.read links)
    (hrun : followWithin fs turns l links = some (l', outcome)) :
    (outcome = .ok () ∧ I l'.read []) ∨ ∃ read link rest e, outcome = .error e
      ∧ I read (link :: rest) ∧ link.document fs = .error e
      ∧ (l'.read = read ∨ ∃ name ∉ read, l'.read = read ++ [name]) := by
  -- By the turns. A turn fails, passes over a file that has been read, or takes in a new one.
  induction turns generalizing l links with
  | zero =>
    cases links with
    | nil =>
      cases hrun
      exact .inl ⟨rfl, h⟩
    | cons link rest => cases hrun
  | succ turns ih =>
    cases links with
    | nil =>
      cases hrun
      exact .inl ⟨rfl, h⟩
    | cons link rest =>
      rw [followWithin] at hrun
      split at hrun
      · next fault hfault =>
        cases hrun
        refine .inr ⟨l'.read, link, rest, _, rfl, h, ?_, .inl rfl⟩
        rw [Link.document, hfault]
      · next name text hfound =>
        have hfile := Link.file?_of_read hfound
        have hdocument := Link.document_of_file? hfile
        split at hrun
        · next hknown => exact ih (hI.known h hfile (List.contains_iff_mem.mp hknown)) hrun
        · next hknown =>
          have hnew : name ∉ l.read := fun hmem => hknown (List.contains_iff_mem.mpr hmem)
          split at hrun
          · next e hrejected =>
            cases hrun
            exact .inr ⟨l.read, link, rest, _, rfl, h, hdocument.trans hrejected,
              .inr ⟨name, hnew, rfl⟩⟩
          · next found haccepted =>
            refine ih ?_ hrun
            rw [read_enter]
            exact hI.taken h hfile hnew (hdocument.trans haccepted)

end Loading

/-! ## References that are settled -/

/-- The reference leads to a file that has been read. -/
def Link.IsKnown (fs : Files) (read : List FileName) (link : Link) : Prop :=
  ∃ name ∈ read, ∃ text, link.file? fs = some (name, text)

/-- The reference leads to a file that has been read, or where one leads that is to be followed. -/
def Link.IsSettled (fs : Files) (read : List FileName) (queue : List Link) (link : Link) : Prop :=
  link.IsKnown fs read ∨ ∃ other ∈ queue, link.file? fs = other.file? fs

namespace Link

variable {fs : Files} {read read' : List FileName} {queue queue' : List Link} {link other : Link}

theorem IsKnown.mono (h : link.IsKnown fs read) (hread : ∀ name ∈ read, name ∈ read') :
    link.IsKnown fs read' := by
  obtain ⟨name, hname, text, hfile⟩ := h
  exact ⟨name, hread name hname, text, hfile⟩

theorem IsKnown.of_alike (h : other.IsKnown fs read) (halike : link.file? fs = other.file? fs) :
    link.IsKnown fs read := by
  obtain ⟨name, hname, text, hfile⟩ := h
  exact ⟨name, hname, text, halike.trans hfile⟩

theorem IsSettled.of_alike (h : other.IsSettled fs read queue)
    (halike : link.file? fs = other.file? fs) : link.IsSettled fs read queue := by
  rcases h with h | ⟨third, hthird, heq⟩
  · exact .inl (h.of_alike halike)
  · exact .inr ⟨third, hthird, halike.trans heq⟩

theorem isSettled_of_mem (h : link ∈ queue) : link.IsSettled fs read queue := .inr ⟨link, h, rfl⟩

/-- What is settled stays so while more is read, and when the reference in front has been followed.
-/
theorem IsSettled.pass (h : link.IsSettled fs read (other :: queue))
    (hother : other.IsKnown fs read') (hread : ∀ name ∈ read, name ∈ read')
    (hqueue : ∀ link ∈ queue, link ∈ queue') : link.IsSettled fs read' queue' := by
  rcases h with h | ⟨third, hthird, heq⟩
  · exact .inl (h.mono hread)
  · rcases List.mem_cons.mp hthird with rfl | hthird
    · exact .inl (hother.of_alike heq)
    · exact .inr ⟨third, hqueue third hthird, heq⟩

end Link

/-! ## The closure -/

/-- Some reference to the file is accepted, and what its document refers to has a property. -/
def Files.Continues (fs : Files) (P : Link → Prop) (name : FileName) : Prop :=
  ∃ (link : Link) (text : String) (found : SchemaDocument),
    link.file? fs = some (name, text) ∧ link.document fs = .ok found
      ∧ ∀ inner ∈ found.links, P inner

/-- The references of the main document, and those of the files that have been read, are settled. -/
structure IsClosed (fs : Files) (links : List Link) (read : List FileName) (queue : List Link) :
    Prop where
  first : ∀ link ∈ links, link.IsSettled fs read queue
  next : ∀ name ∈ read, fs.Continues (Link.IsSettled fs read queue) name

namespace IsClosed

variable {fs : Files} {links queue queue' : List Link} {read read' : List FileName} {link : Link}

theorem pass (h : IsClosed fs links read (link :: queue)) (hlink : link.IsKnown fs read')
    (hread : ∀ name ∈ read, name ∈ read') (hqueue : ∀ link ∈ queue, link ∈ queue')
    (hnew : ∀ name ∈ read', name ∉ read → fs.Continues (· ∈ queue') name) :
    IsClosed fs links read' queue' := by
  refine ⟨fun other hother => (h.first other hother).pass hlink hread hqueue, fun name hname => ?_⟩
  by_cases hold : name ∈ read
  · obtain ⟨other, text, found, hfile, hdocument, hinner⟩ := h.next name hold
    exact ⟨other, text, found, hfile, hdocument,
      fun inner hmem => (hinner inner hmem).pass hlink hread hqueue⟩
  · obtain ⟨other, text, found, hfile, hdocument, hinner⟩ := hnew name hname hold
    exact ⟨other, text, found, hfile, hdocument,
      fun inner hmem => Link.isSettled_of_mem (hinner inner hmem)⟩

theorem isKeptByTurns (fs : Files) (links : List Link) :
    Loading.IsKeptByTurns fs (IsClosed fs links) where
  known h hfile hname :=
    h.pass ⟨_, hname, _, hfile⟩ (fun _ h => h) (fun _ h => h) fun _ h hnot => absurd h hnot
  taken {read link rest name text found} h hfile hnew hdocument := by
    refine h.pass ⟨name, List.mem_append_right _ List.mem_cons_self, text, hfile⟩
      (fun _ h => List.mem_append_left _ h) (fun _ h => List.mem_append_left _ h)
      fun other hother hnot => ?_
    obtain rfl : other = name :=
      List.mem_singleton.mp ((List.mem_append.mp hother).resolve_left hnot)
    exact ⟨link, text, found, hfile, hdocument, fun _ h => List.mem_append_right _ h⟩

/-- A reference to a file that has been read opens, and goes on to what is settled. -/
theorem inner (h : IsClosed fs links read queue) (hlink : link.IsKnown fs read) :
    link.Opens fs ∧ ∀ inner ∈ link.inner fs, inner.IsSettled fs read queue := by
  obtain ⟨name, hname, text, hfile⟩ := hlink
  obtain ⟨other, text', found, hfile', hdocument, hinner⟩ := h.next name hname
  have htext : text' = text := Option.some.inj <|
    (Files.lookup_of_read (Link.read_of_file? hfile')).symm.trans
      (Files.lookup_of_read (Link.read_of_file? hfile))
  obtain ⟨found', hfound', hmap⟩ :=
    Link.exists_document_alike hdocument (hfile.trans (htext ▸ hfile'.symm))
  refine ⟨⟨found', hfound'⟩, fun inner hmem => ?_⟩
  rw [Link.inner_of_document hfound'] at hmem
  obtain ⟨inner', hmem', heq⟩ := List.mem_map.mp (hmap ▸ List.mem_map_of_mem hmem)
  exact (hinner inner' hmem').of_alike heq.symm

/-- With nothing left to follow, every reference leads to a file that has been read. -/
theorem isKnown_of_mem_level (h : IsClosed fs links read []) (n : Nat) :
    ∀ link ∈ level fs links n, link.IsKnown fs read := by
  have hknown {link : Link} (h : link.IsSettled fs read []) : link.IsKnown fs read :=
    h.resolve_right fun ⟨_, hmem, _⟩ => absurd hmem List.not_mem_nil
  induction n with
  | zero => exact fun link hlink => hknown (h.first link hlink)
  | succ n ih =>
    intro link hlink
    obtain ⟨outer, houter, hlink⟩ := List.mem_flatMap.mp hlink
    exact hknown ((h.inner (ih outer houter)).2 link hlink)

end IsClosed

/-! ## The order -/

/-- What is left to follow, beside all references that are ahead level by level: those that are
passed over are settled when their turn comes. -/
inductive IsPruned (fs : Files) (read : List FileName) :
    List Link → List Link → List Link → Prop
  | nil {seen : List Link} : IsPruned fs read seen [] []
  | keep {seen queue ahead : List Link} {link : Link}
      (h : IsPruned fs read (seen ++ [link]) queue ahead) :
      IsPruned fs read seen (link :: queue) (link :: ahead)
  | skip {seen queue ahead : List Link} {link : Link} (hlink : link.IsSettled fs read seen)
      (h : IsPruned fs read seen queue ahead) : IsPruned fs read seen queue (link :: ahead)

namespace IsPruned

variable {fs : Files} {read read' : List FileName}
  {seen seen' queue queue' ahead ahead' : List Link} {link : Link}

theorem refl (seen queue : List Link) : IsPruned fs read seen queue queue := by
  induction queue generalizing seen with
  | nil => exact .nil
  | cons link queue ih => exact .keep (ih _)

theorem of_settled (h : ∀ link ∈ ahead, link.IsSettled fs read seen) :
    IsPruned fs read seen [] ahead := by
  induction ahead with
  | nil => exact .nil
  | cons link ahead ih =>
    obtain ⟨hlink, hahead⟩ := List.forall_mem_cons.mp h
    exact .skip hlink (ih hahead)

theorem append (h : IsPruned fs read seen queue ahead)
    (h' : IsPruned fs read (seen ++ queue) queue' ahead') :
    IsPruned fs read seen (queue ++ queue') (ahead ++ ahead') := by
  induction h with
  | nil => rwa [List.append_nil] at h'
  | keep _ ih =>
    refine .keep (ih ?_)
    rwa [List.append_assoc]
  | skip hlink _ ih => exact .skip hlink (ih h')

theorem append_settled (h : IsPruned fs read [] queue ahead)
    (h' : ∀ link ∈ ahead', link.IsSettled fs read queue) :
    IsPruned fs read [] queue (ahead ++ ahead') := by
  have happend : IsPruned fs read [] (queue ++ []) (ahead ++ ahead') := h.append (of_settled h')
  rwa [List.append_nil] at happend

theorem mono (h : IsPruned fs read seen queue ahead)
    (hseen : ∀ link : Link, link.IsSettled fs read seen → link.IsSettled fs read' seen') :
    IsPruned fs read' seen' queue ahead := by
  induction h generalizing seen' with
  | nil => exact .nil
  | @keep seen _ _ link _ ih =>
    refine .keep (ih fun other h => ?_)
    have hleft (h : other.IsSettled fs read seen) : other.IsSettled fs read' (seen' ++ [link]) :=
      (hseen other h).imp_right fun ⟨third, hthird, heq⟩ =>
        ⟨third, List.mem_append_left _ hthird, heq⟩
    rcases h with h | ⟨third, hthird, heq⟩
    · exact hleft (.inl h)
    · rcases List.mem_append.mp hthird with hthird | hthird
      · exact hleft (.inr ⟨third, hthird, heq⟩)
      · exact .inr ⟨third, List.mem_append_right _ hthird, heq⟩
  | skip hlink _ ih => exact .skip (hseen _ hlink) (ih hseen)

theorem pass (h : IsPruned fs read [link] queue ahead) (hlink : link.IsKnown fs read')
    (hread : ∀ name ∈ read, name ∈ read') : IsPruned fs read' [] queue ahead :=
  h.mono fun _ hother => hother.pass hlink hread fun _ h => h

/-- What is ahead of the reference that is followed next leads to files that have been read. -/
theorem exists_split (h : IsPruned fs read [] (link :: queue) ahead) : ∃ passed ahead',
    ahead = passed ++ link :: ahead' ∧ (∀ link ∈ passed, link.IsKnown fs read)
      ∧ IsPruned fs read [link] queue ahead' := by
  induction ahead with
  | nil => cases h
  | cons first ahead ih =>
    cases h with
    | keep h => exact ⟨[], ahead, rfl, nofun, h⟩
    | skip hfirst h =>
      obtain ⟨passed, ahead', rfl, hpassed, h⟩ := ih h
      have hknown : first.IsKnown fs read :=
        hfirst.resolve_right fun ⟨_, hmem, _⟩ => absurd hmem List.not_mem_nil
      exact ⟨first :: passed, ahead', rfl, List.forall_mem_cons.mpr ⟨hknown, hpassed⟩, h⟩

end IsPruned

/-- The files that have been read are closed, and what is left to follow is in its order. -/
structure IsOrdered (fs : Files) (links : List Link) (read : List FileName) (queue : List Link) :
    Prop where
  closed : IsClosed fs links read queue
  ahead : ∃ ahead, Ahead fs links ahead ∧ IsPruned fs read [] queue ahead

namespace IsOrdered

variable {fs : Files} {links queue : List Link} {read : List FileName} {link : Link}

/-- The references that are passed over open, so the one that is followed next is in its turn. -/
theorem exists_ahead (h : IsOrdered fs links read (link :: queue)) : ∃ passed ahead : List Link,
    Ahead fs links (link :: (ahead ++ passed.flatMap (Link.inner fs)))
      ∧ (∀ other ∈ passed, other.IsKnown fs read) ∧ IsPruned fs read [link] queue ahead := by
  obtain ⟨ahead, hahead, hpruned⟩ := h.ahead
  obtain ⟨passed, ahead', rfl, hpassed, hpruned⟩ := hpruned.exists_split
  exact ⟨passed, ahead', hahead.steps fun other hother => (h.closed.inner (hpassed other hother)).1,
    hpassed, hpruned⟩

theorem isKeptByTurns (fs : Files) (links : List Link) :
    Loading.IsKeptByTurns fs (IsOrdered fs links) where
  known {read link rest name text} h hfile hname := by
    have hlink : link.IsKnown fs read := ⟨name, hname, text, hfile⟩
    have hclosed := (IsClosed.isKeptByTurns fs links).known h.closed hfile hname
    obtain ⟨passed, ahead, hahead, hpassed, hpruned⟩ := h.exists_ahead
    refine ⟨hclosed, _, hahead.step (h.closed.inner hlink).1, ?_⟩
    -- Nothing is put in the queue, so all that is now ahead in addition has to be settled.
    have hpruned' := (hpruned.pass hlink fun _ h => h).append_settled fun inner hmem => by
      obtain ⟨outer, houter, hmem⟩ := List.mem_flatMap.mp hmem
      exact (hclosed.inner (hpassed outer houter)).2 inner hmem
    exact hpruned'.append_settled (hclosed.inner hlink).2
  taken {read link rest name text found} h hfile hnew hdocument := by
    have hread : ∀ other ∈ read, other ∈ read ++ [name] := fun _ h => List.mem_append_left _ h
    have hlink : link.IsKnown fs (read ++ [name]) :=
      ⟨name, List.mem_append_right _ List.mem_cons_self, text, hfile⟩
    have hclosed := (IsClosed.isKeptByTurns fs links).taken h.closed hfile hnew hdocument
    obtain ⟨passed, ahead, hahead, hpassed, hpruned⟩ := h.exists_ahead
    refine ⟨hclosed, _, hahead.step ⟨found, hdocument⟩, ?_⟩
    rw [Link.inner_of_document hdocument]
    -- Only the references of this document are put in the queue. They come last in both lists.
    have hpruned' := (hpruned.pass hlink hread).append_settled fun inner hmem => by
      obtain ⟨outer, houter, hmem⟩ := List.mem_flatMap.mp hmem
      exact ((h.closed.inner (hpassed outer houter)).2 inner hmem).pass hlink hread fun _ h => h
    exact hpruned'.append (.refl _ _)

end IsOrdered

/-! ## Main documents -/

/-- A main document is a text, or it is in the file at an address. -/
inductive Origin where
  | text (content : String)
  | file (address : Address)

/-- A main document that has been read, with the files that count as read, and with the text in its
folder. -/
structure Opening where
  known : List FileName
  folder : FileName
  text : String
  document : SchemaDocument

namespace Origin

/-- Loads the schema. -/
def load (fs : Files) : Origin → Except Error Model
  | .text content => Model.ofText fs content
  | .file address => Model.ofFile fs address

/-- Reads the main document. -/
def opening (fs : Files) : Origin → Except Error Opening
  | .text content => Opening.mk [] fs.home content <$> SchemaDocument.read none none content
  | .file address =>
    match fs.read address with
    | .error fault => .error (.resource (.unreadable address.text fault))
    | .ok (name, content) =>
      Opening.mk [name] name.dropLast content <$> SchemaDocument.read (some address) none content

end Origin

namespace Opening

/-- The loading when the main document has been entered. -/
def entered (main : Opening) : Loading :=
  let l := ({ read := main.known } : Loading).enter main.document
  { l with model := { l.model with target := main.document.target } }

theorem read_entered (main : Opening) : main.entered.read = main.known := Loading.read_enter _ _

/-- What is known of a main document that has been read. -/
structure IsRead (fs : Files) (main : Opening) : Prop where
  nodup : main.known.Nodup
  known : ∀ name ∈ main.known, ∃ (link : Link) (text : String),
    link.file? fs = some (name, text) ∧ link.document fs = .ok main.document
  links : main.document.links.map (Link.file? fs) = fs.destinations main.folder main.text

end Opening

section

variable {fs : Files} {main : Opening}

theorem Origin.opening_text {content : String} (h : (Origin.text content).opening fs = .ok main) :
    ∃ document, SchemaDocument.read none none content = .ok document
      ∧ main = ⟨[], fs.home, content, document⟩ := by
  rw [opening] at h
  obtain ⟨document, hread, rfl⟩ := exists_of_map_eq_ok h
  exact ⟨document, hread, rfl⟩

theorem Origin.opening_file {address : Address} {name : FileName} {content : String}
    (hfound : fs.read address = .ok (name, content))
    (h : (Origin.file address).opening fs = .ok main) :
    ∃ document, SchemaDocument.read (some address) none content = .ok document
      ∧ main = ⟨[name], name.dropLast, content, document⟩ := by
  rw [opening, hfound] at h
  obtain ⟨document, hread, rfl⟩ := exists_of_map_eq_ok h
  exact ⟨document, hread, rfl⟩

theorem Origin.exists_file_of_opening {address : Address}
    (h : (Origin.file address).opening fs = .ok main) :
    ∃ name content, fs.read address = .ok (name, content) := by
  rw [opening] at h
  split at h
  · cases h
  · next name content hfound => exact ⟨name, content, hfound⟩

theorem Origin.isRead_opening {origin : Origin} (h : origin.opening fs = .ok main) :
    main.IsRead fs := by
  cases origin with
  | text content =>
    obtain ⟨document, hread, rfl⟩ := opening_text h
    refine ⟨List.nodup_nil, nofun, ?_⟩
    have hlinks := congrArg (List.map fun address => (fs.read address).toOption)
      (SchemaDocument.map_address_links hread)
    rw [List.map_map, List.map_map] at hlinks
    refine hlinks.trans (List.map_congr_left fun location _ => ?_)
    -- A text has no folder, so its references are read as they are written.
    have hresolve : Address.resolve none location = ⟨location⟩ := by
      unfold Address.resolve
      split <;> rfl
    rw [Function.comp_apply, hresolve]
    rfl
  | file address =>
    obtain ⟨name, content, hfound⟩ := exists_file_of_opening h
    obtain ⟨document, hread, rfl⟩ := opening_file hfound h
    have hfile : (Link.mk address none).file? fs = some (name, content) :=
      Link.file?_of_read hfound
    have hdocument : (Link.mk address none).document fs = .ok document :=
      (Link.document_of_file? hfile).trans hread
    exact ⟨List.nodup_singleton name,
      List.forall_mem_singleton.mpr ⟨_, content, hfile, hdocument⟩,
      Link.map_file?_inner hdocument hfile⟩

end

theorem Origin.load_eq (fs : Files) (origin : Origin) : origin.load fs = do
    let main ← origin.opening fs
    return (← Loading.follow fs main.entered main.document.links).finish := by
  cases origin with
  | text content =>
    rw [load, opening, Model.ofText]
    cases SchemaDocument.read none none content <;> rfl
  | file address =>
    rw [load, opening, Model.ofFile]
    cases fs.read address with
    | error fault => rfl
    | ok file =>
      obtain ⟨name, content⟩ := file
      dsimp only
      cases SchemaDocument.read (some address) none content <;> rfl

/-- The files that have been read are there once, and can be reached; so can what is left. -/
structure IsReached (fs : Files) (main : Opening) (read : List FileName) (queue : List Link) :
    Prop where
  nodup : read.Nodup
  known : ∀ name ∈ main.known, name ∈ read
  read : ∀ name ∈ read, name ∈ main.known ∨ fs.Reaches main.folder main.text name
  queue : ∀ link ∈ queue, ∀ name text, link.file? fs = some (name, text) →
    fs.Reaches main.folder main.text name

namespace IsReached

variable {fs : Files} {main : Opening} {read : List FileName}

theorem isKeptByTurns (fs : Files) (main : Opening) :
    Loading.IsKeptByTurns fs (IsReached fs main) where
  known h _ _ := ⟨h.nodup, h.known, h.read, (List.forall_mem_cons.mp h.queue).2⟩
  taken {read link rest name text found} h hfile hnew hdocument := by
    obtain ⟨hlink, hrest⟩ := List.forall_mem_cons.mp h.queue
    have hname := hlink name text hfile
    have hnodup := h.nodup.concat hnew
    rw [List.concat_eq_append] at hnodup
    refine ⟨hnodup, fun other ho => List.mem_append_left _ (h.known other ho),
      List.forall_mem_append.mpr ⟨h.read, List.forall_mem_singleton.mpr (.inr hname)⟩,
      List.forall_mem_append.mpr ⟨hrest, fun inner hinner other text' hfile' => ?_⟩⟩
    have hmem : some (other, text') ∈ fs.destinations name.dropLast text := by
      rw [← Link.map_file?_inner hdocument hfile, ← hfile']
      exact List.mem_map_of_mem hinner
    exact hname.next (Files.lookup_of_read (Link.read_of_file? hfile))
      (Files.linksTo_iff.mpr ⟨text', hmem⟩)

theorem start (h : main.IsRead fs) : IsReached fs main main.known main.document.links where
  nodup := h.nodup
  known _ hname := hname
  read _ hname := .inl hname
  queue link hlink name text hfile := by
    refine .first (Files.linksTo_iff.mpr ⟨text, ?_⟩)
    rw [← h.links, ← hfile]
    exact List.mem_map_of_mem hlink

end IsReached

theorem IsOrdered.start {fs : Files} {main : Opening} (h : main.IsRead fs) :
    IsOrdered fs main.document.links main.known main.document.links where
  closed := by
    refine ⟨fun link hlink => Link.isSettled_of_mem hlink, fun name hname => ?_⟩
    obtain ⟨link, text, hfile, hdocument⟩ := h.known name hname
    exact ⟨link, text, main.document, hfile, hdocument,
      fun inner hinner => Link.isSettled_of_mem hinner⟩
  ahead := ⟨_, .start fs _, .refl _ _⟩

namespace IsClosed

variable {fs : Files} {main : Opening} {read : List FileName} {links : List Link}
  {folder name : FileName} {text : String}

theorem mem_of_linksTo (hknown : ∀ link ∈ links, link.IsSettled fs read [])
    (hlinks : links.map (Link.file? fs) = fs.destinations folder text)
    (h : fs.LinksTo folder text name) : name ∈ read := by
  obtain ⟨inner, hmem⟩ := Files.linksTo_iff.mp h
  obtain ⟨link, hlink, hfile⟩ := List.mem_map.mp (hlinks ▸ hmem)
  rcases hknown link hlink with ⟨other, hother, inner', hfile'⟩ | ⟨_, hmem, _⟩
  · cases hfile.symm.trans hfile'
    exact hother
  · exact absurd hmem List.not_mem_nil

/-- With nothing left to follow, all files that can be reached have been read. -/
theorem mem_of_reaches (h : IsClosed fs main.document.links read []) (hmain : main.IsRead fs)
    (hreaches : fs.Reaches main.folder main.text name) : name ∈ read := by
  induction hreaches with
  | first hlink => exact mem_of_linksTo h.first hmain.links hlink
  | next _ hinner hlink ih =>
    obtain ⟨link, text, found, hfile, hdocument, hsettled⟩ := h.next _ ih
    cases (Files.lookup_of_read (Link.read_of_file? hfile)).symm.trans hinner
    exact mem_of_linksTo hsettled (Link.map_file?_inner hdocument hfile) hlink

end IsClosed

/-- **Loading reads the files that can be reached from the main document, each once, and ends**
after as many turns as there are references in all, at the latest. Where it fails, it is with the
main document or with the first reference, level by level, whose file cannot be read or is refused.
-/
theorem Origin.load_closes (fs : Files) (origin : Origin) :
    match origin.opening fs with
    | .error e => origin.load fs = .error e
    | .ok main => ∃ turns ≤ main.document.links.length + fs.unfollowed main.known, ∃ l outcome,
        Loading.followWithin fs turns main.entered main.document.links = some (l, outcome)
          ∧ l.read.Nodup ∧ origin.load fs = (outcome.map fun _ => l.finish)
          ∧ match outcome with
            | .error e => FirstFailure fs main.document.links e
            | .ok _ =>
              (∀ name, name ∈ l.read
                ↔ name ∈ main.known ∨ fs.Reaches main.folder main.text name)
              ∧ ∀ n, ∀ link ∈ level fs main.document.links n, link.Opens fs := by
  rw [load_eq]
  cases hopening : origin.opening fs with
  | error e => rfl
  | ok main =>
    have hmain := isRead_opening hopening
    obtain ⟨turns, hturns, l, outcome, hrun, hfollow⟩ :=
      Loading.exists_followWithin fs main.entered main.document.links
    rw [main.read_entered] at hturns
    -- Two invariants of the turns: what is read can be reached, and what is left is in order of
    -- level.
    have hreached := (IsReached.isKeptByTurns fs main).run
      (main.read_entered.symm ▸ IsReached.start hmain) hrun
    have hordered := (IsOrdered.isKeptByTurns fs main.document.links).run
      (main.read_entered.symm ▸ IsOrdered.start hmain) hrun
    have hload : (do
        let main ← (Except.ok main : Except Error Opening)
        return (← Loading.follow fs main.entered main.document.links).finish)
        = outcome.map fun _ => l.finish := by
      change (do return (← Loading.follow fs main.entered main.document.links).finish) = _
      rw [hfollow]
      cases outcome <;> rfl
    refine ⟨turns, hturns, l, outcome, hrun, ?_, hload, ?_⟩
    · rcases hreached with ⟨-, h⟩ | ⟨read, link, rest, e, -, h, -, heq | ⟨name, hnew, heq⟩⟩
      · exact h.nodup
      · exact heq ▸ h.nodup
      · rw [heq]
        exact List.concat_eq_append ▸ h.nodup.concat hnew
    · cases outcome with
      | error e =>
        rcases hordered with ⟨h, -⟩ | ⟨read, link, rest, e', he, h, hfails, -⟩
        · cases h
        · cases he
          obtain ⟨passed, ahead, hahead, -⟩ := h.exists_ahead
          exact hahead.firstFailure hfails
      | ok done =>
        rcases hreached with ⟨-, h⟩ | ⟨read, link, rest, e, he, -⟩
        · rcases hordered with ⟨-, h'⟩ | ⟨read, link, rest, e, he, -⟩
          · refine ⟨fun name => ⟨h.read name, fun hname => ?_⟩, fun n link hlink => ?_⟩
            · exact hname.elim (h.known name) (h'.closed.mem_of_reaches hmain)
            · exact (h'.closed.inner (h'.closed.isKnown_of_mem_level n link hlink)).1
          · cases he
        · cases he

end Specimen

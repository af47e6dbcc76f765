import Mathlib.Logic.Basic
import Specimen.Files.Basic

/-!
# Folders of documents

A document refers to others by addresses that begin at its own folder, and a report shows such an
address put together with that of the document. What is read at the address that is put together is
what is read from the folder of the document, however the document itself was addressed: with steps
up and down, with empty steps and with full stops.
-/

namespace Specimen

/-! ## Steps -/

namespace Address

theorem stepsFrom_slash (step cs ds : List Char) :
    stepsFrom step (cs ++ '/' :: ds) = stepsFrom step cs ++ stepsFrom [] ds := by
  induction cs generalizing step with
  | nil => rfl
  | cons c cs ih =>
    rw [List.cons_append, stepsFrom, stepsFrom]
    split
    · rw [ih, List.cons_append]
    · rw [ih]

theorem stepsFrom_of_not_mem {cs : List Char} (h : '/' ∉ cs) (step : List Char) :
    stepsFrom step cs = [String.ofList (step.reverse ++ cs)] := by
  induction cs generalizing step with
  | nil => rw [stepsFrom, List.append_nil]
  | cons c cs ih =>
    rw [stepsFrom, if_neg (List.ne_of_not_mem_cons h).symm, ih (List.not_mem_of_not_mem_cons h),
      List.reverse_cons, List.append_assoc]
    rfl

/-- No step holds a slash. -/
theorem not_mem_of_mem_stepsFrom {step cs : List Char} (h : '/' ∉ step) :
    ∀ s ∈ stepsFrom step cs, '/' ∉ s.toList := by
  induction cs generalizing step with
  | nil =>
    intro s hs
    rw [stepsFrom, List.mem_singleton] at hs
    rw [hs, String.toList_ofList, List.mem_reverse]
    exact h
  | cons c cs ih =>
    rw [stepsFrom]
    split
    · intro s hs
      rcases List.mem_cons.mp hs with rfl | hs
      · rw [String.toList_ofList, List.mem_reverse]
        exact h
      · exact ih List.not_mem_nil s hs
    · next hc => exact ih (List.not_mem_cons_of_ne_of_not_mem (Ne.symm hc) h)

/-- Steps that are put together are the steps of the address that this gives. -/
theorem steps_intercalate {steps : List String} (hne : steps ≠ [])
    (h : ∀ s ∈ steps, '/' ∉ s.toList) : Address.steps ⟨"/".intercalate steps⟩ = steps := by
  unfold Address.steps
  induction steps with
  | nil => exact absurd rfl hne
  | cons first rest ih =>
    have hfirst := stepsFrom_of_not_mem (h first List.mem_cons_self) []
    rw [List.reverse_nil, List.nil_append, String.ofList_toList] at hfirst
    cases rest with
    | nil => rw [String.intercalate_singleton, hfirst]
    | cons second rest =>
      have hrest := ih (List.cons_ne_nil _ _) fun s hs => h s (List.mem_cons_of_mem _ hs)
      rw [String.intercalate_cons_cons, String.toList_append, String.toList_append,
        List.append_assoc]
      change stepsFrom [] (first.toList ++ '/' :: ("/".intercalate (second :: rest)).toList) = _
      rw [stepsFrom_slash, hfirst, hrest, List.singleton_append]

theorem head?_stepsFrom_ne {step : List Char} (h : step ≠ []) (cs : List Char) :
    (stepsFrom step cs).head? ≠ some "" := by
  have hne {step : List Char} (h : step ≠ []) : String.ofList step.reverse ≠ "" := fun heq => by
    have hnil := congrArg String.toList heq
    rw [String.toList_ofList] at hnil
    exact h (List.reverse_eq_nil_iff.mp hnil)
  induction cs generalizing step with
  | nil => exact fun heq => hne h (Option.some.inj heq)
  | cons c cs ih =>
    rw [stepsFrom]
    split
    · exact fun heq => hne h (Option.some.inj heq)
    · exact ih (List.cons_ne_nil _ _)

/-- The first step of an address is empty only where the address is empty or begins at the top. -/
theorem head?_steps_ne {a : Address} (hne : a.text ≠ "") (h : a.isAbsolute = false) :
    a.steps.head? ≠ some "" := by
  unfold isAbsolute at h
  unfold Address.steps
  cases hlist : a.text.toList with
  | nil => exact absurd (String.toList_eq_nil_iff.mp hlist) hne
  | cons c cs =>
    rw [hlist] at h
    have hc : c ≠ '/' := fun heq => by
      rw [heq] at h
      cases h
    rw [stepsFrom, if_neg hc]
    exact head?_stepsFrom_ne (List.cons_ne_nil _ _) cs

/-- Only an address that begins at the top has an empty step first and something behind it. -/
theorem exists_steps_of_isAbsolute {a : Address} (h : a.isAbsolute) :
    ∃ rest, a.steps = "" :: rest := by
  unfold isAbsolute at h
  unfold Address.steps
  cases hlist : a.text.toList with
  | nil =>
    rw [hlist] at h
    cases h
  | cons c cs =>
    rw [hlist] at h
    have hc : c = '/' := Option.some.inj (beq_iff_eq.mp h)
    rw [hc, stepsFrom, if_pos rfl]
    exact ⟨_, rfl⟩

theorem steps_absolute (text : String) : Address.steps ⟨"/" ++ text⟩ = "" :: Address.steps ⟨text⟩ := by
  unfold Address.steps
  rw [String.toList_append]
  rfl

theorem mem_of_mem_dropIdle {isFirst : Bool} {steps : List String} :
    ∀ s ∈ dropIdle isFirst steps, s ∈ steps := by
  induction steps generalizing isFirst with
  | nil => exact fun s hs => hs
  | cons step rest ih =>
    rw [dropIdle]
    split
    · exact fun s hs => absurd hs List.not_mem_nil
    · exact List.forall_mem_cons.mpr
        ⟨List.mem_cons_self, fun s hs => List.mem_cons_of_mem _ (ih s hs)⟩

theorem dropIdle_concat {last : String} (h : isIdle last = false) (isFirst : Bool)
    (before : List String) : dropIdle isFirst (before ++ [last]) = before ++ [last] := by
  induction before generalizing isFirst with
  | nil =>
    rw [List.nil_append, dropIdle, dropIdle, h, Bool.and_false, Bool.false_and]
    rfl
  | cons step rest ih =>
    rw [List.cons_append, dropIdle, ih]
    exact if_neg (by simp)

/-- The folder of a file is what is before its own step. -/
theorem outer_concat {last : String} (h : isIdle last = false) (isFirst : Bool)
    (before : List String) : outer isFirst (before ++ [last]) = some (dropIdle isFirst before) := by
  unfold outer
  dsimp only
  rw [dropIdle_concat h, List.dropLast_concat]
  exact if_neg (by simp)

theorem head?_dropIdle {isFirst : Bool} {steps : List String} (h : steps.head? ≠ some "") :
    (dropIdle isFirst steps).head? ≠ some "" := by
  cases steps with
  | nil => exact h
  | cons step rest =>
    rw [dropIdle]
    split
    · exact nofun
    · exact h

end Address

/-! ## Where steps lead -/

namespace Files

open Address

variable {fs : Files} {spot : Spot} {here there : FileName} {steps others : List String}

theorem follow_append (fs : Files) (spot : Spot) (steps others : List String) :
    fs.follow spot (steps ++ others)
      = (fs.follow spot steps).bind fun spot => fs.follow spot others := by
  induction steps generalizing spot with
  | nil => rfl
  | cons step rest ih =>
    rw [List.cons_append, Files.follow, Files.follow]
    cases fs.step spot step with
    | error fault => rfl
    | ok spot => exact ih spot

theorem follow_of_follow (h : fs.follow spot steps = .ok (.folder here)) :
    fs.follow spot (steps ++ others) = fs.follow (.folder here) others := by
  rw [follow_append, h]
  rfl

theorem follow_idle {step : String} (h : isIdle step = true) :
    fs.follow (.folder here) (step :: steps) = fs.follow (.folder here) steps := by
  rw [Files.follow, Files.step, if_pos h]

/-- There is no way on from a file. -/
theorem exists_folder_of_follow (h : fs.follow spot steps = .ok (.folder there)) :
    ∃ here, spot = .folder here := by
  cases spot with
  | folder here => exact ⟨here, rfl⟩
  | file name text =>
    cases steps with
    | nil => cases h
    | cons step rest =>
      rw [Files.follow, Files.step] at h
      cases h

theorem name_of_spot? {name : FileName} (h : fs.spot? name = some spot) : name = spot.name := by
  unfold spot? at h
  split at h
  · cases h
    rfl
  · split at h <;> cases h
    rfl

/-- Idle steps at the end lead nowhere else. -/
theorem follow_dropIdle (isFirst : Bool) (h : fs.follow (.folder here) steps = .ok (.folder there)) :
    fs.follow (.folder here) (dropIdle isFirst steps) = .ok (.folder there) := by
  induction steps generalizing here isFirst with
  | nil => exact h
  | cons step rest ih =>
    rw [dropIdle]
    split
    · next hidle =>
      rw [Bool.and_eq_true, Bool.and_eq_true, List.isEmpty_iff] at hidle
      obtain ⟨⟨hkept, hidle⟩, -⟩ := hidle
      rw [follow_idle hidle] at h
      have := ih false h
      rwa [hkept] at this
    · rw [Files.follow] at h ⊢
      split at h
      · next next _ =>
        obtain ⟨here', rfl⟩ := exists_folder_of_follow h
        exact ih false h
      · cases h

/-- The last step to a file names it in its folder. -/
theorem exists_steps_of_follow {name : FileName} {text : String}
    (h : fs.follow (.folder here) steps = .ok (.file name text)) : ∃ before last,
    steps = before ++ [last] ∧ isIdle last = false
      ∧ fs.follow (.folder here) before = .ok (.folder name.dropLast) := by
  induction steps generalizing here with
  | nil => cases h
  | cons step rest ih =>
    rw [Files.follow] at h
    split at h
    · next next hstep =>
      cases next with
      | folder next =>
        obtain ⟨before, last, rfl, hlast, hbefore⟩ := ih h
        refine ⟨step :: before, last, rfl, hlast, ?_⟩
        rw [Files.follow, hstep]
        exact hbefore
      | file other old =>
        -- there is no way on, so this is the last step
        cases rest with
        | cons step rest =>
          rw [Files.follow, Files.step] at h
          cases h
        | nil =>
          cases h
          rw [Files.step] at hstep
          split at hstep
          · cases hstep
          · next hidle =>
            split at hstep
            · cases hstep
            · split at hstep
              · next hspot =>
                cases hstep
                have hname : (here ++ [step]) = name := name_of_spot? hspot
                refine ⟨[], step, rfl, Bool.eq_false_iff.mpr hidle, ?_⟩
                rw [← hname, List.dropLast_concat, Files.follow]
              · cases hstep
    · cases h

/-! ## The folder of a document -/

/-- The files, with a folder as the working directory. -/
def inside (fs : Files) (folder : FileName) : Files := { fs with home := folder }

theorem follow_inside (fs : Files) (folder : FileName) (spot : Spot) (steps : List String) :
    (fs.inside folder).follow spot steps = fs.follow spot steps := by
  induction steps generalizing spot with
  | nil => rfl
  | cons step rest ih =>
    rw [Files.follow, Files.follow]
    have hstep : (fs.inside folder).step spot step = fs.step spot step := by
      cases spot <;> rfl
    rw [hstep]
    cases fs.step spot step with
    | error fault => rfl
    | ok spot => exact ih spot

/-- Steps that are put together lead where they lead one by one. -/
theorem follow_intercalate (h : ∀ s ∈ steps, '/' ∉ s.toList) :
    fs.follow (.folder here) (Address.steps ⟨"/".intercalate steps⟩)
      = fs.follow (.folder here) steps := by
  cases steps with
  | nil => exact follow_idle rfl
  | cons step rest => rw [steps_intercalate (List.cons_ne_nil _ _) h]

theorem follow_of_read {a : Address} {name : FileName} {text : String}
    (h : fs.read a = .ok (name, text)) :
    a.text ≠ "" ∧ fs.follow (.folder (fs.start a)) a.steps = .ok (.file name text) := by
  unfold read at h
  split at h
  · next hlocate =>
    cases h
    unfold locate at hlocate
    split at hlocate
    · cases hlocate
    · next htext => exact ⟨htext, hlocate⟩
  · cases h
  · cases h

/-- The address leads to the folder, or is empty where the folder is the working directory. -/
def LeadsTo (fs : Files) (a : Address) (folder : FileName) : Prop :=
  if a.text = "" then fs.home = folder
  else fs.follow (.folder (fs.start a)) a.steps = .ok (.folder folder)

/-- Steps from the top, put together, lead where they lead one by one. -/
theorem leadsTo_absolute (hslash : ∀ s ∈ steps, '/' ∉ s.toList)
    (h : fs.follow (.folder []) steps = .ok (.folder there)) :
    fs.LeadsTo ⟨"/" ++ "/".intercalate steps⟩ there := by
  rw [LeadsTo, if_neg (by simp), steps_absolute, follow_idle rfl, follow_intercalate hslash, start,
    if_pos (by simp [isAbsolute])]
  exact h

/-- So do steps from the working directory, if they do not begin with an empty one. -/
theorem leadsTo_relative (hslash : ∀ s ∈ steps, '/' ∉ s.toList) (hhead : steps.head? ≠ some "")
    (h : fs.follow (.folder fs.home) steps = .ok (.folder there)) :
    fs.LeadsTo ⟨"/".intercalate steps⟩ there := by
  cases steps with
  | nil =>
    unfold LeadsTo
    exact (if_pos rfl).mpr (Spot.folder.inj (Except.ok.inj h))
  | cons first rest =>
    -- An address that is empty or begins at the top has an empty step first.
    have hput := steps_intercalate (List.cons_ne_nil _ _) hslash
    have htext : "/".intercalate (first :: rest) ≠ "" := fun heq => by
      rw [heq] at hput
      exact hhead (congrArg List.head? hput.symm)
    have habs : ¬(Address.mk ("/".intercalate (first :: rest))).isAbsolute := fun habs => by
      obtain ⟨behind, hbehind⟩ := exists_steps_of_isAbsolute habs
      rw [hput] at hbehind
      exact hhead (congrArg List.head? hbehind)
    rw [LeadsTo, if_neg htext, hput, start, if_neg habs]
    exact h

/-- The address of the folder of a document leads to the folder that the file is in. -/
theorem exists_folder_of_read {a : Address} {name : FileName} {text : String}
    (h : fs.read a = .ok (name, text)) :
    ∃ folder, a.folder? = some folder ∧ fs.LeadsTo folder name.dropLast := by
  obtain ⟨htext, hfollow⟩ := follow_of_read h
  obtain ⟨before, last, hsteps, hlast, hbefore⟩ := exists_steps_of_follow hfollow
  have hslash : ∀ s ∈ before, '/' ∉ s.toList := fun s hs =>
    not_mem_of_mem_stepsFrom List.not_mem_nil s (hsteps ▸ List.mem_append_left _ hs)
  unfold folder?
  by_cases habs : a.isAbsolute
  · obtain ⟨rest, hrest⟩ := exists_steps_of_isAbsolute habs
    rw [hrest] at hsteps
    cases before with
    | nil =>
      cases hsteps
      cases hlast
    | cons first before =>
      obtain ⟨rfl, rfl⟩ : first = "" ∧ rest = before ++ [last] :=
        ⟨(List.cons.inj hsteps).1.symm, (List.cons.inj hsteps).2⟩
      rw [if_pos habs, hrest, List.drop_one, List.tail_cons, outer_concat hlast]
      rw [start, if_pos habs, follow_idle rfl] at hbefore
      refine ⟨_, rfl, leadsTo_absolute (fun s hs => ?_) (follow_dropIdle false hbefore)⟩
      exact hslash s (List.mem_cons_of_mem _ (mem_of_mem_dropIdle s hs))
  · have hhead : before.head? ≠ some "" := fun heq =>
      head?_steps_ne htext (Bool.eq_false_iff.mpr habs) (by
        rw [hsteps, List.head?_append, heq, Option.some_or])
    rw [if_neg habs, hsteps, outer_concat hlast]
    rw [start, if_neg habs] at hbefore
    exact ⟨_, rfl, leadsTo_relative (fun s hs => hslash s (mem_of_mem_dropIdle s hs))
      (head?_dropIdle hhead) (follow_dropIdle true hbefore)⟩

/-- A location inside a folder leads where it leads from that folder. -/
theorem follow_steps_inside {F : Address} {folder : FileName} {location : String}
    (h : fs.follow spot F.steps = .ok (.folder folder)) (htext : F.text ≠ "") :
    fs.follow spot (F.inside location).steps
      = fs.follow (.folder folder) (Address.steps ⟨location⟩) := by
  unfold Address.inside
  rw [decide_eq_false htext, Bool.false_or]
  split
  · next hlast =>
    -- the slash that is there gives the folder an empty step at its end
    obtain ⟨cs, hcs⟩ := List.getLast?_eq_some_iff.mp (beq_iff_eq.mp hlast)
    have hsteps : F.steps = stepsFrom [] cs ++ [""] := by
      rw [Address.steps, hcs, stepsFrom_slash]
      rfl
    have hput : Address.steps ⟨F.text ++ location⟩
        = stepsFrom [] cs ++ Address.steps ⟨location⟩ := by
      rw [Address.steps, String.toList_append, hcs, List.append_assoc]
      exact stepsFrom_slash _ _ _
    rw [hsteps, follow_append] at h
    rw [hput, follow_append]
    obtain ⟨next, hcut, h⟩ := exists_of_bind_eq_ok h
    obtain ⟨here, rfl⟩ := exists_folder_of_follow h
    have hhere : fs.follow (.folder here) [""] = .ok (.folder here) := follow_idle rfl
    cases hhere.symm.trans h
    rw [hcut]
    rfl
  · have hput : Address.steps ⟨F.text ++ "/" ++ location⟩
        = F.steps ++ Address.steps ⟨location⟩ := by
      rw [Address.steps, String.toList_append, String.toList_append, List.append_assoc]
      exact stepsFrom_slash _ _ _
    rw [hput, follow_of_follow h]

theorem isAbsolute_inside {F : Address} (htext : F.text ≠ "") (location : String) :
    (F.inside location).isAbsolute = F.isAbsolute := by
  cases hlist : F.text.toList with
  | nil => exact absurd (String.toList_eq_nil_iff.mp hlist) htext
  | cons c cs =>
    unfold Address.inside isAbsolute
    split
    · rw [String.toList_append, hlist]
      rfl
    · rw [String.toList_append, String.toList_append, hlist]
      rfl

/-- **What is read at a location inside a folder is what is read from that folder.** -/
theorem read_inside {F : Address} {folder : FileName} {location : String}
    (h : fs.LeadsTo F folder) (hrel : (Address.mk location).isAbsolute = false) :
    (fs.read (F.inside location)).toOption = ((fs.inside folder).read ⟨location⟩).toOption := by
  unfold LeadsTo at h
  split at h
  · next htext =>
    have hinside : F.inside location = ⟨location⟩ := by
      rw [Address.inside, decide_eq_true htext, Bool.true_or, if_pos rfl, htext,
        String.empty_append]
    rw [hinside, ← h]
    rfl
  · next htext =>
    have hstart : fs.start (F.inside location) = fs.start F := by
      rw [start, isAbsolute_inside htext, start]
    have hput : (F.inside location).text ≠ "" := by
      unfold Address.inside
      split <;> simp [htext]
    have hlocate : fs.locate (F.inside location)
        = fs.follow (.folder folder) (Address.steps ⟨location⟩) := by
      rw [locate, if_neg hput, hstart, follow_steps_inside h htext]
    have hlocate' : (fs.inside folder).locate ⟨location⟩ = if location = "" then .error .notFound
        else fs.follow (.folder folder) (Address.steps ⟨location⟩) := by
      rw [locate, follow_inside, start, hrel]
      rfl
    unfold read
    rw [hlocate, hlocate']
    by_cases hempty : location = ""
    · -- no file either way, though the faults differ
      have hidle : fs.follow (.folder folder) (Address.steps ⟨""⟩) = .ok (.folder folder) :=
        follow_idle rfl
      rw [if_pos hempty, hempty, hidle]
      rfl
    · rw [if_neg hempty]

theorem read_inside_of_isAbsolute (folder : FileName) {a : Address} (h : a.isAbsolute) :
    (fs.inside folder).read a = fs.read a := by
  have hlocate : (fs.inside folder).locate a = fs.locate a := by
    rw [locate, locate, follow_inside, start, if_pos h, start, if_pos h]
  rw [read, read, hlocate]

/-- **What a document refers to is what is read from the folder of its file,** however the document
itself was addressed. -/
theorem read_resolve {a : Address} {name : FileName} {text : String}
    (h : fs.read a = .ok (name, text)) (location : String) :
    (fs.read (resolve (some a) location)).toOption
      = ((fs.inside name.dropLast).read ⟨location⟩).toOption := by
  unfold resolve
  split
  · next habs => rw [read_inside_of_isAbsolute _ habs]
  · next hrel =>
    obtain ⟨folder, hfolder, hleads⟩ := exists_folder_of_read h
    rw [Option.bind_some, hfolder]
    exact read_inside hleads (Bool.eq_false_iff.mpr hrel)

end Files

end Specimen

import Specimen.Error
import Specimen.Files.Address

/-!
# Files

A tree of files and folders with a working directory in it. A file has one name, the list of the
folders around it and its own name, and many addresses. There are no links, so to follow an address
is to go down into folders and up again.
-/

namespace Specimen

/-- The name of a file or folder: the steps that lead down to it from the top. -/
abbrev FileName := List String

/-- Files with their texts, the folders, and the working directory. -/
structure Files where
  files : List (FileName × String) := []
  folders : List FileName := [[]]
  home : FileName := []
deriving DecidableEq, Repr, Inhabited

/-- What an address leads to. -/
inductive Spot where
  | file (name : FileName) (text : String)
  | folder (name : FileName)
deriving DecidableEq, Repr

/-- The name of a file or folder. -/
def Spot.name : Spot → FileName
  | file name _ => name
  | folder name => name

namespace Files

/-! ## Finding -/

/-- What has a name. -/
def spot? (fs : Files) (name : FileName) : Option Spot :=
  match fs.files.lookup name with
  | some text => some (.file name text)
  | none => if fs.folders.contains name then some (.folder name) else none

/-- Goes one step on. There is no way up from the top. -/
def step (fs : Files) : Spot → String → Except FileFault Spot
  | .file _ _, _ => .error .notDirectory
  | .folder name, step =>
    if Address.isIdle step then .ok (.folder name)
    else if step = ".." then .ok (.folder name.dropLast)
    else
      match fs.spot? (name ++ [step]) with
      | some spot => .ok spot
      | none => .error .notFound

/-- Goes on with steps. -/
def follow (fs : Files) (spot : Spot) : List String → Except FileFault Spot
  | [] => .ok spot
  | step :: rest =>
    match fs.step spot step with
    | .ok spot => fs.follow spot rest
    | .error fault => .error fault

/-- The folder that an address begins at. -/
def start (fs : Files) (a : Address) : FileName := if a.isAbsolute then [] else fs.home

/-- What an address leads to. An empty address leads nowhere. -/
def locate (fs : Files) (a : Address) : Except FileFault Spot :=
  if a.text = "" then .error .notFound else fs.follow (.folder (fs.start a)) a.steps

/-- The name and the text of the file at an address. -/
def read (fs : Files) (a : Address) : Except FileFault (FileName × String) :=
  match fs.locate a with
  | .ok (.file name text) => .ok (name, text)
  | .ok (.folder _) => .error .isDirectory
  | .error fault => .error fault

/-- The address that begins at the top and takes no step back. -/
def addressOf (name : FileName) : Address := ⟨"/" ++ "/".intercalate name⟩

/-- The one address that stands for all addresses of a file or folder. -/
def canonical (fs : Files) (a : Address) : Except FileFault Address :=
  (fs.locate a).map fun spot => addressOf spot.name

/-! ## Changing -/

/-- Puts a text for a name, in place of the one there is. -/
def putInto (name : FileName) (text : String) : List (FileName × String) → List (FileName × String)
  | [] => [(name, text)]
  | file :: rest => if file.1 = name then (name, text) :: rest else file :: putInto name text rest

/-- The folders around a name, the outermost one first. -/
def foldersAround (name : FileName) : List FileName :=
  (List.range name.length).map fun n => name.take n

/-- Adds the folders that are missing. -/
def addFolders (fs : Files) (names : List FileName) : Files :=
  { fs with folders := fs.folders ++ names.filter fun name => !fs.folders.contains name }

/-- Puts a file, with the folders around it. -/
def put (fs : Files) (name : FileName) (text : String) : Files :=
  { fs.addFolders (foldersAround name) with files := putInto name text fs.files }

/-- Takes a file away. The folders around it stay. -/
def remove (fs : Files) (name : FileName) : Files :=
  { fs with files := fs.files.filter fun file => file.1 ≠ name }

/-- A working directory in which there is nothing yet. -/
def emptyAt (home : FileName) : Files :=
  addFolders { home } (foldersAround home ++ [home])

/-- Drops the empty steps at the end, and tells whether there were any. -/
def dropSlashes (steps : List String) : List String × Bool :=
  let kept := (steps.reverse.dropWhile (· == "")).reverse
  (kept, kept.length < steps.length)

/-- Writes a text to the file at an address, which is created if only its folder is there. -/
def write (fs : Files) (a : Address) (text : String) : Except FileFault Files :=
  if a.text = "" then .error .notFound
  else
    let (steps, isFolder) := dropSlashes a.steps
    match steps.getLast? with
    | none => .error .isDirectory
    | some last =>
      match fs.follow (.folder (fs.start a)) steps.dropLast with
      | .error fault => .error fault
      | .ok (.file _ _) => .error .notDirectory
      | .ok (.folder name) =>
        if isFolder || Address.isIdle last || last == ".."
            || fs.folders.contains (name ++ [last]) then
          .error .isDirectory
        else .ok { fs with files := putInto (name ++ [last]) text fs.files }

/-! ## Files that have been read -/

/-- The number of files whose names are not in a list. -/
def unread (fs : Files) (names : List FileName) : Nat :=
  (fs.files.filter fun file => !names.contains file.1).length

theorem mem_of_spot? {fs : Files} {name other : FileName} {text : String}
    (h : fs.spot? name = some (.file other text)) : (other, text) ∈ fs.files := by
  unfold spot? at h
  split at h
  · next found =>
    cases h
    obtain ⟨before, behind, eq, _⟩ := List.lookup_eq_some_iff.mp found
    exact eq ▸ List.mem_append_right before (List.mem_cons_self ..)
  · split at h <;> cases h

theorem mem_of_step {fs : Files} {spot : Spot} {s : String} {name : FileName} {text : String}
    (h : fs.step spot s = .ok (.file name text)) : (name, text) ∈ fs.files := by
  unfold step at h
  split at h
  · cases h
  · split at h
    · cases h
    · split at h
      · cases h
      · split at h
        · next found => cases h; exact mem_of_spot? found
        · cases h

theorem mem_of_follow {fs : Files} {steps : List String} {spot : Spot} {name : FileName}
    {text : String} (hs : ∀ other t, spot = .file other t → (other, t) ∈ fs.files)
    (h : fs.follow spot steps = .ok (.file name text)) : (name, text) ∈ fs.files := by
  induction steps generalizing spot with
  | nil => cases h; exact hs _ _ rfl
  | cons s rest ih =>
    unfold follow at h
    split at h
    · next hstep => exact ih (fun n t e => mem_of_step (e ▸ hstep)) h
    · cases h

/-- What is read is one of the files. -/
theorem mem_of_read {fs : Files} {a : Address} {name : FileName} {text : String}
    (h : fs.read a = .ok (name, text)) : (name, text) ∈ fs.files := by
  unfold read at h
  split at h
  · next found =>
    cases h
    unfold locate at found
    split at found
    · cases found
    · exact mem_of_follow (fun _ _ e => by cases e) found
  · cases h
  · cases h

theorem length_filter_lt {α : Type} {p q : α → Bool} (h : ∀ a, q a = true → p a = true) {a : α}
    {l : List α} (mem : a ∈ l) (hp : p a = true) (hq : q a = false) :
    (l.filter q).length < (l.filter p).length := by
  obtain ⟨before, behind, rfl⟩ := List.append_of_mem mem
  have le (l : List α) : (l.filter q).length ≤ (l.filter p).length := by
    simpa [List.countP_eq_length_filter] using List.countP_mono_left fun a _ => h a
  have := le before
  have := le behind
  simp [hp, hq]
  omega

/-- To read a file that has not been read before leaves fewer files unread. -/
theorem unread_append_lt {fs : Files} {names : List FileName} {name : FileName} {text : String}
    (mem : (name, text) ∈ fs.files) (fresh : names.contains name = false) :
    fs.unread (names ++ [name]) < fs.unread names := by
  refine length_filter_lt (fun file h => ?_) mem ?_ ?_
  · simp only [List.contains_eq_mem, Bool.not_eq_true', decide_eq_false_iff_not,
      List.mem_append] at h ⊢
    exact fun hm => h (.inl hm)
  · simpa using fresh
  · simp

end Files

end Specimen

/-!
# Addresses of files

How a file is named: by steps with slashes between them, from the working directory on, or from the
top of the file system if a slash comes first. A schema document names others by addresses that
begin at its own folder. Addresses are put together as texts and not tidied, since reports show them
as they were put together.
-/

namespace Specimen

/-- The name of a file or folder as it is given. -/
structure Address where
  text : String
deriving DecidableEq, Repr, Inhabited

namespace Address

/-! ## Steps -/

/-- Cuts a text at its slashes. `step` holds, last character first, the step that has been begun. -/
def stepsFrom (step : List Char) : List Char → List String
  | [] => [String.ofList step.reverse]
  | c :: cs =>
    if c = '/' then String.ofList step.reverse :: stepsFrom [] cs else stepsFrom (c :: step) cs

/-- The steps of an address, with an empty one before, between or behind slashes that have nothing
beside them. -/
def steps (a : Address) : List String := stepsFrom [] a.text.toList

/-- The address begins at the top of the file system. -/
def isAbsolute (a : Address) : Bool := a.text.toList.head? == some '/'

/-- A step that leads nowhere else. -/
def isIdle (step : String) : Bool := step == "" || step == "."

/-- Drops the idle steps at the end, but not a full stop that the address begins with. -/
def dropIdle (isFirst : Bool) : List String → List String
  | [] => []
  | step :: rest =>
    let kept := dropIdle false rest
    if kept.isEmpty && isIdle step && !(isFirst && step == ".") then [] else step :: kept

/-- The steps of the folder that holds what the steps lead to, if they lead anywhere. -/
def outer (isFirst : Bool) (steps : List String) : Option (List String) :=
  let kept := dropIdle isFirst steps
  if kept.isEmpty then none else some (dropIdle isFirst kept.dropLast)

/-- The address of the folder that holds the file. -/
def folder? (a : Address) : Option Address :=
  if a.isAbsolute then
    (outer false (a.steps.drop 1)).map fun steps => ⟨"/" ++ "/".intercalate steps⟩
  else (outer true a.steps).map fun steps => ⟨"/".intercalate steps⟩

/-! ## Putting addresses together -/

/-- The address of what is at a location inside a folder. -/
def inside (folder : Address) (location : String) : Address :=
  if folder.text = "" || folder.text.toList.getLast? == some '/' then ⟨folder.text ++ location⟩
  else ⟨folder.text ++ "/" ++ location⟩

/-- The address that a document at `base`, or one without an address, refers to as `location`. -/
def resolve (base : Option Address) (location : String) : Address :=
  if (Address.mk location).isAbsolute then ⟨location⟩
  else
    match base.bind folder? with
    | some folder => folder.inside location
    | none => ⟨location⟩

end Address

end Specimen

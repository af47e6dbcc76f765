import Specimen.CommandLine.Run
import Std.Time.Zoned

/-!
# The program

Gathers the files that a command needs, has the command carried out, and puts out what it leads to.
-/

namespace Specimen.CommandLine

/-- The time by the clock of the machine. -/
def clock : IO DateTime := do
  let now ← Std.Time.PlainDateTime.now
  return {
    year := now.date.year
    month := now.date.month.val.toNat
    day := now.date.day.val.toNat
    hour := now.time.hour.val.toNat
    minute := now.time.minute.val.toNat
    second := now.time.second.val.toNat
    nanosecond := now.time.nanosecond.val.toNat }

/-- The name that a path from the top stands for. -/
def nameOf (path : String) : FileName :=
  (Address.mk path).steps.filter fun step => !Address.isIdle step

/-- Adds what is found at an address, if anything is. -/
def look (fs : Files) (a : Address) : IO Files := do
  try
    let path ← IO.FS.realPath a.text
    let name := nameOf path.toString
    if ← path.isDir then return fs.addFolders (Files.foldersAround name ++ [name])
    return fs.put name (← IO.FS.readFile path)
  catch _ => return fs

/-- Adds what is found at an address, on the way to it, and wherever a schema document refers to. -/
partial def gather (fs : Files) (seen : List Address) : List Address → IO Files
  | [] => return fs
  | a :: rest => do
    if seen.contains a then gather fs seen rest
    else
      let fs ← look fs a
      let links : List Address := match fs.read a with
        | .ok (_, text) =>
          match SchemaDocument.read (some a) none text with
          | .ok document => document.links.map Link.address
          | .error _ => []
        | .error _ => []
      gather fs (a :: seen) (a.folder?.toList ++ rest ++ links)

/-- The addresses that a command begins with. What it writes to need not be there, but its folder.
-/
def Command.addresses : Command → List Address
  | .generate request =>
    (request.schema :: request.config.toList).map Address.mk
      ++ (request.output.bind fun output => (Address.mk output).folder?).toList
  | .roots schema => [⟨schema⟩]
  | _ => []

/-- Writes the output file, if the command has one and was carried out. -/
def writeOutput (command : Command) (outcome : Outcome) : IO Unit := do
  match command with
  | .generate request =>
    match request.output, outcome.code with
    | some output, 0 =>
      match outcome.files.read ⟨output⟩ with
      | .ok (_, text) => IO.FS.writeFile output text
      | .error _ => return
    | _, _ => return
  | _ => return

end Specimen.CommandLine

open Specimen CommandLine in
/-- Carries out the command that the program is called with. -/
def main (words : List String) : IO UInt32 := do
  match readCommand words with
  | none =>
    IO.eprint programHelp
    return 2
  | some command =>
    let home := nameOf (← IO.FS.realPath ".").toString
    let fs ← gather (Files.emptyAt home) [] command.addresses
    let outcome := run fs (← clock) command
    try
      writeOutput command outcome
      IO.print outcome.stdout
      IO.eprint outcome.stderr
      return outcome.code.toUInt32
    catch e =>
      IO.eprintln ("Error: " ++ toString e)
      return 1

import Specimen.CommandLine.Arguments
import Specimen.CommandLine.Help
import Specimen.Generate.Sample
import Specimen.Name.Clark
import Specimen.Policy.File
import Specimen.Schema.Cache

/-!
# Carrying out commands

A command either does all it is told to or reports one failure and leaves no output. All samples are
made before the first one is put out.
-/

namespace Specimen.CommandLine

/-- What a call of the program leads to: its exit code, its two outputs, and the files as it leaves
them. -/
structure Outcome where
  code : Nat
  stdout : String := ""
  stderr : String := ""
  files : Files
deriving Repr

namespace Outcome

/-- The command was carried out. -/
def done (files : Files) (stdout : String) : Outcome := { code := 0, stdout, files }

/-- The command failed. -/
def failed (files : Files) (report : String) : Outcome :=
  { code := 1, stderr := "Error: " ++ report ++ "\n", files }

/-- The words make no command. -/
def misused (files : Files) : Outcome := { code := 2, files }

end Outcome

/-- The samples that are asked for. -/
def requestedSamples (fs : Files) (clock : DateTime) (request : Request) :
    Except Error (List String) := do
  let model ← Model.openFile fs ⟨request.schema⟩
  let root ← readClark request.root model.target
  let policy ← match request.config with
    | some config => Policy.ofFile fs ⟨config⟩
    | none => .ok {}
  let setting : Leaf.Setting := ⟨model, policy, policy.now.getD clock⟩
  let format : SampleFormat := match request.form with
    | .xml => .xml request.indent
    | .events => .events
  Document.samples (Document.sample setting root format) request.count request.seed

/-- Generates samples, and puts them out one behind the other. -/
def runGenerate (fs : Files) (clock : DateTime) (request : Request) : Outcome :=
  match requestedSamples fs clock request with
  | .error e => .failed fs e.message
  | .ok texts =>
    match request.output with
    | none => .done fs (String.join texts)
    | some output =>
      match fs.write ⟨output⟩ (String.join texts) with
      | .ok fs => .done fs ""
      | .error fault => .failed fs fault.message

/-- Lists the elements that a document may start with. -/
def runRoots (fs : Files) (schema : String) : Outcome :=
  match Model.openFile fs ⟨schema⟩ with
  | .error e => .failed fs e.message
  | .ok model => .done fs (lines (model.rootElements.map QName.clark))

/-- Carries out a command. `clock` is the time of the call. -/
def run (fs : Files) (clock : DateTime) : Command → Outcome
  | .generate request => runGenerate fs clock request
  | .roots schema => runRoots fs schema
  | .help topic => .done fs topic.text
  | .version => .done fs versionText

/-- Carries out the command that words make. -/
def call (fs : Files) (clock : DateTime) (words : List String) : Outcome :=
  match readCommand words with
  | some command => run fs clock command
  | none => .misused fs

end Specimen.CommandLine

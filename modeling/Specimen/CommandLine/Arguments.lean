import Specimen.CommandLine.Command
import Specimen.Text.Numeral

/-!
# Arguments

Reads a command from the words that the program is called with. An option is given by a long name
behind two hyphens, or by a letter behind one, and its value is the rest of the word or else the
next word, which may not look like an option. Each option may be given once. Behind two hyphens
alone no word is an option. The words are read from left to right, so that a request for help is
heard unless a mistake comes first.
-/

namespace Specimen.CommandLine

/-! ## Options -/

/-- The options that take a value. -/
inductive Switch where
  | root
  | seed
  | count
  | config
  | form
  | indent
  | output
deriving DecidableEq, Repr

namespace Switch

/-- Every option. -/
def all : List Switch := [root, seed, count, config, form, indent, output]

/-- The long name of an option. -/
def name : Switch → String
  | root => "root"
  | seed => "seed"
  | count => "count"
  | config => "config"
  | form => "format"
  | indent => "indent"
  | output => "output"

/-- The letter of an option. -/
def letter : Switch → Char
  | root => 'r'
  | seed => 's'
  | count => 'n'
  | config => 'c'
  | form => 'f'
  | indent => 'i'
  | output => 'o'

/-- The option with a long name. -/
def ofName? (name : String) : Option Switch := all.find? fun switch => switch.name == name

/-- The option with a letter. -/
def ofLetter? (letter : Char) : Option Switch := all.find? fun switch => switch.letter == letter

/-- The numbers that options take are below this one. -/
def numberLimit : Nat := Nat.pow 2 64

/-- The number that a value denotes. -/
def number? (value : String) : Option Nat := Text.readBelow numberLimit value.toList

/-- The option takes this value. -/
def accepts (value : String) : Switch → Bool
  | root => true
  | seed | count | indent => (number? value).isSome
  | config | output => value ≠ ""
  | form => (Form.ofName? value).isSome

end Switch

/-- What has been given so far: the values of options, and the address of the schema. -/
structure Given where
  values : List (Switch × String) := []
  schema : Option String := none
deriving DecidableEq, Repr

/-- Why no command is read. -/
inductive Stop where
  | misuse
  | help (inFull : Bool)
deriving DecidableEq, Repr

namespace Given

/-- Takes the value of an option. -/
def take (given : Given) (switch : Switch) (value : String) : Except Stop Given :=
  if switch.accepts value && (given.values.lookup switch).isNone then
    .ok { given with values := given.values ++ [(switch, value)] }
  else .error .misuse

/-- Takes a word that is no option: the address of the schema. -/
def takeWord (given : Given) (word : String) : Except Stop Given :=
  if word ≠ "" && given.schema.isNone then .ok { given with schema := some word }
  else .error .misuse

/-- Takes words none of which is an option. -/
def takeWords (given : Given) : List String → Except Stop Given
  | [] => .ok given
  | word :: rest => do (← given.takeWord word).takeWords rest

end Given

/-! ## Words -/

/-- What a word is by itself. A value that stands in the word of its option comes with it. -/
inductive Word where
  | divider
  | long (name : String) (value : Option String)
  | short (letter : Char) (value : Option String)
  | plain (text : String)
deriving DecidableEq, Repr

/-- The value behind the letter of an option, where an equals sign may stand before it. -/
def attached (behind : List Char) : Option String :=
  match behind with
  | [] => none
  | '=' :: value => some (String.ofList value)
  | _ => some (String.ofList behind)

/-- Tells what a word is. -/
def Word.ofText (text : String) : Word :=
  match text.toList with
  | ['-', '-'] => divider
  | '-' :: '-' :: behind =>
    match behind.span (· ≠ '=') with
    | (name, _ :: value) => long (String.ofList name) (some (String.ofList value))
    | (name, []) => long (String.ofList name) none
  | '-' :: letter :: behind => short letter (attached behind)
  | _ => plain text

/-- The word is not an option. -/
def Word.isPlain : Word → Bool
  | plain _ => true
  | _ => false

/-- Reads the words of a command that takes the options in `allowed`. -/
def readWords (allowed : List Switch) (given : Given) : List String → Except Stop Given
  | [] => .ok given
  | word :: rest =>
    let option (found : Option Switch) (value : Option String) : Except Stop Given :=
      match found.filter allowed.contains, value, rest with
      | none, _, _ => .error .misuse
      | some switch, some value, rest => do readWords allowed (← given.take switch value) rest
      | some _, none, [] => .error .misuse
      | some switch, none, value :: rest =>
        if (Word.ofText value).isPlain then do
          readWords allowed (← given.take switch value) rest
        else .error .misuse
    match Word.ofText word with
    | .divider => given.takeWords rest
    | .plain text => do readWords allowed (← given.takeWord text) rest
    | .long "help" none => .error (.help true)
    | .long name value => option (Switch.ofName? name) value
    | .short 'h' _ => .error (.help false)
    | .short letter value => option (Switch.ofLetter? letter) value

/-! ## Commands -/

/-- The request with these values. A root and a schema have to be given. -/
def Request.ofGiven? (given : Given) : Option Request := do
  let value (switch : Switch) := given.values.lookup switch
  let number (switch : Switch) (usual : Nat) := ((value switch).bind Switch.number?).getD usual
  return {
    schema := ← given.schema
    root := ← value .root
    seed := UInt64.ofNat (number .seed 0)
    count := number .count 1
    config := value .config
    form := ((value .form).bind Form.ofName?).getD .xml
    indent := number .indent 0
    output := value .output }

/-- Reads the command to generate samples. -/
def readGenerate (words : List String) : Option Command :=
  match readWords Switch.all {} words with
  | .ok given => (Request.ofGiven? given).map .generate
  | .error (.help inFull) => some (.help (.generate inFull))
  | .error .misuse => none

/-- Reads the command to list the roots. -/
def readRoots (words : List String) : Option Command :=
  match readWords [] {} words with
  | .ok given => given.schema.map .roots
  | .error (.help _) => some (.help .roots)
  | .error .misuse => none

/-- Reads a request for help on a command. -/
def readHelp : List String → Option Command
  | [] => some (.help .program)
  | ["generate"] => some (.help (.generate true))
  | ["roots"] => some (.help .roots)
  | ["help"] => some (.help .help)
  | _ => none

/-- Reads a command, if the words make one. -/
def readCommand : List String → Option Command
  | [] => none
  | "generate" :: words => readGenerate words
  | "roots" :: words => readRoots words
  | "help" :: words => readHelp words
  | word :: _ =>
    match Word.ofText word with
    | .long "help" none => some (.help .program)
    | .short 'h' _ => some (.help .program)
    | .long "version" none => some .version
    | .short 'V' _ => some .version
    | _ => none

end Specimen.CommandLine

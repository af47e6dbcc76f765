/-!
# Commands

What the program can be told to do. Files are given by their addresses, and what is not given stands
at its usual value.
-/

namespace Specimen.CommandLine

/-- The form of the output. -/
inductive Form where
  | xml
  | events
deriving DecidableEq, Repr, Inhabited

/-- The form with a name. -/
def Form.ofName? : String → Option Form
  | "xml" => some xml
  | "events" => some events
  | _ => none

/-- What is asked for when samples are to be generated. -/
structure Request where
  schema : String
  root : String
  seed : UInt64 := 0
  count : Nat := 1
  config : Option String := none
  form : Form := .xml
  indent : Nat := 0
  output : Option String := none
deriving DecidableEq, Repr

/-- What help is asked for: about the program or about a command, in full or as a summary. The
request for help is a command like others. -/
inductive Topic where
  | program
  | generate (inFull : Bool)
  | roots
  | help
deriving DecidableEq, Repr

/-- What the program is told to do. -/
inductive Command where
  | generate (request : Request)
  | roots (schema : String)
  | help (topic : Topic)
  | version
deriving DecidableEq, Repr

end Specimen.CommandLine

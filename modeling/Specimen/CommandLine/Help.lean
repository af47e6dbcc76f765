import Specimen.CommandLine.Command

/-!
# Help

What the program says about itself and its commands.
-/

namespace Specimen.CommandLine

/-- Lines of text, each with its line break. -/
def lines (texts : List String) : String := String.join (texts.map (· ++ "\n"))

/-- The name by which the program is called. -/
def programName : String := "xsd-instance"

/-- The version of the program. -/
def versionText : String := lines [programName ++ " 0.1.0"]

/-- About the program. -/
def programHelp : String := lines [
  "Generate sample XML documents from an XSD schema",
  "",
  "Usage: " ++ programName ++ " <COMMAND>",
  "",
  "Commands:",
  "  generate  Generate sample documents for a root element",
  "  roots     List the global elements usable as root",
  "  help      Print this message or the help of the given subcommand(s)",
  "",
  "Options:",
  "  -h, --help     Print help",
  "  -V, --version  Print version"]

/-- About the command that generates samples, as a summary. -/
def generateSummary : String := lines [
  "Generate sample documents for a root element",
  "",
  "Usage: " ++ programName ++ " generate [OPTIONS] --root <ROOT> <SCHEMA>",
  "",
  "Arguments:",
  "  <SCHEMA>  Path to the XSD schema file",
  "",
  "Options:",
  "  -r, --root <ROOT>      Root element, as `name` or `\x7bnamespace\x7dname`",
  "  -s, --seed <SEED>      Seed of the first document [default: 0]",
  "  -n, --count <COUNT>    Number of documents; document i uses seed + i [default: 1]",
  "  -c, --config <POLICY>  JSON file with generation policy settings",
  "  -f, --format <FORMAT>  Output format [default: xml] [possible values: xml, events]",
  "  -i, --indent <INDENT>  Indentation width for XML output (0 for compact) [default: 0]",
  "  -o, --output <OUTPUT>  Output file (defaults to stdout)",
  "  -h, --help             Print help (see more with '--help')"]

/-- About the command that generates samples, in full. -/
def generateHelp : String := lines [
  "Generate sample documents for a root element",
  "",
  "Usage: " ++ programName ++ " generate [OPTIONS] --root <ROOT> <SCHEMA>",
  "",
  "Arguments:",
  "  <SCHEMA>",
  "          Path to the XSD schema file",
  "",
  "Options:",
  "  -r, --root <ROOT>",
  "          Root element, as `name` or `\x7bnamespace\x7dname`",
  "",
  "  -s, --seed <SEED>",
  "          Seed of the first document",
  "          ",
  "          [default: 0]",
  "",
  "  -n, --count <COUNT>",
  "          Number of documents; document i uses seed + i",
  "          ",
  "          [default: 1]",
  "",
  "  -c, --config <POLICY>",
  "          JSON file with generation policy settings",
  "",
  "  -f, --format <FORMAT>",
  "          Output format",
  "",
  "          Possible values:",
  "          - xml:    XML text",
  "          - events: Recorded document events as JSON",
  "          ",
  "          [default: xml]",
  "",
  "  -i, --indent <INDENT>",
  "          Indentation width for XML output (0 for compact)",
  "          ",
  "          [default: 0]",
  "",
  "  -o, --output <OUTPUT>",
  "          Output file (defaults to stdout)",
  "",
  "  -h, --help",
  "          Print help (see a summary with '-h')"]

/-- About the command that lists the roots. -/
def rootsHelp : String := lines [
  "List the global elements usable as root",
  "",
  "Usage: " ++ programName ++ " roots <SCHEMA>",
  "",
  "Arguments:",
  "  <SCHEMA>  Path to the XSD schema file",
  "",
  "Options:",
  "  -h, --help  Print help"]

/-- About the command that gives help. -/
def helpHelp : String := lines [
  "Print this message or the help of the given subcommand(s)",
  "",
  "Usage: " ++ programName ++ " help [COMMAND]...",
  "",
  "Arguments:",
  "  [COMMAND]...  Print help for the subcommand(s)"]

/-- What is said on a topic. -/
def Topic.text : Topic → String
  | program => programHelp
  | generate inFull => if inFull then generateHelp else generateSummary
  | roots => rootsHelp
  | help => helpHelp

end Specimen.CommandLine

import Specimen.Draw.ChaCha
import Specimen.Generate.Walk
import Specimen.Writer.Recorder
import Specimen.Writer.Xml

/-!
# Samples

The text of a document that is determined by a seed, and rows of such texts. Each document of a row
has a source, a writer and counters of its own, so a row of samples is no more than the samples of
its seeds.
-/

namespace Specimen

/-- How a sample is written: as XML, with so many blanks for each level, or as a list of events. -/
inductive SampleFormat where
  | xml (indent : Nat)
  | events
deriving DecidableEq, Repr

namespace Document

/-- The text of the document of a seed. -/
def sample (w : Leaf.Setting) (root : QName) (format : SampleFormat) (seed : UInt64) :
    Except Error String :=
  match format with
  | .xml indent =>
    let outcome := generate w root (KeyStream.seeded seed) ({ indent } : XmlWriter)
    outcome.result.map fun _ => outcome.writer.text
  | .events =>
    let outcome := generate w root (KeyStream.seeded seed) ({} : Recorder)
    outcome.result.map fun _ => outcome.writer.toJson ++ "\n"

/-- The texts of so many documents, whose seeds count up. The first failure ends the row. -/
def samples (text : UInt64 → Except Error String) : Nat → UInt64 → Except Error (List String)
  | 0, _ => .ok []
  | count + 1, seed => do
    let first ← text seed
    return first :: (← samples text count (seed + 1))

end Document

end Specimen

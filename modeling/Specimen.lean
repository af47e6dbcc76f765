import Specimen.Name.Clark
import Specimen.Name.Prefixes
import Specimen.Schema.SimpleType
import Specimen.Schema.Substitution
import Specimen.Draw.ChaCha
import Specimen.Draw.Scripted
import Specimen.Draw.Range
import Specimen.Decimal.Shortest
import Specimen.Decimal.Read
import Specimen.DateTime
import Specimen.Json.Text
import Specimen.Policy.Json
import Specimen.Generate.Count
import Specimen.Generate.Leaf
import Specimen.Writer.Xml
import Specimen.Writer.Interrupted
import Specimen.Generate.Walk
import Specimen.Xml.Reader
import Specimen.CommandLine.Run
import Specimen.Main
import Specimen.Proofs.Interruption
import Specimen.Proofs.Validity
import Specimen.Proofs.Recursion
import Specimen.Proofs.XmlNames
import Specimen.Proofs.Independence
import Specimen.Proofs.Written
import Specimen.Proofs.Derivation
import Specimen.Proofs.Announcement
import Specimen.Proofs.DistinctNames
import Specimen.Proofs.Values
import Specimen.Proofs.Faults
import Specimen.Proofs.LoadedNames
import Specimen.Proofs.Adoption
import Specimen.Proofs.RootNames
import Specimen.Proofs.Reachability
import Specimen.Proofs.DeclarationOrder
import Specimen.Proofs.Memory
import Specimen.Proofs.WellFormed
import Specimen.Proofs.Unaffected
import Specimen.Proofs.Indentation
import Specimen.Proofs.Branches
import Specimen.Proofs.Scanning
import Specimen.Proofs.TreeReading
import Specimen.Proofs.Layout
import Specimen.Proofs.Lengths
import Specimen.Proofs.Evenness
import Specimen.Proofs.Rows
import Specimen.Proofs.NumberBounds
import Specimen.Proofs.Choices
import Specimen.Proofs.Counts
import Specimen.Proofs.LastWord
import Specimen.Proofs.Extension
import Specimen.Proofs.Substitutes
import Specimen.Proofs.LeafValues
import Specimen.Proofs.HintUses
import Specimen.Proofs.AttributeValues
import Specimen.Proofs.AllowedNamespaces
import Specimen.Proofs.DeclaredElements
import Specimen.Proofs.InheritedTypes
import Specimen.Proofs.SimpleContent
import Specimen.Proofs.Annotations
import Specimen.Proofs.NumberDigits
import Specimen.Proofs.GroupNesting
import Specimen.Proofs.PolicyTexts
import Specimen.Proofs.FacetSets
import Specimen.Proofs.PrefixNumbers
import Specimen.Proofs.Comments

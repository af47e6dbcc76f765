import Specimen.Name.Basic

/-!
# Prefixes in use

Which prefix stands for which namespace in one document. The well-known namespaces keep their usual
prefixes, every other one is numbered in the order of first use, and a prefix once given is never
given to another namespace.
-/

namespace Specimen

/-- The prefixes given out so far, oldest first, and the number of the next one. -/
structure Prefixes where
  bindings : List (String × String) := [(Namespace.xml, "xml")]
  next : Nat := 1
deriving DecidableEq, Repr

namespace Prefixes

/-- The prefix that stands for `uri`, if one has been given out. -/
def get? (ps : Prefixes) (uri : String) : Option String := ps.bindings.lookup uri

/-- The prefix of a numbered namespace. -/
def numbered (n : Nat) : String := "ns" ++ toString n

/-- Records the prefix of a namespace that has none yet. -/
def add (ps : Prefixes) (uri pfx : String) (next : Nat) : Prefixes :=
  ⟨ps.bindings ++ [(uri, pfx)], next⟩

/-- The prefix for `uri`, given out now if there is none yet, and whether it is a new one. -/
def bind (ps : Prefixes) (uri : String) : (String × Bool) × Prefixes :=
  match ps.get? uri with
  | some pfx => ((pfx, false), ps)
  | none =>
    if uri = Namespace.xsi then (("xsi", true), ps.add uri "xsi" ps.next)
    else if uri = Namespace.xsd then (("xs", true), ps.add uri "xs" ps.next)
    else ((numbered ps.next, true), ps.add uri (numbered ps.next) (ps.next + 1))

end Prefixes

end Specimen

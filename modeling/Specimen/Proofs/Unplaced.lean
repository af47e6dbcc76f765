import Specimen.Proofs.Agreement

/-!
# Documents that differ in places

Where an element stands in its text matters for reports only. Two trees that are the same but for
the places of their elements hold elements of the schema language that say the same.
-/

namespace Specimen

/-! ## Trees without places -/

namespace Xml

mutual

/-- An element without its place and the places of the elements in it. -/
def Element.unplaced : Element → Element
  | ⟨_, pfx, localName, attributes, children⟩ =>
    ⟨0, pfx, localName, attributes, unplacedAll children⟩

/-- What stands between tags, without the places of the elements in it. -/
def unplacedAll : List Node → List Node
  | [] => []
  | node :: rest => node.unplaced :: unplacedAll rest

/-- What stands between tags, without the places of the elements in it. -/
def Node.unplaced : Node → Node
  | .element e => .element e.unplaced
  | .text text => .text text

end

/-! ## Scopes inside elements -/

namespace Scope

variable {σ σ' : Scope} {outer : Option String}

theorem uri?_append (inner σ : Scope) (pfx : Option String) :
    uri? (inner ++ σ) pfx = (uri? inner pfx).or (uri? σ pfx) := by
  rw [uri?, List.find?_append, Option.map_or]
  rfl

theorem IsInside.enter (h : σ.IsInside outer σ') (attributes : List Attribute) :
    (σ.enter attributes).IsInside outer (σ'.enter attributes) := fun pfx => by
  rw [Scope.enter, Scope.enter, uri?_append, uri?_append, h pfx, Option.or_assoc]

theorem IsInside.uri?_eq_iff (h : σ.IsInside outer σ') {uri : String} (ho : outer ≠ some uri)
    (pfx : Option String) : σ'.uri? pfx = some uri ↔ σ.uri? pfx = some uri := by
  rw [h pfx]
  cases σ.uri? pfx with
  | some own => rfl
  | none =>
    rw [Option.none_or]
    split
    · exact iff_of_false ho nofun
    · exact Iff.rfl

end Scope

end Xml

/-! ## Elements that say the same -/

theorem SchemaNode.ofElement?_eq (σ : Xml.Scope) (e : Xml.Element) : SchemaNode.ofElement? σ e =
    if (σ.enter e.attributes).uri? e.pfx = some Namespace.xsd then
      some ⟨.ofElement (σ.enter e.attributes) e, ofNodes (σ.enter e.attributes) e.children⟩
    else none := by
  cases e
  rw [ofElement?]
  rfl

section

variable {P : Prop} {s s' : DocumentSetting} {outer : Option String}

open SchemaNode (AllCorrespond)

theorem SchemaNode.AllCorrespond.append {nodes nodes' others others' : List SchemaNode}
    (h : AllCorrespond P s s' nodes nodes') (ho : AllCorrespond P s s' others others') :
    AllCorrespond P s s' (nodes ++ others) (nodes' ++ others') := by
  induction nodes generalizing nodes' with
  | nil =>
    cases h
    exact ho
  | cons node rest ih =>
    cases h with
    | cons hnode hrest => exact .cons hnode (ih hrest)

theorem SchemaNode.AllCorrespond.toList {node node' : Option SchemaNode}
    (h : Option.Rel (SchemaNode.Corresponds P s s') node node') :
    AllCorrespond P s s' node.toList node'.toList := by
  cases h with
  | none => exact .nil
  | some h => exact .cons h .nil

variable (hxsd : outer ≠ some Namespace.xsd) (hbare : ∀ name, SameIf P (s.unprefixed name)
  (outer.elim (s'.unprefixed name) fun uri => QName.qualified uri name))

include hxsd hbare

-- Only a tag is looked at; the readers of lists pass the assumptions on.
set_option linter.unusedSectionVars false in
mutual

theorem SchemaNode.rel_ofElement? : ∀ (σ σ' : Xml.Scope) (e e' : Xml.Element),
    σ.IsInside outer σ' → e.unplaced = e'.unplaced →
    Option.Rel (SchemaNode.Corresponds P s s') (SchemaNode.ofElement? σ e)
      (SchemaNode.ofElement? σ' e')
  | σ, σ', ⟨offset, pfx, localName, attributes, children⟩,
    ⟨offset', pfx', localName', attributes', children'⟩, hscope, h => by
    rw [Xml.Element.unplaced, Xml.Element.unplaced] at h
    injection h with _ hpfx hlocalName hattributes hchildren
    subst hpfx hlocalName hattributes
    have hinner := hscope.enter attributes
    rw [SchemaNode.ofElement?, SchemaNode.ofElement?, if_congr (hinner.uri?_eq_iff hxsd pfx) rfl rfl]
    split
    · exact .some (.mk ⟨rfl, rfl, DocumentSetting.agree_resolve hinner hbare⟩
        (SchemaNode.allCorrespond_ofNodes _ _ children children' hinner hchildren))
    · exact .none

theorem SchemaNode.allCorrespond_ofNodes :
    ∀ (σ σ' : Xml.Scope) (nodes nodes' : List Xml.Node),
    σ.IsInside outer σ' → Xml.unplacedAll nodes = Xml.unplacedAll nodes' →
    AllCorrespond P s s' (SchemaNode.ofNodes σ nodes) (SchemaNode.ofNodes σ' nodes')
  | _, _, [], [], _, _ => .nil
  | σ, σ', node :: rest, node' :: rest', hscope, h => by
    rw [Xml.unplacedAll, Xml.unplacedAll] at h
    injection h with hnode hrest
    rw [SchemaNode.ofNodes, SchemaNode.ofNodes]
    exact (AllCorrespond.toList (SchemaNode.rel_ofNode? σ σ' node node' hscope hnode)).append
      (SchemaNode.allCorrespond_ofNodes σ σ' rest rest' hscope hrest)

theorem SchemaNode.rel_ofNode? : ∀ (σ σ' : Xml.Scope) (node node' : Xml.Node),
    σ.IsInside outer σ' → node.unplaced = node'.unplaced →
    Option.Rel (SchemaNode.Corresponds P s s') (SchemaNode.ofNode? σ node)
      (SchemaNode.ofNode? σ' node')
  | σ, σ', .element e, .element e', hscope, h => by
    rw [Xml.Node.unplaced, Xml.Node.unplaced] at h
    injection h with h
    rw [SchemaNode.ofNode?, SchemaNode.ofNode?]
    exact SchemaNode.rel_ofElement? σ σ' e e' hscope h
  | _, _, .text _, .text _, _, _ => .none

end

end

end Specimen

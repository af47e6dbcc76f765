import Specimen.Schema.Model

/-!
# Effective properties of complex types

What a complex type means together with the types it is derived from: its content, where an
extension puts its particle behind that of its base, its attributes, where the last word on a name
counts, and its attribute wildcard. Chains of derivation and of references between attribute groups
are followed `Model.chainLimit` steps and one more, and are reported as circular then.
-/

namespace Specimen

/-- The number of steps after which a chain of references is taken to be circular. -/
def Model.chainLimit : Nat := 64

/-- An attribute with its declaration and the constraint in effect. -/
structure EffectiveAttribute where
  decl : AttributeDecl
  isRequired : Bool
  constraint : ValueConstraint
deriving Inhabited

namespace Model

/-! ## Content -/

/-- The particle of an extension: that of the base, then the type's own. -/
def appendParticle : Option Particle → Option Particle → Option Particle
  | some base, some own => some ⟨.once, .group ⟨.sequence, [base, own]⟩⟩
  | some base, none => some base
  | none, own => own

/-- The content of an extension, from that of its base and what it declares itself. -/
def extendContent (base own : Content) : Content :=
  match appendParticle base.particle own.particle with
  | some particle => if own.isMixed || base.isMixed then .mixed particle else .elements particle
  | none =>
    match own with
    | .simple type => .simple type
    | _ => base

/-- The content of a complex type, with at most `steps` steps from an extension to its base. -/
def contentWithin (m : Model) : Nat → ComplexType → Except Error Content
  | steps, type =>
    match type.derivation with
    | some ⟨.extension, base⟩ =>
      match steps with
      | 0 => .error (.shape (.circular (some base)))
      | steps + 1 => do
        match ← m.resolveType (.named base) with
        | .simple _ => return extendContent (.simple (.named base)) type.content
        | .complex baseType => return extendContent (← m.contentWithin steps baseType) type.content
    | _ => .ok type.content

/-- The effective content of a complex type. -/
def contentOf (m : Model) (type : ComplexType) : Except Error Content :=
  m.contentWithin (chainLimit + 1) type

/-! ## Attributes -/

/-- The attribute of a use, with the constraint that is in effect. -/
def effectiveAttribute (m : Model) (use : AttributeUse) : Except Error EffectiveAttribute := do
  let decl ← m.resolveAttribute use.target
  return ⟨decl, use.mode == .required, use.constraint.orElse decl.constraint⟩

/-- The uses of one entry of an attribute list. For a reference they are those of the group, in
their order, with at most `steps` references inside each other. -/
def flattenItem (m : Model) :
    Nat → AttributeItem → Except Error (List (UseMode × EffectiveAttribute))
  | _, .use use => do
    let attr ← m.effectiveAttribute use
    return [(use.mode, attr)]
  | 0, .group name => .error (.shape (.circular (some name)))
  | steps + 1, .group name => do
    let group ← m.resolveAttributeGroup name
    List.flatten <$> group.items.mapM (m.flattenItem steps)

/-- The uses of an attribute list, those of a group in the place of the reference to it. -/
def flattenItems (m : Model) (items : List AttributeItem) :
    Except Error (List (UseMode × EffectiveAttribute)) :=
  List.flatten <$> items.mapM (m.flattenItem (chainLimit + 1))

/-- Replaces the attribute of the same name, or adds the attribute at the end. -/
def putAttribute (attr : EffectiveAttribute) : List EffectiveAttribute → List EffectiveAttribute
  | [] => [attr]
  | earlier :: rest =>
    if earlier.decl.name = attr.decl.name then attr :: rest else earlier :: putAttribute attr rest

/-- Leaves out the first attribute with a name. -/
def dropAttribute (name : QName) : List EffectiveAttribute → List EffectiveAttribute
  | [] => []
  | earlier :: rest => if earlier.decl.name = name then rest else earlier :: dropAttribute name rest

/-- What one more use makes of the attributes so far: a prohibited one leaves its name out, any
other replaces the one of its name in place. -/
def applyUse (attrs : List EffectiveAttribute) (use : UseMode × EffectiveAttribute) :
    List EffectiveAttribute :=
  match use.1 with
  | .prohibited => dropAttribute use.2.decl.name attrs
  | _ => putAttribute use.2 attrs

/-- The attributes of a complex type, with at most `steps` steps from a type to its base. A base
that is unknown or simple brings no attributes along. -/
def attributesWithin (m : Model) : Nat → ComplexType → Except Error (List EffectiveAttribute)
  | steps, type => do
    let inherited ← match type.derivation with
      | none => .ok []
      | some ⟨_, base⟩ =>
        match steps with
        | 0 => .error (.shape (.circular (some base)))
        | steps + 1 =>
          match m.types.get? base with
          | some (.complex baseType) => m.attributesWithin steps baseType
          | _ => .ok []
    let own ← m.flattenItems type.attributes
    return own.foldl applyUse inherited

/-- The effective attributes of a complex type, inherited ones first. -/
def attributesOf (m : Model) (type : ComplexType) : Except Error (List EffectiveAttribute) :=
  m.attributesWithin (chainLimit + 1) type

/-! ## Attribute wildcards -/

/-- The wildcard of the group that an entry refers to, or else the first one of the groups that this
group refers to, with at most `steps` references inside each other. -/
def itemWildcard (m : Model) : Nat → AttributeItem → Except Error (Option Wildcard)
  | _, .use _ => .ok none
  | 0, .group name => .error (.shape (.circular (some name)))
  | steps + 1, .group name => do
    let group ← m.resolveAttributeGroup name
    match group.wildcard with
    | some wildcard => return some wildcard
    | none => group.items.findSomeM? (m.itemWildcard steps)

/-- The first wildcard of the groups that an attribute list refers to. -/
def listWildcard (m : Model) (items : List AttributeItem) : Except Error (Option Wildcard) :=
  items.findSomeM? (m.itemWildcard (chainLimit + 1))

/-- The attribute wildcard of a complex type, with at most `steps` steps from an extension to its
base. -/
def wildcardWithin (m : Model) : Nat → ComplexType → Except Error (Option Wildcard)
  | steps, type =>
    match type.wildcard with
    | some wildcard => .ok (some wildcard)
    | none => do
      match ← m.listWildcard type.attributes with
      | some wildcard => return some wildcard
      | none =>
        match type.derivation with
        | some ⟨.extension, base⟩ =>
          match steps with
          | 0 => .error (.shape (.circular (some base)))
          | steps + 1 =>
            match m.types.get? base with
            | some (.complex baseType) => m.wildcardWithin steps baseType
            | _ => return none
        | _ => return none

/-- The effective attribute wildcard: the type's own, that of one of its attribute groups, or one
inherited by extension. -/
def wildcardOf (m : Model) (type : ComplexType) : Except Error (Option Wildcard) :=
  m.wildcardWithin (chainLimit + 1) type

end Model

end Specimen

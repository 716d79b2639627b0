/-
  ELEMENTS: the nodes of an ontology model.

  An element says what it IS and what it REFERS to.  Which element owns which is not said here but
  by the model, as links between nodes.  A reference is the id of an element, already looked up; an
  absent id is a reference that led nowhere, and it refers to nothing.

  `Element.references` lists what an element refers to, each with its role, in the order of its
  fields.  All look-ups by target are made from these lists.
-/
import OntologyView.Element.Kind

namespace OntologyView

/-! ## Ids -/

/-- The place of an element in its model.  Ids are handed out in order, from `0`.  They have 32 bits where
    they are stored, so models of fewer than 2^32 elements are meant. -/
abbrev ElementId := Nat

/-- The written form of an id, as in `#4`. -/
def ElementId.text (id : ElementId) : String :=
  "#" ++ toString id

/-! ## Payloads -/

/-- The import of another ontology's namespace, perhaps under a prefix of its own. -/
structure Import where
  kind : ImportKind
  /-- The imported namespace. -/
  ns : String
  /-- The prefix that stands for it in the importing ontology. -/
  nsPrefix : Option String
deriving DecidableEq, Repr

/-- What an ontology says about itself. -/
structure Ontology where
  kind : OntologyKind
  /-- The namespace of its members, as in `http://example.com/dnd#`. -/
  ns : String
  /-- The short name of the namespace, as in `dnd`. -/
  nsPrefix : String
  imports : List Import
deriving DecidableEq, Repr

/-- What a relation restriction demands of a relation. -/
inductive RelationRestriction where
  /-- A narrower range. -/
  | range (narrowed : Option ElementId)
  /-- A number of targets. -/
  | cardinality
  /-- One given target. -/
  | target (given : Option ElementId)
deriving DecidableEq, Repr

/-! ## Elements -/

/-- A node of a model, without its place in the containment tree. -/
inductive Element where
  | ontology (header : Ontology)
  | aspect (name : String)
  | concept (name : String)
  /-- A relation made into an entity, between a source and a target. -/
  | relationEntity (name : String) (source target : Option ElementId)
  | struct (name : String)
  | scalar (name : String) (kind : ScalarKind)
  | property (kind : PropertyKind) (name : String) (domain range : Option ElementId)
  /-- The forward or the reverse relation of the relation entity that owns it. -/
  | relation (direction : Direction) (name : String)
  | rule (name : String)
  | conceptInstance (name : String) (types : List ElementId)
  | relationInstance (name : String) (types sources targets : List ElementId)
  /-- A nameless instance inside an assertion or a restriction. -/
  | structureInstance (type : Option ElementId)
  /-- The term that owns it (or the member of the reference that does) is a subterm of `super`. -/
  | specialization (super : Option ElementId)
  | key (properties : List ElementId)
  | propertyRestriction (propertyKind : PropertyKind) (kind : PropertyRestrictionKind)
      (property range : Option ElementId)
  | relationRestriction (demand : RelationRestriction) (relation : Option ElementId)
  | propertyValue (property : Option ElementId)
  | link (relation target : Option ElementId)
  /-- Adds axioms or assertions to a member declared elsewhere, and is no member itself. -/
  | reference (kind : ReferenceKind) (member : Option ElementId)
deriving DecidableEq, Repr

namespace Element

/-- The kind of an element. -/
def kind : Element → ElementKind
  | ontology _ => .ontology
  | aspect _ => .aspect
  | concept _ => .concept
  | relationEntity .. => .relationEntity
  | struct _ => .struct
  | scalar .. => .scalar
  | property kind .. => .property kind
  | relation direction _ => .relation direction
  | rule _ => .rule
  | conceptInstance .. => .conceptInstance
  | relationInstance .. => .relationInstance
  | structureInstance _ => .structureInstance
  | specialization _ => .specialization
  | key _ => .key
  | propertyRestriction .. => .propertyRestriction
  | relationRestriction .. => .relationRestriction
  | propertyValue _ => .propertyValue
  | link .. => .link
  | reference .. => .reference

/-- The name of a member.  Ontologies, structure instances, axioms, assertions and references have
    none. -/
def name? : Element → Option String
  | aspect name | concept name | relationEntity name .. | struct name | scalar name _
  | property _ name _ _ | relation _ name | rule name | conceptInstance name _
  | relationInstance name .. => some name
  | _ => none

/-! ## References -/

/-- One reference, if the field holds one. -/
def optionally (role : Role) (target : Option ElementId) : List (Role × ElementId) :=
  target.toList.map (role, ·)

/-- One reference per entry. -/
def each (role : Role) (targets : List ElementId) : List (Role × ElementId) :=
  targets.map (role, ·)

/-- What an element refers to, in the order of its fields. -/
def references : Element → List (Role × ElementId)
  | relationEntity _ source target => optionally .source source ++ optionally .target target
  | property _ _ domain range => optionally .domain domain ++ optionally .range range
  | conceptInstance _ types => each .instanceType types
  | relationInstance _ types sources targets =>
    each .instanceType types ++ each .instanceSource sources ++ each .instanceTarget targets
  | structureInstance type => optionally .structureType type
  | specialization super => optionally .superterm super
  | key properties => each .keyProperty properties
  | propertyRestriction _ _ restricted range =>
    optionally .restrictedProperty restricted ++ optionally .restrictionRange range
  | relationRestriction demand restricted =>
    optionally .restrictedRelation restricted ++
      match demand with
      | .range narrowed => optionally .restrictionRange narrowed
      | .cardinality => []
      | .target given => optionally .restrictionTarget given
  | propertyValue asserted => optionally .assertedProperty asserted
  | link linked target => optionally .linkRelation linked ++ optionally .linkTarget target
  | reference _ member => optionally .member member
  | ontology _ | aspect _ | concept _ | struct _ | scalar .. | relation .. | rule _ => []

@[simp] theorem mem_optionally {role r : Role} {target : Option ElementId} {t : ElementId} :
    (r, t) ∈ optionally role target ↔ r = role ∧ target = some t := by
  cases target <;> simp [optionally, eq_comm]

@[simp] theorem mem_each {role r : Role} {targets : List ElementId} {t : ElementId} :
    (r, t) ∈ each role targets ↔ r = role ∧ t ∈ targets := by
  simp only [each, List.mem_map, Prod.mk.injEq]
  exact ⟨fun ⟨_, h, hr, ht⟩ => ⟨hr.symm, ht ▸ h⟩, fun ⟨hr, h⟩ => ⟨t, h, hr.symm, rfl⟩⟩

/-! ## Running the definitions -/

example : (property .scalar "hitPoints" (some 1) none).references = [(.domain, 1)] := by decide
example : (relationRestriction (.range (some 7)) (some 3)).references =
    [(.restrictedRelation, 3), (.restrictionRange, 7)] := by decide

end Element

end OntologyView

/-
  THE KINDS of things that an ontology model is made of.

  A model holds ontologies, their members (classifiers, scalars, properties, relations, rules and
  instances), the axioms and assertions that members own, and references to members declared
  elsewhere.  `ElementKind` names all of them; the smaller kinds refine one element each.

  Scalar and structured properties obey one set of rules, and so do forward and reverse relations.
  So `PropertyKind` and `Direction` are parameters of `ElementKind` here, and of every query and
  every table further on, instead of twice as many names.
-/
namespace OntologyView

/-! ## Ontologies -/

/-- What an ontology is for. -/
inductive OntologyKind where
  | vocabulary
  | vocabularyBundle
  | description
  | descriptionBundle
deriving DecidableEq, Repr

/-- What an ontology does with another one that it imports. -/
inductive ImportKind where
  | extension
  | usage
  | inclusion
deriving DecidableEq, Repr

/-! ## Members -/

/-- How the values of a scalar are given. -/
inductive ScalarKind where
  | faceted
  | enumerated
deriving DecidableEq, Repr

/-- Whether the values of a property are scalars or structures. -/
inductive PropertyKind where
  | scalar
  | structured
deriving DecidableEq, Repr

/-- Which way a relation of a relation entity is read. -/
inductive Direction where
  /-- From the source of the entity to its target. -/
  | forward
  /-- From the target of the entity to its source. -/
  | reverse
deriving DecidableEq, Repr

/-- The other way. -/
def Direction.flip : Direction → Direction
  | .forward => .reverse
  | .reverse => .forward

/-! ## Axioms and references -/

/-- What a property restriction restricts. -/
inductive PropertyRestrictionKind where
  | range
  | cardinality
  | value
deriving DecidableEq, Repr

/-- The kind of member that a reference says it points at. -/
inductive ReferenceKind where
  | aspect
  | concept
  | relationEntity
  | struct
  | scalar
  | property (kind : PropertyKind)
  | relation
  | rule
  | conceptInstance
  | relationInstance
deriving DecidableEq, Repr

/-! ## Elements -/

/-- The kinds of elements. -/
inductive ElementKind where
  | ontology
  | aspect
  | concept
  | relationEntity
  | struct
  | scalar
  | property (kind : PropertyKind)
  | relation (direction : Direction)
  | rule
  | conceptInstance
  | relationInstance
  | structureInstance
  | specialization
  | key
  | propertyRestriction
  | relationRestriction
  | propertyValue
  | link
  | reference
deriving DecidableEq, Repr

namespace ElementKind

/-- The name of a kind in messages. -/
def label : ElementKind → String
  | .ontology => "Ontology"
  | .aspect => "Aspect"
  | .concept => "Concept"
  | .relationEntity => "RelationEntity"
  | .struct => "Structure"
  | .scalar => "Scalar"
  | .property .scalar => "ScalarProperty"
  | .property .structured => "StructuredProperty"
  | .relation .forward => "ForwardRelation"
  | .relation .reverse => "ReverseRelation"
  | .rule => "Rule"
  | .conceptInstance => "ConceptInstance"
  | .relationInstance => "RelationInstance"
  | .structureInstance => "StructureInstance"
  | .specialization => "SpecializationAxiom"
  | .key => "KeyAxiom"
  | .propertyRestriction => "PropertyRestrictionAxiom"
  | .relationRestriction => "RelationRestrictionAxiom"
  | .propertyValue => "PropertyValueAssertion"
  | .link => "LinkAssertion"
  | .reference => "Reference"

/-- Entities carry keys and restrictions. -/
def isEntity : ElementKind → Bool
  | .aspect | .concept | .relationEntity => true
  | _ => false

/-- Classifiers own properties through their domain: the entities and the structures. -/
def isClassifier : ElementKind → Bool
  | .struct => true
  | kind => kind.isEntity

/-- Named instances can be referenced; structure instances have no name. -/
def isNamedInstance : ElementKind → Bool
  | .conceptInstance | .relationInstance => true
  | _ => false

/-- Instances, with a name or without. -/
def isInstance : ElementKind → Bool
  | .structureInstance => true
  | kind => kind.isNamedInstance

theorem isClassifier_of_isEntity {kind : ElementKind} (h : kind.isEntity) : kind.isClassifier := by
  cases kind <;> simp_all [isEntity, isClassifier]

end ElementKind

/-! ## Roles -/

/-- Which field of the referring element holds a reference.  With the role recorded, a query for
    the properties whose DOMAIN is `x` does not pick up those whose RANGE is `x`. -/
inductive Role where
  | domain
  | range
  | superterm
  | source
  | target
  | keyProperty
  | restrictedProperty
  | restrictedRelation
  | restrictionRange
  | restrictionTarget
  | assertedProperty
  | linkRelation
  | linkTarget
  | instanceType
  | instanceSource
  | instanceTarget
  | structureType
  | member
deriving DecidableEq, Repr

end OntologyView

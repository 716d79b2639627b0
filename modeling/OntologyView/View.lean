/-
  VIEWS: what of an ontology is drawn.

  A view lists the elements that are shown, by kind, and says for each of them what is drawn on it or
  at it: the properties of a classifier, the axioms of an entity, the edges that end at a relation
  entity, and the assertions of an instance.

  Lists and tables keep the order of the analysis that made them, but the order does not make a
  different view: `View.Same` is equality of views with all order forgotten.
-/
import OntologyView.Element
import OntologyView.Ordered.Table
import OntologyView.View.Error

namespace OntologyView

/-- Some elements for each of some elements. -/
abbrev ElementTable := Table ElementId (List ElementId)

/-- Where an element stands in an analysis. -/
inductive Stage where
  /-- Not part of the view. -/
  | unseen
  /-- Shown. -/
  | discovered
  /-- Shown, with its properties attributed and its axioms filtered. -/
  | resolved
deriving DecidableEq, Repr

/-- What is drawn of an ontology. -/
structure View where
  aspects : List ElementId
  concepts : List ElementId
  scalars : List ElementId
  structures : List ElementId
  relationEntities : List ElementId
  /-- The scalar properties that classifiers show. -/
  scalarProperties : ElementTable
  /-- The structured properties that classifiers show. -/
  structuredProperties : ElementTable
  /-- The axioms of entities all of whose referents are part of the view. -/
  entityAxioms : ElementTable
  /-- The specializations, range restrictions and relations that end at relation entities. -/
  incidentElements : ElementTable
  /-- The assertions of instances.  Its keys are the instances that are shown. -/
  instanceAssertions : ElementTable
  /-- The classifiers whose properties and axioms were resolved. -/
  resolved : List ElementId
deriving DecidableEq, Repr

namespace View

/-- The instances that are shown. -/
def instances (v : View) : List ElementId :=
  v.instanceAssertions.keys

/-- Everything that is shown, kind by kind. -/
def shown (v : View) : List ElementId :=
  v.aspects ++ v.concepts ++ v.scalars ++ v.structures ++ v.relationEntities ++ v.instances

/-- Whether an element is shown. -/
def contains (v : View) (id : ElementId) : Bool :=
  id ∈ v.shown

/-- The properties of a kind that classifiers show. -/
def properties (v : View) : PropertyKind → ElementTable
  | .scalar => v.scalarProperties
  | .structured => v.structuredProperties

/-- Whether a classifier shows properties or has edges that end at it.  A relation entity without
    either is drawn as a plain edge. -/
def hasFeaturesOrEdges (v : View) (classifier : ElementId) : Bool :=
  !(v.scalarProperties.listAt classifier).isEmpty ||
    !(v.structuredProperties.listAt classifier).isEmpty ||
    !(v.incidentElements.listAt classifier).isEmpty

/-- How far an element got. -/
def stage (v : View) (id : ElementId) : Stage :=
  if id ∈ v.resolved then .resolved
  else if v.contains id then .discovered
  else .unseen

/-! ## Equality, order forgotten -/

/-- Two views with the same elements in every place. -/
structure Same (v w : View) : Prop where
  aspects : SameMembers v.aspects w.aspects
  concepts : SameMembers v.concepts w.concepts
  scalars : SameMembers v.scalars w.scalars
  structures : SameMembers v.structures w.structures
  relationEntities : SameMembers v.relationEntities w.relationEntities
  scalarProperties : v.scalarProperties.Same w.scalarProperties
  structuredProperties : v.structuredProperties.Same w.structuredProperties
  entityAxioms : v.entityAxioms.Same w.entityAxioms
  incidentElements : v.incidentElements.Same w.incidentElements
  instanceAssertions : v.instanceAssertions.Same w.instanceAssertions
  resolved : SameMembers v.resolved w.resolved

theorem same_iff (v w : View) : v.Same w ↔
    SameMembers v.aspects w.aspects ∧ SameMembers v.concepts w.concepts ∧
    SameMembers v.scalars w.scalars ∧ SameMembers v.structures w.structures ∧
    SameMembers v.relationEntities w.relationEntities ∧
    v.scalarProperties.Same w.scalarProperties ∧
    v.structuredProperties.Same w.structuredProperties ∧
    v.entityAxioms.Same w.entityAxioms ∧ v.incidentElements.Same w.incidentElements ∧
    v.instanceAssertions.Same w.instanceAssertions ∧ SameMembers v.resolved w.resolved :=
  ⟨fun ⟨h1, h2, h3, h4, h5, h6, h7, h8, h9, h10, h11⟩ =>
      ⟨h1, h2, h3, h4, h5, h6, h7, h8, h9, h10, h11⟩,
    fun ⟨h1, h2, h3, h4, h5, h6, h7, h8, h9, h10, h11⟩ =>
      ⟨h1, h2, h3, h4, h5, h6, h7, h8, h9, h10, h11⟩⟩

instance (v w : View) : Decidable (v.Same w) :=
  decidable_of_iff' _ (same_iff v w)

/-- Two analyses with the same outcome: the same error, or views that are the same. -/
def SameOutcome : Except ViewError View → Except ViewError View → Prop
  | .ok v, .ok w => v.Same w
  | .error e, .error f => e = f
  | _, _ => False

instance : (a b : Except ViewError View) → Decidable (SameOutcome a b)
  | .ok v, .ok w => inferInstanceAs (Decidable (v.Same w))
  | .error e, .error f => inferInstanceAs (Decidable (e = f))
  | .ok _, .error _ => .isFalse id
  | .error _, .ok _ => .isFalse id

end View

end OntologyView

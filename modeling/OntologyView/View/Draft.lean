/-
  DRAFTS: an analysis under way.

  An analysis has two phases, which write into one draft.

  1. **Discovery** visits elements.  One of a shown kind enters the view, and what may be drawn on it
     is noted down as its candidates.  Classifiers are queued, too (`Draft.enter`).
  2. **Resolution** visits the queue.  A classifier gets the properties that it shows or hands them to
     their owners, those of its candidates are kept whose referents are part of the view, and then it
     counts as resolved (`Draft.resolve`).

  A draft goes through many states that are no finished view: elements that are shown and not queued
  yet, classifiers that are queued and have no axioms yet.  Each rule here says what one visit does to
  one such state, and with which error it fails.  Errors name the phase that the draft is in.

  Who visits what is said elsewhere (`Draft.visitFor`).  Resolution asks whether elements are included
  and what the superterms of a classifier are; its rules are written for any `Answers` to that, some
  of which may be missing.
-/
import OntologyView.View
import OntologyView.View.Discovery
import OntologyView.View.Resolution

namespace OntologyView

/-! ## Answers -/

/-- What resolution is answered when it asks whether an element is included, and for the superterms
    of a classifier. -/
structure Answers where
  included : ElementId → Option Bool
  superterms : ElementId → Option (List ElementId)

namespace Answers

variable (a : Answers)

/-- Whether an id is there, and included. -/
def any (id : Option ElementId) : Option Bool :=
  id.elim (some false) a.included

/-- Whether all of some elements are included. -/
def all (ids : List ElementId) : Option Bool :=
  ids.allM a.included

end Answers

/-- The elements of a list that a test keeps. -/
def selectT {α ε : Type} (keep : α → ExceptT ε Option Bool) : List α → ExceptT ε Option (List α)
  | [] => pure []
  | a :: rest => do
    let kept ← keep a
    let later ← selectT keep rest
    return if kept then a :: later else later

/-! ## Drafts -/

/-- The view that shows nothing. -/
def View.blank : View where
  aspects := []
  concepts := []
  scalars := []
  structures := []
  relationEntities := []
  scalarProperties := .empty
  structuredProperties := .empty
  entityAxioms := .empty
  incidentElements := .empty
  instanceAssertions := .empty
  resolved := []

/-- An analysis under way. -/
structure Draft where
  linked : LinkedModel
  /-- The elements that the analysed ontology declares. -/
  locals : List ElementId
  phase : Phase
  /-- The axioms that entities may show. -/
  axiomCandidates : ElementTable
  /-- The edges that may end at relation entities. -/
  incidentCandidates : ElementTable
  /-- The classifiers to resolve. -/
  queue : List ElementId
  /-- What is drawn so far. -/
  view : View

namespace Draft

/-- The draft that an analysis starts with. -/
def start (lm : LinkedModel) (locals : List ElementId) : Draft where
  linked := lm
  locals := locals
  phase := .discovery
  axiomCandidates := .empty
  incidentCandidates := .empty
  queue := []
  view := .blank

variable (d : Draft) (id : ElementId)

def model : Model := d.linked.model

/-- What the rules look at by now. -/
def frame : Frame := ⟨d.linked, d.locals, d.view.shown⟩

/-- The phase has no rule for an element. -/
def unhandled (e : Element) : ViewError :=
  .unhandledElement id e.kind d.phase (d.model.range? id)

/-! ## Discovery -/

/-- A classifier has a list of properties of either kind. -/
def initClassifier : Draft :=
  { d with
    view.scalarProperties := d.view.scalarProperties.insertNew id []
    view.structuredProperties := d.view.structuredProperties.insertNew id [] }

/-- An entity has a list of axioms, too, and waits in the queue. -/
def initEntity : Draft :=
  let d := d.initClassifier id
  { d with
    view.entityAxioms := d.view.entityAxioms.insertNew id []
    axiomCandidates := d.axiomCandidates.extend id (d.frame.axiomCandidates id)
    queue := addNew d.queue id }

/-- An element enters the view. -/
def enter : Element → Draft
  | .aspect _ => initEntity { d with view.aspects := addNew d.view.aspects id } id
  | .concept _ => initEntity { d with view.concepts := addNew d.view.concepts id } id
  | .relationEntity .. =>
    let d := initEntity { d with view.relationEntities := addNew d.view.relationEntities id } id
    { d with
      incidentCandidates := d.incidentCandidates.insert id (d.frame.incidentCandidates id) }
  | .struct _ =>
    let d := initClassifier { d with view.structures := addNew d.view.structures id } id
    { d with queue := addNew d.queue id }
  | .scalar .. => { d with view.scalars := addNew d.view.scalars id }
  | .conceptInstance .. | .relationInstance .. | .structureInstance .. =>
    { d with
      view.instanceAssertions := d.view.instanceAssertions.insert id (d.frame.assertionsOf id) }
  | _ => d

/-- What an element brings along, said by its kind. -/
theorem enter_eq (e : Element) : d.enter id e =
    { d with
      axiomCandidates := if e.kind.isEntity then
        d.axiomCandidates.extend id (d.frame.axiomCandidates id) else d.axiomCandidates
      incidentCandidates := if e.kind = .relationEntity then
        d.incidentCandidates.insert id (d.frame.incidentCandidates id) else d.incidentCandidates
      queue := if e.kind.isClassifier then addNew d.queue id else d.queue
      view.aspects := if e.kind = .aspect then addNew d.view.aspects id else d.view.aspects
      view.concepts := if e.kind = .concept then addNew d.view.concepts id else d.view.concepts
      view.scalars := if e.kind = .scalar then addNew d.view.scalars id else d.view.scalars
      view.structures := if e.kind = .struct then
        addNew d.view.structures id else d.view.structures
      view.relationEntities := if e.kind = .relationEntity then
        addNew d.view.relationEntities id else d.view.relationEntities
      view.scalarProperties := if e.kind.isClassifier then
        d.view.scalarProperties.insertNew id [] else d.view.scalarProperties
      view.structuredProperties := if e.kind.isClassifier then
        d.view.structuredProperties.insertNew id [] else d.view.structuredProperties
      view.entityAxioms := if e.kind.isEntity then
        d.view.entityAxioms.insertNew id [] else d.view.entityAxioms
      view.instanceAssertions := if e.kind.isInstance then
        d.view.instanceAssertions.insert id (d.frame.assertionsOf id)
        else d.view.instanceAssertions } := by
  cases e <;> rfl

/-- Discovery of an element: it enters, and then all that it leads to is visited. -/
def discover (visit : Draft → ElementId → ExceptT ViewError Option Draft) :
    ExceptT ViewError Option Draft :=
  if d.view.contains id then pure d
  else
    match d.model.element? id with
    | none => throw (.unknownElement id)
    | some (.ontology header) => throw (d.unhandled id (.ontology header))
    | some e => e.leads.foldlM visit (d.enter id e)

/-! ## Resolution -/

variable (a : Answers)

/-- The local properties that are declared on `parent` arrive at `owner`. -/
def give (owner parent : ElementId) : Draft :=
  let declared := fun kind => (d.linked.propertiesWithDomain kind parent).filter d.frame.isLocal
  { d with
    view.scalarProperties :=
      (declared .scalar).foldl (Table.addTo · owner ·) d.view.scalarProperties
    view.structuredProperties :=
      (declared .structured).foldl (Table.addTo · owner ·) d.view.structuredProperties }

/-- The properties that a classifier has by itself or inherits arrive at their owners: at what they
    are declared on if that is included, and at the classifier if not. -/
def attributeProperties : ExceptT ViewError Option Draft := do
  let parents ← a.superterms id
  parents.foldlM (fun d parent => do
    let included ← a.included parent
    return d.give (if included then parent else id) parent) d

/-- Whether everything that an axiom or a relation refers to is included.  What comes second is asked
    for only if what comes first is included. -/
def retains : ExceptT ViewError Option Bool :=
  match d.model.element? id with
  | some (.key properties) => a.all properties
  | some (.specialization super) => a.any super
  | some (.propertyRestriction _ _ property _) => a.any property
  | some (.relationRestriction demand relation) => do
    if ← a.any (relation.bind d.model.owningEntity?) then
      match demand with
      | .range narrowed => a.any narrowed
      | .cardinality => return true
      | .target given => a.any given
    else return false
  | some (.relation ..) => a.any (d.model.owningEntity? id)
  | some e => throw (d.unhandled id e)
  | none => throw (.unknownElement id)

/-- Whether an edge at a relation entity is drawn. -/
def retainsIncident : ExceptT ViewError Option Bool :=
  if d.model.hasKind .specialization id then a.included id else d.retains id a

/-- The axioms of an entity: those candidates that are retained. -/
def keepAxioms : ExceptT ViewError Option Draft := do
  let kept ← selectT (d.retains · a) (d.axiomCandidates.listAt id)
  return { d with view.entityAxioms := d.view.entityAxioms.extend id kept }

/-- The edges that end at a relation entity: those candidates that are retained. -/
def keepIncident : ExceptT ViewError Option Draft := do
  let kept ← selectT (d.retainsIncident · a) (d.incidentCandidates.listAt id)
  return { d with view.incidentElements := d.view.incidentElements.extend id kept }

/-- What there is to resolve of an element. -/
def settle : Element → ExceptT ViewError Option Draft
  | .aspect _ | .concept _ => do
    let attributed ← d.attributeProperties id a
    attributed.keepAxioms id a
  | .relationEntity .. => do
    let attributed ← d.attributeProperties id a
    let filtered ← attributed.keepAxioms id a
    filtered.keepIncident id a
  | .struct _ => d.attributeProperties id a
  | e => throw (d.unhandled id e)

/-- Resolution of an element, unless it is resolved. -/
def resolve : ExceptT ViewError Option Draft :=
  if id ∈ d.view.resolved then pure d
  else
    match d.model.element? id with
    | none => throw (.unknownElement id)
    | some e => do
      let settled ← d.settle id a e
      return { settled with view.resolved := addNew settled.view.resolved id }

end Draft

end OntologyView

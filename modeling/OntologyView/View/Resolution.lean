/-
  RESOLUTION: what is drawn on the elements that are shown.

  A `Frame` holds what the rules below look at: the linked model, the local elements and the elements
  shown.  In a frame,

  * a PROPERTY is drawn where it is declared, if that can be: a local property with domain `p` that a
    shown classifier `c` has by itself or inherits goes to `p` if `p` is included, and sinks to `c`
    if it is not (`attributions`);
  * an AXIOM is drawn if it is local and everything that it refers to is included (`retains`);
  * an EDGE at a relation entity is drawn by the same rule, except that a specialization that ends
    there needs both of its terms (`retainsIncident`);
  * an ASSERTION is drawn if it is local.

  `retains` has rules for axioms and relations only, and fails on anything else.
-/
import OntologyView.LinkedModel
import OntologyView.View.Error
import OntologyView.View.Inclusion

namespace OntologyView

/-- What the rules of resolution look at. -/
structure Frame where
  linked : LinkedModel
  /-- The elements that the analysed ontology declares. -/
  locals : List ElementId
  /-- The elements that are shown, in order of discovery. -/
  shown : List ElementId

/-- The elements of a list that a test keeps, unless the test fails on one. -/
def selectM {α ε : Type} (keep : α → Except ε Bool) : List α → Except ε (List α)
  | [] => .ok []
  | a :: rest => do
    let kept ← keep a
    let later ← selectM keep rest
    return if kept then a :: later else later

/-- A test that never fails selects like a filter. -/
theorem selectM_eq_ok_filter {α ε : Type} {keep : α → Except ε Bool} {p : α → Bool} :
    ∀ {l : List α}, (∀ a ∈ l, keep a = .ok (p a)) → selectM keep l = .ok (l.filter p)
  | [], _ => rfl
  | a :: rest, h => by
    rw [selectM, h a List.mem_cons_self,
      selectM_eq_ok_filter fun b hb => h b (List.mem_cons_of_mem a hb)]
    cases hp : p a <;> simp [hp, bind, Except.bind, pure, Except.pure]

namespace Frame

variable (f : Frame)

/-- The model that is analysed. -/
def model : Model := f.linked.model

/-- Whether an element is declared locally. -/
def isLocal (id : ElementId) : Bool :=
  id ∈ f.locals

/-- Whether an element is part of the view. -/
def isIncluded (id : ElementId) : Bool :=
  f.model.isIncluded (fun k => f.isLocal k || k ∈ f.shown) id

/-- The local ones among some candidates, each once. -/
def localOnly (candidates : List ElementId) : List ElementId :=
  (candidates.filter f.isLocal).eraseDups

/-- The shown elements of some kinds. -/
def shownOf (accept : ElementKind → Bool) : List ElementId :=
  f.shown.filter (f.model.satisfies fun e => accept e.kind)

/-! ## Properties -/

/-- The local properties of a kind on the superterms of a classifier, each with the classifier that
    shows it. -/
def attributionsOf (kind : PropertyKind) (classifier : ElementId) : List (ElementId × ElementId) :=
  (f.linked.superterms classifier true).flatMap fun parent =>
    ((f.linked.propertiesWithDomain kind parent).filter f.isLocal).map
      ((if f.isIncluded parent then parent else classifier), ·)

/-- The attributions of all shown classifiers. -/
def attributions (kind : PropertyKind) : List (ElementId × ElementId) :=
  (f.shownOf ElementKind.isClassifier).flatMap (f.attributionsOf kind)

/-- The properties of a kind by the classifier that shows them.  Every shown classifier is a key. -/
def propertyTable (kind : PropertyKind) : Table ElementId (List ElementId) :=
  (f.attributions kind).foldl (fun t a => t.addTo a.1 a.2)
    (Table.ofList ((f.shownOf ElementKind.isClassifier).map (·, [])))

/-! ## Axioms -/

/-- Whether everything that an axiom or a relation refers to is included. -/
def retains (id : ElementId) : Except ViewError Bool :=
  match f.model.element? id with
  | some (.key properties) => .ok (properties.all f.isIncluded)
  | some (.specialization super) => .ok (super.any f.isIncluded)
  | some (.propertyRestriction _ _ property _) => .ok (property.any f.isIncluded)
  | some (.relationRestriction demand relation) =>
    .ok ((relation.bind f.model.owningEntity?).any f.isIncluded &&
      match demand with
      | .range narrowed => narrowed.any f.isIncluded
      | .cardinality => true
      | .target given => given.any f.isIncluded)
  | some (.relation ..) => .ok ((f.model.owningEntity? id).any f.isIncluded)
  | some e => .error (.unhandledElement id e.kind .resolution (f.model.range? id))
  | none => .error (.unknownElement id)

/-- The axioms that an entity may show: its local keys, specializations and restrictions. -/
def axiomCandidates (entity : ElementId) : List ElementId :=
  f.localOnly (f.linked.keysOf entity ++ f.linked.specializationsOf entity ++
    f.linked.propertyRestrictionsOf entity ++ f.linked.relationRestrictionsOf entity)

/-- The axioms that an entity shows. -/
def axiomsOf (entity : ElementId) : Except ViewError (List ElementId) :=
  selectM f.retains (f.axiomCandidates entity)

/-! ## Edges at relation entities -/

/-- The edges that may end at a relation entity: local specializations and range restrictions that
    refer to it, and the relations of the relation entities that it is an end of. -/
def incidentCandidates (entity : ElementId) : List ElementId :=
  f.localOnly (f.linked.specializationsInto entity ++ f.linked.rangeRestrictionsTo entity ++
    f.linked.relationsFrom entity ++ f.linked.relationsTo entity)

/-- Whether an edge at a relation entity is drawn.  A specialization needs both of its terms. -/
def retainsIncident (id : ElementId) : Except ViewError Bool :=
  if f.model.hasKind .specialization id then .ok (f.isIncluded id) else f.retains id

/-- The edges that end at a relation entity. -/
def incidentElementsOf (entity : ElementId) : Except ViewError (List ElementId) :=
  selectM f.retainsIncident (f.incidentCandidates entity)

/-! ## Instances -/

/-- The assertions of an instance.  Those of a structure instance are not collected. -/
def assertionsOf (id : ElementId) : List ElementId :=
  match f.model.kind? id with
  | some .conceptInstance =>
    f.localOnly (f.linked.propertyValuesOf id ++ f.linked.linksOf id ++
      f.linked.relationInstancesFrom id)
  | some .relationInstance => f.localOnly (f.linked.propertyValuesOf id ++ f.linked.linksOf id)
  | _ => []

end Frame

end OntologyView

/-
  MODELS: elements and who owns whom.

  A model is an array of nodes; the id of an element is its place in the array.  Each node holds an
  element, the link UP to its container and the links DOWN to its children.  Only ontologies stand
  without a container.

  Nothing here asks that the links agree: a model is plain data, and every look-up below answers for
  any model and any id.  An id outside the array has no element, no container and no children.
  `Model.ofEdits` makes the models whose links do agree.
-/
import OntologyView.Element
import OntologyView.SourceRange

namespace OntologyView

/-- An element in its place. -/
structure Node where
  element : Element
  /-- The owner, absent for ontologies. -/
  container : Option ElementId
  /-- The owned elements, in order of declaration. -/
  children : List ElementId
  /-- Where the element stood in its text, if it came from text. -/
  range : Option SourceRange
deriving DecidableEq, Repr

/-- The nodes of a model, by id. -/
structure Model where
  nodes : Array Node
deriving DecidableEq, Repr

namespace Model

/-- The model without elements. -/
def empty : Model := ⟨#[]⟩

/-- The number of elements. -/
def size (m : Model) : Nat := m.nodes.size

/-- Whether a model has no elements. -/
def isEmpty (m : Model) : Bool := m.nodes.isEmpty

/-- The ids of the elements, in order. -/
def ids (m : Model) : List ElementId := List.range m.size

@[simp] theorem mem_ids {m : Model} {id : ElementId} : id ∈ m.ids ↔ id < m.size :=
  List.mem_range

/-! ## Looking up one id -/

/-- The node with an id. -/
def node? (m : Model) (id : ElementId) : Option Node := m.nodes[id]?

/-- The element with an id. -/
def element? (m : Model) (id : ElementId) : Option Element :=
  (m.node? id).map Node.element

/-- The kind of an element. -/
def kind? (m : Model) (id : ElementId) : Option ElementKind :=
  (m.element? id).map Element.kind

/-- The name of a member. -/
def name? (m : Model) (id : ElementId) : Option String :=
  (m.element? id).bind Element.name?

/-- The owner of an element. -/
def container? (m : Model) (id : ElementId) : Option ElementId :=
  (m.node? id).bind Node.container

/-- The elements that `id` owns, in order of declaration. -/
def children (m : Model) (id : ElementId) : List ElementId :=
  (m.node? id).elim [] Node.children

/-- The source range of an element. -/
def range? (m : Model) (id : ElementId) : Option SourceRange :=
  (m.node? id).bind Node.range

/-- The ontology with an id, if the id is one of an ontology. -/
def ontology? (m : Model) (id : ElementId) : Option Ontology :=
  match m.element? id with
  | some (.ontology header) => some header
  | _ => none

/-- The direct statements of an ontology.  Nothing else has statements. -/
def statements (m : Model) (id : ElementId) : List ElementId :=
  if (m.ontology? id).isSome then m.children id else []

/-- Whether `id` is the id of an element that `accept` accepts. -/
def satisfies (m : Model) (accept : Element → Bool) (id : ElementId) : Bool :=
  (m.element? id).any accept

/-- Whether `id` is the id of an element of the kind. -/
def hasKind (m : Model) (kind : ElementKind) (id : ElementId) : Bool :=
  m.satisfies (fun e => e.kind = kind) id

theorem isSome_element? {m : Model} {id : ElementId} : (m.element? id).isSome ↔ id < m.size := by
  simp [element?, node?, size]

theorem lt_size_of_element? {m : Model} {id : ElementId} {e : Element}
    (h : m.element? id = some e) : id < m.size :=
  isSome_element?.mp (Option.isSome_of_eq_some h)

theorem lt_size_of_container? {m : Model} {id parent : ElementId}
    (h : m.container? id = some parent) : id < m.size := by
  obtain ⟨node, hn, _⟩ := Option.bind_eq_some_iff.mp h
  exact (Array.getElem?_eq_some_iff.mp hn).1

theorem lt_size_of_mem_children {m : Model} {id child : ElementId} (h : child ∈ m.children id) :
    id < m.size := by
  unfold children node? at h
  cases hn : m.nodes[id]? with
  | none => simp [hn] at h
  | some node => exact (Array.getElem?_eq_some_iff.mp hn).1

theorem hasKind_iff {m : Model} {kind : ElementKind} {id : ElementId} :
    m.hasKind kind id ↔ m.kind? id = some kind := by
  unfold hasKind satisfies kind?
  cases m.element? id <;> simp

/-! ## Ontologies -/

/-- The ontologies of a model, in order of id. -/
def ontologies (m : Model) : List (ElementId × Ontology) :=
  m.ids.filterMap fun id => (m.ontology? id).map (id, ·)

/-- The first ontology with a namespace. -/
def ontologyWithNamespace? (m : Model) (ns : String) : Option ElementId :=
  (m.ontologies.find? fun entry => entry.2.ns = ns).map Prod.fst

end Model

end OntologyView

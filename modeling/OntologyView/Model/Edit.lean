/-
  EDITS: how models come about.

  A model is made by a list of edits, applied in order to the model without elements.  Two of the
  four edits add one element each and hand out the next free id; the other two fill in an import or
  a source range, and are ignored where there is nothing to fill in.

  `add` writes both links of the new element: the link up to the container is always written, the
  link down only if there is a node to hold it.  The container is looked up when the new node is
  already in place, so an element may be given itself as its container.

  The named edits (`Edit.aspect`, `Edit.specialize`, …) say which element each way of writing a
  member, an axiom or an assertion adds.
-/
import OntologyView.Model

namespace OntologyView

/-- One step in the making of a model. -/
inductive Edit where
  /-- An ontology, which stands alone. -/
  | ontology (kind : OntologyKind) (ns nsPrefix : String)
  /-- One more import of an ontology.  Ignored if there is no such ontology. -/
  | importing (ontology : ElementId) (what : Import)
  /-- The source range of an element.  Ignored if there is no such element. -/
  | setRange (id : ElementId) (range : SourceRange)
  /-- An element, as the last child of a container. -/
  | add (container : ElementId) (element : Element)
deriving DecidableEq, Repr

/-! ## Applying edits -/

namespace Node

/-- The node with one more import, if it is an ontology. -/
def withImport (what : Import) (node : Node) : Node :=
  match node.element with
  | .ontology header =>
    { node with element := .ontology { header with imports := header.imports ++ [what] } }
  | _ => node

theorem container_withImport (what : Import) (node : Node) :
    (node.withImport what).container = node.container := by
  unfold withImport
  split <;> rfl

theorem children_withImport (what : Import) (node : Node) :
    (node.withImport what).children = node.children := by
  unfold withImport
  split <;> rfl

/-- The node with another child at the end. -/
def withChild (child : ElementId) (node : Node) : Node :=
  { node with children := node.children ++ [child] }

/-- `node'` is `node` with other children, another range, or other imports. -/
structure Keeps (node node' : Node) : Prop where
  container : node'.container = node.container
  kind : node'.element.kind = node.element.kind
  references : node'.element.references = node.element.references

theorem Keeps.trans {node node₁ node₂ : Node} (h : node.Keeps node₁) (h' : node₁.Keeps node₂) :
    node.Keeps node₂ where
  container := h'.container.trans h.container
  kind := h'.kind.trans h.kind
  references := h'.references.trans h.references

theorem keeps_withImport (what : Import) (node : Node) : node.Keeps (node.withImport what) := by
  unfold withImport
  split
  · rename_i header he
    exact ⟨rfl, by rw [he]; rfl, by rw [he]; rfl⟩
  · exact ⟨rfl, rfl, rfl⟩

theorem keeps_withChild (child : ElementId) (node : Node) : node.Keeps (node.withChild child) :=
  ⟨rfl, rfl, rfl⟩

theorem keeps_withRange (range : SourceRange) (node : Node) :
    node.Keeps { node with range := some range } :=
  ⟨rfl, rfl, rfl⟩

end Node

namespace Model

/-- The model with one more node, which owns nothing yet. -/
def push (m : Model) (container : Option ElementId) (element : Element) : Model :=
  ⟨m.nodes.push ⟨element, container, [], none⟩⟩

/-- The model with one node changed.  Nothing changes if there is no such node. -/
def modify (m : Model) (id : ElementId) (f : Node → Node) : Model :=
  ⟨m.nodes.modify id f⟩

theorem node?_push (m : Model) (container : Option ElementId) (element : Element)
    (id : ElementId) : (m.push container element).node? id =
      if id = m.size then some ⟨element, container, [], none⟩ else m.node? id :=
  Array.getElem?_push

theorem node?_modify (m : Model) (j : ElementId) (f : Node → Node) (id : ElementId) :
    (m.modify j f).node? id = if j = id then (m.node? id).map f else m.node? id :=
  Array.getElem?_modify

@[simp] theorem size_push (m : Model) (container : Option ElementId) (element : Element) :
    (m.push container element).size = m.size + 1 := by
  simp [push, size]

@[simp] theorem size_modify (m : Model) (id : ElementId) (f : Node → Node) :
    (m.modify id f).size = m.size := by
  simp [modify, size]

/-- The model after one edit. -/
def apply (m : Model) : Edit → Model
  | .ontology kind ns nsPrefix => m.push none (.ontology ⟨kind, ns, nsPrefix, []⟩)
  | .importing id what => m.modify id (Node.withImport what)
  | .setRange id range => m.modify id fun node => { node with range := some range }
  | .add container element =>
    (m.push (some container) element).modify container (Node.withChild m.size)

/-- The model that a list of edits makes. -/
def ofEdits (edits : List Edit) : Model :=
  edits.foldl apply empty

end Model

namespace Edit

/-- The id that an edit of `m` hands out: the next free one, if the edit adds an element. -/
def newId? (m : Model) : Edit → Option ElementId
  | .ontology .. | .add .. => some m.size
  | .importing .. | .setRange .. => none

/-- The node that an edit adds, if it adds one, before it becomes a child. -/
def newNode? : Edit → Option Node
  | .ontology kind ns nsPrefix => some ⟨.ontology ⟨kind, ns, nsPrefix, []⟩, none, [], none⟩
  | .add container element => some ⟨element, some container, [], none⟩
  | .importing .. | .setRange .. => none

/-- The elements that an edit takes to be there: the container of what it adds, and all that this
    refers to. -/
def mentions : Edit → List ElementId
  | .add container element => container :: element.references.map Prod.snd
  | .ontology .. | .importing .. | .setRange .. => []

/-- The elements that what an edit adds refers to. -/
def refersTo : Edit → List ElementId
  | .add _ element => element.references.map Prod.snd
  | .ontology .. | .importing .. | .setRange .. => []

/-- A new id is the one of the added element. -/
theorem size_apply (m : Model) (e : Edit) :
    (m.apply e).size = m.size + (e.newId? m).toList.length := by
  cases e <;> simp [Model.apply, newId?]

end Edit

namespace Model

/-- The ids that a list of edits of `m` hands out, in order. -/
def handedOut (m : Model) : List Edit → List ElementId
  | [] => []
  | edit :: rest => (edit.newId? m).toList ++ (m.apply edit).handedOut rest

theorem ids_apply (m : Model) (edit : Edit) :
    (m.apply edit).ids = m.ids ++ (edit.newId? m).toList := by
  rw [ids, Edit.size_apply, ids]
  cases edit <;> simp [Edit.newId?, List.range_succ]

/-- **Ids are handed out in order**, without a gap. -/
theorem ids_foldl_apply (m : Model) (edits : List Edit) :
    (edits.foldl apply m).ids = m.ids ++ m.handedOut edits := by
  induction edits generalizing m with
  | nil => exact (List.append_nil _).symm
  | cons edit rest ih => rw [List.foldl_cons, ih, ids_apply, handedOut, List.append_assoc]

end Model

namespace Edit

/-! ## Ontologies and members -/

/-- An ontology that declares terms. -/
def vocabulary (ns nsPrefix : String) : Edit := .ontology .vocabulary ns nsPrefix

/-- An ontology that describes instances. -/
def description (ns nsPrefix : String) : Edit := .ontology .description ns nsPrefix

variable (owner : ElementId) (name : String)

def aspect : Edit := .add owner (.aspect name)

def concept : Edit := .add owner (.concept name)

def struct : Edit := .add owner (.struct name)

def rule : Edit := .add owner (.rule name)

/-- A scalar, faceted unless said otherwise. -/
def scalar : Edit := .add owner (.scalar name .faceted)

def relationEntity (source target : Option ElementId) : Edit :=
  .add owner (.relationEntity name source target)

/-- The forward or reverse relation of the relation entity `owner`. -/
def relation (direction : Direction) : Edit := .add owner (.relation direction name)

def property (kind : PropertyKind) (domain range : Option ElementId) : Edit :=
  .add owner (.property kind name domain range)

def conceptInstance (types : List ElementId) : Edit :=
  .add owner (.conceptInstance name types)

/-- A relation instance, without types unless said otherwise. -/
def relationInstance (sources targets : List ElementId) : Edit :=
  .add owner (.relationInstance name [] sources targets)

/-! ## Axioms, assertions and references -/

def structureInstance (type : Option ElementId) : Edit := .add owner (.structureInstance type)

def reference (kind : ReferenceKind) (member : Option ElementId) : Edit :=
  .add owner (.reference kind member)

/-- `owner` is a subterm of `super`.  The owner is a term or a reference to one. -/
def specialize (super : Option ElementId) : Edit := .add owner (.specialization super)

def key (properties : List ElementId) : Edit := .add owner (.key properties)

def propertyRestriction (propertyKind : PropertyKind) (kind : PropertyRestrictionKind)
    (property range : Option ElementId) : Edit :=
  .add owner (.propertyRestriction propertyKind kind property range)

def relationRestriction (demand : RelationRestriction) (relation : Option ElementId) : Edit :=
  .add owner (.relationRestriction demand relation)

def propertyValue (property : Option ElementId) : Edit := .add owner (.propertyValue property)

def link (relation target : Option ElementId) : Edit := .add owner (.link relation target)

end Edit

/-! ## Running the definitions -/

example : (Model.ofEdits [.vocabulary "http://example.com/dnd#" "dnd",
    .aspect 0 "Dungeon", .aspect 0 "Monster", .specialize 2 (some 1)]).children 0 = [1, 2] := by
  decide
example : (Model.ofEdits [.aspect 0 "Own"]).container? 0 = some 0 := by decide

end OntologyView

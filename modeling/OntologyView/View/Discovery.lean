/-
  DISCOVERY: which elements an analysis meets, and in which order.

  The walk starts at the statements of the ontology and goes depth first.  Two kinds of elements lead
  on: a reference to its member, and a relation entity to its source and then to its target.  Of the
  elements met, those of a kind that has a place in diagrams are shown; the others are passed over.

  Every element is met once, before what it leads to.  The walk fails on the first id that no element
  has, and on the first ontology: an ontology is no statement of another one.

  It is measured by twice the number of elements not yet met plus the number of ids waiting, since an
  element leads to two others at most (`length_leads_le`).
-/
import OntologyView.Model.Containment
import OntologyView.View.Error

namespace OntologyView

/-- Whether elements of a kind have a place in diagrams of their own. -/
def ElementKind.isShown (kind : ElementKind) : Bool :=
  kind.isClassifier || kind = .scalar || kind.isInstance

/-- The elements that must be met with an element. -/
def Element.leads : Element → List ElementId
  | .reference _ member => member.toList
  | .relationEntity _ source target => source.toList ++ target.toList
  | _ => []

theorem Element.length_leads_le (e : Element) : e.leads.length ≤ 2 := by
  cases e with
  | reference kind member => cases member <;> simp [leads]
  | relationEntity name source target => cases source <;> cases target <;> simp [leads]
  | _ => simp [leads]

namespace Model

/-- Meets the waiting elements, first one first, after those in `met`. -/
def meet (m : Model) (met : List ElementId) : List ElementId → Except ViewError (List ElementId)
  | [] => .ok met
  | id :: waiting =>
    if _hn : id ∈ met then m.meet met waiting
    else
      match _he : m.element? id with
      | none => .error (.unknownElement id)
      | some (.ontology _) => .error (.unhandledElement id .ontology .discovery (m.range? id))
      | some e => m.meet (met ++ [id]) (e.leads ++ waiting)
termination_by waiting => 2 * unseen m.ids met + waiting.length
decreasing_by
  · simp
  · have hlt := unseen_ids_lt (lt_size_of_element? _he) _hn
    have heq : unseen m.ids (id :: met) = unseen m.ids (met ++ [id]) :=
      unseen_congr fun k => by simp [or_comm]
    have := e.length_leads_le
    simp only [List.length_append, List.length_cons]
    omega

/-- The elements that an analysis of an ontology meets, in order. -/
def met (m : Model) (root : ElementId) : Except ViewError (List ElementId) :=
  m.meet [] (m.statements root)

/-- The elements that an analysis of an ontology shows, in order. -/
def discover (m : Model) (root : ElementId) : Except ViewError (List ElementId) :=
  (m.met root).map (List.filter (m.satisfies (·.kind.isShown)))

end Model

end OntologyView

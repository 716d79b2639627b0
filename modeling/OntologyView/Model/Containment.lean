/-
  CONTAINMENT, read upwards: the owners of an element, up to its ontology.

  `ancestors` follows the links up.  In a model whose links form a forest the walk ends at the top.
  A model may hold a ring of containers, too; then the walk ends when it comes back to an element
  that it has already left.

  The walk is measured by the ids that it has not yet left: every step leaves one more of them.

  Here is also what asks no such question, and follows a ring as long as it is let
  (`isContainedInFor`, `rootOntologyFor`).
-/
import OntologyView.Model
import OntologyView.Ordered.Distinct

namespace OntologyView.Model

/-- Leaving an element of the model for the first time makes the rest of a walk shorter. -/
theorem unseen_ids_lt {m : Model} {left : List ElementId} {id : ElementId} (hid : id < m.size)
    (hn : id ∉ left) : unseen m.ids (id :: left) < unseen m.ids left :=
  unseen_lt (mem_ids.mpr hid) hn

/-- The owners above `id`, nearest first, up to an element that was left before. -/
def ancestorsFrom (m : Model) (left : List ElementId) (id : ElementId) : List ElementId :=
  if _hn : id ∈ left then []
  else
    match _hc : m.container? id with
    | none => []
    | some parent => parent :: m.ancestorsFrom (id :: left) parent
termination_by unseen m.ids left
decreasing_by exact unseen_ids_lt (lt_size_of_container? _hc) _hn

/-- The owner of an element, the owner of its owner, and so on. -/
def ancestors (m : Model) (id : ElementId) : List ElementId :=
  m.ancestorsFrom [] id

/-- Whether `ancestor` contains `id`, directly or through others.  No element contains itself,
    unless the containers form a ring. -/
def isContainedIn (m : Model) (id ancestor : ElementId) : Bool :=
  ancestor ∈ m.ancestors id

/-- The topmost owner of `id`, or `id` itself when it has no owner. -/
def top (m : Model) (id : ElementId) : ElementId :=
  (m.ancestors id).getLast?.getD id

/-- The ontology that `id` belongs to. -/
def rootOntology? (m : Model) (id : ElementId) : Option ElementId :=
  if (m.ontology? (m.top id)).isSome then some (m.top id) else none

/-! ## The walks without their guard

The same walks, with nothing kept in mind.  They take fuel, which is how many links they may follow,
and answer `none` when it runs out. -/

/-- Follows the links up from `id`, until one leads to `ancestor` or there is none. -/
def isContainedInFor (m : Model) (ancestor : ElementId) : (fuel : Nat) → (id : ElementId) →
    Option Bool
  | 0, _ => none
  | fuel + 1, id =>
    match m.container? id with
    | none => some false
    | some parent => if parent = ancestor then some true else m.isContainedInFor ancestor fuel parent

/-- Follows the links up from `id` until there is none. -/
def topFor (m : Model) : (fuel : Nat) → (id : ElementId) → Option ElementId
  | 0, _ => none
  | fuel + 1, id =>
    match m.container? id with
    | none => some id
    | some parent => m.topFor fuel parent

/-- The ontology that `id` belongs to, if the walk to it ends. -/
def rootOntologyFor (m : Model) (fuel : Nat) (id : ElementId) : Option (Option ElementId) :=
  (m.topFor fuel id).map fun top => if (m.ontology? top).isSome then some top else none

/-! ## The guarded walk, case by case -/

theorem ancestorsFrom_eq (m : Model) (left : List ElementId) (id : ElementId) :
    m.ancestorsFrom left id = if id ∈ left then [] else
      (m.container? id).elim [] fun parent => parent :: m.ancestorsFrom (id :: left) parent := by
  rw [ancestorsFrom]
  split
  · rfl
  · split
    · rename_i h
      rw [h]
      rfl
    · rename_i h
      rw [h]
      rfl

theorem ancestors_of_container?_none {m : Model} {id : ElementId} (h : m.container? id = none) :
    m.ancestors id = [] := by
  rw [ancestors, ancestorsFrom_eq, h]
  rfl

end OntologyView.Model

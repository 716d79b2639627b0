/-
  TERMS behind the links: which member an element stands for, which terms a specialization joins,
  and which relation entity a relation belongs to.

  A reference stands for its member; every other element stands for itself.  So the subterm of a
  specialization is what its OWNER stands for: an axiom written on a reference to a term is an axiom
  of the term.
-/
import OntologyView.Model

namespace OntologyView.Model

/-! ## References -/

/-- What an element stands for: the member of a reference, and any other element itself.  A
    reference that leads nowhere and an unknown id stand for nothing. -/
def member? (m : Model) (id : ElementId) : Option ElementId :=
  match m.element? id with
  | some (.reference _ member) => member
  | some _ => some id
  | none => none

theorem member?_eq_some_iff {m : Model} {id member : ElementId} : m.member? id = some member ↔
    (∃ kind, m.element? id = some (.reference kind (some member))) ∨
      id = member ∧ id < m.size ∧ m.kind? id ≠ some .reference := by
  unfold member? kind?
  cases he : m.element? id with
  | none =>
    have hsize : ¬ id < m.size := by simp [← isSome_element?, he]
    simp [hsize]
  | some e =>
    have hsize : id < m.size := lt_size_of_element? he
    cases e <;> simp [hsize, Element.kind]

/-! ## Specializations -/

/-- The general term of a specialization. -/
def superterm? (m : Model) (id : ElementId) : Option ElementId :=
  match m.element? id with
  | some (.specialization super) => super
  | _ => none

/-- The specific term of a specialization. -/
def subterm? (m : Model) (id : ElementId) : Option ElementId :=
  match m.element? id with
  | some (.specialization _) => (m.container? id).bind m.member?
  | _ => none

theorem superterm?_eq_some_iff {m : Model} {id super : ElementId} :
    m.superterm? id = some super ↔ m.element? id = some (.specialization (some super)) := by
  unfold superterm?
  cases m.element? id with
  | none => simp
  | some e => cases e <;> simp

theorem subterm?_eq_some_iff {m : Model} {id sub : ElementId} : m.subterm? id = some sub ↔
    m.kind? id = some .specialization ∧ (m.container? id).bind m.member? = some sub := by
  unfold subterm? kind?
  cases m.element? id with
  | none => simp
  | some e => cases e <;> simp [Element.kind]

theorem lt_size_of_superterm? {m : Model} {id super : ElementId}
    (h : m.superterm? id = some super) : id < m.size :=
  lt_size_of_element? (superterm?_eq_some_iff.mp h)

/-! ## Relations -/

/-- The relation entity that owns a forward or reverse relation. -/
def owningEntity? (m : Model) (id : ElementId) : Option ElementId :=
  match m.element? id with
  | some (.relation ..) => (m.container? id).filter (m.hasKind .relationEntity)
  | _ => none

/-- The relation of an element that reads in a direction: the first such child. -/
def relation? (m : Model) (direction : Direction) (id : ElementId) : Option ElementId :=
  (m.children id).find? (m.hasKind (.relation direction))

end OntologyView.Model

/-
  LOCALITY: which elements an ontology declares itself.

  An analysis shows elements of other ontologies, too, but it takes properties, axioms and assertions
  only from what is LOCAL to the analysed ontology.  Imported ontologies are never walked.
-/
import OntologyView.Exploration
import OntologyView.Model

namespace OntologyView

/-- What counts as declared by an ontology. -/
inductive Locality where
  /-- Its direct statements, and nothing that these own. -/
  | topLevelStatements
  /-- Everything in it, at any depth. -/
  | ownedContent
deriving DecidableEq, Repr

/-- What is local unless said otherwise. -/
def Locality.default : Locality := .topLevelStatements

namespace Model

/-- The ids in all lists of children. -/
def ownedIds (m : Model) : List ElementId :=
  m.ids.flatMap m.children

theorem mem_ownedIds_of_mem_children {m : Model} {id child : ElementId}
    (h : child ∈ m.children id) : child ∈ m.ownedIds :=
  List.mem_flatMap.mpr ⟨id, mem_ids.mpr (lt_size_of_mem_children h), h⟩

/-- What an element owns, directly or through others.  A ring of children is walked once. -/
def contents (m : Model) (id : ElementId) : List ElementId :=
  (Exploration.explore m.children id false m.ownedIds fun _ =>
    Exploration.Reaches.mem_of_step fun _ _ => mem_ownedIds_of_mem_children).found

/-- The elements that are local to an ontology. -/
def localElements (m : Model) (root : ElementId) : Locality → List ElementId
  | .topLevelStatements => m.statements root
  | .ownedContent => if (m.ontology? root).isSome then m.contents root else []

end Model

end OntologyView

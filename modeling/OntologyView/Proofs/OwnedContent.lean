/-
  OWNED CONTENT is containment.

  1. **Program** — what is local to an ontology is found by links down.  Either its direct statements
     are local, or all that a walk from them meets: a stack of elements, and each one popped for the
     first time pushes what it owns.

  2. **Specification** — whether an element lies in an ontology is asked by links up.

  3. **The crux** — the walk down ends in every model, with what one or more links down lead to
     (`gives_localElementsFor`).  A ring of children is walked once, and one that leads back to the
     ontology makes this its own content.  Where the links agree in both directions, some links down
     are some links up, read backwards (`Interlinked.reaches_children_iff`).
-/
import OntologyView.Proofs.Containment
import OntologyView.Proofs.Termination

namespace OntologyView

namespace Model

variable {m : Model} {root owner x : ElementId}

/-- Links down lead to what lies in an element, if the links agree. -/
theorem Interlinked.reaches_children_iff (hm : m.Interlinked) :
    Exploration.Reaches m.children owner x ↔ m.LiesIn x owner := by
  have hswap : (fun a b => b ∈ m.children a) =
      Function.swap fun id owner => m.container? id = some owner :=
    funext fun a => funext fun b => propext (hm.mem_children_iff a b)
  rw [Exploration.Reaches, hswap, Relation.transGen_swap, LiesIn]

theorem Interlinked.mem_ownedContent_iff (hm : m.Interlinked) (hk : m.kind? root = some .ontology) :
    x ∈ m.localElements root .ownedContent ↔ m.isContainedIn x root = true := by
  rw [Model.mem_ownedContent_iff, and_iff_right hk, hm.reaches_children_iff, isContainedIn_iff]

theorem Interlinked.mem_topLevelStatements_iff (hm : m.Interlinked)
    (hk : m.kind? root = some .ontology) :
    x ∈ m.localElements root .topLevelStatements ↔ m.container? x = some root := by
  rw [localElements, mem_statements_iff, and_iff_right hk, hm.mem_children_iff]

/-- **The content of an ontology is what it contains.**  In every model the walk for it ends, even if
    the children form rings, and finds what one or more links down lead to.  In models whose elements
    were placed these are the elements that the ontology contains, and its direct statements are those
    that have it as their container. -/
theorem ownedContent_is_containment (m : Model) (root : ElementId) :
    (∃ content, Ends (fun fuel => m.localElementsFor fuel root .ownedContent) (some content) ∧
      (∀ x, x ∈ content ↔ x ∈ m.localElements root .ownedContent) ∧
      ∀ x, x ∈ content ↔ m.kind? root = some .ontology ∧
        Relation.TransGen (fun owner child => child ∈ m.children owner) root x) ∧
    (m.Placed → m.kind? root = some .ontology → ∀ x,
      (x ∈ m.localElements root .ownedContent ↔ m.isContainedIn x root = true) ∧
      (x ∈ m.localElements root .topLevelStatements ↔ m.container? x = some root)) := by
  constructor
  · obtain ⟨content, hgives, hlocal⟩ := m.gives_localElementsFor root .ownedContent
    exact ⟨content, hgives.ends trivial, hlocal, fun x => (hlocal x).trans Model.mem_ownedContent_iff⟩
  · intro hm hk x
    exact ⟨hm.interlinked.mem_ownedContent_iff hk, hm.interlinked.mem_topLevelStatements_iff hk⟩

end Model

/-- The axiom three levels down is content of the outer ontology and of the inner one.  Where an
    element owns the ontology that owns it, the ontology is its own content. -/
theorem ownedContent_is_containment_nestedOntology :
    (Model.ofEdits nestedOntologyEdits).Placed ∧
    (Model.ofEdits nestedOntologyEdits).kind? 0 = some .ontology ∧
    (4 ∈ (Model.ofEdits nestedOntologyEdits).localElements 0 .ownedContent ∧
      (Model.ofEdits nestedOntologyEdits).isContainedIn 4 0 = true) ∧
    (4 ∉ (Model.ofEdits nestedOntologyEdits).localElements 0 .topLevelStatements ∧
      (Model.ofEdits nestedOntologyEdits).container? 4 = some 3) ∧
    ringsOfOtherKinds.kind? 0 = some .ontology ∧
    Relation.TransGen (fun owner child => child ∈ ringsOfOtherKinds.children owner) 0 0 ∧
    ∃ content, Ends (fun fuel => ringsOfOtherKinds.localElementsFor fuel 0 .ownedContent)
      (some content) ∧ 0 ∈ content := by
  have hm : (Model.ofEdits nestedOntologyEdits).Placed := ⟨_, by decide +kernel, rfl⟩
  have hk : (Model.ofEdits nestedOntologyEdits).kind? 0 = some .ontology := by decide +kernel
  obtain ⟨hcontent, htop⟩ :=
    (Model.ownedContent_is_containment (.ofEdits nestedOntologyEdits) 0).2 hm hk 4
  have hin : (Model.ofEdits nestedOntologyEdits).isContainedIn 4 0 = true := by decide +kernel
  have hcontainer : (Model.ofEdits nestedOntologyEdits).container? 4 = some 3 := by decide +kernel
  obtain ⟨content, hends, -, hreach⟩ :=
    (Model.ownedContent_is_containment ringsOfOtherKinds 0).1
  have hring : Relation.TransGen (fun owner child => child ∈ ringsOfOtherKinds.children owner) 0 0 :=
    .tail (b := 1) (.single (by decide +kernel)) (by decide +kernel)
  have hkRing : ringsOfOtherKinds.kind? 0 = some .ontology := by decide +kernel
  refine ⟨hm, hk, ⟨hcontent.mpr hin, hin⟩, ⟨fun h => ?_, hcontainer⟩, hkRing, hring, content, hends,
    (hreach 0).mpr ⟨hkRing, hring⟩⟩
  exact absurd (hcontainer.symm.trans (htop.mp h)) (by decide)

end OntologyView

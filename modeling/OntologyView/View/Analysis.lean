/-
  ANALYSIS: the view of an ontology.

  1. **Discovery** meets the elements that are shown (`Model.discover`).
  2. **Resolution** draws on them, by the rules of `Frame`.

  Resolution looks at what is shown and at what is local, and at nothing that it draws itself.  So it
  is a function of what discovery found: `LinkedModel.analyze` discovers, and hands the frame of what
  is shown to `Frame.view`.

  As ONE run, which visits elements, queues classifiers and resolves them in a draft, the analysis is
  `LinkedModel.analyzeFor`.  That run has no guards, and in a model with a ring of references, or of
  specializations, it need not end.  Here there is an answer then, too.  Wherever the run ends, it has
  this answer (`LinkedModel.gives_analyzeFor`), so what is proved of `analyze` holds of the runs that
  end, and those of ring-free models do.
-/
import OntologyView.View
import OntologyView.View.Discovery
import OntologyView.View.Locality
import OntologyView.View.Resolution

namespace OntologyView

/-- The view of what is shown in a frame: what a run has drawn when its queue is resolved
    (`Frame.view_draft`). -/
def Frame.view (f : Frame) : Except ViewError View := do
  let axiomEntries ← (f.shownOf ElementKind.isEntity).mapM fun id =>
    (f.axiomsOf id).map (id, ·)
  let incidentEntries ← (f.shownOf (· = .relationEntity)).mapM fun id =>
    (f.incidentElementsOf id).map (id, ·)
  return {
    aspects := f.shownOf (· = .aspect)
    concepts := f.shownOf (· = .concept)
    scalars := f.shownOf (· = .scalar)
    structures := f.shownOf (· = .struct)
    relationEntities := f.shownOf (· = .relationEntity)
    scalarProperties := f.propertyTable .scalar
    structuredProperties := f.propertyTable .structured
    entityAxioms := Table.ofList axiomEntries
    incidentElements := Table.ofList incidentEntries
    instanceAssertions :=
      Table.ofList ((f.shownOf ElementKind.isInstance).map fun id => (id, f.assertionsOf id))
    resolved := f.shownOf ElementKind.isClassifier
  }

/-- The view of the ontology `root`, with the given references and locality.  Rings are guarded
    against, so there is an answer in every model. -/
def LinkedModel.analyze (lm : LinkedModel) (root : ElementId) (locality : Locality) :
    Except ViewError View :=
  match lm.model.element? root with
  | some (.ontology _) => do
    let shown ← lm.model.discover root
    Frame.view ⟨lm, lm.model.localElements root locality, shown⟩
  | some e => .error (.notAnOntology root e.kind)
  | none => .error (.unknownElement root)

/-- The view of the ontology `root`, with the references of the model itself and the locality that
    holds unless said otherwise. -/
def Model.analyze (m : Model) (root : ElementId) : Except ViewError View :=
  (LinkedModel.ofModel m).analyze root .default

end OntologyView

/-
  ERRORS of an analysis.

  A reference that leads nowhere is no error: it contributes nothing.  An analysis fails on an id
  that no element has, on a root that is no ontology, and on an element that stands where the
  analysis has no rule for its kind.
-/
import OntologyView.Element
import OntologyView.SourceRange

namespace OntologyView

/-- The two halves of an analysis. -/
inductive Phase where
  /-- Deciding which elements are shown. -/
  | discovery
  /-- Attributing properties and filtering axioms. -/
  | resolution
deriving DecidableEq, Repr

/-- The name of a phase in messages. -/
def Phase.label : Phase → String
  | .discovery => "discovery"
  | .resolution => "resolution"

/-- Why an analysis failed. -/
inductive ViewError where
  /-- No element has this id. -/
  | unknownElement (id : ElementId)
  /-- The root is an element of another kind. -/
  | notAnOntology (id : ElementId) (found : ElementKind)
  /-- The phase has no rule for elements of this kind. -/
  | unhandledElement (id : ElementId) (kind : ElementKind) (phase : Phase)
      (range : Option SourceRange)
deriving DecidableEq, Repr

namespace ViewError

/-- An optional source range in messages. -/
def rangeText : Option SourceRange → String
  | none => "None"
  | some r => "Some(" ++ r.text ++ ")"

/-- The wording of an error. -/
def message : ViewError → String
  | unknownElement id => "element " ++ id.text ++ " does not exist in the model"
  | notAnOntology id found =>
    "analysis root " ++ id.text ++ " is a " ++ found.label ++ ", not an ontology"
  | unhandledElement id kind phase range =>
    "no " ++ phase.label ++ " rule for " ++ kind.label ++ " element " ++ id.text ++
      " (range " ++ rangeText range ++ ")"

end ViewError

/-! ## Running the definitions -/

example : (ViewError.notAnOntology 1 .concept).message =
    "analysis root #1 is a Concept, not an ontology" := by decide +kernel
example : (ViewError.unhandledElement 4 .key .discovery (some ⟨4, 9, by decide⟩)).message =
    "no discovery rule for KeyAxiom element #4 (range Some(4..9))" := by decide +kernel

end OntologyView

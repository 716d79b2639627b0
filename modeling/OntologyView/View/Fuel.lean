/-
  FUEL: the analysis without its guards.

  The functions of an analysis end in every model, because they keep more in mind than the answer
  asks for: inclusion carries the elements that it is in the middle of deciding, discovery all the
  elements that it met, and a walk the bound that it stays in.  Here are the same functions without
  that, and they work on a draft, as the phases of an analysis do.

  * `Model.includedFor` follows the rules of inclusion, again and again if they lead back;
  * `Draft.visitFor` passes over the elements that are SHOWN already.  A reference is never shown, so
    it is visited whenever something leads to it;
  * `Model.contentsFor` pops an element off a stack and passes over it if it was found before;
  * `LinkedModel.supertermsFor` is the open walk of `Exploration.exploreFor`.

  `Draft.runFor` is both phases: it visits the statements of the ontology, changes the phase, and
  visits what is in the queue by then.

  All of them take fuel, which is how deep a recursion may go and how often a loop may turn, and
  answer `none` when it runs out.  A run without fuel ends if some amount of it is enough.
-/
import OntologyView.View.Draft
import OntologyView.View.Locality

namespace OntologyView

/-! ## The loops and recursions of an analysis -/

namespace Model

/-- Inclusion by its rules alone. -/
def includedFor (m : Model) (known : ElementId → Bool) : (fuel : Nat) → ElementId → Option Bool
  | 0, _ => none
  | fuel + 1, id =>
    match m.element? id with
    | none => some false
    | some (.specialization super) => do
      if ← super.elim (some false) (m.includedFor known fuel) then
        (m.subterm? id).elim (some false) (m.includedFor known fuel)
      else some false
    | some (.reference _ member) => member.elim (some false) (m.includedFor known fuel)
    | some _ => some (known id)

/-- Empties a stack of elements, its top first, while what the popped ones own is pushed on it. -/
def contentsFor (m : Model) : (fuel : Nat) → (found stack : List ElementId) →
    Option (List ElementId)
  | _, found, [] => some found
  | 0, _, _ :: _ => none
  | fuel + 1, found, id :: rest =>
    if id ∈ found then m.contentsFor fuel found rest
    else m.contentsFor fuel (found ++ [id]) ((m.children id).reverse ++ rest)

/-- The elements that are local to an ontology.  Its last statement is the top of the stack. -/
def localElementsFor (m : Model) (fuel : Nat) (root : ElementId) : Locality →
    Option (List ElementId)
  | .topLevelStatements => some (m.statements root)
  | .ownedContent => m.contentsFor fuel [] (m.statements root).reverse

end Model

/-- The terms that `term` specializes, and `term` itself. -/
def LinkedModel.supertermsFor (lm : LinkedModel) (fuel : Nat) (term : ElementId) :
    Option (List ElementId) :=
  (Exploration.exploreFor lm.directSuperterms fuel term true).map Exploration.found

/-- What the rules of a frame are answered with so much fuel. -/
def Frame.answersFor (f : Frame) (fuel : Nat) : Answers where
  included := f.model.includedFor (fun k => f.isLocal k || k ∈ f.shown) fuel
  superterms := f.linked.supertermsFor fuel

/-! ## The phases -/

namespace Draft

/-- Visits an element by the rule of the phase. -/
def visitFor : (fuel : Nat) → Draft → ElementId → ExceptT ViewError Option Draft
  | 0, _, _ => ExceptT.mk none
  | fuel + 1, d, id =>
    match d.phase with
    | .discovery => d.discover id (visitFor fuel)
    | .resolution => d.resolve id (d.frame.answersFor fuel)

/-- Visits the statements of an ontology, and then what they put into the queue. -/
def runFor (fuel : Nat) (root : ElementId) (d : Draft) : ExceptT ViewError Option View := do
  let discovered ← (d.model.statements root).foldlM (visitFor fuel) d
  let resolved ← discovered.queue.foldlM (visitFor fuel) { discovered with phase := .resolution }
  return resolved.view

end Draft

/-! ## The analysis -/

/-- The view of the ontology `root`, unless fuel runs out. -/
def LinkedModel.analyzeFor (lm : LinkedModel) (fuel : Nat) (root : ElementId)
    (locality : Locality) : ExceptT ViewError Option View :=
  match lm.model.element? root with
  | some (.ontology _) => do
    let locals ← lm.model.localElementsFor fuel root locality
    (Draft.start lm locals).runFor fuel root
  | some e => throw (.notAnOntology root e.kind)
  | none => throw (.unknownElement root)

end OntologyView

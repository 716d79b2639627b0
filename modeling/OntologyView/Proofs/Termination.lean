/-
  TERMINATION: without its guards the analysis ends, too, in ring-free models.

  1. **Specification** — some amount of fuel is enough, and more changes nothing.  What the analysis
     ends with is the answer that it gives with its guards, be it a view or an error.

  2. **Program** — `LinkedModel.analyzeFor`, the two phases over one draft, which guards against
     nothing.

  3. **The crux** — the measures of the four loops and recursions are in `OntologyView.Proofs.Guards`.

  What edits make is ring-free if containers come first as well as what is referred to.  The second
  alone is not enough (`not_ringFree_ownedByItself`).
-/
import OntologyView.Proofs.Guards

namespace OntologyView

namespace LinkedModel

/-- **Every analysis of a ring-free model ends**, with any references, and with the view or the error
    that the guarded analysis answers; however many rings there are of specialized terms, of the ends
    of relation entities, or of children.  Models made in order are ring-free. -/
theorem analysis_ends (lm : LinkedModel) (root : ElementId) (locality : Locality) :
    (lm.model.MadeInOrder → lm.model.RingFree) ∧
    (lm.model.RingFree → ∃ enough, ∀ fuel, enough ≤ fuel →
      (lm.analyzeFor fuel root locality).run = some (lm.analyze root locality)) :=
  ⟨Model.MadeInOrder.ringFree, (lm.gives_analyzeFor root locality).ends⟩

end LinkedModel

/-- Two relation entities that end at each other and specialize each other, the first of which owns
    the ontology that owns it. -/
def ringsOfOtherKinds : Model :=
  (Model.ofEdits [.vocabulary "http://example.com/dnd#" "dnd",
    .relationEntity 0 "Guards" (some 2) (some 1), .relationEntity 0 "Fears" (some 1) none,
    .specialize 1 (some 2), .specialize 2 (some 1)]).modify 1 (Node.withChild 0)

/-- Two aspects that specialize each other, made in order. -/
def aspectsInOrder : Model := .ofEdits [.vocabulary "http://example.com/dnd#" "dnd",
  .aspect 0 "Monster", .aspect 0 "Undead", .reference 0 .aspect (some 2), .specialize 1 (some 2),
  .specialize 3 (some 1)]

theorem analysis_ends_ringsOfOtherKinds :
    ringsOfOtherKinds.RingFree ∧
    (∃ v enough, ∀ fuel, enough ≤ fuel → ((LinkedModel.ofModel ringsOfOtherKinds).analyzeFor fuel 0
      .ownedContent).run = some (.ok v)) ∧
    aspectsInOrder.MadeInOrder ∧ aspectsInOrder.RingFree := by
  have hrings : ringsOfOtherKinds.RingFree := Model.ringFree_of_descends (by decide +kernel)
  have horder : aspectsInOrder.MadeInOrder := ⟨_, by decide +kernel, rfl⟩
  have hok : ((LinkedModel.ofModel ringsOfOtherKinds).analyze 0 .ownedContent).toOption.any
      (fun _ => true) = true := by
    decide +kernel
  obtain ⟨v, hv, -⟩ := exists_of_any hok
  obtain ⟨enough, hends⟩ :=
    (LinkedModel.analysis_ends (.ofModel ringsOfOtherKinds) 0 .ownedContent).2 hrings
  exact ⟨hrings, ⟨v, enough, hv ▸ hends⟩, horder,
    (LinkedModel.analysis_ends (.ofModel aspectsInOrder) 0 .ownedContent).1 horder⟩

/-- A specialization that is added to the element which it becomes itself, and another one into it.
    All that these refer to is there before. -/
def ownedByItself : List Edit := [.vocabulary "http://example.com/dnd#" "dnd",
  .aspect 0 "Monster", .specialize 2 (some 1), .specialize 1 (some 2)]

/-- Models in which everything refers to older elements need not be ring-free, and inclusion need not
    end in them. -/
theorem not_ringFree_ownedByItself :
    Model.empty.RefersBack ownedByItself ∧ (Model.ofEdits ownedByItself).subterm? 2 = some 2 ∧
    ¬ (Model.ofEdits ownedByItself).RingFree ∧
    ∀ known : ElementId → Bool, known 1 = true → ∀ fuel,
      (Model.ofEdits ownedByItself).includedFor known fuel 2 = none := by
  have hsub : (Model.ofEdits ownedByItself).subterm? 2 = some 2 := by decide +kernel
  have haspect : (Model.ofEdits ownedByItself).element? 1 = some (.aspect "Monster") := by
    decide +kernel
  have hspecialization :
      (Model.ofEdits ownedByItself).element? 2 = some (.specialization (some 1)) := by
    decide +kernel
  refine ⟨by decide +kernel, hsub, fun hm => ?_, fun known hknown fuel => ?_⟩
  · exact hm 2 (.of_step (Model.mem_standsOn_subterm hspecialization hsub))
  · -- The aspect is included, so all depends on what the specialization belongs to, itself.
    induction fuel with
    | zero => rfl
    | succ fuel ih =>
      rw [Model.includedFor, hspecialization, hsub]
      cases fuel with
      | zero => rfl
      | succ fuel =>
        have hsuper : (Model.ofEdits ownedByItself).includedFor known (fuel + 1) 1 = some true := by
          rw [Model.includedFor, haspect, ← hknown]
        simp only [Option.elim_some, hsuper, ih]
        rfl

end OntologyView

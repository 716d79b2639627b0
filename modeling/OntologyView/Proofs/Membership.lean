/-
  MEMBERSHIP: a view shows what is in reach of its ontology, in the order of the depth-first visit.

  Three things are said of the lists of a finished view.  Nothing is in them twice; together they
  hold the elements in reach that are of a shown kind; and each of them is the depth-first order with
  the elements of other kinds left out (`View.ListedAlong`).

  Neither the recorded references nor the locality has a say in this.  Nothing is asked of the model
  either, but only because this is the guarded walk, which passes a ring of relation entities or
  references once.  A run without guards passes a ring of relation entities once, too, and never ends on
  a ring of references (`LinkedModel.visitFor_of_ring`).  If it ends, it has the same view
  (`LinkedModel.gives_analyzeFor`).
-/
import OntologyView.Model.Edit
import OntologyView.Proofs.Analysis

namespace OntologyView

/-- Every list of a view follows the order in which elements were met. -/
structure View.ListedAlong (v : View) (m : Model) (order : List ElementId) : Prop where
  aspects : v.aspects = order.filter (m.hasKind .aspect)
  concepts : v.concepts = order.filter (m.hasKind .concept)
  scalars : v.scalars = order.filter (m.hasKind .scalar)
  structures : v.structures = order.filter (m.hasKind .struct)
  relationEntities : v.relationEntities = order.filter (m.hasKind .relationEntity)
  instances : v.instances = order.filter fun id => m.hasKind .conceptInstance id ||
    m.hasKind .relationInstance id || m.hasKind .structureInstance id

namespace LinkedModel

variable {lm : LinkedModel} {root : ElementId} {locality : Locality} {order : List ElementId}

/-- What is shown of some kinds is what was met of them, if elements of those kinds are shown. -/
theorem shownOf_frame (lm : LinkedModel) (root : ElementId) (locality : Locality)
    (order : List ElementId) {accept : ElementKind → Bool}
    (h : ∀ kind, accept kind = true → kind.isShown = true) :
    (lm.frame root locality order).shownOf accept =
      order.filter (lm.model.satisfies fun e => accept e.kind) := by
  show (order.filter _).filter (lm.model.satisfies fun e => accept e.kind) = _
  -- The two filters ask for a shown kind and for an accepted one; the second implies the first.
  rw [List.filter_filter]
  refine List.filter_congr fun id _ => ?_
  cases hacc : lm.model.satisfies (fun e => accept e.kind) id with
  | false => rfl
  | true =>
    obtain ⟨kind, hk, hk'⟩ := Model.satisfies_kind_iff.mp hacc
    have hs : lm.model.satisfies (fun e => e.kind.isShown) id = true :=
      Model.satisfies_kind_iff.mpr ⟨kind, hk, h kind hk'⟩
    rw [hs]
    rfl

theorem shownOf_kind (lm : LinkedModel) (root : ElementId) (locality : Locality)
    (order : List ElementId) {kind : ElementKind} (h : kind.isShown = true) :
    (lm.frame root locality order).shownOf (· = kind) = order.filter (lm.model.hasKind kind) :=
  shownOf_frame lm root locality order fun _ hk => of_decide_eq_true hk ▸ h

theorem listedAlong_drawn (h : (lm.frame root locality order).Proper) :
    (lm.frame root locality order).drawn.ListedAlong lm.model order where
  aspects := shownOf_kind lm root locality order rfl
  concepts := shownOf_kind lm root locality order rfl
  scalars := shownOf_kind lm root locality order rfl
  structures := shownOf_kind lm root locality order rfl
  relationEntities := shownOf_kind lm root locality order rfl
  instances := by
    have hshown : ∀ kind : ElementKind, kind.isInstance = true → kind.isShown = true := by
      intro kind hk
      simp [ElementKind.isShown, hk]
    rw [h.instances_drawn, shownOf_frame lm root locality order hshown]
    refine List.filter_congr fun id _ => ?_
    unfold Model.hasKind Model.satisfies
    cases lm.model.element? id with
    | none => rfl
    | some e => cases e <;> rfl

/-- **A view shows what is in reach**, each element once and in its list, in the order of the
    depth-first visit.  In models with rings this is said of the runs that end
    (`gives_analyzeFor`). -/
theorem shown_iff_reached {v : View} (h : lm.analyze root locality = .ok v) :
    v.shown.Nodup ∧
    (∀ id, id ∈ v.shown ↔ lm.model.Reached root id ∧
      ∃ kind ∈ ElementKind.shown, lm.model.kind? id = some kind) ∧
    ∃ order, lm.model.DepthFirst [] (lm.model.statements root) (.ok order) ∧
      (∀ id, id ∈ order ↔ lm.model.Reached root id) ∧ v.ListedAlong lm.model order := by
  obtain ⟨order, hmet, hproper, rfl⟩ := exists_frame h
  obtain ⟨-, hreach⟩ := Model.mem_met_iff hmet
  refine ⟨hproper.nodup_shown_drawn, fun id => ?_, order, Model.depthFirst_iff.mpr hmet, hreach,
    listedAlong_drawn hproper⟩
  have hkinds : lm.model.satisfies (fun e => e.kind.isShown) id = true ↔
      ∃ kind ∈ ElementKind.shown, lm.model.kind? id = some kind := by
    rw [Model.satisfies_kind_iff]
    simp only [ElementKind.isShown_iff]
    exact exists_congr fun _ => and_comm
  rw [hproper.mem_shown_drawn, ← hreach, ← hkinds]
  exact List.mem_filter

end LinkedModel

/-- Two relation entities that are an end of each other, one of them in another document, and a
    reference into that document. -/
def relationRing : Model := .ofEdits [.vocabulary "http://example.com/dnd#" "dnd",
  .vocabulary "http://example.com/base#" "base", .aspect 1 "Place",
  .relationEntity 0 "Contains" (some 2) (some 4), .relationEntity 1 "Near" (some 3) (some 2),
  .reference 0 .concept (some 6), .concept 1 "Monster", .scalar 0 "Gold"]

theorem shown_iff_reached_relationRing :
    ∃ v, (LinkedModel.ofModel relationRing).analyze 0 .topLevelStatements = .ok v ∧
      v.shown.Nodup ∧
      (∀ id, id ∈ v.shown ↔ relationRing.Reached 0 id ∧
        ∃ kind ∈ ElementKind.shown, relationRing.kind? id = some kind) ∧
      ∃ order, relationRing.DepthFirst [] (relationRing.statements 0) (.ok order) ∧
        (∀ id, id ∈ order ↔ relationRing.Reached 0 id) ∧ v.ListedAlong relationRing order := by
  have hok : ((LinkedModel.ofModel relationRing).analyze 0 .topLevelStatements).toOption.any
      (fun _ => true) = true := by
    decide +kernel
  obtain ⟨v, hv, -⟩ := exists_of_any hok
  exact ⟨v, hv, LinkedModel.shown_iff_reached hv⟩

example : relationRing.met 0 = .ok [3, 2, 4, 5, 6, 7] := by cbv

end OntologyView

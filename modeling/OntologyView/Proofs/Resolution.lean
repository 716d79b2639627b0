/-
  RESOLUTION NEVER FAILS, whatever a frame holds.

  `Frame.retains` has rules for some kinds of elements and fails on the others.  It is only ever
  asked about candidates, and every query that candidates come from asks for one of those kinds; that
  is in the query, not in the references that it looks up in.  So no test fails, `selectM` filters
  (`axiomsOf_eq`, `incidentElementsOf_eq`), and the view of a frame is one that can be written down:
  `Frame.drawn`.

  All that is proved about finished views starts from `Frame.view_eq`.
-/
import OntologyView.Proofs.Queries
import OntologyView.View.Analysis

namespace OntologyView

/-! ## The kinds with a rule -/

namespace ElementKind

/-- The kinds of axioms that entities show, in the order in which they are listed. -/
def entityAxioms : List ElementKind :=
  [.key, .specialization, .propertyRestriction, .relationRestriction]

/-- Whether `Frame.retains` has a rule for elements of a kind: axioms and relations. -/
def hasRule : ElementKind → Bool
  | .key | .specialization | .propertyRestriction | .relationRestriction | .relation _ => true
  | _ => false

theorem hasRule_of_mem_entityAxioms : ∀ kind ∈ entityAxioms, kind.hasRule = true := by
  decide

end ElementKind

namespace Frame

variable {f g : Frame} {id entity : ElementId}

/-- Whether everything that an axiom or a relation refers to is included, and `false` of anything
    else. -/
def keeps (f : Frame) (id : ElementId) : Bool :=
  match f.retains id with
  | .ok kept => kept
  | .error _ => false

/-- The rule for edges, which asks more of a specialization. -/
def keepsIncident (f : Frame) (id : ElementId) : Bool :=
  if f.model.hasKind .specialization id then f.isIncluded id else f.keeps id

/-- `retains` answers where it has a rule. -/
theorem retains_eq {kind : ElementKind} (hk : f.model.hasKind kind id = true)
    (hrule : kind.hasRule = true) : f.retains id = .ok (f.keeps id) := by
  obtain ⟨e, he, rfl⟩ := Model.hasKind_iff_exists.mp hk
  unfold keeps retains
  rw [he]
  cases e with
  | key | specialization | propertyRestriction | relationRestriction | relation => rfl
  | _ => cases hrule

/-- A relation is kept if the relation entity that owns it is included. -/
theorem keeps_relation_iff {direction : Direction}
    (hk : f.model.hasKind (.relation direction) id = true) : f.keeps id = true ↔
      ∃ owner, f.model.owningEntity? id = some owner ∧ f.isIncluded owner = true := by
  obtain ⟨e, he, hk⟩ := Model.hasKind_iff_exists.mp hk
  unfold keeps retains
  rw [he]
  cases e with
  | relation => exact Option.any_eq_true _ _
  | _ => cases hk

/-! ## Candidates are of those kinds -/

theorem mem_localOnly {candidates : List ElementId} :
    id ∈ f.localOnly candidates ↔ id ∈ candidates ∧ id ∈ f.locals := by
  simp [localOnly, isLocal, List.mem_eraseDups]

theorem nodup_localOnly (f : Frame) (candidates : List ElementId) :
    (f.localOnly candidates).Nodup :=
  nodup_eraseDups _

/-- What is local stays in the order of the candidates. -/
theorem localOnly_sublist (f : Frame) (candidates : List ElementId) :
    (f.localOnly candidates).Sublist candidates :=
  (eraseDups_sublist _).trans List.filter_sublist

theorem hasKind_of_mem_axiomCandidates (h : id ∈ f.axiomCandidates entity) :
    ∃ kind ∈ ElementKind.entityAxioms, f.model.hasKind kind id = true := by
  have hc := (mem_localOnly.mp h).1
  simp only [List.mem_append] at hc
  rcases hc with ((hc | hc) | hc) | hc
  all_goals exact ⟨_, by decide, LinkedModel.hasKind_of_mem_belongings hc⟩

theorem hasKind_of_mem_incidentCandidates (h : id ∈ f.incidentCandidates entity) :
    ∃ kind, kind.hasRule = true ∧ f.model.hasKind kind id = true := by
  have hc := (mem_localOnly.mp h).1
  simp only [List.mem_append] at hc
  rcases hc with ((hc | hc) | hc) | hc
  · exact ⟨.specialization, rfl, LinkedModel.hasKind_of_mem_referringOfKind hc⟩
  · obtain ⟨narrowed, relation, he⟩ := LinkedModel.element?_of_mem_rangeRestrictionsTo hc
    exact ⟨.relationRestriction, rfl, Model.hasKind_iff_exists.mpr ⟨_, he, rfl⟩⟩
  · obtain ⟨direction, hk⟩ := LinkedModel.hasKind_of_mem_relations (Or.inl hc)
    exact ⟨.relation direction, rfl, hk⟩
  · obtain ⟨direction, hk⟩ := LinkedModel.hasKind_of_mem_relations (Or.inr hc)
    exact ⟨.relation direction, rfl, hk⟩

/-- The assertions of named instances are what belongs to them, and relation instances from them. -/
theorem mem_assertionsOf {i : ElementId} : id ∈ f.assertionsOf i ↔ id ∈ f.locals ∧
    ∃ kind, f.model.kind? i = some kind ∧ kind.isNamedInstance = true ∧
      (id ∈ f.linked.belongings .propertyValue i ∨ id ∈ f.linked.belongings .link i ∨
        kind = .conceptInstance ∧ id ∈ f.linked.relationInstancesFrom i) := by
  have hvalues : ∀ kind, f.model.kind? i = some kind → kind.isNamedInstance = true →
      f.linked.propertyValuesOf i = f.linked.belongings .propertyValue i := by
    intro kind hk hnamed
    obtain ⟨e, he, rfl⟩ := Option.map_eq_some_iff.mp hk
    exact if_pos (Model.satisfies_iff.mpr ⟨e, he, hnamed⟩)
  unfold assertionsOf
  split
  · rename_i hk
    rw [mem_localOnly, hvalues _ hk rfl]
    simp [hk, ElementKind.isNamedInstance, LinkedModel.linksOf, and_comm]
  · rename_i hk
    rw [mem_localOnly, hvalues _ hk rfl]
    simp [hk, ElementKind.isNamedInstance, LinkedModel.linksOf, and_comm]
  · rename_i hconcept hrelation
    -- An instance of another kind is not named.
    simp only [List.not_mem_nil, false_iff]
    rintro ⟨-, kind, hk, hnamed, -⟩
    cases kind with
    | conceptInstance => exact hconcept hk
    | relationInstance => exact hrelation hk
    | _ => nomatch hnamed

/-! ## No test fails -/

theorem axiomsOf_eq (f : Frame) (entity : ElementId) :
    f.axiomsOf entity = .ok ((f.axiomCandidates entity).filter f.keeps) := by
  -- Candidates are of kinds that `retains` has a rule for.
  refine selectM_eq_ok_filter fun id hid => ?_
  obtain ⟨kind, hmem, hk⟩ := hasKind_of_mem_axiomCandidates hid
  exact retains_eq hk (ElementKind.hasRule_of_mem_entityAxioms kind hmem)

theorem incidentElementsOf_eq (f : Frame) (entity : ElementId) :
    f.incidentElementsOf entity = .ok ((f.incidentCandidates entity).filter f.keepsIncident) := by
  refine selectM_eq_ok_filter fun id hid => ?_
  obtain ⟨kind, hrule, hk⟩ := hasKind_of_mem_incidentCandidates hid
  rw [retainsIncident, keepsIncident]
  split
  · rfl
  · exact retains_eq hk hrule

/-! ## The view of a frame -/

/-- What is drawn in a frame. -/
def drawn (f : Frame) : View where
  aspects := f.shownOf (· = .aspect)
  concepts := f.shownOf (· = .concept)
  scalars := f.shownOf (· = .scalar)
  structures := f.shownOf (· = .struct)
  relationEntities := f.shownOf (· = .relationEntity)
  scalarProperties := f.propertyTable .scalar
  structuredProperties := f.propertyTable .structured
  entityAxioms := Table.ofList ((f.shownOf ElementKind.isEntity).map fun id =>
    (id, (f.axiomCandidates id).filter f.keeps))
  incidentElements := Table.ofList ((f.shownOf (· = .relationEntity)).map fun id =>
    (id, (f.incidentCandidates id).filter f.keepsIncident))
  instanceAssertions :=
    Table.ofList ((f.shownOf ElementKind.isInstance).map fun id => (id, f.assertionsOf id))
  resolved := f.shownOf ElementKind.isClassifier

/-- **Every frame has a view.** -/
theorem view_eq (f : Frame) : f.view = .ok f.drawn := by
  have haxioms : (fun id => (f.axiomsOf id).map (id, ·)) =
      fun id => (pure (id, (f.axiomCandidates id).filter f.keeps) : Except ViewError _) := by
    funext id
    rw [axiomsOf_eq]
    rfl
  have hincident : (fun id => (f.incidentElementsOf id).map (id, ·)) =
      fun id =>
        (pure (id, (f.incidentCandidates id).filter f.keepsIncident) : Except ViewError _) := by
    funext id
    rw [incidentElementsOf_eq]
    rfl
  rw [view, haxioms, hincident, List.mapM_pure, List.mapM_pure]
  rfl

/-! ## Frames that agree -/

/-- Two frames by which resolution goes alike. -/
structure Agrees (f g : Frame) : Prop where
  shownOf : ∀ accept, f.shownOf accept = g.shownOf accept
  attributionsOf : ∀ kind classifier,
    f.attributionsOf kind classifier = g.attributionsOf kind classifier
  axiomCandidates : ∀ entity, f.axiomCandidates entity = g.axiomCandidates entity
  incidentCandidates : ∀ entity, f.incidentCandidates entity = g.incidentCandidates entity
  keeps : ∀ id, f.keeps id = g.keeps id
  keepsIncident : ∀ id, f.keepsIncident id = g.keepsIncident id
  assertionsOf : ∀ id, f.assertionsOf id = g.assertionsOf id

/-- Where resolution goes alike, the same is drawn. -/
theorem Agrees.drawn_eq (h : f.Agrees g) : f.drawn = g.drawn := by
  have hkeeps : f.keeps = g.keeps := funext h.keeps
  have hincident : f.keepsIncident = g.keepsIncident := funext h.keepsIncident
  have hattributions : ∀ kind, f.attributionsOf kind = g.attributionsOf kind :=
    fun kind => funext (h.attributionsOf kind)
  have hproperties : ∀ kind, f.propertyTable kind = g.propertyTable kind := fun kind => by
    rw [propertyTable, propertyTable, attributions, attributions, h.shownOf, hattributions]
  simp only [drawn, h.shownOf, h.axiomCandidates, h.incidentCandidates, h.assertionsOf, hkeeps,
    hincident, hproperties]

/-- Of the local elements resolution asks only whether something is one of them. -/
theorem agrees_of_locals {lm : LinkedModel} {shown locals locals' : List ElementId}
    (h : ∀ id, id ∈ locals ↔ id ∈ locals') : Agrees ⟨lm, locals, shown⟩ ⟨lm, locals', shown⟩ := by
  have hlocal : isLocal ⟨lm, locals, shown⟩ = isLocal ⟨lm, locals', shown⟩ := by
    funext id
    exact decide_eq_decide.mpr (h id)
  have hincluded : isIncluded ⟨lm, locals, shown⟩ = isIncluded ⟨lm, locals', shown⟩ := by
    funext id
    rw [isIncluded, isIncluded, hlocal]
    rfl
  have hlocalOnly : localOnly ⟨lm, locals, shown⟩ = localOnly ⟨lm, locals', shown⟩ := by
    funext candidates
    rw [localOnly, localOnly, hlocal]
  have hretains : retains ⟨lm, locals, shown⟩ = retains ⟨lm, locals', shown⟩ := by
    funext id
    unfold retains
    rw [hincluded]
    rfl
  exact
    { shownOf := fun _ => rfl
      attributionsOf := fun kind classifier => by
        unfold attributionsOf
        rw [hlocal, hincluded]
      axiomCandidates := fun entity => by rw [axiomCandidates, axiomCandidates, hlocalOnly]
      incidentCandidates := fun entity => by rw [incidentCandidates, incidentCandidates, hlocalOnly]
      keeps := fun id => by rw [keeps, keeps, hretains]
      keepsIncident := fun id => by
        rw [keepsIncident, keepsIncident, hincluded, keeps, keeps, hretains]
        rfl
      assertionsOf := fun id => by
        unfold assertionsOf
        rw [hlocalOnly]
        rfl }

end Frame

end OntologyView

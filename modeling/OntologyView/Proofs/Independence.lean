/-
  WHAT A VIEW DOES NOT DEPEND ON, or not much: the locality, and the order of the statements.

  1. **Locality** — discovery never asks what is local, so two analyses that differ in the locality
     only meet the same elements, or fail on the same one.  Statements are content, so the frame of
     the one carries over to the frame of the other, and what is drawn with the narrower locality is
     drawn with the wider one (`LinkedModel.localities_agree`).

  2. **Order** — the depth-first visit depends on the order of the statements in all that it does, and
     on an ontology with an obstacle in reach it may fail with another error.  But WHAT is in reach is
     said by rules that know no order, and so are all lists and tables of a view, as sets.  So models
     that differ in the order of the statements carry over into each other, both ways
     (`Model.Rearranged.carriesOver`), and have the same view
     (`LinkedModel.analysis_ignores_statement_order`).
-/
import OntologyView.Proofs.Comparison
import OntologyView.Proofs.Failure

namespace OntologyView

/-! ## Locality -/

theorem View.stage_congr {v w : View} (hshown : w.shown = v.shown)
    (hresolved : w.resolved = v.resolved) (id : ElementId) : w.stage id = v.stage id := by
  rw [View.stage, View.contains, hshown, hresolved]
  rfl

namespace LinkedModel

/-- What is local among the statements is local in the content. -/
theorem carriesOver_ownedContent (lm : LinkedModel) (root : ElementId) (order : List ElementId) :
    (lm.frame root .topLevelStatements order).CarriesOver (fun _ => True)
      (lm.frame root .ownedContent order) where
  linked := .refl lm
  locals := by
    intro x hx
    have hlocal : x ∈ lm.model.localElements root .ownedContent :=
      Model.mem_localElements_of_mem_statements hx
    exact ⟨trivial, hlocal⟩
  shown := fun _ hx => ⟨trivial, hx⟩

/-- **The two localities agree** on whether there is a view and on what is shown, with any
    references.  With the content of the ontology all is drawn that is drawn with its statements,
    and perhaps more; only properties may go to other owners.  In models with rings this is said of
    the runs that end (`gives_analyzeFor`). -/
theorem localities_agree (lm : LinkedModel) (root : ElementId) :
    (∃ err, lm.analyze root .topLevelStatements = .error err ∧
      lm.analyze root .ownedContent = .error err) ∨
    ∃ v w, lm.analyze root .topLevelStatements = .ok v ∧ lm.analyze root .ownedContent = .ok w ∧
      w.shown = v.shown ∧ (∀ id, w.stage id = v.stage id) ∧ v.Within w := by
  have hwalk : lm.model.met root = lm.model.met root := rfl
  rcases analyze_of_met_eq rfl hwalk .topLevelStatements .ownedContent with
    hfail | ⟨order, hmet, hv, hw⟩
  · exact Or.inl hfail
  · have hproper : ∀ locality, (lm.frame root locality order).Proper := fun _ => proper_frame hmet
    obtain ⟨hshown, hresolved⟩ :=
      (hproper .topLevelStatements).shown_drawn_congr (hproper .ownedContent) rfl fun _ _ => rfl
    exact Or.inr ⟨_, _, hv, hw, hshown, View.stage_congr hshown hresolved,
      (lm.carriesOver_ownedContent root order).within (fun _ _ => trivial) (hproper _) (hproper _)⟩

end LinkedModel

/-! ## The order of the statements -/

/-- The node with other children. -/
def Node.withChildren (children : List ElementId) (node : Node) : Node :=
  { node with children := children }

namespace Model

/-- The model with another list of children at one place.  Nothing changes if there is no such
    place. -/
def withChildren (m : Model) (id : ElementId) (children : List ElementId) : Model :=
  m.modify id (Node.withChildren children)

/-- `m'` is `m`, except that the children of `root` may come in another order and repeatedly. -/
structure Rearranged (root : ElementId) (m m' : Model) : Prop where
  element : ∀ id, m'.element? id = m.element? id
  container : ∀ id, m'.container? id = m.container? id
  children : ∀ id, id ≠ root → m'.children id = m.children id
  children_root : SameMembers (m.children root) (m'.children root)

variable {m m' : Model} {root : ElementId}

theorem Rearranged.symm (h : m.Rearranged root m') : m'.Rearranged root m where
  element := fun id => (h.element id).symm
  container := fun id => (h.container id).symm
  children := fun id hid => (h.children id hid).symm
  children_root := ⟨h.children_root.2, h.children_root.1⟩

theorem rearranged_withChildren {children : List ElementId}
    (h : SameMembers children (m.children root)) :
    m.Rearranged root (m.withChildren root children) where
  element := by
    intro id
    rw [element?, withChildren, node?_modify, element?]
    split
    · cases m.node? id <;> rfl
    · rfl
  container := fun _ => container?_modify (f := Node.withChildren children) (fun _ => rfl) root
  children := by
    intro id hid
    rw [Model.children, withChildren, node?_modify, if_neg (Ne.symm hid), Model.children]
  children_root := by
    rw [Model.children] at h
    rw [Model.children, Model.children, withChildren, node?_modify, if_pos rfl]
    cases hn : m.node? root with
    | none => exact ⟨fun _ => id, fun _ => id⟩
    | some node =>
      rw [hn] at h
      exact ⟨h.2, h.1⟩

/-- Children of an ontology are no relations, so models that are rearranged there carry over. -/
theorem Rearranged.carriesOver (h : m.Rearranged root m') (hroot : m.kind? root = some .ontology) :
    m.CarriesOver (fun _ => True) m' where
  element := fun _ he => (h.element _).trans he
  container := fun _ hc => (h.container _).trans hc
  child := by
    intro owner x _ hx
    by_cases howner : owner = root
    · subst howner
      exact h.children_root.1 x hx
    · rwa [h.children owner howner]
  relation := by
    intro owner direction x _ hk hx
    -- A relation entity is not the ontology, so its children are what they were.
    have howner : owner ≠ root := by
      rintro rfl
      nomatch hroot.symm.trans (hasKind_iff.mp hk)
    have hkind : m'.hasKind (.relation direction) = m.hasKind (.relation direction) := by
      funext id
      rw [hasKind, satisfies, h.element, hasKind, satisfies]
    rw [relation?, h.children owner howner, hkind]
    exact hx
  among_reference := fun _ _ _ => trivial
  among_container := fun _ _ => trivial
  among_owner := fun _ _ => trivial

end Model

namespace LinkedModel

variable {m m' : Model} {root : ElementId} {locality : Locality}

/-- Where models carry over both ways, there is a view of both or of neither. -/
theorem exists_view_of_carriesOver (h : m.CarriesOver (fun _ => True) m')
    (h' : m'.CarriesOver (fun _ => True) m)
    (hv : ∃ v, (ofModel m).analyze root locality = .ok v) :
    ∃ w, (ofModel m').analyze root locality = .ok w := by
  rw [exists_view_iff] at hv ⊢
  obtain ⟨hk, hmeetable⟩ := hv
  refine ⟨h.kind? trivial hk, fun id hid => ?_⟩
  obtain ⟨kind, hkind, hne⟩ := hmeetable id (hid.carriesOver h')
  exact ⟨kind, h.kind? trivial hkind, hne⟩

/-- **The order of the statements does not matter**, and neither does listing one repeatedly: there
    is the same view, order forgotten, or there is none.  In models with rings this is said of the
    runs that end (`gives_analyzeFor`). -/
theorem analysis_ignores_statement_order {statements : List ElementId}
    (hstatements : SameMembers statements (m.children root)) (locality : Locality) :
    ((∃ v, (ofModel m).analyze root locality = .ok v) ↔
      ∃ w, (ofModel (m.withChildren root statements)).analyze root locality = .ok w) ∧
    ∀ v w, (ofModel m).analyze root locality = .ok v →
      (ofModel (m.withChildren root statements)).analyze root locality = .ok w → v.Same w := by
  have harranged := Model.rearranged_withChildren hstatements
  have hkind : (m.withChildren root statements).kind? root = m.kind? root := by
    rw [Model.kind?, harranged.element, Model.kind?]
  have hcarries : m.kind? root = some .ontology →
      m.CarriesOver (fun _ => True) (m.withChildren root statements) ∧
        (m.withChildren root statements).CarriesOver (fun _ => True) m :=
    fun hroot => ⟨harranged.carriesOver hroot, harranged.symm.carriesOver (hkind.trans hroot)⟩
  refine ⟨⟨fun hv => ?_, fun hw => ?_⟩, fun v w hv hw => ?_⟩
  · obtain ⟨h, h'⟩ := hcarries (exists_view_iff.mp hv).1
    exact exists_view_of_carriesOver h h' hv
  · obtain ⟨h, h'⟩ := hcarries (hkind.symm.trans (exists_view_iff.mp hw).1)
    exact exists_view_of_carriesOver h' h hw
  · obtain ⟨h, h'⟩ := hcarries (exists_view_iff.mp ⟨v, hv⟩).1
    obtain ⟨order, hmet, hproper, rfl⟩ := exists_frame hv
    obtain ⟨order', hmet', hproper', rfl⟩ := exists_frame hw
    exact (h.frame locality hmet hmet').same_drawn (h'.frame locality hmet' hmet)
      (fun _ _ => trivial) (fun _ _ => trivial) hproper hproper'

end LinkedModel

/-- Two aspects that a property sinks to, with the statements backwards and one of them twice. -/
theorem analysis_ignores_statement_order_hiddenTop :
    SameMembers [7, 4, 3, 7] (hiddenTop.children 0) ∧
    ∃ v w, (LinkedModel.ofModel hiddenTop).analyze 0 .topLevelStatements = .ok v ∧
      (LinkedModel.ofModel (hiddenTop.withChildren 0 [7, 4, 3, 7])).analyze 0
        .topLevelStatements = .ok w ∧
      v.aspects = [3, 4] ∧ w.aspects = [4, 3] ∧ v.Same w := by
  have hstatements : SameMembers [7, 4, 3, 7] (hiddenTop.children 0) := by decide +kernel
  have hok : ((LinkedModel.ofModel hiddenTop).analyze 0 .topLevelStatements).toOption.any
      (fun v => v.aspects = [3, 4]) = true := by
    decide +kernel
  have hok' : ((LinkedModel.ofModel (hiddenTop.withChildren 0 [7, 4, 3, 7])).analyze 0
      .topLevelStatements).toOption.any (fun w => w.aspects = [4, 3]) = true := by
    decide +kernel
  obtain ⟨v, hv, htest⟩ := exists_of_any hok
  obtain ⟨w, hw, htest'⟩ := exists_of_any hok'
  exact ⟨hstatements, v, w, hv, hw, of_decide_eq_true htest, of_decide_eq_true htest',
    (LinkedModel.analysis_ignores_statement_order hstatements .topLevelStatements).2 v w hv hw⟩

end OntologyView

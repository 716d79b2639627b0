/-
  FAILURE: when there is no view, and what is to blame.

  1. **Specification** — `VisitOrder`, the depth-first order of ALL ids in reach of an ontology.  It
     goes on where an analysis cannot: the id of no element leads nowhere, and neither does an
     ontology.  These two are the obstacles (`obstacle?`).  An analysis fails if and only if there is
     an obstacle in reach, and the first one in this order is to blame.

  2. **Program** — `Model.meet`, which stops at an obstacle and never learns what comes after it.

  3. **The crux** — up to the first obstacle both go the same way (`VisitOrder.meet_eq`, by induction
     on the visit).  And there is an order in every model (`exists_visitOrder`): only elements lead
     on, so the visit has the measure of the program.

  Resolution has errors of its own, but no analysis ends in one (`LinkedModel.failure_cases`).
-/
import OntologyView.Model.Edit
import OntologyView.Proofs.Guards
import OntologyView.Proofs.Worklist

namespace OntologyView

theorem View.eq_error_of_sameOutcome {outcome : Except ViewError View} {err : ViewError}
    (h : View.SameOutcome outcome (.error err)) : outcome = .error err := by
  cases outcome with
  | ok v => exact h.elim
  | error err' => exact congrArg Except.error h

namespace Model

/-! ## Obstacles -/

/-- Elements that an analysis can meet: those that exist and are no ontology. -/
def Meetable (m : Model) (id : ElementId) : Prop :=
  ∃ kind, m.kind? id = some kind ∧ kind ≠ .ontology

/-- Why an id cannot be met. -/
def obstacle? (m : Model) (id : ElementId) : Option ViewError :=
  match m.kind? id with
  | none => some (.unknownElement id)
  | some .ontology => some (.unhandledElement id .ontology .discovery (m.range? id))
  | some _ => none

/-- The depth-first visit of some ids after those in `visited`, obstacles and all. -/
inductive VisitOrder (m : Model) : List ElementId → List ElementId → List ElementId → Prop where
  | done {visited : List ElementId} : VisitOrder m visited [] visited
  /-- An id is visited once. -/
  | again {visited rest order : List ElementId} {id : ElementId} (hid : id ∈ visited)
      (hrest : VisitOrder m visited rest order) : VisitOrder m visited (id :: rest) order
  /-- First the id, then all that it leads to, then the others. -/
  | first {visited below rest order : List ElementId} {id : ElementId} (hid : id ∉ visited)
      (hbelow : VisitOrder m (visited ++ [id]) (m.leads id) below)
      (hrest : VisitOrder m below rest order) : VisitOrder m visited (id :: rest) order

variable {m : Model} {root id : ElementId} {visited waiting order : List ElementId}

theorem obstacle?_eq_none_iff : m.obstacle? id = none ↔ m.Meetable id := by
  unfold obstacle? Meetable
  split
  · simp_all
  · simp_all
  · rename_i kind hne hk
    exact ⟨fun _ => ⟨kind, hk, fun h => hne h⟩, fun _ => rfl⟩

theorem obstacle?_eq_some_iff {err : ViewError} : m.obstacle? id = some err ↔
    m.kind? id = none ∧ err = .unknownElement id ∨
      m.kind? id = some .ontology ∧
        err = .unhandledElement id .ontology .discovery (m.range? id) := by
  unfold obstacle?
  split
  · rename_i hk
    simp [hk, eq_comm (a := err)]
  · rename_i hk
    simp [hk, eq_comm (a := err)]
  · rename_i kind hne hk
    have hne : kind ≠ .ontology := hne
    simp [hk, hne]

/-! ## The program, up to the first obstacle -/

theorem meet_of_obstacle {err : ViewError} (hid : id ∉ visited) (h : m.obstacle? id = some err) :
    m.meet visited (id :: waiting) = .error err := by
  rcases obstacle?_eq_some_iff.mp h with ⟨hk, rfl⟩ | ⟨hk, rfl⟩
  · exact meet_of_unknown hid (Option.map_eq_none_iff.mp hk)
  · obtain ⟨e, he, hk⟩ := Option.map_eq_some_iff.mp hk
    exact meet_of_ontology hid he hk

theorem meet_of_meetable (hid : id ∉ visited) (h : m.Meetable id) :
    m.meet visited (id :: waiting) = m.meet (visited ++ [id]) (m.leads id ++ waiting) := by
  obtain ⟨kind, hk, hne⟩ := h
  obtain ⟨e, he, rfl⟩ := Option.map_eq_some_iff.mp hk
  rw [meet_of_first hid he hne, leads_of_element? he]

/-- **The walk goes along the order of the visit** and ends with the first obstacle in it. -/
theorem VisitOrder.meet_eq (h : m.VisitOrder visited waiting order) :
    ∃ new, order = visited ++ new ∧
      m.meet visited waiting = (new.findSome? m.obstacle?).elim (.ok order) .error := by
  induction h with
  | @done visited => exact ⟨[], by simp, by simp [meet_nil]⟩
  | again hid _ ih =>
    obtain ⟨new, horder, hmeet⟩ := ih
    exact ⟨new, horder, by rw [meet_of_mem hid, hmeet]⟩
  | @first visited below rest order id hid _ _ ihbelow ihrest =>
    obtain ⟨new, rfl, hbelow⟩ := ihbelow
    obtain ⟨new', rfl, hrest⟩ := ihrest
    refine ⟨id :: (new ++ new'), by simp, ?_⟩
    cases hobstacle : m.obstacle? id with
    | some err =>
      rw [meet_of_obstacle hid hobstacle, List.findSome?_cons, hobstacle]
      rfl
    | none =>
      -- `id` can be met, so the first obstacle is below it, or else among the others.
      rw [meet_of_meetable hid (obstacle?_eq_none_iff.mp hobstacle), meet_append, hbelow,
        List.findSome?_cons, hobstacle, List.findSome?_append]
      cases new.findSome? m.obstacle? with
      | some err => rfl
      | none => exact hrest

/-! ## The order of all that is in reach -/

theorem exists_visitOrder (m : Model) (visited : List ElementId) :
    (waiting : List ElementId) → ∃ order, m.VisitOrder visited waiting order
  | [] => ⟨visited, .done⟩
  | id :: rest => by
    by_cases hid : id ∈ visited
    · obtain ⟨order, h⟩ := exists_visitOrder m visited rest
      exact ⟨order, .again hid h⟩
    · have hbelow : ∃ below, m.VisitOrder (visited ++ [id]) (m.leads id) below := by
        cases he : m.element? id with
        | none => exact ⟨visited ++ [id], by rw [leads, he]; exact .done⟩
        | some e => exact exists_visitOrder m (visited ++ [id]) (m.leads id)
      obtain ⟨below, hbelow⟩ := hbelow
      obtain ⟨order, h⟩ := exists_visitOrder m below rest
      exact ⟨order, .first hid hbelow h⟩
termination_by waiting => 2 * unseen m.ids visited + waiting.length
decreasing_by
  · simp
  · -- An element is met: twice one less to meet, and at most two ids more that wait.
    have hlt := unseen_ids_lt (lt_size_of_element? he) hid
    have heq : unseen m.ids (id :: visited) = unseen m.ids (visited ++ [id]) :=
      unseen_congr fun k => by simp [or_comm]
    have := e.length_leads_le
    rw [leads_of_element? he]
    simp only [List.length_cons]
    omega
  · obtain ⟨new, rfl, -⟩ := hbelow.meet_eq
    have hle : unseen m.ids (visited ++ [id] ++ new) ≤ unseen m.ids visited :=
      unseen_le_of_subset fun k hk => by simp [hk]
    simp only [List.length_cons]
    omega

/-- There is one order only. -/
theorem VisitOrder.unique {order' : List ElementId} (h : m.VisitOrder visited waiting order)
    (h' : m.VisitOrder visited waiting order') : order' = order := by
  induction h generalizing order' with
  | done =>
    cases h' with
    | done => rfl
  | again hid _ ih =>
    cases h' with
    | again _ hrest' => exact ih hrest'
    | first hid' => exact absurd hid hid'
  | first hid _ _ ihbelow ihrest =>
    cases h' with
    | again hid' => exact absurd hid' hid
    | first _ hbelow' hrest' =>
      obtain rfl := ihbelow hbelow'
      exact ihrest hrest'

theorem VisitOrder.progress {rest : List ElementId} (h : m.VisitOrder visited waiting order)
    (hp : Progress m root visited (waiting ++ rest)) : Progress m root order rest := by
  induction h generalizing rest with
  | done => exact hp
  | again hid _ ih => exact ih (hp.again hid)
  | first hid _ _ ihbelow ihrest => exact ihrest (ihbelow (hp.first hid))

/-- **Everything in reach has its place** in the order, and the walk ends with the first obstacle. -/
theorem exists_visitOrder_reached (m : Model) (root : ElementId) :
    ∃ order, (∀ l, m.VisitOrder [] (m.statements root) l ↔ l = order) ∧
      (∀ id, id ∈ order ↔ m.Reached root id) ∧
      m.met root = (order.findSome? m.obstacle?).elim (.ok order) .error := by
  obtain ⟨order, h⟩ := exists_visitOrder m [] (m.statements root)
  have hstart : Progress m root [] (m.statements root ++ []) := by
    rw [List.append_nil]
    exact progress_start
  obtain ⟨new, rfl, hmeet⟩ := h.meet_eq
  exact ⟨_, fun l => ⟨h.unique, fun hl => hl ▸ h⟩, fun _ => (h.progress hstart).mem_iff_reached,
    hmeet⟩

end Model

/-! ## The analysis -/

namespace LinkedModel

variable {lm : LinkedModel} {root : ElementId} {locality : Locality}

/-- An analysis of an ontology ends with the first obstacle, or else with a view. -/
theorem exists_visitOrder_analyze (locality : Locality)
    (hk : lm.model.kind? root = some .ontology) :
    ∃ order, (∀ l, lm.model.VisitOrder [] (lm.model.statements root) l ↔ l = order) ∧
      (∀ id, id ∈ order ↔ lm.model.Reached root id) ∧
      lm.analyze root locality = (order.findSome? lm.model.obstacle?).elim
        (.ok (lm.frame root locality order).drawn) .error := by
  obtain ⟨order, hvisit, hreach, hmet⟩ := Model.exists_visitOrder_reached lm.model root
  obtain ⟨e, he, hk⟩ := Option.map_eq_some_iff.mp hk
  cases e with
  | ontology header =>
    refine ⟨order, hvisit, hreach, ?_⟩
    rw [analyze_of_ontology he, hmet]
    cases order.findSome? lm.model.obstacle? <;> rfl
  | _ => nomatch hk

/-- An ontology has a view if everything in reach of it can be met. -/
theorem exists_view_iff_of_ontology (hk : lm.model.kind? root = some .ontology) :
    (∃ v, lm.analyze root locality = .ok v) ↔
      ∀ id, lm.model.Reached root id → lm.model.Meetable id := by
  obtain ⟨order, -, hreach, hanalyze⟩ := exists_visitOrder_analyze locality hk
  have hnone : order.findSome? lm.model.obstacle? = none ↔
      ∀ id, lm.model.Reached root id → lm.model.Meetable id := by
    simp only [List.findSome?_eq_none_iff, Model.obstacle?_eq_none_iff, hreach]
  rw [hanalyze, ← hnone]
  cases order.findSome? lm.model.obstacle? <;> simp

/-- **There is a view** of an ontology without obstacles in reach, and of nothing else. -/
theorem exists_view_iff : (∃ v, lm.analyze root locality = .ok v) ↔
    lm.model.kind? root = some .ontology ∧ ∀ id, lm.model.Reached root id → lm.model.Meetable id := by
  constructor
  · rintro ⟨v, hv⟩
    obtain ⟨⟨header, he⟩, -⟩ := analyze_eq_ok_iff.mp hv
    have hk : lm.model.kind? root = some .ontology := Option.map_eq_some_iff.mpr ⟨_, he, rfl⟩
    exact ⟨hk, (exists_view_iff_of_ontology hk).mp ⟨v, hv⟩⟩
  · rintro ⟨hk, hmeetable⟩
    exact (exists_view_iff_of_ontology hk).mpr hmeetable

/-- All errors of an analysis are about its root or about an obstacle. -/
theorem failure_cases {err : ViewError} (h : lm.analyze root locality = .error err) :
    lm.model.kind? root = none ∧ err = .unknownElement root ∨
      (∃ found, lm.model.kind? root = some found ∧ found ≠ .ontology ∧
        err = .notAnOntology root found) ∨
      lm.model.kind? root = some .ontology ∧ ∃ x, lm.model.obstacle? x = some err := by
  cases he : lm.model.element? root with
  | none =>
    rw [analyze_of_unknown he] at h
    exact Or.inl ⟨Option.map_eq_none_iff.mpr he, (Except.error.inj h).symm⟩
  | some e =>
    have hkind : lm.model.kind? root = some e.kind := Option.map_eq_some_iff.mpr ⟨e, he, rfl⟩
    by_cases hk : e.kind = .ontology
    · rw [hk] at hkind
      obtain ⟨order, -, -, hanalyze⟩ := exists_visitOrder_analyze locality hkind
      rw [hanalyze] at h
      cases hfirst : order.findSome? lm.model.obstacle? with
      | none =>
        rw [hfirst] at h
        nomatch h
      | some err' =>
        rw [hfirst] at h
        obtain rfl := Except.error.inj h
        obtain ⟨x, -, hx⟩ := List.exists_of_findSome?_eq_some hfirst
        exact Or.inr (Or.inr ⟨hkind, x, hx⟩)
    · rw [analyze_of_other he hk] at h
      exact Or.inr (Or.inl ⟨e.kind, hkind, hk, (Except.error.inj h).symm⟩)

theorem analyze_eq_unknownElement_root_iff :
    lm.analyze root locality = .error (.unknownElement root) ↔ lm.model.kind? root = none := by
  constructor
  · intro h
    rcases failure_cases h with ⟨hk, -⟩ | ⟨found, -, -, herr⟩ | ⟨-, x, hx⟩
    · exact hk
    · nomatch herr
    · -- An unknown obstacle is the id of no element, so the root is none.
      rcases Model.obstacle?_eq_some_iff.mp hx with ⟨hk, herr⟩ | ⟨-, herr⟩
      · rw [ViewError.unknownElement.inj herr]
        exact hk
      · nomatch herr
  · exact fun hk => analyze_of_unknown (Option.map_eq_none_iff.mp hk)

theorem analyze_eq_notAnOntology_iff {id : ElementId} {found : ElementKind} :
    lm.analyze root locality = .error (.notAnOntology id found) ↔
      id = root ∧ lm.model.kind? root = some found ∧ found ≠ .ontology := by
  constructor
  · intro h
    rcases failure_cases h with ⟨-, herr⟩ | ⟨found', hk, hne, herr⟩ | ⟨-, x, hx⟩
    · nomatch herr
    · obtain ⟨rfl, rfl⟩ := ViewError.notAnOntology.inj herr
      exact ⟨rfl, hk, hne⟩
    · rcases Model.obstacle?_eq_some_iff.mp hx with ⟨-, herr⟩ | ⟨-, herr⟩
      all_goals nomatch herr
  · rintro ⟨rfl, hk, hne⟩
    obtain ⟨e, he, rfl⟩ := Option.map_eq_some_iff.mp hk
    exact analyze_of_other he hne

/-- The first id in the order of the visit that cannot be met is to blame. -/
theorem exists_first_obstacle (locality : Locality) (hk : lm.model.kind? root = some .ontology) :
    ∃ order, (∀ l, lm.model.VisitOrder [] (lm.model.statements root) l ↔ l = order) ∧
      (∀ id, id ∈ order ↔ lm.model.Reached root id) ∧
      ∀ err, lm.analyze root locality = .error err ↔ ∃ before x after,
        order = before ++ x :: after ∧
          (lm.model.kind? x = none ∧ err = .unknownElement x ∨
            lm.model.kind? x = some .ontology ∧
              err = .unhandledElement x .ontology .discovery (lm.model.range? x)) ∧
          ∀ y ∈ before, lm.model.Meetable y := by
  obtain ⟨order, hvisit, hreach, hanalyze⟩ := exists_visitOrder_analyze locality hk
  refine ⟨order, hvisit, hreach, fun err => ?_⟩
  have hsome : order.findSome? lm.model.obstacle? = some err ↔ ∃ before x after,
      order = before ++ x :: after ∧ lm.model.obstacle? x = some err ∧
        ∀ y ∈ before, lm.model.obstacle? y = none := List.findSome?_eq_some_iff
  simp only [Model.obstacle?_eq_some_iff, Model.obstacle?_eq_none_iff] at hsome
  rw [hanalyze, ← hsome]
  cases order.findSome? lm.model.obstacle? <;> simp

/-- **When there is no view, and what is to blame**, with any references.  Analyses of ring-free models
    end.  If one ends, then a root that is no ontology is to blame itself.  An ontology has a view if
    everything in reach of it exists and is no ontology; if not, the first id in the order of the visit
    for which that fails is to blame.  No error is one of resolution, and resolution of what discovery
    leaves reports none at all. -/
theorem analyzeFor_fails_on_first_obstacle (lm : LinkedModel) (root : ElementId)
    (locality : Locality) :
    (lm.model.RingFree → ∃ outcome,
      Ends (fun fuel => (lm.analyzeFor fuel root locality).run) (some outcome)) ∧
    (∀ fuel outcome, (lm.analyzeFor fuel root locality).run = some outcome →
      (outcome = .error (.unknownElement root) ↔ lm.model.kind? root = none) ∧
      (∀ id found, outcome = .error (.notAnOntology id found) ↔
        id = root ∧ lm.model.kind? root = some found ∧ found ≠ .ontology) ∧
      (lm.model.kind? root = some .ontology →
        ((∃ v, outcome = .ok v) ↔ ∀ id, lm.model.Reached root id → lm.model.Meetable id) ∧
        ∃ order, (∀ l, lm.model.VisitOrder [] (lm.model.statements root) l ↔ l = order) ∧
          (∀ id, id ∈ order ↔ lm.model.Reached root id) ∧
          ∀ err, outcome = .error err ↔ ∃ before x after,
            order = before ++ x :: after ∧
              (lm.model.kind? x = none ∧ err = .unknownElement x ∨
                lm.model.kind? x = some .ontology ∧
                  err = .unhandledElement x .ontology .discovery (lm.model.range? x)) ∧
              ∀ y ∈ before, lm.model.Meetable y) ∧
      ∀ id kind range, outcome ≠ .error (.unhandledElement id kind .resolution range)) ∧
    ∀ locals fuel discovered fuel' err,
      ((lm.model.statements root).foldlM (Draft.visitFor fuel) (Draft.start lm locals)).run =
        some (.ok discovered) →
      (discovered.queue.foldlM (Draft.visitFor fuel')
        { discovered with phase := .resolution }).run ≠ some (.error err) := by
  refine ⟨fun hm => ⟨_, (lm.gives_analyzeFor root locality).ends hm⟩, fun fuel outcome hrun => ?_,
    fun locals fuel discovered fuel' err hdiscovered herr => ?_⟩
  · -- What the run ends with is the answer of the guarded analysis, but for the error of resolution.
    have hphase : ∀ err, outcome = .error err → ¬ err.OfResolution := fun err herr =>
      (lm.yields_analyzeFor fuel root locality).error err (herr ▸ hrun)
    obtain rfl := (lm.gives_analyzeFor root locality).only fuel outcome hrun
    exact ⟨analyze_eq_unknownElement_root_iff, fun _ _ => analyze_eq_notAnOntology_iff,
      fun hk => ⟨exists_view_iff_of_ontology hk, exists_first_obstacle locality hk⟩,
      fun id kind range herr => hphase _ herr ⟨id, kind, range, rfl⟩⟩
  · have hd := ((Draft.discovering_start lm locals).yields_discovery fuel _).value _ hdiscovered
    exact (hd.yields_resolution fuel' (E := fun _ => False)).error err herr

end LinkedModel

/-- A relation entity that starts at a reference to no element, and after it an ontology inside an
    ontology, with a concept and an axiom on it that leads nowhere. -/
def danglingMember : Model := .ofEdits [.vocabulary "http://example.com/dnd#" "dnd",
  .relationEntity 0 "Guards" (some 2) none, .reference 0 .concept (some 99),
  .add 0 (.ontology ⟨.vocabulary, "http://example.com/inner#", "inner", []⟩),
  .concept 3 "Monster", .specialize 4 (some 99)]

theorem analyzeFor_fails_on_first_obstacle_danglingMember :
    danglingMember.RingFree ∧
    (∃ outcome, Ends (fun fuel =>
      ((LinkedModel.ofModel danglingMember).analyzeFor fuel 0 .ownedContent).run) (some outcome)) ∧
    danglingMember.kind? 0 = some .ontology ∧
    ((LinkedModel.ofModel danglingMember).analyzeFor 5 0 .ownedContent).run =
      some (.error (.unknownElement 99)) ∧
    (∃ order, (∀ l, danglingMember.VisitOrder [] (danglingMember.statements 0) l ↔ l = order) ∧
      (∀ id, id ∈ order ↔ danglingMember.Reached 0 id) ∧ ∃ before x after,
        order = before ++ x :: after ∧
          (danglingMember.kind? x = none ∧ ViewError.unknownElement 99 = .unknownElement x ∨
            danglingMember.kind? x = some .ontology ∧ ViewError.unknownElement 99 =
              .unhandledElement x .ontology .discovery (danglingMember.range? x)) ∧
          ∀ y ∈ before, danglingMember.Meetable y) ∧
    ∃ discovered : Draft, ((danglingMember.statements 3).foldlM (Draft.visitFor 2)
        (Draft.start (.ofModel danglingMember) [4, 5])).run = some (.ok discovered) ∧
      discovered.queue = [4] ∧ ∀ fuel err, (discovered.queue.foldlM (Draft.visitFor fuel)
        { discovered with phase := .resolution }).run ≠ some (.error err) := by
  have hm : danglingMember.RingFree := by decide +kernel
  have hk : danglingMember.kind? 0 = some .ontology := by decide +kernel
  have htest : ((LinkedModel.ofModel danglingMember).analyzeFor 5 0 .ownedContent).run.any
      (fun outcome => decide (View.SameOutcome outcome (.error (.unknownElement 99)))) = true := by
    decide +kernel
  have hinner : ((danglingMember.statements 3).foldlM (Draft.visitFor 2)
      (Draft.start (.ofModel danglingMember) [4, 5])).run.any
        (fun outcome => outcome.toOption.any fun d => decide (d.queue = [4])) = true := by
    decide +kernel
  obtain ⟨outcome, hrun, houtcome⟩ := (Option.any_eq_true _ _).mp htest
  obtain rfl := View.eq_error_of_sameOutcome (of_decide_eq_true houtcome)
  obtain ⟨hends, hfails, -⟩ :=
    LinkedModel.analyzeFor_fails_on_first_obstacle (.ofModel danglingMember) 0 .ownedContent
  obtain ⟨-, -, hfirst, -⟩ := hfails 5 _ hrun
  obtain ⟨-, order, hvisit, hreach, herr⟩ := hfirst hk
  obtain ⟨-, -, hresolves⟩ :=
    LinkedModel.analyzeFor_fails_on_first_obstacle (.ofModel danglingMember) 3 .ownedContent
  obtain ⟨outcome, hdiscovered, houtcome⟩ := (Option.any_eq_true _ _).mp hinner
  cases outcome with
  | error err => nomatch houtcome
  | ok discovered =>
    exact ⟨hm, hends hm, hk, hrun, ⟨order, hvisit, hreach, (herr _).mp rfl⟩, discovered,
      hdiscovered, of_decide_eq_true houtcome,
      fun fuel err => hresolves [4, 5] 2 discovered fuel err hdiscovered⟩

end OntologyView

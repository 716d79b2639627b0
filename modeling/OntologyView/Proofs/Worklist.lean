/-
  THE WORKLIST: what holds of a draft at any time.

  1. **Specification** — `Draft.Consistent`: every list of the view holds elements of its kind; the
     classifiers shown, and nothing else, are queued; what was noted down as a candidate is an axiom
     or a relation; and of the tables that resolution fills each has the keys that it should have by
     now, given what is resolved.

  2. **Program** — the visits of both phases, with any amount of fuel, in any model and with any
     answers.

  3. **The crux** — one visit keeps a draft consistent, be it in discovery (`Consistent.enter`) or in
     resolution (`Consistent.yields_resolve`), and so a run does.  As the queue holds classifiers only,
     and the candidates are of kinds with a rule, resolution has no error to report.
-/
import OntologyView.Proofs.Analysis
import OntologyView.Proofs.Runs
import OntologyView.View.Fuel

namespace OntologyView

/-- An error of the second phase. -/
def ViewError.OfResolution (err : ViewError) : Prop :=
  ∃ id kind range, err = .unhandledElement id kind .resolution range

theorem View.mem_shown_of_mem_classifiers {v : View} {id : ElementId} (h : id ∈ v.classifiers) :
    id ∈ v.shown := by
  simp only [classifiers, entities, shown, List.mem_append] at h ⊢
  grind

namespace Draft

variable {d d' : Draft} {id : ElementId} {e : Element} {a : Answers}

/-! ## Entering -/

/-- A classifier of the view is an entity or a structure. -/
theorem mem_classifiers_enter {k : ElementId} : k ∈ (d.enter id e).view.classifiers ↔
    k ∈ d.view.classifiers ∨ e.kind.isClassifier = true ∧ k = id := by
  rw [enter_eq]
  simp only [View.classifiers, View.entities, List.mem_append]
  cases e <;> simp [Element.kind, ElementKind.isClassifier, ElementKind.isEntity, mem_addNew] <;> grind

theorem mem_entities_enter {k : ElementId} : k ∈ (d.enter id e).view.entities ↔
    k ∈ d.view.entities ∨ e.kind.isEntity = true ∧ k = id := by
  rw [enter_eq]
  simp only [View.entities, List.mem_append]
  cases e <;> simp [Element.kind, ElementKind.isEntity, mem_addNew] <;> grind

/-! ## Consistent drafts -/

/-- The phases have a rule for an element: it is an axiom or a relation. -/
def HasRule (d : Draft) (id : ElementId) : Prop :=
  ∃ kind, kind.hasRule = true ∧ d.model.hasKind kind id = true

/-- What holds of a draft at any time. -/
structure Consistent (d : Draft) : Prop where
  aspects : ∀ id ∈ d.view.aspects, d.model.kind? id = some .aspect
  concepts : ∀ id ∈ d.view.concepts, d.model.kind? id = some .concept
  scalars : ∀ id ∈ d.view.scalars, d.model.kind? id = some .scalar
  structures : ∀ id ∈ d.view.structures, d.model.kind? id = some .struct
  relationEntities : ∀ id ∈ d.view.relationEntities, d.model.kind? id = some .relationEntity
  instances : ∀ id ∈ d.view.instances, ∃ kind, d.model.kind? id = some kind ∧ kind.isInstance = true
  /-- The classifiers of the view are queued, and nothing else. -/
  queue : ∀ id, id ∈ d.queue ↔ id ∈ d.view.classifiers
  axiomCandidates : ∀ entity, ∀ id ∈ d.axiomCandidates.listAt entity, d.HasRule id
  incidentCandidates : ∀ entity, ∀ id ∈ d.incidentCandidates.listAt entity, d.HasRule id
  entityAxioms : ∀ id, id ∈ d.view.entityAxioms.keys ↔ id ∈ d.view.entities
  properties : ∀ kind, ∀ id ∈ d.view.classifiers, id ∈ (d.view.properties kind).keys
  /-- Only what is queued gets resolved. -/
  resolved : ∀ id ∈ d.view.resolved, id ∈ d.queue
  incidentElements : ∀ id ∈ d.view.incidentElements.keys, id ∈ d.view.relationEntities
  /-- A relation entity that is resolved has got its edges. -/
  resolvedEdges : ∀ id ∈ d.view.resolved, id ∈ d.view.relationEntities →
    id ∈ d.view.incidentElements.keys

theorem consistent_start (lm : LinkedModel) (locals : List ElementId) :
    (start lm locals).Consistent := by
  constructor <;> simp [start, View.blank, View.instances, View.classifiers, View.entities, Table.listAt]

/-- **Entering keeps a draft consistent.** -/
theorem Consistent.enter (h : d.Consistent) (he : d.model.element? id = some e)
    (hnew : id ∉ d.view.shown) : (d.enter id e).Consistent := by
  have hkind : d.model.kind? id = some e.kind := Option.map_eq_some_iff.mpr ⟨e, he, rfl⟩
  have hclassifiers := @mem_classifiers_enter d id e
  have hentities := @mem_entities_enter d id e
  rw [enter_eq] at hclassifiers hentities ⊢
  have hfiled : ∀ {kind : ElementKind} {l : List ElementId},
      (∀ k ∈ l, d.model.kind? k = some kind) →
        ∀ k ∈ if e.kind = kind then addNew l id else l, d.model.kind? k = some kind := by
    intro kind l hl k hk
    rcases mem_ite_addNew.mp hk with hk | ⟨rfl, rfl⟩
    · exact hl k hk
    · exact hkind
  exact
    { aspects := hfiled h.aspects
      concepts := hfiled h.concepts
      scalars := hfiled h.scalars
      structures := hfiled h.structures
      relationEntities := hfiled h.relationEntities
      instances := by
        intro k hk
        simp only [View.instances, apply_ite Table.keys, Table.keys_insert, mem_ite_addNew] at hk
        rcases hk with hk | ⟨hinstance, rfl⟩
        · exact h.instances k hk
        · exact ⟨e.kind, hkind, hinstance⟩
      queue := by
        intro k
        rw [hclassifiers, ← h.queue, mem_ite_addNew]
      axiomCandidates := by
        intro entity k hk
        dsimp only at hk
        split at hk
        · rcases Table.mem_listAt_extend.mp hk with hk | ⟨-, hk⟩
          · exact h.axiomCandidates entity k hk
          · obtain ⟨kind, hmem, hk⟩ := Frame.hasKind_of_mem_axiomCandidates hk
            exact ⟨kind, ElementKind.hasRule_of_mem_entityAxioms kind hmem, hk⟩
        · exact h.axiomCandidates entity k hk
      incidentCandidates := by
        intro entity k hk
        dsimp only at hk
        split at hk
        · rcases Table.mem_listAt_insert hk with hk | ⟨-, hk⟩
          · exact h.incidentCandidates entity k hk
          · exact Frame.hasKind_of_mem_incidentCandidates hk
        · exact h.incidentCandidates entity k hk
      entityAxioms := by
        intro k
        rw [hentities, ← h.entityAxioms, apply_ite Table.keys, Table.keys_insertNew, mem_ite_addNew]
      properties := by
        intro kind k hk
        rw [hclassifiers] at hk
        have hold := h.properties kind k
        cases kind <;>
          simp only [View.properties, apply_ite Table.keys, Table.keys_insertNew,
            mem_ite_addNew] at hold ⊢ <;>
          exact hk.imp_left hold
      resolved := fun k hk => mem_ite_addNew.mpr (Or.inl (h.resolved k hk))
      incidentElements := fun k hk => mem_ite_addNew.mpr (Or.inl (h.incidentElements k hk))
      resolvedEdges := by
        intro k hk hentity
        rcases mem_ite_addNew.mp hentity with hentity | ⟨-, rfl⟩
        · exact h.resolvedEdges k hk hentity
        · -- What is resolved was shown before, and is not entered again.
          exact absurd (View.mem_shown_of_mem_classifiers ((h.queue k).mp (h.resolved k hk))) hnew }

/-! ## Discovery -/

/-- A draft in the first phase. -/
structure Discovering (lm : LinkedModel) (d : Draft) : Prop where
  consistent : d.Consistent
  linked : d.linked = lm
  phase : d.phase = .discovery

theorem discovering_start (lm : LinkedModel) (locals : List ElementId) :
    Discovering lm (start lm locals) :=
  ⟨consistent_start lm locals, rfl, rfl⟩

theorem Discovering.enter {lm : LinkedModel} (h : Discovering lm d)
    (he : d.model.element? id = some e) (hnew : id ∉ d.view.shown) :
    Discovering lm (d.enter id e) where
  consistent := h.consistent.enter he hnew
  linked := by rw [enter_eq, h.linked]
  phase := by rw [enter_eq, h.phase]

/-- **A visit in discovery keeps a draft consistent**, with all that it leads to. -/
theorem Discovering.yields_visitFor {lm : LinkedModel} (fuel : Nat) {d : Draft}
    (h : Discovering lm d) (id : ElementId) :
    Yields (d.visitFor fuel id) (Discovering lm) (¬ ViewError.OfResolution ·) := by
  induction fuel generalizing d id with
  | zero => exact .none
  | succ fuel ih =>
    rw [visitFor, h.phase]
    show Yields (d.discover id (visitFor fuel)) _ _
    unfold discover
    split
    · exact .pure h
    · rename_i hnew
      split
      · exact .throw nofun
      · refine .throw ?_
        rintro ⟨k, kind, range, herr⟩
        rw [unhandled, h.phase] at herr
        nomatch herr
      · rename_i e hontology he
        have hentered := h.enter he fun hid => hnew (decide_eq_true hid)
        exact .foldlM (fun _ => Discovering lm) (fun k rest d' h' => ih h' k) hentered

/-! ## Resolution -/

/-- Two drafts between which no classifier was queued or resolved. -/
structure Steady (d d' : Draft) : Prop where
  linked : d'.linked = d.linked
  phase : d'.phase = d.phase
  queue : d'.queue = d.queue
  resolved : d'.view.resolved = d.view.resolved

theorem Steady.trans {d'' : Draft} (h : d.Steady d') (h' : d'.Steady d'') : d.Steady d'' :=
  ⟨h'.linked.trans h.linked, h'.phase.trans h.phase, h'.queue.trans h.queue,
    h'.resolved.trans h.resolved⟩

theorem Steady.mem_queue (h : d.Steady d') (hid : id ∈ d.queue) : id ∈ d'.queue :=
  h.queue ▸ hid

theorem Steady.element? (h : d.Steady d') : d'.model.element? id = d.model.element? id := by
  rw [model, h.linked, ← model]

theorem mem_keys_foldl_addTo (t : ElementTable) (owner : ElementId) (ps : List ElementId)
    {k : ElementId} (hk : k ∈ t.keys) : k ∈ (ps.foldl (Table.addTo · owner ·) t).keys := by
  induction ps generalizing t with
  | nil => exact hk
  | cons p rest ih => exact ih _ (Table.keys_addTo t owner p ▸ mem_addNew.mpr (Or.inl hk))

theorem Consistent.give (h : d.Consistent) (owner parent : ElementId) :
    (d.give owner parent).Consistent :=
  { h with
    properties := by
      intro kind k hk
      cases kind with
      | scalar => exact mem_keys_foldl_addTo _ _ _ (h.properties .scalar k hk)
      | structured => exact mem_keys_foldl_addTo _ _ _ (h.properties .structured k hk) }

theorem Consistent.yields_attributeProperties {E : ViewError → Prop} (h : d.Consistent) :
    Yields (d.attributeProperties id a) (fun d' => d'.Consistent ∧ d.Steady d') E := by
  refine .lift_bind fun parents => ?_
  refine .foldlM (fun _ d' => d'.Consistent ∧ d.Steady d') ?_ ⟨h, rfl, rfl, rfl, rfl⟩
  rintro parent rest d' ⟨h', hsteady⟩
  refine .lift_bind fun included => .pure ?_
  exact ⟨h'.give _ _, hsteady.trans ⟨rfl, rfl, rfl, rfl⟩⟩

theorem Consistent.exists_element (h : d.Consistent) (hid : id ∈ d.queue) :
    ∃ e, d.model.element? id = some e := by
  have hmem := (h.queue id).mp hid
  have hkind : ∃ kind, d.model.kind? id = some kind := by
    simp only [View.classifiers, View.entities, List.mem_append] at hmem
    rcases hmem with ((hmem | hmem) | hmem) | hmem
    · exact ⟨_, h.aspects id hmem⟩
    · exact ⟨_, h.concepts id hmem⟩
    · exact ⟨_, h.relationEntities id hmem⟩
    · exact ⟨_, h.structures id hmem⟩
  obtain ⟨kind, hk⟩ := hkind
  obtain ⟨e, he, -⟩ := Option.map_eq_some_iff.mp hk
  exact ⟨e, he⟩

/-- A queued element is a classifier of the view, in the list for its kind. -/
theorem Consistent.mem_of_mem_queue (h : d.Consistent) (hid : id ∈ d.queue)
    (he : d.model.element? id = some e) :
    e.kind = .aspect ∧ id ∈ d.view.aspects ∨ e.kind = .concept ∧ id ∈ d.view.concepts ∨
      e.kind = .relationEntity ∧ id ∈ d.view.relationEntities ∨
      e.kind = .struct ∧ id ∈ d.view.structures := by
  have hkind : ∀ {kind : ElementKind}, d.model.kind? id = some kind → e.kind = kind := by
    intro kind hk
    have hk' : d.model.kind? id = some e.kind := Option.map_eq_some_iff.mpr ⟨e, he, rfl⟩
    exact Option.some.inj (hk'.symm.trans hk)
  have hmem := (h.queue id).mp hid
  simp only [View.classifiers, View.entities, List.mem_append] at hmem
  rcases hmem with ((hmem | hmem) | hmem) | hmem
  · exact Or.inl ⟨hkind (h.aspects id hmem), hmem⟩
  · exact Or.inr (Or.inl ⟨hkind (h.concepts id hmem), hmem⟩)
  · exact Or.inr (Or.inr (Or.inl ⟨hkind (h.relationEntities id hmem), hmem⟩))
  · exact Or.inr (Or.inr (Or.inr ⟨hkind (h.structures id hmem), hmem⟩))

theorem Consistent.mem_entities (h : d.Consistent) (hid : id ∈ d.queue)
    (he : d.model.element? id = some e) (hentity : e.kind.isEntity = true) :
    id ∈ d.view.entities := by
  simp only [View.entities, List.mem_append]
  rcases h.mem_of_mem_queue hid he with ⟨-, hid⟩ | ⟨-, hid⟩ | ⟨-, hid⟩ | ⟨hk, -⟩
  · exact Or.inl (Or.inl hid)
  · exact Or.inl (Or.inr hid)
  · exact Or.inr hid
  · rw [hk] at hentity
    cases hentity

theorem Consistent.mem_relationEntities_iff (h : d.Consistent) (hid : id ∈ d.queue)
    (he : d.model.element? id = some e) :
    id ∈ d.view.relationEntities ↔ e.kind = .relationEntity := by
  constructor
  · intro hmem
    have hk : d.model.kind? id = some e.kind := Option.map_eq_some_iff.mpr ⟨e, he, rfl⟩
    exact Option.some.inj (hk.symm.trans (h.relationEntities id hmem))
  · intro hk
    rcases h.mem_of_mem_queue hid he with ⟨hk', -⟩ | ⟨hk', -⟩ | ⟨-, hid⟩ | ⟨hk', -⟩
    · nomatch hk.symm.trans hk'
    · nomatch hk.symm.trans hk'
    · exact hid
    · nomatch hk.symm.trans hk'

/-- Where there is a rule, no error is reported. -/
theorem HasRule.yields_retains {E : ViewError → Prop} (h : d.HasRule id) :
    Yields (d.retains id a) (fun _ => True) E := by
  obtain ⟨kind, hrule, hk⟩ := h
  obtain ⟨e, he, rfl⟩ := Model.hasKind_iff_exists.mp hk
  unfold retains
  rw [he]
  cases e with
  | key | specialization | propertyRestriction | relation => exact .lift fun _ _ => trivial
  | relationRestriction demand relation =>
    refine .lift_bind fun included => ?_
    cases included with
    | false => exact .pure trivial
    | true =>
      cases demand with
      | cardinality => exact .pure trivial
      | range | target => exact .lift fun _ _ => trivial
  | _ => cases hrule

theorem HasRule.yields_retainsIncident {E : ViewError → Prop} (h : d.HasRule id) :
    Yields (d.retainsIncident id a) (fun _ => True) E := by
  unfold retainsIncident
  split
  · exact .lift fun _ _ => trivial
  · exact h.yields_retains

theorem yields_selectT {E : ViewError → Prop} {keep : ElementId → ExceptT ViewError Option Bool} :
    ∀ {l : List ElementId}, (∀ id ∈ l, Yields (keep id) (fun _ => True) E) →
      Yields (selectT keep l) (fun _ => True) E
  | [], _ => .pure trivial
  | id :: rest, h => by
    refine (h id List.mem_cons_self).bind fun kept _ => ?_
    refine (yields_selectT fun k hk => h k (List.mem_cons_of_mem id hk)).bind fun later _ => ?_
    exact .pure trivial

/-- The axioms of an entity are written where it has its list. -/
theorem Consistent.yields_keepAxioms {E : ViewError → Prop} (h : d.Consistent)
    (hid : id ∈ d.view.entities) :
    Yields (d.keepAxioms id a) (fun d' => d'.Consistent ∧ d.Steady d') E := by
  have hselect : Yields (selectT (d.retains · a) (d.axiomCandidates.listAt id)) (fun _ => True) E :=
    yields_selectT fun c hc => (h.axiomCandidates id c hc).yields_retains
  refine hselect.bind fun kept _ => .pure ⟨?_, rfl, rfl, rfl, rfl⟩
  exact
    { h with
      entityAxioms := by
        intro k
        rw [Table.keys_extend, mem_addNew, h.entityAxioms]
        exact or_iff_left_of_imp fun hk => hk ▸ hid }

/-- The edges that end at a relation entity are written in a list of their own. -/
theorem Consistent.yields_keepIncident {E : ViewError → Prop} (h : d.Consistent)
    (hid : id ∈ d.view.relationEntities) : Yields (d.keepIncident id a)
      (fun d' => (d'.Consistent ∧ d.Steady d') ∧ id ∈ d'.view.incidentElements.keys) E := by
  have hselect : Yields (selectT (d.retainsIncident · a) (d.incidentCandidates.listAt id))
      (fun _ => True) E :=
    yields_selectT fun c hc => (h.incidentCandidates id c hc).yields_retainsIncident
  refine hselect.bind fun kept _ => .pure ⟨⟨?_, rfl, rfl, rfl, rfl⟩, ?_⟩
  · exact
      { h with
        incidentElements := by
          intro k hk
          rw [Table.keys_extend, mem_addNew] at hk
          exact hk.elim (h.incidentElements k) fun hk => hk ▸ hid
        resolvedEdges := by
          intro k hk hentity
          rw [Table.keys_extend, mem_addNew]
          exact Or.inl (h.resolvedEdges k hk hentity) }
  · rw [Table.keys_extend]
    exact mem_addNew.mpr (Or.inr rfl)

/-- What is queued is of a kind with a rule, and gets all that elements of its kind get. -/
theorem Consistent.yields_settle {E : ViewError → Prop} (h : d.Consistent) (hid : id ∈ d.queue)
    (he : d.model.element? id = some e) :
    Yields (d.settle id a e) (fun d' => (d'.Consistent ∧ d.Steady d') ∧
      (e.kind = .relationEntity → id ∈ d'.view.incidentElements.keys)) E := by
  have hattributed : Yields (d.attributeProperties id a) (fun d' => d'.Consistent ∧ d.Steady d') E :=
    h.yields_attributeProperties
  -- No step takes the element out of the queue, or out of the list for its kind.
  have hfiltered : e.kind.isEntity = true → Yields (do
      let attributed ← d.attributeProperties id a
      attributed.keepAxioms id a) (fun d' => d'.Consistent ∧ d.Steady d') E := by
    intro hentity
    refine hattributed.bind fun d₁ ⟨h₁, hs₁⟩ => ?_
    have hmem := h₁.mem_entities (hs₁.mem_queue hid) (hs₁.element?.trans he) hentity
    exact (h₁.yields_keepAxioms hmem).mono fun d₂ ⟨h₂, hs₂⟩ => ⟨h₂, hs₁.trans hs₂⟩
  rcases h.mem_of_mem_queue hid he with ⟨hk, -⟩ | ⟨hk, -⟩ | ⟨hk, -⟩ | ⟨hk, -⟩
  all_goals
    cases e with
    | aspect | concept => exact (hfiltered rfl).mono fun _ hd => ⟨hd, nofun⟩
    | struct => exact hattributed.mono fun _ hd => ⟨hd, nofun⟩
    | relationEntity =>
      show Yields (do
        let attributed ← d.attributeProperties id a
        let filtered ← attributed.keepAxioms id a
        filtered.keepIncident id a) _ _
      rw [← bind_assoc]
      refine (hfiltered rfl).bind fun d₂ ⟨h₂, hs₂⟩ => ?_
      have hmem :=
        (h₂.mem_relationEntities_iff (hs₂.mem_queue hid) (hs₂.element?.trans he)).mpr rfl
      exact (h₂.yields_keepIncident hmem).mono fun d₃ ⟨⟨h₃, hs₃⟩, hedges⟩ =>
        ⟨⟨h₃, hs₂.trans hs₃⟩, fun _ => hedges⟩
    | _ => cases hk

/-- **A visit in resolution keeps a draft consistent**, reports no error, and leaves the element
    resolved. -/
theorem Consistent.yields_resolve {E : ViewError → Prop} (h : d.Consistent) (hid : id ∈ d.queue) :
    Yields (d.resolve id a) (fun d' => d'.Consistent ∧ d'.linked = d.linked ∧ d'.phase = d.phase ∧
      d'.queue = d.queue ∧ ∀ k, k ∈ d'.view.resolved ↔ k ∈ d.view.resolved ∨ k = id) E := by
  obtain ⟨e, he⟩ := h.exists_element hid
  unfold resolve
  split
  · rename_i hresolved
    refine .pure ⟨h, rfl, rfl, rfl, fun k => ?_⟩
    exact (or_iff_left_of_imp fun hk => hk ▸ hresolved).symm
  · rw [he]
    refine (h.yields_settle hid he).bind fun d' ⟨⟨h', hs⟩, hedges⟩ => .pure ?_
    have hid' := hs.mem_queue hid
    have he' := hs.element?.trans he
    refine ⟨?_, hs.linked, hs.phase, hs.queue, fun k => ?_⟩
    · exact
        { h' with
          resolved := by
            intro k hk
            exact (mem_addNew.mp hk).elim (h'.resolved k) fun hk => hk ▸ hid'
          resolvedEdges := by
            intro k hk hentity
            rcases mem_addNew.mp hk with hk | rfl
            · exact h'.resolvedEdges k hk hentity
            · exact hedges ((h'.mem_relationEntities_iff hid' he').mp hentity) }
    · show k ∈ addNew d'.view.resolved id ↔ _
      rw [mem_addNew, hs.resolved]

/-- A draft in the second phase: of what is queued, all that does not wait any more is resolved. -/
structure Resolving (lm : LinkedModel) (waiting : List ElementId) (d : Draft) : Prop where
  consistent : d.Consistent
  linked : d.linked = lm
  phase : d.phase = .resolution
  queued : ∀ id ∈ waiting, id ∈ d.queue
  resolved : ∀ id ∈ d.queue, id ∈ d.view.resolved ∨ id ∈ waiting

theorem Discovering.resolving {lm : LinkedModel} (h : Discovering lm d) :
    Resolving lm d.queue { d with phase := .resolution } where
  consistent := { h.consistent with }
  linked := h.linked
  phase := rfl
  queued := fun _ hid => hid
  resolved := fun _ hid => Or.inr hid

theorem Resolving.yields_visitFor {lm : LinkedModel} {waiting : List ElementId}
    {E : ViewError → Prop} (h : Resolving lm (id :: waiting) d) (fuel : Nat) :
    Yields (d.visitFor fuel id) (Resolving lm waiting) E := by
  cases fuel with
  | zero => exact .none
  | succ fuel =>
    rw [visitFor, h.phase]
    refine (h.consistent.yields_resolve (h.queued id List.mem_cons_self)).mono ?_
    rintro d' ⟨h', hlinked, hphase, hqueue, hresolved⟩
    refine ⟨h', hlinked.trans h.linked, hphase.trans h.phase, fun k hk => ?_, fun k hk => ?_⟩
    · exact hqueue ▸ h.queued k (List.mem_cons_of_mem id hk)
    · rcases h.resolved k (hqueue ▸ hk) with hk | hk
      · exact Or.inl ((hresolved k).mpr (Or.inl hk))
      · exact (List.mem_cons.mp hk).imp (fun hk => (hresolved k).mpr (Or.inr hk)) fun hk => hk

/-! ## A whole run -/

/-- **Resolution of the queue** reports no error, whatever discovery left. -/
theorem Discovering.yields_resolution {lm : LinkedModel} {E : ViewError → Prop}
    (h : Discovering lm d) (fuel : Nat) :
    Yields (d.queue.foldlM (visitFor fuel) { d with phase := .resolution }) (Resolving lm []) E :=
  .foldlM (Resolving lm) (fun _ _ _ h' => h'.yields_visitFor fuel) h.resolving

theorem Discovering.yields_discovery {lm : LinkedModel} (h : Discovering lm d) (fuel : Nat)
    (ids : List ElementId) :
    Yields (ids.foldlM (visitFor fuel) d) (Discovering lm) (¬ ViewError.OfResolution ·) :=
  .foldlM (fun _ => Discovering lm) (fun id _ _ h' => h'.yields_visitFor fuel id) h

/-- **What a run ends with** is the view of a consistent draft, all of whose classifiers are resolved.
    If it fails, it fails in discovery. -/
theorem Discovering.yields_runFor {lm : LinkedModel} (h : Discovering lm d) (fuel : Nat)
    (root : ElementId) : Yields (d.runFor fuel root)
      (fun v => ∃ d', Resolving lm [] d' ∧ d'.view = v) (¬ ViewError.OfResolution ·) := by
  refine (h.yields_discovery fuel (d.model.statements root)).bind fun discovered hd => ?_
  exact (hd.yields_resolution fuel).bind fun resolved hr => .pure ⟨resolved, hr, rfl⟩

end Draft

/-- An analysis ends with the view of such a draft, or with an error that is none of resolution. -/
theorem LinkedModel.yields_analyzeFor (lm : LinkedModel) (fuel : Nat) (root : ElementId)
    (locality : Locality) : Yields (lm.analyzeFor fuel root locality)
      (fun v => ∃ d, Draft.Resolving lm [] d ∧ d.view = v) (¬ ViewError.OfResolution ·) := by
  unfold analyzeFor
  split
  · exact .lift_bind fun locals => (Draft.discovering_start lm locals).yields_runFor fuel root
  · exact .throw nofun
  · exact .throw nofun

end OntologyView

/-
  DRAFTING: the two phases draw what is drawn in a frame.

  1. **Specification** — `Frame.drawn`: each list and each table of the view, said at once.

  2. **Program** — the visits of the two phases, each of which writes a little into a draft
     (`Draft.enter`, `Draft.resolve`).

  3. **The crux** — every state in between can be written down, too.  After discovery of some elements
     it is `Frame.noted`, the draft of a frame that shows these; and when some classifiers are resolved
     it is `Frame.draft`.  One visit leads from one of these to the next (`Frame.enter_noted`,
     `Frame.Proper.resolve_draft`), and the last one of them holds the view of the frame
     (`Frame.view_draft`).

  No visit changes what the others look at: resolution fills tables, and the rules of a frame look at
  what is local and at what is shown.
-/
import OntologyView.Proofs.Analysis
import OntologyView.View.Fuel

namespace OntologyView

/-! ## Visits, case by case -/

namespace Draft

variable {d : Draft} {id : ElementId} {e : Element}
  {visit : Draft → ElementId → ExceptT ViewError Option Draft}

theorem discover_of_shown (hid : id ∈ d.view.shown) : d.discover id visit = pure d :=
  if_pos (decide_eq_true hid)

theorem discover_of_unknown (hid : id ∉ d.view.shown) (he : d.model.element? id = none) :
    d.discover id visit = throw (.unknownElement id) := by
  rw [discover, View.contains, decide_eq_false hid, if_neg Bool.false_ne_true, he]

theorem discover_of_ontology (hid : id ∉ d.view.shown) (he : d.model.element? id = some e)
    (hk : e.kind = .ontology) : d.discover id visit = throw (d.unhandled id e) := by
  rw [discover, View.contains, decide_eq_false hid, if_neg Bool.false_ne_true, he]
  cases e with
  | ontology header => rfl
  | _ => cases hk

theorem discover_of_element (hid : id ∉ d.view.shown) (he : d.model.element? id = some e)
    (hk : e.kind ≠ .ontology) :
    d.discover id visit = e.leads.foldlM visit (d.enter id e) := by
  rw [discover, View.contains, decide_eq_false hid, if_neg Bool.false_ne_true, he]
  cases e with
  | ontology header => exact absurd rfl hk
  | _ => rfl

/-- A visit in the first phase is a discovery. -/
theorem visitFor_discovery {fuel : Nat} (h : d.phase = .discovery) :
    d.visitFor (fuel + 1) id = d.discover id (visitFor fuel) := by
  rw [visitFor, h]

theorem resolve_of_waiting {a : Answers} (hid : id ∉ d.view.resolved)
    (he : d.model.element? id = some e) : d.resolve id a = (do
      let settled ← d.settle id a e
      return { settled with view.resolved := addNew settled.view.resolved id }) := by
  rw [resolve, if_neg hid, he]

/-- A visit in the second phase is a resolution. -/
theorem visitFor_resolution {fuel : Nat} (h : d.phase = .resolution) :
    d.visitFor (fuel + 1) id = d.resolve id (d.frame.answersFor fuel) := by
  rw [visitFor, h]

end Draft

/-! ## The drafts of discovery -/

namespace Frame

/-- The draft of what is shown in a frame, with nothing resolved. -/
def noted (f : Frame) : Draft where
  linked := f.linked
  locals := f.locals
  phase := .discovery
  axiomCandidates :=
    Table.ofList ((f.shownOf ElementKind.isEntity).map fun id => (id, f.axiomCandidates id))
  incidentCandidates :=
    Table.ofList ((f.shownOf (· = .relationEntity)).map fun id => (id, f.incidentCandidates id))
  queue := f.shownOf ElementKind.isClassifier
  view :=
    { aspects := f.shownOf (· = .aspect)
      concepts := f.shownOf (· = .concept)
      scalars := f.shownOf (· = .scalar)
      structures := f.shownOf (· = .struct)
      relationEntities := f.shownOf (· = .relationEntity)
      scalarProperties := Table.ofList ((f.shownOf ElementKind.isClassifier).map (·, []))
      structuredProperties := Table.ofList ((f.shownOf ElementKind.isClassifier).map (·, []))
      entityAxioms := Table.ofList ((f.shownOf ElementKind.isEntity).map (·, []))
      incidentElements := .empty
      instanceAssertions :=
        Table.ofList ((f.shownOf ElementKind.isInstance).map fun id => (id, f.assertionsOf id))
      resolved := [] }

/-- The frame that shows one element more. -/
def showing (f : Frame) (id : ElementId) : Frame :=
  { f with shown := f.shown ++ [id] }

variable {f : Frame} {id : ElementId} {e : Element} {accept : ElementKind → Bool}

theorem shownOf_showing (he : f.model.element? id = some e) : (f.showing id).shownOf accept =
    if accept e.kind then f.shownOf accept ++ [id] else f.shownOf accept := by
  have haccept : f.model.satisfies (fun e => accept e.kind) id = accept e.kind := by
    rw [Model.satisfies, he, Option.any_some]
  show (f.shown ++ [id]).filter (f.model.satisfies fun e => accept e.kind) = _
  rw [List.filter_append, ← shownOf]
  by_cases h : accept e.kind = true
  · rw [if_pos h, List.filter_cons_of_pos (haccept.trans h), List.filter_nil]
  · rw [if_neg h, List.filter_cons_of_neg (by rwa [haccept]), List.filter_nil, List.append_nil]

theorem not_mem_shownOf (hnew : id ∉ f.shown) : id ∉ f.shownOf accept :=
  fun h => hnew (mem_shownOf.mp h).1

/-- A new element of the right kind comes last in a list. -/
theorem addNew_shownOf {c : Prop} [Decidable c] (hc : c ↔ accept e.kind = true)
    (he : f.model.element? id = some e) (hnew : id ∉ f.shown) :
    (if c then addNew (f.shownOf accept) id else f.shownOf accept) =
      (f.showing id).shownOf accept := by
  rw [shownOf_showing he]
  by_cases h : c
  · rw [if_pos h, if_pos (hc.mp h), addNew, if_neg (not_mem_shownOf hnew)]
  · rw [if_neg h, if_neg fun h' => h (hc.mpr h')]

/-- A new element of the right kind comes last in a table, with the value that it is given. -/
theorem update_shownOf {β : Type} (g : ElementId → β) (write : Option β → β) {c : Prop} [Decidable c]
    (hc : c ↔ accept e.kind = true) (he : f.model.element? id = some e) (hnew : id ∉ f.shown)
    (hwrite : write none = g id) :
    (if c then (Table.ofList ((f.shownOf accept).map fun k => (k, g k))).update id write
      else Table.ofList ((f.shownOf accept).map fun k => (k, g k))) =
      Table.ofList (((f.showing id).shownOf accept).map fun k => (k, g k)) := by
  have hkey : id ∉ (Table.ofList ((f.shownOf accept).map fun k => (k, g k))).keys := by
    rw [← Table.isSome_get?, Table.get?_ofList_map, if_neg (not_mem_shownOf hnew)]
    exact Bool.false_ne_true
  rw [shownOf_showing he]
  by_cases h : c
  · rw [if_pos h, if_pos (hc.mp h), Table.update_of_not_mem hkey, hwrite, List.map_append,
      List.map_singleton, Table.ofList_concat]
  · rw [if_neg h, if_neg fun h' => h (hc.mpr h')]

/-- **Discovery of a new element** leads from the draft of a frame to that of the frame which shows
    it, too. -/
theorem enter_noted (he : f.model.element? id = some e) (hnew : id ∉ f.shown) :
    f.noted.enter id e = if e.kind.isShown then (f.showing id).noted else f.noted := by
  split
  · have hlist : ∀ kind, (if e.kind = kind then addNew (f.shownOf (· = kind)) id
        else f.shownOf (· = kind)) = (f.showing id).shownOf (· = kind) :=
      fun kind => addNew_shownOf decide_eq_true_iff.symm he hnew
    have hqueue : (if e.kind.isClassifier = true then addNew f.noted.queue id else f.noted.queue) =
        (f.showing id).noted.queue := addNew_shownOf Iff.rfl he hnew
    have hempty : ∀ accept : ElementKind → Bool,
        (if accept e.kind = true then
          (Table.ofList ((f.shownOf accept).map (·, ([] : List ElementId)))).insertNew id []
          else Table.ofList ((f.shownOf accept).map (·, []))) =
          Table.ofList (((f.showing id).shownOf accept).map (·, [])) :=
      fun accept => update_shownOf (fun _ => []) _ Iff.rfl he hnew rfl
    have haxioms : (if e.kind.isEntity = true then
        f.noted.axiomCandidates.extend id (f.noted.frame.axiomCandidates id)
        else f.noted.axiomCandidates) = (f.showing id).noted.axiomCandidates :=
      update_shownOf f.axiomCandidates _ Iff.rfl he hnew
        (foldl_addNew_of_nodup (f.nodup_localOnly _))
    have hincident : (if e.kind = .relationEntity then
        f.noted.incidentCandidates.insert id (f.noted.frame.incidentCandidates id)
        else f.noted.incidentCandidates) = (f.showing id).noted.incidentCandidates :=
      update_shownOf f.incidentCandidates _ decide_eq_true_iff.symm he hnew rfl
    have hassertions : (if e.kind.isInstance = true then
        f.noted.view.instanceAssertions.insert id (f.noted.frame.assertionsOf id)
        else f.noted.view.instanceAssertions) = (f.showing id).noted.view.instanceAssertions :=
      update_shownOf f.assertionsOf _ Iff.rfl he hnew rfl
    rw [Draft.enter_eq, haxioms, hincident, hassertions, hqueue]
    dsimp only [noted]
    rw [hlist, hlist, hlist, hlist, hlist, hempty, hempty]
    rfl
  · rename_i hshown
    cases e with
    | aspect | concept | relationEntity | struct | scalar | conceptInstance | relationInstance
      | structureInstance => exact absurd rfl hshown
    | _ => rfl

end Frame

/-! ## Resolution, rightly answered -/

/-- A test that is sure to answer selects as it does without fuel. -/
theorem selectT_eq {α ε : Type} {keep : α → ExceptT ε Option Bool} {keep' : α → Except ε Bool}
    (h : ∀ a, keep a = ExceptT.mk (some (keep' a))) (l : List α) :
    selectT keep l = ExceptT.mk (some (selectM keep' l)) := by
  induction l with
  | nil => rfl
  | cons a rest ih =>
    rw [selectT, selectM, h, ih]
    cases keep' a with
    | error err => rfl
    | ok kept => cases selectM keep' rest <;> rfl

namespace Frame

variable (f : Frame)

/-- The answers that resolution goes by. -/
def answers : Answers where
  included := fun id => some (f.isIncluded id)
  superterms := fun term => some (f.linked.superterms term true)

theorem any_answers (id : Option ElementId) : f.answers.any id = some (id.any f.isIncluded) := by
  cases id <;> rfl

theorem all_answers (ids : List ElementId) : f.answers.all ids = some (ids.all f.isIncluded) := by
  induction ids with
  | nil => rfl
  | cons id rest ih =>
    have hfirst : f.answers.included id = some (f.isIncluded id) := rfl
    rw [Answers.all, List.allM, hfirst, List.all_cons]
    cases f.isIncluded id with
    | false => rfl
    | true => exact ih

/-- A draft in resolution that looks at the same model, and has the same local elements. -/
structure Governs (d : Draft) : Prop where
  linked : d.linked = f.linked
  locals : d.locals = f.locals
  phase : d.phase = .resolution

variable {f} {d : Draft} {id : ElementId}

/-- Properties that several parents declare arrive parent by parent. -/
theorem foldl_give (owner : ElementId → ElementId) (parents : List ElementId) (d : Draft) :
    parents.foldl (fun d parent => d.give (owner parent) parent) d =
      { d with
        view.scalarProperties := (parents.flatMap fun parent =>
          ((d.linked.propertiesWithDomain .scalar parent).filter d.frame.isLocal).map
            (owner parent, ·)).foldl (fun t a => t.addTo a.1 a.2) d.view.scalarProperties
        view.structuredProperties := (parents.flatMap fun parent =>
          ((d.linked.propertiesWithDomain .structured parent).filter d.frame.isLocal).map
            (owner parent, ·)).foldl (fun t a => t.addTo a.1 a.2) d.view.structuredProperties } := by
  induction parents generalizing d with
  | nil => rfl
  | cons parent rest ih =>
    rw [List.foldl_cons, ih]
    simp only [List.flatMap_cons, List.foldl_append, List.foldl_map]
    rfl

/-- A classifier hands its properties to their owners. -/
theorem Governs.attributeProperties_eq (h : f.Governs d) (id : ElementId) :
    d.attributeProperties id f.answers = pure
      { d with
        view.scalarProperties := (f.attributionsOf .scalar id).foldl (fun t a => t.addTo a.1 a.2)
          d.view.scalarProperties
        view.structuredProperties := (f.attributionsOf .structured id).foldl
          (fun t a => t.addTo a.1 a.2) d.view.structuredProperties } := by
  show (f.linked.superterms id true).foldlM (fun d parent =>
    (pure (d.give (if f.isIncluded parent then parent else id) parent) :
      ExceptT ViewError Option Draft)) d = _
  have hlocal : d.frame.isLocal = f.isLocal := by
    funext k
    exact congrArg (fun l => decide (k ∈ l)) h.locals
  rw [List.foldlM_pure, foldl_give fun parent => if f.isIncluded parent then parent else id, hlocal,
    h.linked]
  rfl

theorem Governs.retains_eq (h : f.Governs d) (id : ElementId) :
    d.retains id f.answers = ExceptT.mk (some (f.retains id)) := by
  unfold Draft.retains retains
  rw [Draft.model, h.linked, ← model]
  cases he : f.model.element? id with
  | none => rfl
  | some e =>
    have hunhandled : d.unhandled id e =
        .unhandledElement id e.kind .resolution (f.model.range? id) := by
      rw [Draft.unhandled, h.phase, Draft.model, h.linked]
      rfl
    cases e with
    | key properties =>
      simp only [all_answers]
      rfl
    | specialization | propertyRestriction | relation =>
      simp only [any_answers]
      rfl
    | relationRestriction demand relation =>
      -- The demand is looked at only if the owner of the relation is included.
      simp only [any_answers]
      cases (relation.bind f.model.owningEntity?).any f.isIncluded with
      | false => rfl
      | true => cases demand <;> rfl
    | _ => exact congrArg MonadExcept.throw hunhandled

theorem Governs.retainsIncident_eq (h : f.Governs d) (id : ElementId) :
    d.retainsIncident id f.answers = ExceptT.mk (some (f.retainsIncident id)) := by
  unfold Draft.retainsIncident retainsIncident
  rw [Draft.model, h.linked, ← model]
  split
  · rfl
  · exact h.retains_eq id

/-- Of the candidates of an entity those are drawn that are kept. -/
theorem Governs.keepAxioms_eq (h : f.Governs d)
    (hc : d.axiomCandidates.listAt id = f.axiomCandidates id) :
    d.keepAxioms id f.answers = pure
      { d with
        view.entityAxioms :=
          d.view.entityAxioms.extend id ((f.axiomCandidates id).filter f.keeps) } := by
  rw [Draft.keepAxioms, hc, selectT_eq h.retains_eq, ← axiomsOf, axiomsOf_eq]
  rfl

theorem Governs.keepIncident_eq (h : f.Governs d)
    (hc : d.incidentCandidates.listAt id = f.incidentCandidates id) :
    d.keepIncident id f.answers = pure
      { d with
        view.incidentElements :=
          d.view.incidentElements.extend id ((f.incidentCandidates id).filter f.keepsIncident) } := by
  rw [Draft.keepIncident, hc, selectT_eq h.retainsIncident_eq, ← incidentElementsOf,
    incidentElementsOf_eq]
  rfl

/-! ## The drafts of a frame -/

variable (f)

/-- The properties that classifiers show when those in `done` have handed theirs out. -/
def propertiesAfter (kind : PropertyKind) (done : List ElementId) : ElementTable :=
  (done.flatMap (f.attributionsOf kind)).foldl (fun t a => t.addTo a.1 a.2)
    (Table.ofList ((f.shownOf ElementKind.isClassifier).map (·, [])))

/-- The axioms of entities when those in `done` have got theirs. -/
def axiomsAfter (done : List ElementId) : ElementTable :=
  Table.ofList ((f.shownOf ElementKind.isEntity).map fun id =>
    (id, if id ∈ done then (f.axiomCandidates id).filter f.keeps else []))

/-- The edges at relation entities when those in `done` have got theirs. -/
def edgesAfter (done : List ElementId) : ElementTable :=
  Table.ofList ((done.filter (f.model.hasKind .relationEntity)).map fun id =>
    (id, (f.incidentCandidates id).filter f.keepsIncident))

/-- The draft of a frame in which the classifiers `done` are resolved. -/
def draft (done : List ElementId) : Draft :=
  { f.noted with
    phase := .resolution
    view.scalarProperties := f.propertiesAfter .scalar done
    view.structuredProperties := f.propertiesAfter .structured done
    view.entityAxioms := f.axiomsAfter done
    view.incidentElements := f.edgesAfter done
    view.resolved := done }

variable {f} {done : List ElementId} {e : Element}

theorem governs_draft (done : List ElementId) : f.Governs (f.draft done) :=
  ⟨rfl, rfl, rfl⟩

theorem propertiesAfter_concat (kind : PropertyKind) (done : List ElementId) (id : ElementId) :
    f.propertiesAfter kind (done ++ [id]) = (f.attributionsOf kind id).foldl
      (fun t a => t.addTo a.1 a.2) (f.propertiesAfter kind done) := by
  rw [propertiesAfter, List.flatMap_append, List.foldl_append, List.flatMap_singleton,
    ← propertiesAfter]

/-- An entity that is new in `done` gets its axioms. -/
theorem Proper.axiomsAfter_concat (hf : f.Proper) (hid : id ∈ f.shownOf ElementKind.isEntity)
    (hnew : id ∉ done) : f.axiomsAfter (done ++ [id]) =
      (f.axiomsAfter done).extend id ((f.axiomCandidates id).filter f.keeps) := by
  have hkeys : ∀ done, (f.axiomsAfter done).keys = f.shownOf ElementKind.isEntity :=
    fun _ => Table.keys_ofList_map _ hf.nodup_shownOf
  have hnodup : ([] ++ (f.axiomCandidates id).filter f.keeps).Nodup :=
    (f.nodup_localOnly _).filter _
  refine Table.ext_get? ?_ fun k => ?_
  · rw [Table.keys_extend, hkeys, hkeys, addNew_of_mem hid]
  · rw [Table.extend, Table.get?_update, axiomsAfter, axiomsAfter, Table.get?_ofList_map,
      Table.get?_ofList_map, Table.get?_ofList_map]
    by_cases hk : k = id
    · subst hk
      simp [hid, hnew, foldl_addNew_of_nodup hnodup]
    · simp [hk]

theorem axiomsAfter_concat_of_other (hid : id ∉ f.shownOf ElementKind.isEntity) :
    f.axiomsAfter (done ++ [id]) = f.axiomsAfter done := by
  refine congrArg Table.ofList (List.map_congr_left fun k hk => ?_)
  have hne : k ≠ id := fun h => hid (h ▸ hk)
  simp [hne]

/-- A relation entity that is new in `done` gets its edges. -/
theorem edgesAfter_concat (hk : f.model.hasKind .relationEntity id = true) (hnew : id ∉ done) :
    f.edgesAfter (done ++ [id]) =
      (f.edgesAfter done).extend id ((f.incidentCandidates id).filter f.keepsIncident) := by
  have hkey : id ∉ (f.edgesAfter done).keys := by
    rw [edgesAfter, ← Table.isSome_get?, Table.get?_ofList_map,
      if_neg fun h => hnew (List.mem_filter.mp h).1]
    exact Bool.false_ne_true
  have hnodup : ([] ++ (f.incidentCandidates id).filter f.keepsIncident).Nodup :=
    (f.nodup_localOnly _).filter _
  rw [Table.extend, Table.update_of_not_mem hkey, Option.getD_none, foldl_addNew_of_nodup hnodup,
    edgesAfter, List.filter_append, List.filter_cons_of_pos hk, List.filter_nil, List.map_append,
    List.map_singleton, Table.ofList_concat]
  rfl

theorem edgesAfter_concat_of_other (hk : ¬ f.model.hasKind .relationEntity id = true) :
    f.edgesAfter (done ++ [id]) = f.edgesAfter done := by
  rw [edgesAfter, List.filter_append, List.filter_cons_of_neg hk, List.filter_nil, List.append_nil,
    ← edgesAfter]

/-- The draft that is halfway to the next one: `id` has handed its properties out. -/
def attributed (f : Frame) (done : List ElementId) (id : ElementId) : Draft :=
  { f.draft done with
    view.scalarProperties := f.propertiesAfter .scalar (done ++ [id])
    view.structuredProperties := f.propertiesAfter .structured (done ++ [id]) }

theorem attributeProperties_draft (done : List ElementId) (id : ElementId) :
    (f.draft done).attributeProperties id f.answers = pure (f.attributed done id) := by
  rw [(governs_draft done).attributeProperties_eq, attributed, propertiesAfter_concat,
    propertiesAfter_concat]
  rfl

theorem Proper.keepAxioms_attributed (hf : f.Proper)
    (hid : id ∈ f.shownOf ElementKind.isEntity) (hnew : id ∉ done) :
    (f.attributed done id).keepAxioms id f.answers = pure
      { f.attributed done id with view.entityAxioms := f.axiomsAfter (done ++ [id]) } := by
  have hgoverns : f.Governs (f.attributed done id) := ⟨rfl, rfl, rfl⟩
  rw [hgoverns.keepAxioms_eq (Table.listAt_ofList_map_of_mem _ hid), hf.axiomsAfter_concat hid hnew]
  rfl

/-- The next draft is the one that is halfway there, with axioms and edges. -/
theorem draft_concat (f : Frame) (hnew : id ∉ done) : f.draft (done ++ [id]) =
    { f.attributed done id with
      view.entityAxioms := f.axiomsAfter (done ++ [id])
      view.incidentElements := f.edgesAfter (done ++ [id])
      view.resolved := addNew done id } := by
  rw [addNew, if_neg hnew]
  rfl

/-- **Resolution of a classifier** leads from one draft of the frame to the next. -/
theorem Proper.resolve_draft (hf : f.Proper) (hid : id ∈ f.shownOf ElementKind.isClassifier)
    (hnew : id ∉ done) : (f.draft done).resolve id f.answers = pure (f.draft (done ++ [id])) := by
  obtain ⟨hshown, kind, hkind, hclassifier⟩ := mem_shownOf.mp hid
  obtain ⟨e, he, rfl⟩ := Option.map_eq_some_iff.mp hkind
  have hentity : id ∈ f.shownOf ElementKind.isEntity ↔ e.kind.isEntity = true :=
    mem_shownOf_of_kind hshown hkind
  have hrelation : f.model.hasKind .relationEntity id = true ↔ e.kind = .relationEntity := by
    rw [Model.hasKind_iff, hkind, Option.some.injEq]
  have hresolve : (f.draft done).resolve id f.answers = (do
      let settled ← (f.draft done).settle id f.answers e
      return { settled with view.resolved := addNew settled.view.resolved id }) :=
    Draft.resolve_of_waiting hnew he
  rw [hresolve, draft_concat f hnew]
  cases e with
  | aspect | concept =>
    rw [Draft.settle, attributeProperties_draft, pure_bind,
      hf.keepAxioms_attributed (hentity.mpr rfl) hnew, pure_bind,
      edgesAfter_concat_of_other fun h => by cases hrelation.mp h]
    rfl
  | relationEntity =>
    have hlisted : id ∈ f.shownOf (· = .relationEntity) := (mem_shownOf_of_kind hshown hkind).mpr rfl
    rw [Draft.settle, attributeProperties_draft, pure_bind,
      hf.keepAxioms_attributed (hentity.mpr rfl) hnew, pure_bind,
      Governs.keepIncident_eq ⟨rfl, rfl, rfl⟩ (Table.listAt_ofList_map_of_mem _ hlisted), pure_bind,
      edgesAfter_concat (hrelation.mpr rfl) hnew]
    rfl
  | struct =>
    rw [Draft.settle, attributeProperties_draft, pure_bind,
      axiomsAfter_concat_of_other (mt hentity.mp Bool.false_ne_true),
      edgesAfter_concat_of_other fun h => by cases hrelation.mp h]
    rfl
  | _ => cases hclassifier

/-- Resolution starts with the draft that discovery leaves. -/
theorem draft_nil (f : Frame) : f.draft [] = { f.noted with phase := .resolution } := by
  rw [draft, axiomsAfter]
  simp only [List.not_mem_nil, if_false]
  rfl

/-- **With all classifiers resolved** the draft holds what is drawn in the frame. -/
theorem view_draft (f : Frame) :
    (f.draft (f.shownOf ElementKind.isClassifier)).view = f.drawn := by
  have haxioms : f.axiomsAfter (f.shownOf ElementKind.isClassifier) = f.drawn.entityAxioms := by
    refine congrArg Table.ofList (List.map_congr_left fun id hid => ?_)
    obtain ⟨hshown, kind, hk, hentity⟩ := mem_shownOf.mp hid
    have hclassifier := ElementKind.isClassifier_iff.mpr (Or.inl hentity)
    rw [if_pos (mem_shownOf.mpr ⟨hshown, kind, hk, hclassifier⟩)]
  have hlist : (f.shownOf ElementKind.isClassifier).filter (f.model.hasKind .relationEntity) =
      f.shownOf (· = .relationEntity) := by
    rw [shownOf, List.filter_filter]
    refine List.filter_congr fun id _ => ?_
    unfold Model.hasKind Model.satisfies
    cases f.model.element? id with
    | none => rfl
    | some e => cases e <;> rfl
  rw [draft, haxioms, edgesAfter, hlist]
  rfl

end Frame

end OntologyView

/-
  ISOLATION: what a view shows of an element that the ontology does not declare.

  1. **Specification** — a model is CLOSED if nothing leads out of it (`Model.Closed`).  No element of
     such a model refers to one that is still to come.  A new element may refer to old ones, and an
     old one may list it as its child; but here it is not local.

  2. **The crux** — the walk reads nothing but what it meets, and that is old
     (`Model.meet_congr`, `Model.Closed.lt_size_of_reached`).  So it goes as before, or fails as
     before.  And the larger model carries over BACK to the model before, as far as the old elements
     go (`Model.OneMore.carriesBack`): all queries may find the new element, but it is not local, and
     what is drawn is.

  3. **The exception** — whatever walks the specializations walks them in the whole model.  A new
     specialization may bring a classifier more superterms, and so more local properties.  It does
     not take any away (`LinkedModel.foreign_element_stays_outside`).
-/
import OntologyView.Proofs.Growth

namespace OntologyView

/-! ## Closed models -/

namespace Element

/-- An element leads to nothing that it does not refer to. -/
theorem exists_role_of_mem_leads {e : Element} {next : ElementId} (h : next ∈ e.leads) :
    ∃ role, (role, next) ∈ e.references := by
  cases e with
  | reference kind member => exact ⟨.member, by simpa [leads, references] using h⟩
  | relationEntity name source target =>
    rcases List.mem_append.mp h with hs | ht
    · exact ⟨.source, by simpa [references] using hs⟩
    · exact ⟨.target, by simpa [references] using ht⟩
  | _ => exact absurd h List.not_mem_nil

end Element

namespace Model

/-- Nothing leads out of a model: all containers are in it, and all that is referred to. -/
structure Closed (m : Model) : Prop where
  container : ∀ {id parent}, m.container? id = some parent → parent < m.size
  reference : ∀ {id e role target}, m.element? id = some e → (role, target) ∈ e.references →
    target < m.size

variable {m m' : Model} {root id : ElementId}

theorem closed_iff : m.Closed ↔ (∀ id ∈ m.ids, ∀ parent ∈ m.container? id, parent < m.size) ∧
    ∀ r ∈ m.crossReferences, r.target < m.size := by
  constructor
  · intro h
    refine ⟨fun _ _ _ hc => h.container hc, fun r hr => ?_⟩
    obtain ⟨e, he, href⟩ := mem_crossReferences.mp hr
    exact h.reference he href
  · rintro ⟨hcontainer, hreference⟩
    exact
      { container := fun hc => hcontainer _ (mem_ids.mpr (lt_size_of_container? hc)) _ hc
        reference := fun he href => hreference _ (mem_crossReferences.mpr ⟨_, he, href⟩) }

instance (m : Model) : Decidable m.Closed :=
  decidable_of_iff' _ closed_iff

theorem Closed.lt_size_of_mem_leads (h : m.Closed) {next : ElementId} (hn : next ∈ m.leads id) :
    next < m.size := by
  obtain ⟨e, he, hn⟩ := mem_leads_iff.mp hn
  obtain ⟨role, href⟩ := Element.exists_role_of_mem_leads hn
  exact h.reference he href

/-- What is in reach is in the model. -/
theorem Closed.lt_size_of_reached (h : m.Closed) (hm : m.Linked) (hid : m.Reached root id) :
    id < m.size := by
  have hlead : ∀ {id e next}, m.element? id = some e → next ∈ e.leads → next < m.size :=
    fun he hn => h.lt_size_of_mem_leads (mem_leads_iff.mpr ⟨_, he, hn⟩)
  cases hid with
  | statement hs => exact hm.lt_size_of_mem_statements hs
  | member _ he | source _ he | target _ he => exact hlead he (by simp [Element.leads])

/-! ## The walk -/

/-- **The walk reads what it meets**, and nothing else: models that agree on it are walked alike. -/
theorem meet_congr {among : ElementId → Prop} {met waiting : List ElementId}
    (helement : ∀ id, among id → m'.element? id = m.element? id)
    (hrange : ∀ id, among id → m'.range? id = m.range? id)
    (hleads : ∀ id, among id → ∀ next ∈ m.leads id, among next)
    (hwaiting : ∀ id ∈ waiting, among id) : m'.meet met waiting = m.meet met waiting := by
  fun_induction m.meet met waiting with
  | case1 met => exact meet_nil
  | case2 met id rest hid ih =>
    rw [meet_of_mem hid]
    exact ih fun k hk => hwaiting k (List.mem_cons_of_mem id hk)
  | case3 met id rest hid he =>
    have hamong : among id := hwaiting id List.mem_cons_self
    exact meet_of_unknown hid ((helement id hamong).trans he)
  | case4 met id rest hid header he =>
    have hamong : among id := hwaiting id List.mem_cons_self
    rw [meet_of_ontology hid ((helement id hamong).trans he) rfl, hrange id hamong]
  | case5 met id rest hid e hk he ih =>
    have hamong : among id := hwaiting id List.mem_cons_self
    rw [meet_of_first hid ((helement id hamong).trans he) (kind_ne_ontology hk)]
    refine ih fun k hk => ?_
    rcases List.mem_append.mp hk with hk | hk
    · exact hleads id hamong k (leads_of_element? he ▸ hk)
    · exact hwaiting k (List.mem_cons_of_mem id hk)

/-! ## One element more, which is not local -/

namespace OneMore

variable (h : m.OneMore m') {locality : Locality}

include h

/-- The old elements of the larger model are those of the model before. -/
theorem carriesBack (hm : m.Linked) (hclosed : m.Closed) :
    m'.CarriesOver (· < m.size) m where
  element := fun hid he => (h.element? hid).symm.trans he
  container := fun hid hc => (h.container? hid).symm.trans hc
  child := fun hx hchild => (h.mem_children hchild).resolve_right (Nat.ne_of_lt hx)
  relation := by
    intro owner direction x hx _ hr
    rcases h.relation? hm direction owner with heq | ⟨-, hnew⟩
    · exact heq.symm.trans hr
    · obtain rfl : m.size = x := Option.some.inj (hnew.symm.trans hr)
      exact absurd hx (Nat.lt_irrefl _)
  among_reference := fun hid he => hclosed.reference ((h.element? hid).symm.trans he)
  among_container := fun hid hc => hclosed.container ((h.container? hid).symm.trans hc)
  among_owner := fun hx hchild =>
    lt_size_of_mem_children ((h.mem_children hchild).resolve_right (Nat.ne_of_lt hx))

/-- All that is local is old, if the new element is not. -/
theorem lt_size_of_mem_localElements (hm : m.Linked)
    (hforeign : m.size ∉ m'.localElements root locality) (hid : id ∈ m'.localElements root locality) :
    id < m.size := by
  obtain ⟨owner, hchild⟩ := exists_mem_children_of_local hid
  rcases h.mem_children hchild with hold | rfl
  · exact lt_size_of_container? (hm owner id hold)
  · exact absurd hid hforeign

theorem statements_eq (hroot : root < m.size)
    (hforeign : m.size ∉ m'.localElements root locality) :
    m'.statements root = m.statements root := by
  have hontology : m'.ontology? root = m.ontology? root := by
    rw [ontology?, h.element? hroot, ontology?]
  have hnew : m.size ∉ m'.statements root :=
    fun hs => hforeign (mem_localElements_of_mem_statements hs)
  rw [statements, hontology] at hnew ⊢
  rw [statements]
  split
  · rename_i hsome
    rw [if_pos hsome] at hnew
    rcases h.children root with hc | hc
    · exact hc
    · -- The new element would be a statement.
      exact absurd (hc ▸ List.mem_append_right _ List.mem_cons_self) hnew
  · rfl

/-- The walk goes as it did before, or fails as it did before. -/
theorem met_eq (hm : m.Linked) (hclosed : m.Closed) (hroot : root < m.size)
    (hforeign : m.size ∉ m'.localElements root locality) : m'.met root = m.met root := by
  rw [met, h.statements_eq hroot hforeign, met]
  exact meet_congr (fun _ => h.element?) (fun _ => h.range?)
    (fun _ _ _ => hclosed.lt_size_of_mem_leads) (fun _ => hm.lt_size_of_mem_statements)

end OneMore

end Model

/-! ## The view -/

/-- The same view, except that `w` may show more properties. -/
structure View.GainsProperties (v w : View) : Prop where
  shown : w.shown = v.shown
  resolved : w.resolved = v.resolved
  entityAxioms : v.entityAxioms.Same w.entityAxioms
  incidentElements : v.incidentElements.Same w.incidentElements
  instanceAssertions : v.instanceAssertions.Same w.instanceAssertions
  properties : ∀ kind, (v.properties kind).Within (w.properties kind)

/-- Frames that show the same elements and carry over in both directions, but for some
    specializations on the way back. -/
theorem Frame.CarriesOver.gainsProperties {among among' : ElementId → Prop} {f g : Frame}
    (h : f.CarriesOver among g) (h' : g.CarriesOver among' f)
    (hspecialization : ∀ x, f.model.hasKind .specialization x = true → among x)
    (hf : f.Proper) (hg : g.Proper) (hshown : g.shown = f.shown)
    (helement : ∀ id ∈ f.shown, g.model.element? id = f.model.element? id) :
    f.drawn.GainsProperties g.drawn where
  shown := (hf.shown_drawn_congr hg hshown helement).1
  resolved := (hf.shown_drawn_congr hg hshown helement).2
  entityAxioms := Table.same_of_within h.entityAxioms_within h'.entityAxioms_within
  incidentElements := Table.same_of_within h.incidentElements_within h'.incidentElements_within
  instanceAssertions :=
    Table.same_of_within h.instanceAssertions_within h'.instanceAssertions_within
  properties := by
    intro kind
    rw [properties_drawn, properties_drawn]
    exact h.propertyTable_within h' hspecialization hf hg

namespace Model.OneMore

variable {m m' : Model} {root : ElementId} {locality : Locality} {order : List ElementId}
  (h : m.OneMore m') (hm : m.Linked) (hclosed : m.Closed)

include h hm hclosed

/-- The same elements are shown after the same walk. -/
theorem shown_frame (hmet : m.met root = .ok order) :
    ((LinkedModel.ofModel m').frame root locality order).shown =
      ((LinkedModel.ofModel m).frame root locality order).shown := by
  refine List.filter_congr fun id hid => ?_
  have hreached : m.Reached root id := ((mem_met_iff hmet).2 id).mp hid
  show m'.satisfies _ id = m.satisfies _ id
  rw [satisfies, satisfies, h.element? (hclosed.lt_size_of_reached hm hreached)]

/-- After the same walk, what is local or shown in the larger model was so before. -/
theorem frame_carriesBack (hforeign : m.size ∉ m'.localElements root locality)
    (hroot : root < m.size) (hmet : m.met root = .ok order) :
    ((LinkedModel.ofModel m').frame root locality order).CarriesOver (· < m.size)
      ((LinkedModel.ofModel m).frame root locality order) where
  linked := .ofModel (h.carriesBack hm hclosed)
  locals := by
    intro x hx
    have hold : ∀ k ∈ m'.localElements root locality, k < m.size :=
      fun _ => h.lt_size_of_mem_localElements hm hforeign
    exact ⟨hold x hx, (h.carriesBack hm hclosed).mem_localElements hroot hold hx⟩
  shown := by
    intro x hx
    rw [h.shown_frame hm hclosed hmet] at hx
    have hreached : m.Reached root x := ((mem_met_iff hmet).2 x).mp (List.mem_filter.mp hx).1
    exact ⟨hclosed.lt_size_of_reached hm hreached, hx⟩

end Model.OneMore

namespace LinkedModel

variable {m m' : Model} {root x : ElementId} {locality : Locality} {order : List ElementId}
  {edit : Edit}

/-- The views before and after, drawn after the same walk. -/
theorem gainsProperties_of_met (h : m.OneMore m') (hm : m.Linked) (hclosed : m.Closed)
    (hroot : root < m.size) (hforeign : m.size ∉ m'.localElements root locality)
    (hmet : m.met root = .ok order) (hmet' : m'.met root = .ok order) :
    ((ofModel m).frame root locality order).drawn.GainsProperties
      ((ofModel m').frame root locality order).drawn ∧
    (m'.kind? m.size ≠ some .specialization → ∀ kind,
      (((ofModel m).frame root locality order).drawn.properties kind).Same
        (((ofModel m').frame root locality order).drawn.properties kind)) := by
  have hproper : ((ofModel m).frame root locality order).Proper := proper_frame hmet
  have hproper' : ((ofModel m').frame root locality order).Proper := proper_frame hmet'
  have hforth := (h.carriesOver hm).frame locality hmet hmet'
  have hback := h.frame_carriesBack hm hclosed hforeign hroot hmet
  have hshown : ((ofModel m').frame root locality order).shown =
      ((ofModel m).frame root locality order).shown := h.shown_frame hm hclosed hmet
  have hgains := hforth.gainsProperties hback (fun _ _ => trivial) hproper hproper' hshown
    fun id hid => h.element? (hback.shown id (hshown.symm ▸ hid)).1
  refine ⟨hgains, fun hkind kind => Table.same_of_within (hgains.properties kind) ?_⟩
  have hspecialization : ∀ y, m'.hasKind .specialization y = true → y < m.size := by
    intro y hy
    obtain ⟨e, he, -⟩ := Model.hasKind_iff_exists.mp hy
    have hlt : y < m.size + 1 := h.size ▸ Model.lt_size_of_element? he
    refine Nat.lt_of_le_of_ne (Nat.le_of_lt_succ hlt) ?_
    rintro rfl
    exact hkind (Model.hasKind_iff.mp hy)
  rw [Frame.properties_drawn, Frame.properties_drawn]
  exact hback.propertyTable_within hforth hspecialization hproper' hproper

/-- **What another ontology gains does not leak in**, but through specializations.  With one more
    element, which is not local, the analysis of an ontology fails as before, or it has the same
    view as before.  If the new element is a specialization, classifiers may inherit more
    properties.  In models with rings this is said of the runs that end (`gives_analyzeFor`). -/
theorem foreign_element_stays_outside (hm : m.Edited) (hclosed : m.Closed)
    (hx : edit.newId? m = some x) (hroot : root < m.size)
    (hforeign : x ∉ (m.apply edit).localElements root locality) :
    (∃ err, (ofModel m).analyze root locality = .error err ∧
      (ofModel (m.apply edit)).analyze root locality = .error err) ∨
    ∃ v w, (ofModel m).analyze root locality = .ok v ∧
      (ofModel (m.apply edit)).analyze root locality = .ok w ∧ v.GainsProperties w ∧
      ((m.apply edit).kind? x ≠ some .specialization →
        ∀ kind, (v.properties kind).Same (w.properties kind)) := by
  obtain ⟨h, rfl⟩ := Model.oneMore_apply hx
  have hwalk : (ofModel (m.apply edit)).model.met root = (ofModel m).model.met root :=
    h.met_eq hm.linked hclosed hroot hforeign
  rcases analyze_of_met_eq (h.element? hroot) hwalk locality locality with
    hfail | ⟨order, hmet, hv, hw⟩
  · exact Or.inl hfail
  · exact Or.inr ⟨_, _, hv, hw,
      gainsProperties_of_met h hm.linked hclosed hroot hforeign hmet (hwalk.trans hmet)⟩

end LinkedModel

/-- A concept below an aspect of another document, and a property of a second aspect there. -/
def foreignAspects : Model := .ofEdits [.vocabulary "http://example.com/dnd#" "dnd",
  .vocabulary "http://example.com/base#" "base", .aspect 1 "Hidden", .concept 0 "Monster",
  .specialize 3 (some 2), .aspect 1 "Named", .property 0 "name" .scalar (some 5) none]

/-- When the one aspect becomes a subterm of the other, over there, the concept gets the property. -/
theorem foreign_element_stays_outside_foreignAspects :
    foreignAspects.Edited ∧ foreignAspects.Closed ∧
    (Edit.specialize 2 (some 5)).newId? foreignAspects = some 7 ∧ 0 < foreignAspects.size ∧
    7 ∉ (foreignAspects.apply (.specialize 2 (some 5))).localElements 0 .topLevelStatements ∧
    ∃ v w, (LinkedModel.ofModel foreignAspects).analyze 0 .topLevelStatements = .ok v ∧
      (LinkedModel.ofModel (foreignAspects.apply (.specialize 2 (some 5)))).analyze 0
        .topLevelStatements = .ok w ∧
      (v.properties .scalar).listAt 3 = [] ∧ (w.properties .scalar).listAt 3 = [6] ∧
      v.GainsProperties w := by
  have hm : foreignAspects.Edited := ⟨_, rfl⟩
  have hclosed : foreignAspects.Closed := by decide +kernel
  have hx : (Edit.specialize 2 (some 5)).newId? foreignAspects = some 7 := by decide +kernel
  have hroot : 0 < foreignAspects.size := by decide +kernel
  have hforeign : 7 ∉ (foreignAspects.apply (.specialize 2 (some 5))).localElements 0
      .topLevelStatements := by
    decide +kernel
  have hok : ((LinkedModel.ofModel foreignAspects).analyze 0 .topLevelStatements).toOption.any
      (fun v => (v.properties .scalar).listAt 3 = []) = true := by
    decide +kernel
  have hok' : ((LinkedModel.ofModel (foreignAspects.apply (.specialize 2 (some 5)))).analyze 0
      .topLevelStatements).toOption.any (fun w => (w.properties .scalar).listAt 3 = [6]) = true := by
    decide +kernel
  obtain ⟨v, hv, htest⟩ := exists_of_any hok
  obtain ⟨w, hw, htest'⟩ := exists_of_any hok'
  refine ⟨hm, hclosed, hx, hroot, hforeign, v, w, hv, hw, of_decide_eq_true htest,
    of_decide_eq_true htest', ?_⟩
  rcases LinkedModel.foreign_element_stays_outside hm hclosed hx hroot hforeign with
    ⟨err, herr, -⟩ | ⟨v', w', hv', hw', hgains, -⟩
  · nomatch hv.symm.trans herr
  · obtain rfl := Except.ok.inj (hv.symm.trans hv')
    obtain rfl := Except.ok.inj (hw.symm.trans hw')
    exact hgains

end OntologyView

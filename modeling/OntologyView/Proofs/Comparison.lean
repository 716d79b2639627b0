/-
  TWO ANALYSES COMPARED: what of the one is found again in the other.

  1. **Specification** — `CarriesOver among`, of two models: what the first says of the elements
     `among`, the second says as well.  Of other elements nothing is asked, and the elements `among`
     do not lead to others: what they refer to, where they stand and who lists them is `among` again.
     With all elements `among`, the second model extends the first.  The same is said of two linked
     models and of two frames, and, in one word, of two views (`View.Within`).

  2. **The crux** — all rules of inclusion, of axioms and of edges are POSITIVE.  What they ask for
     carries over, so what they allow does, rule by rule (`Included.carriesOver`,
     `Upheld.carriesOver`).

  3. **The exception** — a property sinks when its domain is NOT included.  So a property that is
     shown is shown in the second view by some owner (`Frame.CarriesOver.exists_owner`); the owner
     stays if inclusion carries over in both directions (`Frame.CarriesOver.mem_attributions`).
-/
import OntologyView.Proofs.Attribution
import OntologyView.Proofs.IncidentElements

namespace OntologyView

variable {among among' : ElementId → Prop}

/-! ## Models -/

namespace Model

/-- What `m` says of the elements `among`, `m'` says as well, and they lead to no others. -/
structure CarriesOver (among : ElementId → Prop) (m m' : Model) : Prop where
  element : ∀ {id e}, among id → m.element? id = some e → m'.element? id = some e
  container : ∀ {id parent}, among id → m.container? id = some parent →
    m'.container? id = some parent
  child : ∀ {owner x}, among x → x ∈ m.children owner → x ∈ m'.children owner
  /-- The first relation of a relation entity is still the first one. -/
  relation : ∀ {owner direction x}, among x → m.hasKind .relationEntity owner = true →
    m.relation? direction owner = some x → m'.relation? direction owner = some x
  among_reference : ∀ {id e role target}, among id → m.element? id = some e →
    (role, target) ∈ e.references → among target
  among_container : ∀ {id parent}, among id → m.container? id = some parent → among parent
  among_owner : ∀ {owner x}, among x → x ∈ m.children owner → among owner

namespace CarriesOver

variable {m m' : Model} {id : ElementId} (h : m.CarriesOver among m')

include h

theorem kind? {kind : ElementKind} (hid : among id) (hk : m.kind? id = some kind) :
    m'.kind? id = some kind := by
  obtain ⟨e, he, rfl⟩ := Option.map_eq_some_iff.mp hk
  exact Option.map_eq_some_iff.mpr ⟨e, h.element hid he, rfl⟩

theorem hasKind {kind : ElementKind} (hid : among id) (hk : m.hasKind kind id = true) :
    m'.hasKind kind id = true :=
  hasKind_iff.mpr (h.kind? hid (hasKind_iff.mp hk))

theorem member? {member : ElementId} (hid : among id) (hm : m.member? id = some member) :
    m'.member? id = some member ∧ among member := by
  cases he : m.element? id with
  | none =>
    rw [Model.member?, he] at hm
    nomatch hm
  | some e =>
    have he' : m'.element? id = some e := h.element hid he
    rw [Model.member?, he] at hm
    rw [Model.member?, he']
    cases e with
    | reference kind target =>
      obtain rfl : target = some member := hm
      exact ⟨rfl, h.among_reference hid he (Element.mem_optionally.mpr ⟨rfl, rfl⟩)⟩
    | _ => exact ⟨hm, Option.some.inj hm ▸ hid⟩

theorem subterm? {sub : ElementId} (hid : among id) (hs : m.subterm? id = some sub) :
    m'.subterm? id = some sub ∧ among sub := by
  obtain ⟨hk, hbind⟩ := subterm?_eq_some_iff.mp hs
  obtain ⟨owner, hc, hmember⟩ := Option.bind_eq_some_iff.mp hbind
  obtain ⟨hmember', hsub⟩ := h.member? (h.among_container hid hc) hmember
  have hbind' : (m'.container? id).bind m'.member? = some sub :=
    Option.bind_eq_some_iff.mpr ⟨owner, h.container hid hc, hmember'⟩
  exact ⟨subterm?_eq_some_iff.mpr ⟨h.kind? hid hk, hbind'⟩, hsub⟩

theorem owningEntity? {owner : ElementId} (hid : among id) (ho : m.owningEntity? id = some owner) :
    m'.owningEntity? id = some owner ∧ among owner := by
  unfold Model.owningEntity? at ho
  split at ho
  · rename_i direction name he
    obtain ⟨hc, hk⟩ := Option.filter_eq_some_iff.mp ho
    have howner : among owner := h.among_container hid hc
    rw [Model.owningEntity?, h.element hid he]
    exact ⟨Option.filter_eq_some_iff.mpr ⟨h.container hid hc, h.hasKind howner hk⟩, howner⟩
  · nomatch ho

theorem superterm? {super : ElementId} (hid : among id) (hs : m.superterm? id = some super) :
    m'.superterm? id = some super := by
  rw [superterm?_eq_some_iff] at hs ⊢
  exact h.element hid hs

theorem belongsTo {x member : ElementId} (hx : among x) (hb : m.BelongsTo x member) :
    m'.BelongsTo x member := by
  rcases hb with hchild | ⟨r, kind, he, hchild⟩
  · exact Or.inl (h.child hx hchild)
  · exact Or.inr ⟨r, kind, h.element (h.among_owner hx hchild) he, h.child hx hchild⟩

theorem mem_statements {root x : ElementId} (hroot : among root) (hx : among x)
    (hs : x ∈ m.statements root) : x ∈ m'.statements root := by
  rw [mem_statements_iff] at hs ⊢
  exact ⟨h.kind? hroot hs.1, h.child hx hs.2⟩

/-- Local elements carry over, if all of them are `among`. -/
theorem mem_localElements {root x : ElementId} {locality : Locality} (hroot : among root)
    (hlocal : ∀ k ∈ m.localElements root locality, among k)
    (hx : x ∈ m.localElements root locality) : x ∈ m'.localElements root locality := by
  cases locality with
  | topLevelStatements => exact h.mem_statements hroot (hlocal x hx) hx
  | ownedContent =>
    simp only [mem_ownedContent_iff] at hlocal hx ⊢
    obtain ⟨hk, hreach⟩ := hx
    refine ⟨h.kind? hroot hk, ?_⟩
    -- All that the walk goes through is local, so each of its steps carries over.
    induction hreach with
    | single hchild => exact .single (h.child (hlocal _ ⟨hk, .single hchild⟩) hchild)
    | tail hreach hchild ih =>
      exact .tail ih (h.child (hlocal _ ⟨hk, .tail hreach hchild⟩) hchild)

end CarriesOver

variable {m m' : Model} {root id x : ElementId}

/-! ## The positive rules -/

/-- **Inclusion carries over**, if what is known does. -/
theorem Included.carriesOver {known known' : ElementId → Bool} (hi : m.Included known id)
    (h : m.CarriesOver among m') (hid : among id)
    (hknown : ∀ k, among k → known k = true → known' k = true) : m'.Included known' id := by
  induction hi with
  | specialization he hs _ _ ihsuper ihsub =>
    obtain ⟨hs', hsub⟩ := h.subterm? hid hs
    have hsuper := h.among_reference hid he (Element.mem_optionally.mpr ⟨rfl, rfl⟩)
    exact .specialization (h.element hid he) hs' (ihsuper hsuper) (ihsub hsub)
  | reference he _ ih =>
    have hmember := h.among_reference hid he (Element.mem_optionally.mpr ⟨rfl, rfl⟩)
    exact .reference (h.element hid he) (ih hmember)
  | known he hspecialization hreference hk =>
    exact .known (h.element hid he) hspecialization hreference (hknown _ hid hk)

/-- **What is upheld carries over**, if what is included does. -/
theorem Upheld.carriesOver {included included' : ElementId → Prop} (hu : m.Upheld included x)
    (h : m.CarriesOver among m') (hx : among x)
    (hincluded : ∀ id, among id → included id → included' id) : m'.Upheld included' x := by
  -- Whatever the axiom refers to is included in the second model if it is in the first.
  have hreferent : ∀ {e target} role, m.element? x = some e → (role, target) ∈ e.references →
      included target → included' target :=
    fun _ he hr => hincluded _ (h.among_reference hx he hr)
  have howner : ∀ {e relation entity}, m.element? x = some e →
      (.restrictedRelation, relation) ∈ e.references → m.owningEntity? relation = some entity →
        included entity → m'.owningEntity? relation = some entity ∧ included' entity := by
    intro e relation entity he hr ho hentity
    obtain ⟨ho', hamong⟩ := h.owningEntity? (h.among_reference hx he hr) ho
    exact ⟨ho', hincluded _ hamong hentity⟩
  cases hu with
  | key he hproperties =>
    refine .key (h.element hx he) fun p hp => ?_
    exact hreferent .keyProperty he (Element.mem_each.mpr ⟨rfl, hp⟩) (hproperties p hp)
  | specialization he hsuper =>
    exact .specialization (h.element hx he)
      (hreferent .superterm he (by simp [Element.references]) hsuper)
  | propertyRestriction he hproperty =>
    exact .propertyRestriction (h.element hx he)
      (hreferent .restrictedProperty he (by simp [Element.references]) hproperty)
  | cardinality he ho hentity =>
    obtain ⟨ho', hentity'⟩ := howner he (by simp [Element.references]) ho hentity
    exact .cardinality (h.element hx he) ho' hentity'
  | range he ho hentity hrange =>
    obtain ⟨ho', hentity'⟩ := howner he (by simp [Element.references]) ho hentity
    exact .range (h.element hx he) ho' hentity'
      (hreferent .restrictionRange he (by simp [Element.references]) hrange)
  | target he ho hentity htarget =>
    obtain ⟨ho', hentity'⟩ := howner he (by simp [Element.references]) ho hentity
    exact .target (h.element hx he) ho' hentity'
      (hreferent .restrictionTarget he (by simp [Element.references]) htarget)

/-! ## What is in reach, and what is local -/

theorem Reached.carriesOver (hr : m.Reached root id) (h : m.CarriesOver (fun _ => True) m') :
    m'.Reached root id := by
  induction hr with
  | statement hs => exact .statement (h.mem_statements trivial trivial hs)
  | member _ he ih => exact .member ih (h.element trivial he)
  | source _ he ih => exact .source ih (h.element trivial he)
  | target _ he ih => exact .target ih (h.element trivial he)

end Model

/-! ## Queries -/

namespace LinkedModel

/-- What the queries of `lm` find among the elements `among`, those of `lm'` find as well. -/
structure CarriesOver (among : ElementId → Prop) (lm lm' : LinkedModel) : Prop where
  model : lm.model.CarriesOver among lm'.model
  belonging : ∀ {kind member x}, among x → x ∈ lm.belongings kind member →
    x ∈ lm'.belongings kind member
  referrer : ∀ {role accept target x}, among x → x ∈ lm.referring role accept target →
    x ∈ lm'.referring role accept target
  among_target : ∀ {role accept target x}, among x → x ∈ lm.referring role accept target →
    among target
  relation : ∀ {entity x}, among x → x ∈ lm.relationsFrom entity ∨ x ∈ lm.relationsTo entity →
    x ∈ lm'.relationsFrom entity ∨ x ∈ lm'.relationsTo entity

/-- A linked model extends itself. -/
theorem CarriesOver.refl (lm : LinkedModel) : lm.CarriesOver (fun _ => True) lm where
  model :=
    { element := fun _ => id
      container := fun _ => id
      child := fun _ => id
      relation := fun _ _ => id
      among_reference := fun _ _ _ => trivial
      among_container := fun _ _ => trivial
      among_owner := fun _ _ => trivial }
  belonging := fun _ => id
  referrer := fun _ => id
  among_target := fun _ _ => trivial
  relation := fun _ => id

/-- With the references of the models themselves, what the queries find carries over if the models
    do. -/
theorem CarriesOver.ofModel {m m' : Model} (h : m.CarriesOver among m') :
    (ofModel m).CarriesOver among (ofModel m') where
  model := h
  belonging := by
    intro kind member x hx hb
    rw [mem_belongings] at hb ⊢
    exact ⟨h.belongsTo hx hb.1, h.hasKind hx hb.2⟩
  referrer := by
    intro role accept target x hx hr
    obtain ⟨e, he, ha, hr⟩ := mem_referring.mp hr
    exact mem_referring.mpr ⟨e, h.element hx he, ha, hr⟩
  among_target := by
    intro role accept target x hx hr
    obtain ⟨e, he, -, hr⟩ := mem_referring.mp hr
    exact h.among_reference hx he hr
  relation := by
    intro entity x hx hr
    obtain ⟨o, name, source, target, direction, he, hend, ho⟩ := mem_relations_iff.mp hr
    have hk : m.hasKind .relationEntity o = true := Model.hasKind_iff_exists.mpr ⟨_, he, rfl⟩
    have hamong : among o := h.among_owner hx (List.mem_of_find?_eq_some ho)
    exact mem_relations_iff.mpr
      ⟨o, name, source, target, direction, h.element hamong he, hend, h.relation hx hk ho⟩

/-- The walk up the superterms carries over, if all specializations do. -/
theorem CarriesOver.superterms {lm lm' : LinkedModel} (h : lm.CarriesOver among lm')
    (hspecialization : ∀ x, lm.model.hasKind .specialization x = true → among x)
    {a b : ElementId} {inclusive : Bool} (hb : b ∈ lm.superterms a inclusive) :
    b ∈ lm'.superterms a inclusive := by
  have hstep : ∀ c d, d ∈ lm.directSuperterms c → d ∈ lm'.directSuperterms c := by
    intro c d hd
    obtain ⟨x, hx, hs⟩ := List.mem_filterMap.mp hd
    have hamong : among x := hspecialization x (hasKind_of_mem_belongings hx)
    exact List.mem_filterMap.mpr ⟨x, h.belonging hamong hx, h.model.superterm? hamong hs⟩
  rw [mem_superterms] at hb ⊢
  exact hb.imp_left (Exploration.Reaches.mono hstep)

end LinkedModel

/-! ## Frames -/

namespace Frame

/-- What one frame holds among the elements `among`, the other one holds as well, and all that is
    local or shown in the one is `among` them. -/
structure CarriesOver (among : ElementId → Prop) (f g : Frame) : Prop where
  linked : f.linked.CarriesOver among g.linked
  locals : ∀ x ∈ f.locals, among x ∧ x ∈ g.locals
  shown : ∀ x ∈ f.shown, among x ∧ x ∈ g.shown

variable {f g : Frame} {id x o p entity : ElementId} {kind : PropertyKind}

namespace CarriesOver

section

variable (h : f.CarriesOver among g)

include h

theorem isIncluded (hid : among id) (hi : f.isIncluded id = true) : g.isIncluded id = true := by
  refine Model.isIncluded_iff.mpr ((Model.isIncluded_iff.mp hi).carriesOver h.linked.model hid ?_)
  intro k _ hk
  simp only [isLocal, Bool.or_eq_true, decide_eq_true_eq] at hk ⊢
  exact hk.imp (fun hl => (h.locals k hl).2) (fun hs => (h.shown k hs).2)

theorem mem_shownOf {accept : ElementKind → Bool} (hid : id ∈ f.shownOf accept) :
    id ∈ g.shownOf accept := by
  obtain ⟨hshown, kind, hk, ha⟩ := Frame.mem_shownOf.mp hid
  obtain ⟨hamong, hshown'⟩ := h.shown id hshown
  exact Frame.mem_shownOf.mpr ⟨hshown', kind, h.linked.model.kind? hamong hk, ha⟩

/-! ### Axioms -/

/-- Where there is a rule, what is kept carries over. -/
theorem keeps {kind : ElementKind} (hk : f.model.hasKind kind x = true)
    (hrule : kind.hasRule = true) (hx : among x) (hkeeps : f.keeps x = true) :
    g.keeps x = true := by
  have haxiom : kind ∈ ElementKind.entityAxioms → g.keeps x = true := fun hmem =>
    keeps_of_upheld ((upheld_of_keeps hk hmem hkeeps).carriesOver h.linked.model hx
      fun _ => h.isIncluded)
  cases kind with
  | relation direction =>
    have hk' : g.model.hasKind (.relation direction) x = true := h.linked.model.hasKind hx hk
    obtain ⟨owner, ho, hi⟩ := (keeps_relation_iff hk).mp hkeeps
    obtain ⟨ho', hamong⟩ := h.linked.model.owningEntity? hx ho
    exact (keeps_relation_iff hk').mpr ⟨owner, ho', h.isIncluded hamong hi⟩
  | key | specialization | propertyRestriction | relationRestriction => exact haxiom (by decide)
  | _ => nomatch hrule

theorem mem_axiomsOf (hx : x ∈ (f.axiomCandidates entity).filter f.keeps) :
    x ∈ (g.axiomCandidates entity).filter g.keeps := by
  obtain ⟨hcandidate, hkeeps⟩ := List.mem_filter.mp hx
  obtain ⟨hlocal, kind, hmem, hb⟩ := Frame.mem_axiomCandidates.mp hcandidate
  obtain ⟨hamong, hlocal'⟩ := h.locals x hlocal
  have hk : f.model.hasKind kind x = true := LinkedModel.hasKind_of_mem_belongings hb
  refine List.mem_filter.mpr
    ⟨?_, h.keeps hk (ElementKind.hasRule_of_mem_entityAxioms kind hmem) hamong hkeeps⟩
  exact Frame.mem_axiomCandidates.mpr ⟨hlocal', kind, hmem, h.linked.belonging hamong hb⟩

/-! ### Edges -/

theorem mem_incidentElementsOf
    (hx : x ∈ (f.incidentCandidates entity).filter f.keepsIncident) :
    x ∈ (g.incidentCandidates entity).filter g.keepsIncident := by
  obtain ⟨hcandidate, hkeeps⟩ := List.mem_filter.mp hx
  obtain ⟨kind, hrule, hk⟩ := hasKind_of_mem_incidentCandidates hcandidate
  rw [Frame.mem_incidentCandidates] at hcandidate
  obtain ⟨hlocal, hfound⟩ := hcandidate
  obtain ⟨hamong, hlocal'⟩ := h.locals x hlocal
  have hk' : g.model.hasKind kind x = true := h.linked.model.hasKind hamong hk
  have hfound' : x ∈ g.incidentCandidates entity := by
    refine Frame.mem_incidentCandidates.mpr ⟨hlocal', ?_⟩
    rcases hfound with hs | hr | hrelation
    · exact Or.inl (h.linked.referrer hamong hs)
    · exact Or.inr (Or.inl (h.linked.referrer hamong hr))
    · exact Or.inr (Or.inr (h.linked.relation hamong hrelation))
  refine List.mem_filter.mpr ⟨hfound', ?_⟩
  by_cases hne : kind = .specialization
  · -- A specialization at a relation entity is kept if it is included itself.
    rw [hne] at hk hk'
    rw [keepsIncident, if_pos hk] at hkeeps
    rw [keepsIncident, if_pos hk']
    exact h.isIncluded hamong hkeeps
  · rw [keepsIncident_of_other hk hne] at hkeeps
    rw [keepsIncident_of_other hk' hne]
    exact h.keeps hk hrule hamong hkeeps

/-! ### Assertions -/

theorem mem_assertionsOf (hentity : among entity) (hx : x ∈ f.assertionsOf entity) :
    x ∈ g.assertionsOf entity := by
  obtain ⟨hlocal, kind, hk, hnamed, hfound⟩ := Frame.mem_assertionsOf.mp hx
  obtain ⟨hamong, hlocal'⟩ := h.locals x hlocal
  refine Frame.mem_assertionsOf.mpr
    ⟨hlocal', kind, h.linked.model.kind? hentity hk, hnamed, ?_⟩
  rcases hfound with hvalue | hlink | ⟨hconcept, hinstance⟩
  · exact Or.inl (h.linked.belonging hamong hvalue)
  · exact Or.inr (Or.inl (h.linked.belonging hamong hlink))
  · exact Or.inr (Or.inr ⟨hconcept, h.linked.referrer hamong hinstance⟩)

/-! ### Properties -/

/-- A property that is shown is shown by some owner. -/
theorem exists_owner (hspecialization : ∀ x, f.model.hasKind .specialization x = true → among x)
    (hp : (o, p) ∈ f.attributions kind) : ∃ o', (o', p) ∈ g.attributions kind := by
  obtain ⟨c, hc, d, hd, hdomain, hlocal, -⟩ := mem_attributions.mp hp
  obtain ⟨hamong, hlocal'⟩ := h.locals p hlocal
  exact ⟨_, mem_attributions.mpr ⟨c, h.mem_shownOf hc, d, h.linked.superterms hspecialization hd,
    h.linked.referrer hamong hdomain, hlocal', rfl⟩⟩

end

/-- Owners stay, if inclusion carries over in both directions. -/
theorem mem_attributions (h : f.CarriesOver among g) (h' : g.CarriesOver among' f)
    (hspecialization : ∀ x, f.model.hasKind .specialization x = true → among x)
    (hp : (o, p) ∈ f.attributions kind) : (o, p) ∈ g.attributions kind := by
  obtain ⟨c, hc, d, hd, hdomain, hlocal, rfl⟩ := Frame.mem_attributions.mp hp
  obtain ⟨hamong, hlocal'⟩ := h.locals p hlocal
  have hdomain' : p ∈ g.linked.propertiesWithDomain kind d := h.linked.referrer hamong hdomain
  -- The domain is included in both frames or in neither.
  have hincluded : f.isIncluded d = g.isIncluded d := by
    have hd : among d := h.linked.among_target hamong hdomain
    have hd' : among' d := h'.linked.among_target (h'.locals p hlocal').1 hdomain'
    exact Bool.eq_iff_iff.mpr ⟨h.isIncluded hd, h'.isIncluded hd'⟩
  exact Frame.mem_attributions.mpr ⟨c, h.mem_shownOf hc, d,
    h.linked.superterms hspecialization hd, hdomain', hlocal', by rw [hincluded]⟩

end CarriesOver

end Frame

/-! ## Views -/

/-- What is shown in `v` is shown in `w`, on the same elements.  Only properties may be shown on
    others. -/
structure View.Within (v w : View) : Prop where
  shown : ∀ id ∈ v.shown, id ∈ w.shown
  entityAxioms : v.entityAxioms.Within w.entityAxioms
  incidentElements : v.incidentElements.Within w.incidentElements
  instanceAssertions : v.instanceAssertions.Within w.instanceAssertions
  properties : ∀ kind o, ∀ p ∈ (v.properties kind).listAt o, ∃ o', p ∈ (w.properties kind).listAt o'

namespace Frame.CarriesOver

variable {f g : Frame} {kind : PropertyKind}

section

variable (h : f.CarriesOver among g)

include h

theorem entityAxioms_within : f.drawn.entityAxioms.Within g.drawn.entityAxioms :=
  Table.within_ofList_map (fun _ => h.mem_shownOf) fun _ _ _ => h.mem_axiomsOf

theorem incidentElements_within : f.drawn.incidentElements.Within g.drawn.incidentElements :=
  Table.within_ofList_map (fun _ => h.mem_shownOf) fun _ _ _ => h.mem_incidentElementsOf

theorem instanceAssertions_within :
    f.drawn.instanceAssertions.Within g.drawn.instanceAssertions := by
  refine Table.within_ofList_map (fun _ => h.mem_shownOf) fun i hi _ => h.mem_assertionsOf ?_
  exact (h.shown i (Frame.mem_shownOf.mp hi).1).1

/-- **What carries over between frames is found again in the view.** -/
theorem within (hspecialization : ∀ x, f.model.hasKind .specialization x = true → among x)
    (hf : f.Proper) (hg : g.Proper) : f.drawn.Within g.drawn where
  shown := by
    intro id hid
    rw [hf.mem_shown_drawn] at hid
    exact hg.mem_shown_drawn.mpr (h.shown id hid).2
  entityAxioms := h.entityAxioms_within
  incidentElements := h.incidentElements_within
  instanceAssertions := h.instanceAssertions_within
  properties := by
    intro kind o p hp
    simp only [properties_drawn, mem_listAt_propertyTable] at hp ⊢
    exact h.exists_owner hspecialization hp

end

variable (h : f.CarriesOver among g) (h' : g.CarriesOver among' f)

include h h'

/-- Properties keep their owners, if frames carry over in both directions. -/
theorem propertyTable_within
    (hspecialization : ∀ x, f.model.hasKind .specialization x = true → among x)
    (hf : f.Proper) (hg : g.Proper) :
    (f.propertyTable kind).Within (g.propertyTable kind) := by
  have hlists : ∀ o, ∀ p ∈ (f.propertyTable kind).listAt o, p ∈ (g.propertyTable kind).listAt o := by
    intro o p hp
    rw [mem_listAt_propertyTable] at hp ⊢
    exact h.mem_attributions h' hspecialization hp
  refine ⟨fun o ho => ?_, hlists⟩
  rw [hf.mem_keys_propertyTable] at ho
  refine hg.mem_keys_propertyTable.mpr ?_
  rcases ho with hshown | ⟨p, hp⟩
  · exact Or.inl (h.mem_shownOf hshown)
  · exact Or.inr ⟨p, hlists o p hp⟩

/-- **Frames that carry over in both directions have the same view**, order forgotten. -/
theorem same_drawn (hspecialization : ∀ x, f.model.hasKind .specialization x = true → among x)
    (hspecialization' : ∀ x, g.model.hasKind .specialization x = true → among' x)
    (hf : f.Proper) (hg : g.Proper) : f.drawn.Same g.drawn := by
  have hshown : ∀ accept, SameMembers (f.shownOf accept) (g.shownOf accept) :=
    fun _ => ⟨fun _ => h.mem_shownOf, fun _ => h'.mem_shownOf⟩
  have hproperties : ∀ kind, (f.propertyTable kind).Same (g.propertyTable kind) := fun _ =>
    Table.same_of_within (h.propertyTable_within h' hspecialization hf hg)
      (h'.propertyTable_within h hspecialization' hg hf)
  exact
    { aspects := hshown (· = .aspect)
      concepts := hshown (· = .concept)
      scalars := hshown (· = .scalar)
      structures := hshown (· = .struct)
      relationEntities := hshown (· = .relationEntity)
      scalarProperties := hproperties .scalar
      structuredProperties := hproperties .structured
      entityAxioms := Table.same_of_within h.entityAxioms_within h'.entityAxioms_within
      incidentElements :=
        Table.same_of_within h.incidentElements_within h'.incidentElements_within
      instanceAssertions :=
        Table.same_of_within h.instanceAssertions_within h'.instanceAssertions_within
      resolved := hshown ElementKind.isClassifier }

end Frame.CarriesOver

/-! ## The same elements shown -/

namespace Frame

variable {f g : Frame} {accept : ElementKind → Bool}

/-- Frames that show the same elements list them alike, if they agree on what these are. -/
theorem shownOf_congr (hshown : g.shown = f.shown)
    (hkind : ∀ id ∈ f.shown, g.model.element? id = f.model.element? id) :
    g.shownOf accept = f.shownOf accept := by
  rw [shownOf, shownOf, hshown]
  refine List.filter_congr fun id hid => ?_
  rw [Model.satisfies, Model.satisfies, hkind id hid]

theorem Proper.shown_drawn_congr (hf : f.Proper) (hg : g.Proper) (hshown : g.shown = f.shown)
    (hkind : ∀ id ∈ f.shown, g.model.element? id = f.model.element? id) :
    g.drawn.shown = f.drawn.shown ∧ g.drawn.resolved = f.drawn.resolved := by
  have hlists : ∀ accept, g.shownOf accept = f.shownOf accept :=
    fun _ => shownOf_congr hshown hkind
  refine ⟨?_, hlists _⟩
  rw [hg.shown_drawn, hf.shown_drawn, funext hlists]

end Frame

/-! ## The same walk -/

/-- **After the same walk** two analyses fail alike, or both draw what they met. -/
theorem LinkedModel.analyze_of_met_eq {lm lm' : LinkedModel} {root : ElementId}
    (helement : lm'.model.element? root = lm.model.element? root)
    (hmet : lm'.model.met root = lm.model.met root) (locality locality' : Locality) :
    (∃ err, lm.analyze root locality = .error err ∧ lm'.analyze root locality' = .error err) ∨
    ∃ order, lm.model.met root = .ok order ∧
      lm.analyze root locality = .ok (lm.frame root locality order).drawn ∧
      lm'.analyze root locality' = .ok (lm'.frame root locality' order).drawn := by
  cases he : lm.model.element? root with
  | none => exact Or.inl ⟨_, analyze_of_unknown he, analyze_of_unknown (helement.trans he)⟩
  | some e =>
    by_cases hk : e.kind = .ontology
    · cases e with
      | ontology header =>
        rw [analyze_of_ontology he, analyze_of_ontology (helement.trans he), hmet]
        cases lm.model.met root with
        | error err => exact Or.inl ⟨err, rfl, rfl⟩
        | ok order => exact Or.inr ⟨order, rfl, rfl, rfl⟩
      | _ => nomatch hk
    · exact Or.inl ⟨_, analyze_of_other he hk, analyze_of_other (helement.trans he) hk⟩

/-! ## A model that extends another -/

/-- If all of a model carries over, so does what an analysis meets. -/
theorem Model.CarriesOver.frame {m m' : Model} (h : m.CarriesOver (fun _ => True) m')
    {root : ElementId} {order order' : List ElementId} (locality : Locality)
    (hmet : m.met root = .ok order) (hmet' : m'.met root = .ok order') :
    ((LinkedModel.ofModel m).frame root locality order).CarriesOver (fun _ => True)
      ((LinkedModel.ofModel m').frame root locality order') where
  linked := .ofModel h
  locals := fun x hx => ⟨trivial, h.mem_localElements trivial (fun _ _ => trivial) hx⟩
  shown := by
    intro x hx
    obtain ⟨hx, hs⟩ := List.mem_filter.mp hx
    obtain ⟨kind, hk, hshown⟩ := Model.satisfies_kind_iff.mp hs
    have hreached : m'.Reached root x := (((Model.mem_met_iff hmet).2 x).mp hx).carriesOver h
    refine ⟨trivial, List.mem_filter.mpr ⟨((Model.mem_met_iff hmet').2 x).mpr hreached, ?_⟩⟩
    exact Model.satisfies_kind_iff.mpr ⟨kind, h.kind? trivial hk, hshown⟩

end OntologyView

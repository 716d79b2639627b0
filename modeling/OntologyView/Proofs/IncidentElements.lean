/-
  EDGES: which elements are drawn as edges at a relation entity.

  1. **Specification** — `Model.EdgeAt`, one rule for each sort of edge.  A specialization into the
     relation entity needs its subterm, a range restriction to it needs the owner of the restricted
     relation, and a relation of another relation entity, which this one is an end of, needs that
     other one.

  2. **Program** — `Frame.incidentCandidates` asks four queries.  `Frame.retainsIncident` treats a
     specialization as an element of the view, and everything else as an axiom.

  3. **The crux** — the relations that the queries find are children of a relation entity, but
     `Frame.retains` asks who their container is.  The two agree in models that edits make
     (`Model.Linked.owningEntity?_of_relation?`).

  `LinkedModel.incidentElements_exact` says this of finished views.

  A specialization into a relation entity is drawn at the relation entity, by these rules, and as an
  axiom of its subterm, by those of entities.  If all local entities are statements, it is drawn at
  both ends or at neither (`LinkedModel.specialization_drawn_at_both_ends`).
-/
import OntologyView.Proofs.EntityAxioms
import OntologyView.Proofs.Links

namespace OntologyView

namespace Model

/-! ## The rules -/

/-- Edges at the relation entity `r` whose other end is `included`. -/
inductive EdgeAt (m : Model) (included : ElementId → Prop) (r x : ElementId) : Prop where
  | specialization {sub : ElementId} (he : m.element? x = some (.specialization (some r)))
      (hs : m.subterm? x = some sub) (hsub : included sub) : EdgeAt m included r x
  | rangeRestriction {relation owner : ElementId}
      (he : m.element? x = some (.relationRestriction (.range (some r)) (some relation)))
      (ho : m.owningEntity? relation = some owner) (howner : included owner) :
      EdgeAt m included r x
  /-- The first relation in a direction of a relation entity with `r` as its source or target. -/
  | relation {owner : ElementId} {name : String} {source target : Option ElementId}
      {direction : Direction} (he : m.element? owner = some (.relationEntity name source target))
      (hend : source = some r ∨ target = some r) (hx : m.relation? direction owner = some x)
      (howner : included owner) : EdgeAt m included r x

variable {m : Model}

/-- A specialization into a relation entity is an edge there if its subterm is included. -/
theorem edgeAt_specialization_iff {included : ElementId → Prop} {r s x : ElementId}
    (hx : m.element? x = some (.specialization (some r))) (hs : m.subterm? x = some s) :
    m.EdgeAt included r x ↔ included s := by
  constructor
  · intro hedge
    cases hedge with
    | specialization _ hs' hsub =>
      obtain rfl := Option.some.inj (hs.symm.trans hs')
      exact hsub
    | rangeRestriction he => nomatch hx.symm.trans he
    | relation _ _ hrelation =>
      obtain ⟨e, he, hk⟩ := hasKind_iff_exists.mp (LinkedModel.hasKind_of_relation? hrelation)
      obtain rfl := Option.some.inj (hx.symm.trans he)
      nomatch hk
  · exact fun hsub => .specialization hx hs hsub

/-- A relation entity owns its first relations, if the links agree. -/
theorem Linked.owningEntity?_of_relation? {owner x : ElementId} {direction : Direction}
    (hm : m.Linked) (ho : m.hasKind .relationEntity owner = true)
    (hx : m.relation? direction owner = some x) : m.owningEntity? x = some owner := by
  have hchild : x ∈ m.children owner := List.mem_of_find?_eq_some hx
  have hc : m.container? x = some owner := hm owner x hchild
  obtain ⟨e, he, hk⟩ := hasKind_iff_exists.mp (LinkedModel.hasKind_of_relation? hx)
  unfold owningEntity?
  rw [he]
  cases e with
  | relation => simp [hc, ho]
  | _ => cases hk

end Model

/-! ## What a frame keeps -/

namespace Frame

variable {f : Frame} {o r x : ElementId}

theorem keepsIncident_of_other {kind : ElementKind} (hk : f.model.hasKind kind x = true)
    (hne : kind ≠ .specialization) : f.keepsIncident x = f.keeps x := by
  have hn : ¬ f.model.hasKind .specialization x = true := by
    rw [Model.hasKind_iff] at hk ⊢
    rw [hk]
    exact fun h => hne (Option.some.inj h)
  rw [keepsIncident, if_neg hn]

theorem keepsIncident_specialization_iff
    (he : f.model.element? x = some (.specialization (some r))) (hr : f.isIncluded r = true) :
    f.keepsIncident x = true ↔
      ∃ sub, f.model.subterm? x = some sub ∧ f.isIncluded sub = true := by
  have hk : f.model.hasKind .specialization x = true := Model.hasKind_iff_exists.mpr ⟨_, he, rfl⟩
  simp only [isIncluded, Model.isIncluded_iff] at hr ⊢
  rw [keepsIncident, if_pos hk, isIncluded, Model.isIncluded_iff,
    Model.included_specialization_iff he]
  exact and_iff_right hr

theorem keepsIncident_range_iff {relation : Option ElementId}
    (he : f.model.element? x = some (.relationRestriction (.range (some r)) relation))
    (hr : f.isIncluded r = true) : f.keepsIncident x = true ↔
      ∃ owner, relation.bind f.model.owningEntity? = some owner ∧ f.isIncluded owner = true := by
  have hk : f.model.hasKind .relationRestriction x = true :=
    Model.hasKind_iff_exists.mpr ⟨_, he, rfl⟩
  rw [keepsIncident_of_other hk nofun]
  unfold keeps retains
  rw [he]
  simp only [Bool.and_eq_true, Option.any_eq_true, Option.any_some, hr, and_true]

/-- A relation is kept if the relation entity that it was found at is included. -/
theorem keepsIncident_relation_iff {direction : Direction} (hm : f.model.Linked)
    (ho : f.model.hasKind .relationEntity o = true) (hx : f.model.relation? direction o = some x) :
    f.keepsIncident x = true ↔ f.isIncluded o = true := by
  have hk : f.model.hasKind (.relation direction) x = true := LinkedModel.hasKind_of_relation? hx
  have howner : f.model.owningEntity? x = some o := hm.owningEntity?_of_relation? ho hx
  rw [keepsIncident_of_other hk nofun, keeps_relation_iff hk]
  simp [howner]

theorem mem_incidentCandidates : x ∈ f.incidentCandidates r ↔ x ∈ f.locals ∧
    (x ∈ f.linked.specializationsInto r ∨ x ∈ f.linked.rangeRestrictionsTo r ∨
      x ∈ f.linked.relationsFrom r ∨ x ∈ f.linked.relationsTo r) := by
  simp only [incidentCandidates, mem_localOnly, List.mem_append, or_assoc]
  exact and_comm

theorem nodup_incidentCandidates (f : Frame) (entity : ElementId) :
    (f.incidentCandidates entity).Nodup :=
  f.nodup_localOnly _

theorem get?_incidentElements_drawn (h : r ∈ f.drawn.relationEntities) :
    f.drawn.incidentElements.get? r =
      some ((f.incidentCandidates r).filter f.keepsIncident) := by
  have hshown : r ∈ f.shownOf (· = .relationEntity) := h
  exact Table.get?_ofList_map_of_mem _ hshown

end Frame

/-! ## What a view shows -/

namespace LinkedModel

variable {m : Model} {root : ElementId} {locality : Locality} {order : List ElementId} {v : View}
  {r s x : ElementId}

theorem mem_incidentCandidates :
    x ∈ ((ofModel m).frame root locality order).incidentCandidates r ↔
      x ∈ m.localElements root locality ∧
        (m.element? x = some (.specialization (some r)) ∨
          (∃ relation, m.element? x = some (.relationRestriction (.range (some r)) relation)) ∨
          ∃ owner name source target direction,
            m.element? owner = some (.relationEntity name source target) ∧
              (source = some r ∨ target = some r) ∧ m.relation? direction owner = some x) := by
  rw [Frame.mem_incidentCandidates, ← mem_specializationsInto, ← mem_rangeRestrictionsTo,
    ← mem_relations_iff]
  rfl

/-- What a frame keeps of the candidates follows the rules, if the links agree. -/
theorem mem_filter_incidentCandidates (hm : m.Linked)
    (hr : ((ofModel m).frame root locality order).isIncluded r = true) :
    x ∈ (((ofModel m).frame root locality order).incidentCandidates r).filter
        ((ofModel m).frame root locality order).keepsIncident ↔
      x ∈ m.localElements root locality ∧
        m.EdgeAt (fun id => ((ofModel m).frame root locality order).isIncluded id = true) r x := by
  generalize hf : (ofModel m).frame root locality order = f at hr ⊢
  obtain rfl : f.model = m := by rw [← hf]; rfl
  rw [List.mem_filter, ← hf, mem_incidentCandidates, hf]
  constructor
  · rintro ⟨⟨hlocal, he | ⟨relation, he⟩ | ⟨o, name, source, target, direction, he, hend, hx⟩⟩,
      hkeeps⟩
    · obtain ⟨sub, hs, hsub⟩ := (Frame.keepsIncident_specialization_iff he hr).mp hkeeps
      exact ⟨hlocal, .specialization he hs hsub⟩
    · obtain ⟨owner, hbind, howner⟩ := (Frame.keepsIncident_range_iff he hr).mp hkeeps
      obtain ⟨relation, rfl, ho⟩ := Option.bind_eq_some_iff.mp hbind
      exact ⟨hlocal, .rangeRestriction he ho howner⟩
    · have ho : f.model.hasKind .relationEntity o = true :=
        Model.hasKind_iff_exists.mpr ⟨_, he, rfl⟩
      have howner := (Frame.keepsIncident_relation_iff hm ho hx).mp hkeeps
      exact ⟨hlocal, .relation he hend hx howner⟩
  · rintro ⟨hlocal, hedge⟩
    cases hedge with
    | specialization he hs hsub =>
      exact ⟨⟨hlocal, Or.inl he⟩,
        (Frame.keepsIncident_specialization_iff he hr).mpr ⟨_, hs, hsub⟩⟩
    | rangeRestriction he ho howner =>
      exact ⟨⟨hlocal, Or.inr (Or.inl ⟨_, he⟩)⟩,
        (Frame.keepsIncident_range_iff he hr).mpr ⟨_, ho, howner⟩⟩
    | relation he hend hx howner =>
      have ho := Model.hasKind_iff_exists.mpr ⟨_, he, rfl⟩
      exact ⟨⟨hlocal, Or.inr (Or.inr ⟨_, _, _, _, _, he, hend, hx⟩)⟩,
        (Frame.keepsIncident_relation_iff hm ho hx).mpr howner⟩

/-- Relation entities of a view are part of it. -/
theorem includes_of_mem_relationEntities (h : (ofModel m).analyze root locality = .ok v)
    (hr : r ∈ v.relationEntities) : v.Includes m (m.localElements root locality) r := by
  have hc : r ∈ v.classifiers := by simp [View.classifiers, View.entities, hr]
  exact includes_of_mem_classifiers h hc

/-- An element is drawn at a relation entity if it is local and an edge there, if the links agree. -/
theorem mem_incidentElements_iff (hm : m.Linked)
    (h : (ofModel m).analyze root locality = .ok v) (hr : r ∈ v.relationEntities) :
    x ∈ v.incidentElements.listAt r ↔ x ∈ m.localElements root locality ∧
      m.EdgeAt (v.Includes m (m.localElements root locality)) r x := by
  have hincludes := includes_of_mem_relationEntities h hr
  obtain ⟨order, -, hproper, rfl⟩ := exists_frame h
  have hiff : (fun id => ((ofModel m).frame root locality order).isIncluded id = true) =
      ((ofModel m).frame root locality order).drawn.Includes m (m.localElements root locality) :=
    funext fun id => propext hproper.isIncluded_iff
  rw [Table.listAt, Frame.get?_incidentElements_drawn hr, Option.getD_some,
    mem_filter_incidentCandidates hm (hproper.isIncluded_iff.mpr hincludes), hiff]

/-- **The edges at a relation entity** are the local elements that the rules make edges there, each
    once, in every model that edits make.  In models with rings this is said of the runs that end
    (`gives_analyzeFor`). -/
theorem incidentElements_exact (hm : m.Edited) (h : (ofModel m).analyze root locality = .ok v)
    (hr : r ∈ v.relationEntities) :
    ∃ edges, v.incidentElements.get? r = some edges ∧ edges.Nodup ∧
      ∀ x, x ∈ edges ↔ x ∈ m.localElements root locality ∧
        m.EdgeAt (v.Includes m (m.localElements root locality)) r x := by
  have hiff := fun x => mem_incidentElements_iff (x := x) hm.linked h hr
  obtain ⟨order, -, -, rfl⟩ := exists_frame h
  have hget := Frame.get?_incidentElements_drawn hr
  refine ⟨_, hget, (Frame.nodup_incidentCandidates _ r).filter _, fun x => ?_⟩
  rw [← hiff x, Table.listAt, hget, Option.getD_some]

end LinkedModel

/-- A relation entity with edges of every sort: 3 is specialized by another relation entity, at itself
    and at a reference to it; a relation is narrowed to it; and it is both ends of a relation entity
    with relations in either direction.  The second forward relation is no edge, and neither is a
    specialization that a reference without a member owns. -/
def crowdedRelation : Model := .ofEdits [.vocabulary "http://example.com/dnd#" "dnd",
  .vocabulary "http://example.com/base#" "base", .concept 0 "Monster",
  .relationEntity 0 "Eats" (some 2) (some 2), .relationEntity 0 "Provokes" (some 3) (some 3),
  .relation 4 "provokes" .forward, .relation 4 "provokedBy" .reverse,
  .relationEntity 0 "Hunts" (some 2) (some 2), .specialize 7 (some 3),
  .relation 3 "eats" .forward, .relationRestriction 2 (.range (some 3)) (some 5),
  .relation 4 "provokesToo" .forward, .reference 0 .concept none, .specialize 12 (some 3),
  .reference 0 .relationEntity (some 7), .specialize 14 (some 3)]

theorem incidentElements_exact_crowdedRelation :
    crowdedRelation.Edited ∧
    ∃ v, (LinkedModel.ofModel crowdedRelation).analyze 0 .ownedContent = .ok v ∧
      v.incidentElements.get? 3 = some [8, 15, 10, 5, 6] ∧ 3 ∈ v.relationEntities ∧
      ∃ edges, v.incidentElements.get? 3 = some edges ∧ edges.Nodup ∧
        ∀ x, x ∈ edges ↔ x ∈ crowdedRelation.localElements 0 .ownedContent ∧
          crowdedRelation.EdgeAt (v.Includes crowdedRelation
            (crowdedRelation.localElements 0 .ownedContent)) 3 x := by
  have hm : crowdedRelation.Edited := ⟨_, rfl⟩
  have hok : ((LinkedModel.ofModel crowdedRelation).analyze 0 .ownedContent).toOption.any
      (fun v => decide (v.incidentElements.get? 3 = some [8, 15, 10, 5, 6] ∧
        3 ∈ v.relationEntities)) = true := by
    decide +kernel
  obtain ⟨v, hv, htest⟩ := exists_of_any hok
  obtain ⟨hedges, hr⟩ := of_decide_eq_true htest
  exact ⟨hm, v, hv, hedges, hr, LinkedModel.incidentElements_exact hm hv hr⟩

/-! ## Both ends of a specialization -/

/-- A local specialization belongs to its subterm, if the links agree. -/
theorem Model.Linked.belongsTo_of_subterm? {m : Model} {root x s : ElementId} {locality : Locality}
    (hm : m.Linked) (hlocal : x ∈ m.localElements root locality) (hs : m.subterm? x = some s) :
    m.BelongsTo x s := by
  obtain ⟨owner, hc, hmember⟩ := Option.bind_eq_some_iff.mp (subterm?_eq_some_iff.mp hs).2
  exact belongsTo_of_mem_children (hm.mem_children_of_local hlocal hc) hmember

namespace LinkedModel

variable {m : Model} {root : ElementId} {locality : Locality} {order : List ElementId} {v : View}
  {r s x : ElementId}

/-- A specialization is drawn as an axiom of an entity that it belongs to if its superterm is
    included. -/
theorem mem_entityAxioms_specialization_iff (h : (ofModel m).analyze root locality = .ok v)
    (hentity : s ∈ v.entities) (hx : m.element? x = some (.specialization (some r))) :
    x ∈ v.entityAxioms.listAt s ↔ x ∈ m.localElements root locality ∧ m.BelongsTo x s ∧
      v.Includes m (m.localElements root locality) r := by
  obtain ⟨order, -, hproper, rfl⟩ := exists_frame h
  have hkind : ∃ kind ∈ ElementKind.entityAxioms, m.hasKind kind x = true :=
    ⟨.specialization, by decide, Model.hasKind_iff_exists.mpr ⟨_, hx, rfl⟩⟩
  have hkeeps : ((ofModel m).frame root locality order).keeps x =
      ((ofModel m).frame root locality order).isIncluded r := by
    unfold Frame.keeps Frame.retains
    rw [show ((ofModel m).frame root locality order).model.element? x = _ from hx]
    rfl
  rw [Table.listAt, Frame.get?_entityAxioms_drawn hentity, Option.getD_some, List.mem_filter,
    mem_axiomCandidates, hkeeps, hproper.isIncluded_iff, and_iff_left hkind, and_assoc]
  rfl

/-- **A specialization is drawn at both of its ends** or at neither: at a relation entity as an
    edge, and at its subterm as an axiom.  This asks that what is local of the entities is among
    the statements.  In models with rings this is said of the runs that end (`gives_analyzeFor`). -/
theorem specialization_drawn_at_both_ends (hm : m.Edited)
    (hstatement : ∀ e ∈ m.localElements root locality, ∀ kind, m.kind? e = some kind →
      kind.isEntity = true → e ∈ m.statements root)
    (h : (ofModel m).analyze root locality = .ok v) (hr : r ∈ v.relationEntities)
    (hx : m.element? x = some (.specialization (some r))) (hs : m.subterm? x = some s)
    {kind : ElementKind} (hk : m.kind? s = some kind) (hentity : kind.isEntity = true) :
    x ∈ v.incidentElements.listAt r ↔ s ∈ v.shown ∧ x ∈ v.entityAxioms.listAt s := by
  have hclassifier : kind.isClassifier = true := ElementKind.isClassifier_of_isEntity hentity
  have hincludes := includes_of_mem_relationEntities h hr
  have hshown_iff : v.Includes m (m.localElements root locality) s ↔ s ∈ v.shown := by
    rw [View.includes_classifier_iff hk hclassifier]
    -- A local entity is a statement, and so it was met.
    refine ⟨fun hs' => hs'.elim (fun hlocal => ?_) id, Or.inr⟩
    have hc : s ∈ v.classifiers :=
      mem_classifiers_of_mem_statements h (hstatement s hlocal kind hk hentity) hk hclassifier
    exact ((mem_classifiers_iff h).mp hc).1
  have haxiom_iff (hshown : s ∈ v.shown) :
      x ∈ v.entityAxioms.listAt s ↔ x ∈ m.localElements root locality := by
    rw [mem_entityAxioms_specialization_iff h
      ((mem_entities_iff h).mpr ⟨hshown, kind, hk, hentity⟩) hx]
    exact ⟨And.left, fun hlocal =>
      ⟨hlocal, hm.linked.belongsTo_of_subterm? hlocal hs, hincludes⟩⟩
  calc x ∈ v.incidentElements.listAt r
      ↔ x ∈ m.localElements root locality ∧ v.Includes m (m.localElements root locality) s := by
        rw [mem_incidentElements_iff hm.linked h hr, Model.edgeAt_specialization_iff hx hs]
    _ ↔ s ∈ v.shown ∧ x ∈ m.localElements root locality := by rw [hshown_iff, and_comm]
    _ ↔ s ∈ v.shown ∧ x ∈ v.entityAxioms.listAt s :=
        and_congr_right fun hshown => (haxiom_iff hshown).symm

end LinkedModel

theorem specialization_drawn_at_both_ends_crowdedRelation :
    crowdedRelation.Edited ∧
    (∀ e ∈ crowdedRelation.localElements 0 .ownedContent, ∀ kind,
      crowdedRelation.kind? e = some kind → kind.isEntity = true →
        e ∈ crowdedRelation.statements 0) ∧
    ∃ v, (LinkedModel.ofModel crowdedRelation).analyze 0 .ownedContent = .ok v ∧
      3 ∈ v.relationEntities ∧ crowdedRelation.element? 15 = some (.specialization (some 3)) ∧
      crowdedRelation.subterm? 15 = some 7 ∧ 15 ∈ v.incidentElements.listAt 3 ∧
      (15 ∈ v.incidentElements.listAt 3 ↔ 7 ∈ v.shown ∧ 15 ∈ v.entityAxioms.listAt 7) := by
  have hm : crowdedRelation.Edited := ⟨_, rfl⟩
  have hstatement : ∀ e ∈ crowdedRelation.localElements 0 .ownedContent, ∀ kind,
      crowdedRelation.kind? e = some kind → kind.isEntity = true →
        e ∈ crowdedRelation.statements 0 := by
    decide +kernel
  have hx : crowdedRelation.element? 15 = some (.specialization (some 3)) := by decide +kernel
  have hs : crowdedRelation.subterm? 15 = some 7 := by decide +kernel
  have hk : crowdedRelation.kind? 7 = some .relationEntity := by decide +kernel
  have hok : ((LinkedModel.ofModel crowdedRelation).analyze 0 .ownedContent).toOption.any
      (fun v => decide (3 ∈ v.relationEntities ∧ 15 ∈ v.incidentElements.listAt 3)) = true := by
    decide +kernel
  obtain ⟨v, hv, htest⟩ := exists_of_any hok
  obtain ⟨hr, hedge⟩ := of_decide_eq_true htest
  exact ⟨hm, hstatement, v, hv, hr, hx, hs, hedge,
    LinkedModel.specialization_drawn_at_both_ends hm hstatement hv hr hx hs hk rfl⟩

end OntologyView

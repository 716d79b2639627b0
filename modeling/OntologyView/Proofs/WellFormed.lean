/-
  WELL-FORMED VIEWS: which lists and tables of a view go together.

  1. **Specification** — `View.WellFormed`: the six lists that elements are shown in are for different
     kinds and share nothing; the tables of axioms and of edges have the elements that carry them for
     keys, no more and no fewer; what was resolved is the classifiers.

  2. **Program** — `LinkedModel.analyzeFor`, which fills these lists and tables one by one, in two
     phases.  In between they do NOT go together: a classifier that waits in the queue is not resolved,
     and a relation entity among these has no edges.

  3. **The crux** — an invariant of all the drafts in between (`Draft.Consistent`).  At the end, where
     nothing waits, it says that the view is well-formed (`Draft.Resolving.wellFormed`).

     Only the tables of properties may get other keys, from properties whose owner is not shown.  Such
     an owner is a domain that is included without being shown, and so it is local, or else no
     classifier.  If all local classifiers are statements and all domains of local properties are
     classifiers, there is none (`LinkedModel.mem_classifiers_of_mem_properties`).
-/
import OntologyView.Proofs.Attribution
import OntologyView.Proofs.Guards
import OntologyView.Proofs.Worklist

namespace OntologyView

namespace View

/-- What holds of every finished view of `m`. -/
structure WellFormed (v : View) (m : Model) : Prop where
  /-- No element is shown in two places. -/
  disjoint : [v.aspects, v.concepts, v.scalars, v.structures, v.relationEntities,
    v.instances].Pairwise fun l l' => ∀ a ∈ l, ∀ b ∈ l', a ≠ b
  aspects : ∀ id ∈ v.aspects, m.kind? id = some .aspect
  concepts : ∀ id ∈ v.concepts, m.kind? id = some .concept
  scalars : ∀ id ∈ v.scalars, m.kind? id = some .scalar
  structures : ∀ id ∈ v.structures, m.kind? id = some .struct
  relationEntities : ∀ id ∈ v.relationEntities, m.kind? id = some .relationEntity
  instances : ∀ id ∈ v.instances, m.kind? id = some .conceptInstance ∨
    m.kind? id = some .relationInstance ∨ m.kind? id = some .structureInstance
  /-- Entities, and nothing else, have axioms. -/
  entityAxioms : ∀ id, id ∈ v.entityAxioms.keys ↔ id ∈ v.entities
  /-- Relation entities, and nothing else, have edges. -/
  incidentElements : ∀ id, id ∈ v.incidentElements.keys ↔ id ∈ v.relationEntities
  /-- All classifiers have properties of both kinds, if only none. -/
  properties : ∀ kind, ∀ id ∈ v.classifiers, id ∈ (v.properties kind).keys
  resolved : ∀ id, id ∈ v.resolved ↔ id ∈ v.classifiers

variable {v : View} {m : Model} {id : ElementId}

/-! ## Stages -/

theorem WellFormed.stage_eq_resolved_iff (hv : v.WellFormed m) :
    v.stage id = .resolved ↔ id ∈ v.classifiers := by
  simp only [stage, hv.resolved]
  split
  · simp [*]
  · split <;> simp [*]

theorem WellFormed.stage_eq_unseen_iff (hv : v.WellFormed m) :
    v.stage id = .unseen ↔ id ∉ v.shown := by
  simp only [stage, hv.resolved]
  split
  · rename_i hc
    simp [mem_shown_of_mem_classifiers hc]
  · simp [contains]

theorem WellFormed.stage_eq_discovered_iff (hv : v.WellFormed m) :
    v.stage id = .discovered ↔ id ∈ v.shown ∧ id ∉ v.classifiers := by
  simp only [stage, hv.resolved]
  split
  · simp [*]
  · simp [*, contains]

end View

/-! ## The draft at the end -/

/-- Lists for kinds that exclude each other share no element. -/
theorem Model.pairwise_ne_of_kinds {m : Model}
    {filed : List (List ElementId × (ElementKind → Bool))}
    (hkinds : ∀ p ∈ filed, ∀ id ∈ p.1, ∃ kind, m.kind? id = some kind ∧ p.2 kind = true)
    (hpairwise : (filed.map Prod.snd).Pairwise fun accept accept' =>
      ∀ kind, accept kind = true → accept' kind = false) :
    (filed.map Prod.fst).Pairwise fun l l' => ∀ a ∈ l, ∀ b ∈ l', a ≠ b := by
  refine List.pairwise_map.mpr ((List.pairwise_map.mp hpairwise).imp_of_mem ?_)
  intro p p' hp hp' hexclude a ha b hb
  exact ne_of_kinds hexclude (hkinds p hp a ha) (hkinds p' hp' b hb)

namespace Draft

variable {lm : LinkedModel} {d : Draft}

/-- Nothing is drawn in two places at any time. -/
theorem Consistent.disjoint (h : d.Consistent) : [d.view.aspects, d.view.concepts, d.view.scalars,
    d.view.structures, d.view.relationEntities,
    d.view.instances].Pairwise fun l l' => ∀ a ∈ l, ∀ b ∈ l', a ≠ b := by
  have hfiled : ∀ {l : List ElementId} {kind : ElementKind},
      (∀ id ∈ l, d.model.kind? id = some kind) →
        ∀ id ∈ l, ∃ kind', d.model.kind? id = some kind' ∧ decide (kind' = kind) = true :=
    fun hl id hid => ⟨_, hl id hid, decide_eq_true rfl⟩
  have hplaces : ∀ p ∈ [d.view.aspects, d.view.concepts, d.view.scalars, d.view.structures,
      d.view.relationEntities, d.view.instances].zip ElementKind.places, ∀ id ∈ p.1,
        ∃ kind, d.model.kind? id = some kind ∧ p.2 kind = true := by
    simp only [ElementKind.places, List.zip_cons_cons, List.zip_nil_left, List.forall_mem_cons,
      List.not_mem_nil, false_implies, implies_true, and_true]
    exact ⟨hfiled h.aspects, hfiled h.concepts, hfiled h.scalars, hfiled h.structures,
      hfiled h.relationEntities, h.instances⟩
  exact Model.pairwise_ne_of_kinds hplaces ElementKind.pairwise_places

/-- **With nothing left to resolve** the view of a draft is well-formed: what is queued is what is
    resolved. -/
theorem Resolving.wellFormed (h : Resolving lm [] d) : d.view.WellFormed lm.model := by
  obtain rfl := h.linked
  have hd := h.consistent
  have hresolved : ∀ id, id ∈ d.view.resolved ↔ id ∈ d.view.classifiers := by
    intro id
    rw [← hd.queue]
    exact ⟨hd.resolved id, fun hid => (h.resolved id hid).resolve_right List.not_mem_nil⟩
  exact
    { disjoint := hd.disjoint
      aspects := hd.aspects
      concepts := hd.concepts
      scalars := hd.scalars
      structures := hd.structures
      relationEntities := hd.relationEntities
      instances := by
        intro id hid
        obtain ⟨kind, hk, hinstance⟩ := hd.instances id hid
        have hk : d.linked.model.kind? id = some kind := hk
        rw [hk, Option.some.injEq, Option.some.injEq, Option.some.injEq]
        exact ElementKind.isInstance_iff.mp hinstance
      entityAxioms := hd.entityAxioms
      incidentElements := by
        intro id
        refine ⟨hd.incidentElements id, fun hid => hd.resolvedEdges id ?_ hid⟩
        refine (hresolved id).mpr (List.mem_append_left _ ?_)
        exact List.mem_append_right _ hid
      properties := hd.properties
      resolved := hresolved }

end Draft

/-! ## Finished views -/

namespace LinkedModel

variable {lm : LinkedModel} {m : Model} {root : ElementId} {locality : Locality} {v : View}
  {kind : PropertyKind} {id : ElementId}

theorem mem_keys_properties_iff (h : lm.analyze root locality = .ok v) :
    id ∈ (v.properties kind).keys ↔
      id ∈ v.classifiers ∨ ∃ p, p ∈ (v.properties kind).listAt id := by
  obtain ⟨order, -, hproper, rfl⟩ := exists_frame h
  rw [Frame.properties_drawn, hproper.mem_keys_propertyTable, Frame.mem_classifiers_drawn]

/-- Only classifiers of the view own properties, if all classifiers that could are statements. -/
theorem mem_classifiers_of_mem_properties {p : ElementId}
    (h : (ofModel m).analyze root locality = .ok v)
    (hdomain : ∀ p ∈ m.localElements root locality, ∀ kind d, m.IsPropertyOf kind p d →
      ∃ k, m.kind? d = some k ∧ k.isClassifier = true)
    (hstatement : ∀ c ∈ m.localElements root locality, ∀ k, m.kind? c = some k →
      k.isClassifier = true → c ∈ m.statements root)
    (hp : p ∈ (v.properties kind).listAt id) : id ∈ v.classifiers := by
  obtain ⟨hlocal, d, hd, c, hc, -, howner⟩ := (mem_properties_iff h).mp hp
  rcases howner with ⟨hincluded, rfl⟩ | ⟨-, rfl⟩
  · -- The domain itself is the owner: a classifier that is included, hence local or shown.
    obtain ⟨k, hk, hclassifier⟩ := hdomain p hlocal kind id hd
    rcases (View.includes_classifier_iff hk hclassifier).mp hincluded with hid | hshown
    · exact mem_classifiers_of_mem_statements h (hstatement id hid k hk hclassifier) hk hclassifier
    · exact (mem_classifiers_iff h).mpr ⟨hshown, k, hk, hclassifier⟩
  · exact hc

/-- **Finished views are well-formed**: whatever view a run ends with, in any model and with any
    references, and elements are resolved if they are classifiers.  With the references of the model,
    and no local classifier but among the statements, tables of properties have no other keys than the
    classifiers. -/
theorem wellFormed_of_analyzeFor {fuel : Nat}
    (hrun : (lm.analyzeFor fuel root locality).run = some (.ok v)) :
    v.WellFormed lm.model ∧
    (∀ id, (v.stage id = .resolved ↔ id ∈ v.classifiers) ∧
      (v.stage id = .discovered ↔ id ∈ v.shown ∧ id ∉ v.classifiers) ∧
      (v.stage id = .unseen ↔ id ∉ v.shown)) ∧
    (lm.refs = .ofModel lm.model →
      (∀ p ∈ lm.model.localElements root locality, ∀ kind d, lm.model.IsPropertyOf kind p d →
        ∃ k, lm.model.kind? d = some k ∧ k.isClassifier = true) →
      (locality = .topLevelStatements ∨ ∀ c ∈ lm.model.localElements root locality,
        ∀ k, lm.model.kind? c = some k → k.isClassifier = true → c ∈ lm.model.statements root) →
      ∀ kind id, id ∈ (v.properties kind).keys ↔ id ∈ v.classifiers) := by
  obtain ⟨d, hd, rfl⟩ := (lm.yields_analyzeFor fuel root locality).value v hrun
  have hv := hd.wellFormed
  refine ⟨hv, fun id => ⟨hv.stage_eq_resolved_iff, hv.stage_eq_discovered_iff,
    hv.stage_eq_unseen_iff⟩, ?_⟩
  intro hrefs hdomain hlocality kind id
  have h : lm.analyze root locality = .ok d.view :=
    ((lm.gives_analyzeFor root locality).only fuel _ hrun).symm
  obtain ⟨m, refs⟩ := lm
  obtain rfl : refs = .ofModel m := hrefs
  have hstatement : ∀ c ∈ m.localElements root locality, ∀ k, m.kind? c = some k →
      k.isClassifier = true → c ∈ m.statements root := by
    rcases hlocality with rfl | hstatement
    · exact fun c hc _ _ _ => hc
    · exact hstatement
  rw [mem_keys_properties_iff h]
  refine ⟨fun hid => ?_, Or.inl⟩
  rcases hid with hid | ⟨p, hp⟩
  · exact hid
  · exact mem_classifiers_of_mem_properties h hdomain hstatement hp

end LinkedModel

/-- Every kind of owner: a concept below an aspect of another document, which a property sinks from,
    a structure and a relation entity, and an instance of the concept. -/
def mixedOwners : Model := .ofEdits [.vocabulary "http://example.com/dnd#" "dnd",
  .vocabulary "http://example.com/base#" "base", .aspect 1 "Hidden", .concept 0 "Monster",
  .specialize 3 (some 2), .struct 0 "Stats", .property 0 "name" .scalar (some 2) none,
  .property 0 "stats" .structured (some 5) none, .relationEntity 0 "Eats" (some 3) none,
  .conceptInstance 0 "goblin" [3], .key 3 [6]]

theorem wellFormed_of_analyzeFor_mixedOwners :
    ∃ v, ((LinkedModel.ofModel mixedOwners).analyzeFor 10 0 .ownedContent).run = some (.ok v) ∧
      v.WellFormed mixedOwners ∧ v.stage 3 = .resolved ∧ v.stage 9 = .discovered ∧
      (∀ p ∈ mixedOwners.localElements 0 .ownedContent, ∀ kind d,
        mixedOwners.IsPropertyOf kind p d →
          ∃ k, mixedOwners.kind? d = some k ∧ k.isClassifier = true) ∧
      (∀ c ∈ mixedOwners.localElements 0 .ownedContent, ∀ k, mixedOwners.kind? c = some k →
        k.isClassifier = true → c ∈ mixedOwners.statements 0) ∧
      ∀ kind id, id ∈ (v.properties kind).keys ↔ id ∈ v.classifiers := by
  have hok : ((LinkedModel.ofModel mixedOwners).analyzeFor 10 0 .ownedContent).run.any
      (fun outcome => outcome.toOption.any fun v =>
        decide (v.stage 3 = .resolved ∧ v.stage 9 = .discovered)) = true := by
    decide +kernel
  have hdomain : ∀ p ∈ mixedOwners.localElements 0 .ownedContent, ∀ kind d,
      mixedOwners.IsPropertyOf kind p d →
        ∃ k, mixedOwners.kind? d = some k ∧ k.isClassifier = true := by
    have hdomains : ∀ p ∈ mixedOwners.localElements 0 .ownedContent, ∀ e,
        mixedOwners.element? p = some e → ∀ r ∈ e.references, r.1 = .domain →
          (mixedOwners.kind? r.2).any (·.isClassifier) = true := by
      decide +kernel
    rintro p hp kind d ⟨name, range, he⟩
    have hd := hdomains p hp _ he (.domain, d) (by simp [Element.references]) rfl
    exact (Option.any_eq_true _ _).mp hd
  have hstatement : ∀ c ∈ mixedOwners.localElements 0 .ownedContent, ∀ k,
      mixedOwners.kind? c = some k → k.isClassifier = true → c ∈ mixedOwners.statements 0 := by
    decide +kernel
  obtain ⟨outcome, hrun, houtcome⟩ := (Option.any_eq_true _ _).mp hok
  obtain ⟨v, rfl, htest⟩ := exists_of_any houtcome
  obtain ⟨hresolved, hdiscovered⟩ := of_decide_eq_true htest
  obtain ⟨hwell, -, hkeys⟩ := LinkedModel.wellFormed_of_analyzeFor hrun
  exact ⟨v, hrun, hwell, hresolved, hdiscovered, hdomain, hstatement,
    hkeys rfl hdomain (Or.inr hstatement)⟩

end OntologyView

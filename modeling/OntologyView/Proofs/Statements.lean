/-
  STATEMENTS: what is drawn if nothing else is local.

  1. **Specification** — with `Locality.topLevelStatements`, the locality that holds unless said
     otherwise, an ontology does not declare what its statements own.  So no entity shows an axiom.
     The one assertion that an instance can show is a relation instance from it, and the one edge at
     a relation entity is a range restriction, and both are statements themselves.

  2. **Program** — `Frame` takes the local ones among what its queries find.  Nothing in it says that
     an axiom was owned, and with other references the queries find other things.

  3. **The crux** — where the links of a model agree, whoever lists a statement is the ontology
     (`Model.Linked.eq_root_of_mem_children`).  But axioms and assertions are looked up among the
     children of members, of references and of relation entities, which are no ontologies.  What is
     looked up otherwise is the specializations into a relation entity.  One that is a statement has
     the ontology as its subterm, and no ontology is part of a view (`not_includes_ontology`).
-/
import OntologyView.Proofs.Failure
import OntologyView.Proofs.IncidentElements

namespace OntologyView

/-! ## Who owns a statement -/

namespace Model

variable {m : Model} {root owner x : ElementId}

/-- Whoever lists a statement is the ontology, if the links agree. -/
theorem Linked.eq_root_of_mem_children (hm : m.Linked) (hx : x ∈ m.statements root)
    (ho : x ∈ m.children owner) : owner = root := by
  have hroot : m.container? x = some root := hm root x (mem_statements_iff.mp hx).2
  exact Option.some.inj ((hm owner x ho).symm.trans hroot)

/-- Nothing but ontologies lists statements, if the links agree. -/
theorem Linked.kind?_of_mem_children (hm : m.Linked) (hx : x ∈ m.statements root)
    (ho : x ∈ m.children owner) : m.kind? owner = some .ontology := by
  rw [hm.eq_root_of_mem_children hx ho]
  exact (mem_statements_iff.mp hx).1

/-- The subterm of a specialization among the statements is an ontology. -/
theorem Linked.kind?_of_subterm? {sub : ElementId} (hm : m.Linked)
    (hx : x ∈ m.statements root) (hs : m.subterm? x = some sub) : m.kind? sub = some .ontology := by
  obtain ⟨hk, hchild⟩ := mem_statements_iff.mp hx
  have hne : m.kind? root ≠ some .reference := by
    rw [hk]
    nofun
  have hmember : m.member? root = some root :=
    member?_eq_some_iff.mpr (Or.inr ⟨rfl, lt_size_of_mem_children hchild, hne⟩)
  have hbind := (subterm?_eq_some_iff.mp hs).2
  rw [hm root x hchild, Option.bind_some, hmember] at hbind
  rw [← Option.some.inj hbind]
  exact hk

end Model

namespace LinkedModel

variable {lm : LinkedModel} {root x : ElementId} {v : View}

/-! ## What the queries miss -/

/-- No statement belongs to a member. -/
theorem not_mem_belongings {kind memberKind : ElementKind} {member : ElementId}
    (hm : lm.model.Linked) (hx : x ∈ lm.model.statements root)
    (hk : lm.model.kind? member = some memberKind) (hne : memberKind ≠ .ontology) :
    x ∉ lm.belongings kind member := by
  intro h
  obtain ⟨owner, howner, hchild⟩ := List.mem_flatMap.mp h
  have hontology : lm.model.kind? owner = some .ontology :=
    hm.kind?_of_mem_children hx (mem_ownedOfKind.mp hchild).1
  rcases List.mem_cons.mp howner with rfl | hreference
  · exact hne (Option.some.inj (hk.symm.trans hontology))
  · -- Whatever the references say, those to a member are references.
    rw [Model.hasKind_iff.mp (hasKind_of_mem_referringOfKind hreference)] at hontology
    nomatch hontology

/-- No statement is a relation at an entity. -/
theorem not_mem_relations {entity : ElementId} (hm : lm.model.Linked)
    (hx : x ∈ lm.model.statements root) :
    ¬ (x ∈ lm.relationsFrom entity ∨ x ∈ lm.relationsTo entity) := by
  intro h
  obtain ⟨owner, direction, hk, hrelation⟩ := exists_owner_of_mem_relations h
  have hontology := hm.kind?_of_mem_children hx (List.mem_of_find?_eq_some hrelation)
  rw [Model.hasKind_iff.mp hk] at hontology
  nomatch hontology

/-! ## What a view of statements includes -/

/-- No ontology is part of it. -/
theorem not_includes_ontology (h : lm.analyze root .topLevelStatements = .ok v)
    (hk : lm.model.kind? x = some .ontology) :
    ¬ v.Includes lm.model (lm.model.statements root) x := by
  obtain ⟨-, hmeetable⟩ := exists_view_iff.mp ⟨v, h⟩
  obtain ⟨e, he, hkind⟩ := Option.map_eq_some_iff.mp hk
  intro hincludes
  cases hincludes with
  | specialization he' | reference he' =>
    obtain rfl := Option.some.inj (he.symm.trans he')
    nomatch hkind
  | known _ _ _ hknown =>
    rcases Bool.or_eq_true_iff.mp hknown with hlocal | hshown
    · -- A statement is met, which fails on ontologies.
      obtain ⟨kind, hk', hne⟩ := hmeetable x (.statement (of_decide_eq_true hlocal))
      exact hne (Option.some.inj (hk'.symm.trans hk))
    · obtain ⟨-, kind, hk', hisShown⟩ := (mem_shown_iff h).mp (of_decide_eq_true hshown)
      obtain rfl := Option.some.inj (hk.symm.trans hk')
      nomatch hisShown

/-- No specialization among the statements is part of it. -/
theorem not_includes_specialization (hm : lm.model.Linked)
    (h : lm.analyze root .topLevelStatements = .ok v) (hx : x ∈ lm.model.statements root)
    (hk : lm.model.hasKind .specialization x = true) :
    ¬ v.Includes lm.model (lm.model.statements root) x := by
  obtain ⟨e, he, hkind⟩ := Model.hasKind_iff_exists.mp hk
  intro hincludes
  cases hincludes with
  | specialization _ hs _ hsub =>
    exact not_includes_ontology h (hm.kind?_of_subterm? hx hs) hsub
  | reference he' =>
    obtain rfl := Option.some.inj (he.symm.trans he')
    nomatch hkind
  | known he' hspecialization =>
    obtain rfl := Option.some.inj (he.symm.trans he')
    exact hspecialization hkind

/-! ## What a view of statements draws -/

/-- Entities show no axiom. -/
theorem entityAxioms_of_statements {e : ElementId} (hm : lm.model.Linked)
    (h : lm.analyze root .topLevelStatements = .ok v) (he : e ∈ v.entities) :
    v.entityAxioms.get? e = some [] := by
  obtain ⟨-, kind, hk, hentity⟩ := (mem_entities_iff h).mp he
  have hne : kind ≠ .ontology := by
    rintro rfl
    nomatch hentity
  obtain ⟨order, -, -, rfl⟩ := exists_frame h
  have hnone : (lm.frame root .topLevelStatements order).axiomCandidates e = [] := by
    refine List.eq_nil_iff_forall_not_mem.mpr fun x hx => ?_
    obtain ⟨hlocal, _, -, hbelongs⟩ := Frame.mem_axiomCandidates.mp hx
    exact not_mem_belongings hm hlocal hk hne hbelongs
  rw [Frame.get?_entityAxioms_drawn he, hnone]
  rfl

/-- Instances show relation instances from them, which are statements. -/
theorem instanceAssertions_of_statements {i : ElementId} (hm : lm.model.Linked)
    (h : lm.analyze root .topLevelStatements = .ok v) (hx : x ∈ v.instanceAssertions.listAt i) :
    lm.model.kind? i = some .conceptInstance ∧ lm.model.kind? x = some .relationInstance ∧
      x ∈ lm.model.statements root := by
  obtain ⟨order, -, -, rfl⟩ := exists_frame h
  obtain ⟨-, hx⟩ := Table.mem_listAt_ofList_map.mp hx
  obtain ⟨hlocal, kind, hk, hnamed, hfound⟩ := Frame.mem_assertionsOf.mp hx
  have hne : kind ≠ .ontology := by
    rintro rfl
    nomatch hnamed
  rcases hfound with hvalue | hlink | ⟨rfl, hinstance⟩
  · exact absurd hvalue (not_mem_belongings hm hlocal hk hne)
  · exact absurd hlink (not_mem_belongings hm hlocal hk hne)
  · exact ⟨hk, Model.hasKind_iff.mp (hasKind_of_mem_referringOfKind hinstance), hlocal⟩

/-- The edges at relation entities are range restrictions, which are statements. -/
theorem incidentElements_of_statements {r : ElementId} (hm : lm.model.Linked)
    (h : lm.analyze root .topLevelStatements = .ok v) (hx : x ∈ v.incidentElements.listAt r) :
    (∃ narrowed relation,
      lm.model.element? x = some (.relationRestriction (.range narrowed) relation)) ∧
      x ∈ lm.model.statements root := by
  obtain ⟨order, -, hproper, rfl⟩ := exists_frame h
  obtain ⟨-, hx⟩ := Table.mem_listAt_ofList_map.mp hx
  obtain ⟨hcandidate, hkeeps⟩ := List.mem_filter.mp hx
  obtain ⟨hlocal, hinto | hrange | hrelation⟩ := Frame.mem_incidentCandidates.mp hcandidate
  · have hk : lm.model.hasKind .specialization x = true := hasKind_of_mem_referringOfKind hinto
    have hincluded : (lm.frame root .topLevelStatements order).isIncluded x = true :=
      (if_pos hk).symm.trans hkeeps
    exact absurd (hproper.isIncluded_iff.mp hincluded) (not_includes_specialization hm h hlocal hk)
  · exact ⟨element?_of_mem_rangeRestrictionsTo hrange, hlocal⟩
  · exact absurd hrelation (not_mem_relations hm hlocal)

/-- **Nothing owned is drawn on its owner** if statements alone are local.  Whatever references
    were recorded, an entity shows no axiom, an instance at most relation instances from it, and a
    relation entity at most range restrictions; and all of these are statements of the ontology.
    In models with rings this is said of the runs that end (`gives_analyzeFor`). -/
theorem nothing_owned_is_drawn (hm : lm.model.Edited)
    (h : lm.analyze root .topLevelStatements = .ok v) :
    (∀ e ∈ v.entities, v.entityAxioms.get? e = some []) ∧
    (∀ i, ∀ x ∈ v.instanceAssertions.listAt i, lm.model.kind? i = some .conceptInstance ∧
      lm.model.kind? x = some .relationInstance ∧ x ∈ lm.model.statements root) ∧
    ∀ r, ∀ x ∈ v.incidentElements.listAt r,
      (∃ narrowed relation,
        lm.model.element? x = some (.relationRestriction (.range narrowed) relation)) ∧
        x ∈ lm.model.statements root :=
  ⟨fun _ => entityAxioms_of_statements hm.linked h,
    fun _ _ => instanceAssertions_of_statements hm.linked h,
    fun _ _ => incidentElements_of_statements hm.linked h⟩

end LinkedModel

/-- Two concepts and a relation entity between them, one concept with a key and a specialization of
    its own, an instance with a value of its own, and as statements a specialization, a range
    restriction and a relation instance.  The specialization and the restriction lead to the relation
    entity. -/
def looseStatements : Model := .ofEdits [.vocabulary "http://example.com/dnd#" "dnd",
  .concept 0 "Monster", .property 0 "name" .scalar (some 1) none, .key 1 [2],
  .relationEntity 0 "Eats" (some 1) (some 1), .relation 4 "eats" .forward, .specialize 1 (some 4),
  .specialize 0 (some 4), .relationRestriction 0 (.range (some 4)) (some 5),
  .conceptInstance 0 "owlbear" [1], .propertyValue 9 (some 2),
  .relationInstance 0 "meal" [9] [9], .link 11 (some 5) (some 9)]

theorem nothing_owned_is_drawn_looseStatements :
    looseStatements.Edited ∧
    ∃ v, (LinkedModel.ofModel looseStatements).analyze 0 .topLevelStatements = .ok v ∧
      v.entities = [1, 4] ∧ v.instanceAssertions.listAt 9 = [11] ∧
      v.incidentElements.listAt 4 = [8] ∧
      (∀ e ∈ v.entities, v.entityAxioms.get? e = some []) ∧
      11 ∈ looseStatements.statements 0 ∧ 8 ∈ looseStatements.statements 0 := by
  have hm : looseStatements.Edited := ⟨_, rfl⟩
  have hok : ((LinkedModel.ofModel looseStatements).analyze 0 .topLevelStatements).toOption.any
      (fun v => decide (v.entities = [1, 4] ∧ v.instanceAssertions.listAt 9 = [11] ∧
        v.incidentElements.listAt 4 = [8])) = true := by
    decide +kernel
  obtain ⟨v, hv, htest⟩ := exists_of_any hok
  obtain ⟨hentities, hassertions, hedges⟩ := of_decide_eq_true htest
  obtain ⟨haxioms, hinstances, hincident⟩ := LinkedModel.nothing_owned_is_drawn hm hv
  exact ⟨hm, v, hv, hentities, hassertions, hedges, haxioms,
    (hinstances 9 11 (by simp [hassertions])).2.2, (hincident 4 8 (by simp [hedges])).2⟩

end OntologyView

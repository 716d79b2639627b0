/-
  ASSERTIONS: which assertions an instance shows.

  1. **Specification** — `Model.Asserts`, one rule for each sort of assertion.  An instance shows the
     local ones, in the order of their sorts (`Model.Arranged`).

  2. **Program** — `Frame.assertionsOf` puts three queries behind one another, each with a look-up
     path of its own, keeps what is local, and drops repetitions.

  3. **The crux** — who declares an assertion does not matter, only whether it is local.  So an
     instance may be shown with a part of its assertions: those that a reference to it adds, say,
     without those that its own document makes.

  `LinkedModel.instanceAssertions_exact` says this of finished views.
-/
import OntologyView.Model.Edit
import OntologyView.Proofs.EntityAxioms

namespace OntologyView

/-! ## The rules -/

namespace Model

/-- The assertions of an instance: values and links that belong to an instance with a name, and
    relation instances that have a concept instance among their sources. -/
inductive Asserts (m : Model) (i x : ElementId) : Prop where
  | value {kind : ElementKind} (hi : m.kind? i = some kind) (hnamed : kind.isNamedInstance = true)
      (hbelongs : m.BelongsTo x i) (hx : m.kind? x = some .propertyValue) : Asserts m i x
  | link {kind : ElementKind} (hi : m.kind? i = some kind) (hnamed : kind.isNamedInstance = true)
      (hbelongs : m.BelongsTo x i) (hx : m.kind? x = some .link) : Asserts m i x
  | source {name : String} {types sources targets : List ElementId}
      (hi : m.kind? i = some .conceptInstance)
      (hx : m.element? x = some (.relationInstance name types sources targets))
      (hsource : i ∈ sources) : Asserts m i x

variable {m : Model} {i x : ElementId}

/-- The rules, put the way in which the queries look assertions up. -/
theorem asserts_iff : m.Asserts i x ↔ ∃ kind, m.kind? i = some kind ∧ kind.isNamedInstance = true ∧
    (m.BelongsTo x i ∧ m.kind? x = some .propertyValue ∨ m.BelongsTo x i ∧ m.kind? x = some .link ∨
      kind = .conceptInstance ∧ ∃ name types sources targets,
        m.element? x = some (.relationInstance name types sources targets) ∧ i ∈ sources) := by
  constructor
  · intro h
    cases h with
    | value hi hnamed hbelongs hx => exact ⟨_, hi, hnamed, Or.inl ⟨hbelongs, hx⟩⟩
    | link hi hnamed hbelongs hx => exact ⟨_, hi, hnamed, Or.inr (Or.inl ⟨hbelongs, hx⟩)⟩
    | source hi hx hsource => exact ⟨_, hi, rfl, Or.inr (Or.inr ⟨rfl, _, _, _, _, hx, hsource⟩)⟩
  · rintro ⟨kind, hi, hnamed, ⟨hbelongs, hx⟩ | ⟨hbelongs, hx⟩ | ⟨rfl, _, _, _, _, hx, hsource⟩⟩
    · exact .value hi hnamed hbelongs hx
    · exact .link hi hnamed hbelongs hx
    · exact .source hi hx hsource

/-- A structure instance asserts nothing. -/
theorem not_asserts_of_structureInstance (hi : m.kind? i = some .structureInstance) :
    ¬ m.Asserts i x := by
  intro h
  obtain ⟨kind, hkind, hnamed, -⟩ := asserts_iff.mp h
  obtain rfl := Option.some.inj (hkind.symm.trans hi)
  nomatch hnamed

end Model

/-! ## What a frame draws -/

theorem LinkedModel.hasKind_of_mem_propertyValuesOf {lm : LinkedModel} {i x : ElementId}
    (h : x ∈ lm.propertyValuesOf i) : lm.model.hasKind .propertyValue x = true := by
  unfold propertyValuesOf at h
  split at h
  · exact hasKind_of_mem_belongings h
  · exact (mem_ownedOfKind.mp h).2

namespace Frame

variable {f : Frame} {i : ElementId}

theorem nodup_assertionsOf (f : Frame) (i : ElementId) : (f.assertionsOf i).Nodup := by
  unfold assertionsOf
  split
  · exact f.nodup_localOnly _
  · exact f.nodup_localOnly _
  · exact List.nodup_nil

theorem arranged_assertionsOf (f : Frame) (i : ElementId) :
    f.model.Arranged [.propertyValue, .link, .relationInstance] (f.assertionsOf i) := by
  have hall : f.model.Arranged [.propertyValue, .link, .relationInstance]
      (f.linked.propertyValuesOf i ++ f.linked.linksOf i ++ f.linked.relationInstancesFrom i) :=
    ⟨_, _, List.append_assoc .., fun _ => LinkedModel.hasKind_of_mem_propertyValuesOf,
      _, _, rfl, fun _ => LinkedModel.hasKind_of_mem_belongings,
      _, [], (List.append_nil _).symm, fun _ => LinkedModel.hasKind_of_mem_referringOfKind, rfl⟩
  -- Whatever the kind of the instance, it shows some of these in their order.
  unfold assertionsOf
  split
  · exact hall.sublist (f.localOnly_sublist _)
  · exact hall.sublist ((f.localOnly_sublist _).trans (List.sublist_append_left _ _))
  · exact hall.sublist (List.nil_sublist _)

theorem Proper.get?_instanceAssertions_drawn (hf : f.Proper) (h : i ∈ f.drawn.instances) :
    f.drawn.instanceAssertions.get? i = some (f.assertionsOf i) := by
  rw [hf.instances_drawn] at h
  exact Table.get?_ofList_map_of_mem _ h

end Frame

/-! ## What a view shows -/

namespace LinkedModel

variable {m : Model} {root : ElementId} {locality : Locality} {order : List ElementId} {v : View}
  {i x : ElementId}

theorem mem_assertionsOf : x ∈ ((ofModel m).frame root locality order).assertionsOf i ↔
    x ∈ m.localElements root locality ∧ m.Asserts i x := by
  rw [Frame.mem_assertionsOf, Model.asserts_iff]
  show x ∈ m.localElements root locality ∧ (∃ kind, m.kind? i = some kind ∧ _ ∧
    (x ∈ (ofModel m).belongings .propertyValue i ∨ x ∈ (ofModel m).belongings .link i ∨
      _ ∧ x ∈ (ofModel m).relationInstancesFrom i)) ↔ _
  simp only [mem_belongings, mem_relationInstancesFrom, Model.hasKind_iff]

/-- **The assertions of an instance** are the local ones among those that the rules give it, each
    once, and in the order of values, links and relation instances.  Every instance of a view is of
    one of three kinds, and one of the third kind has no assertions.  In models with rings this is
    said of the runs that end (`gives_analyzeFor`). -/
theorem instanceAssertions_exact (h : (ofModel m).analyze root locality = .ok v)
    (hi : i ∈ v.instances) :
    ∃ assertions, v.instanceAssertions.get? i = some assertions ∧ assertions.Nodup ∧
      m.Arranged [.propertyValue, .link, .relationInstance] assertions ∧
      (∀ x, x ∈ assertions ↔ x ∈ m.localElements root locality ∧ m.Asserts i x) ∧
      (m.kind? i = some .conceptInstance ∨ m.kind? i = some .relationInstance ∨
        m.kind? i = some .structureInstance ∧ assertions = []) := by
  obtain ⟨order, -, hproper, rfl⟩ := exists_frame h
  refine ⟨_, hproper.get?_instanceAssertions_drawn hi, Frame.nodup_assertionsOf _ i,
    Frame.arranged_assertionsOf _ i, fun _ => mem_assertionsOf, ?_⟩
  rw [hproper.instances_drawn] at hi
  obtain ⟨-, kind, hk, hinstance⟩ := Frame.mem_shownOf.mp hi
  have hk : m.kind? i = some kind := hk
  rcases ElementKind.isInstance_iff.mp hinstance with rfl | rfl | rfl
  · exact Or.inl hk
  · exact Or.inr (Or.inl hk)
  · refine Or.inr (Or.inr ⟨hk, List.eq_nil_iff_forall_not_mem.mpr fun x hx => ?_⟩)
    exact Model.not_asserts_of_structureInstance hk (mem_assertionsOf.mp hx).2

end LinkedModel

/-- An instance of one document that another one refers to, with assertions in both.  The second
    document also has a relation instance from it, with a value, and a structure instance with
    one. -/
def sharedGoblin : Model := .ofEdits [.description "http://example.com/world#" "world",
  .conceptInstance 0 "goblin" [], .propertyValue 1 none,
  .description "http://example.com/game#" "game", .reference 3 .conceptInstance (some 1),
  .link 4 none (some 1), .propertyValue 4 none, .relationInstance 3 "feud" [1, 1] [1],
  .propertyValue 7 none, .relationInstance 0 "oldFeud" [1] [1], .structureInstance 3 none,
  .propertyValue 10 none]

theorem instanceAssertions_exact_sharedGoblin :
    ∃ v, (LinkedModel.ofModel sharedGoblin).analyze 3 .ownedContent = .ok v ∧
      v.instances = [1, 7, 10] ∧ v.instanceAssertions.get? 1 = some [6, 5, 7] ∧
      v.instanceAssertions.get? 10 = some [] ∧
      (∀ x, x ∈ [6, 5, 7] ↔
        x ∈ sharedGoblin.localElements 3 .ownedContent ∧ sharedGoblin.Asserts 1 x) ∧
      ∀ x ∈ sharedGoblin.localElements 3 .ownedContent, ¬ sharedGoblin.Asserts 10 x := by
  have hok : ((LinkedModel.ofModel sharedGoblin).analyze 3 .ownedContent).toOption.any
      (fun v => decide (v.instances = [1, 7, 10] ∧
        v.instanceAssertions.get? 1 = some [6, 5, 7] ∧ v.instanceAssertions.get? 10 = some [])) =
      true := by
    decide +kernel
  obtain ⟨v, hv, htest⟩ := exists_of_any hok
  obtain ⟨hinstances, hgoblin, hstructure⟩ := of_decide_eq_true htest
  obtain ⟨assertions, hget, -, -, hmem, -⟩ :=
    LinkedModel.instanceAssertions_exact hv (i := 1) (by simp [hinstances])
  obtain rfl := Option.some.inj (hget.symm.trans hgoblin)
  obtain ⟨none, hget, -, -, hnone, -⟩ :=
    LinkedModel.instanceAssertions_exact hv (i := 10) (by simp [hinstances])
  obtain rfl := Option.some.inj (hget.symm.trans hstructure)
  exact ⟨v, hv, hinstances, hgoblin, hstructure, hmem,
    fun x hlocal hx => List.not_mem_nil ((hnone x).mpr ⟨hlocal, hx⟩)⟩

end OntologyView

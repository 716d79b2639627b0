/-
  ANALYSIS, READ BACK FROM THE VIEW.

  An analysis hands a frame to resolution: the linked model, what is local, and what discovery found
  to be shown.  The view that comes out shows just that again (`Frame.Proper.mem_shown_drawn`), so
  inclusion can be asked of the finished view (`View.Includes`) instead of the frame, and the answer
  is the one that resolution went by (`Frame.Proper.isIncluded_iff`).

  `LinkedModel.analyze_eq_ok_iff` says when there is a view and which one it is.  Proofs about
  finished views start from `LinkedModel.exists_frame`.
-/
import OntologyView.Proofs.Discovery
import OntologyView.Proofs.Resolution

namespace OntologyView

/-- A specialization is included if both of its terms are. -/
theorem Model.included_specialization_iff {m : Model} {known : ElementId → Bool}
    {x super : ElementId} (he : m.element? x = some (.specialization (some super))) :
    m.Included known x ↔ m.Included known super ∧
      ∃ sub, m.subterm? x = some sub ∧ m.Included known sub := by
  rw [← Model.isIncluded_iff, Model.isIncluded_specialization he, Bool.and_eq_true,
    Option.any_eq_true, Option.any_eq_true]
  simp [Model.isIncluded_iff]

/-! ## Finished views -/

namespace View

/-- The aspects, concepts and relation entities that are shown. -/
def entities (v : View) : List ElementId :=
  v.aspects ++ v.concepts ++ v.relationEntities

/-- The entities and structures that are shown. -/
def classifiers (v : View) : List ElementId :=
  v.entities ++ v.structures

/-- Whether an element is part of a view of `m` in which `locals` are the local elements. -/
def Includes (v : View) (m : Model) (locals : List ElementId) (id : ElementId) : Prop :=
  m.Included (fun k => k ∈ locals || v.contains k) id

variable {v : View} {m : Model} {locals : List ElementId}

/-- An unknown id and a reference that leads nowhere are no part of a view. -/
theorem not_includes_of_dangling {id : ElementId} (hn : m.member? id = none) :
    ¬ v.Includes m locals id := by
  intro h
  unfold Model.member? at hn
  cases h with
  | specialization he | reference he =>
    rw [he] at hn
    nomatch hn
  | @known _ e he _ hreference =>
    rw [he] at hn
    cases e with
    | reference => exact hreference rfl
    | _ => cases hn

/-- A reference is part of a view if its member is. -/
theorem includes_reference_iff {r member : ElementId} {kind : ReferenceKind}
    (he : m.element? r = some (.reference kind (some member))) :
    v.Includes m locals r ↔ v.Includes m locals member := by
  rw [Includes, Includes, ← Model.isIncluded_iff, ← Model.isIncluded_iff,
    Model.isIncluded_reference he, Option.any_some]

/-- A classifier stands for itself: it is part of a view if it is local or shown. -/
theorem includes_classifier_iff {id : ElementId} {kind : ElementKind} (hk : m.kind? id = some kind)
    (hclassifier : kind.isClassifier = true) :
    v.Includes m locals id ↔ id ∈ locals ∨ id ∈ v.shown := by
  obtain ⟨e, he, rfl⟩ := Option.map_eq_some_iff.mp hk
  have hknown : (decide (id ∈ locals) || v.contains id) = true ↔ id ∈ locals ∨ id ∈ v.shown := by
    simp [contains]
  rw [← hknown]
  constructor
  · intro h
    cases h with
    | known _ _ _ h => exact h
    | specialization he' | reference he' =>
      obtain rfl := Option.some.inj (he.symm.trans he')
      nomatch hclassifier
  · -- Of the two kinds that stand for others neither is a kind of classifiers.
    refine fun h => .known he (fun hkind => ?_) (fun hkind => ?_) h
    all_goals
      rw [hkind] at hclassifier
      nomatch hclassifier

end View

/-! ## What discovery hands over -/

/-- The kinds of elements that have a place in diagrams. -/
def ElementKind.shown : List ElementKind :=
  [.aspect, .concept, .relationEntity, .struct, .scalar, .conceptInstance, .relationInstance,
    .structureInstance]

theorem ElementKind.isShown_iff {kind : ElementKind} : kind.isShown = true ↔ kind ∈ shown := by
  cases kind <;> simp [isShown, isClassifier, isEntity, isInstance, isNamedInstance, shown]

/-- Which kinds each list of `View.shown` is for. -/
def ElementKind.places : List (ElementKind → Bool) :=
  [(· = .aspect), (· = .concept), (· = .scalar), (· = .struct), (· = .relationEntity), isInstance]

theorem ElementKind.isShown_iff_places {kind : ElementKind} :
    kind.isShown = true ↔ ∃ accept ∈ places, accept kind = true := by
  cases kind <;> simp [isShown, isClassifier, isEntity, isInstance, isNamedInstance, places]

/-- No kind has two places. -/
theorem ElementKind.pairwise_places :
    places.Pairwise fun accept accept' => ∀ kind, accept kind = true → accept' kind = false := by
  simp [places, isInstance, isNamedInstance]

/-- Classifiers are entities and structures. -/
theorem ElementKind.isClassifier_iff {kind : ElementKind} :
    kind.isClassifier = true ↔ kind.isEntity = true ∨ kind = .struct := by
  cases kind <;> simp [isClassifier, isEntity]

theorem ElementKind.isInstance_iff {kind : ElementKind} : kind.isInstance = true ↔
    kind = .conceptInstance ∨ kind = .relationInstance ∨ kind = .structureInstance := by
  cases kind <;> simp [isInstance, isNamedInstance]

/-- Elements of kinds that exclude each other are different elements. -/
theorem Model.ne_of_kinds {m : Model} {accept accept' : ElementKind → Bool}
    (h : ∀ kind, accept kind = true → accept' kind = false) {a b : ElementId}
    (ha : ∃ kind, m.kind? a = some kind ∧ accept kind = true)
    (hb : ∃ kind, m.kind? b = some kind ∧ accept' kind = true) : a ≠ b := by
  rintro rfl
  obtain ⟨kind, hk, hacc⟩ := ha
  obtain ⟨kind', hk', hacc'⟩ := hb
  obtain rfl : kind = kind' := Option.some.inj (hk.symm.trans hk')
  rw [h kind hacc] at hacc'
  nomatch hacc'

namespace Frame

/-- What holds of the frames that discovery hands over: all that is shown is of a shown kind, and is
    listed once. -/
structure Proper (f : Frame) : Prop where
  nodup : f.shown.Nodup
  isShown : ∀ id ∈ f.shown, f.model.satisfies (fun e => e.kind.isShown) id = true

variable {f : Frame} {id : ElementId} {accept accept' : ElementKind → Bool}

theorem mem_shownOf : id ∈ f.shownOf accept ↔
    id ∈ f.shown ∧ ∃ kind, f.model.kind? id = some kind ∧ accept kind = true := by
  rw [shownOf, List.mem_filter, Model.satisfies_kind_iff]

theorem mem_shownOf_of_kind {kind : ElementKind} (hid : id ∈ f.shown)
    (hk : f.model.kind? id = some kind) : id ∈ f.shownOf accept ↔ accept kind = true := by
  rw [mem_shownOf, and_iff_right hid, hk]
  simp

theorem Proper.nodup_shownOf (hf : f.Proper) : (f.shownOf accept).Nodup :=
  hf.nodup.filter _

theorem Proper.nodup_flatMap_shownOf (hf : f.Proper) {accepts : List (ElementKind → Bool)}
    (h : accepts.Pairwise fun accept accept' => ∀ kind, accept kind = true → accept' kind = false) :
    (accepts.flatMap f.shownOf).Nodup := by
  induction accepts with
  | nil => exact List.nodup_nil
  | cons accept rest ih =>
    obtain ⟨hfirst, hrest⟩ := List.pairwise_cons.mp h
    refine List.nodup_append.mpr ⟨hf.nodup_shownOf, ih hrest, fun a ha b hb => ?_⟩
    obtain ⟨accept', hmem, hb⟩ := List.mem_flatMap.mp hb
    exact Model.ne_of_kinds (hfirst accept' hmem) (mem_shownOf.mp ha).2 (mem_shownOf.mp hb).2

/-! ## The view shows what the frame shows -/

theorem Proper.instances_drawn (hf : f.Proper) :
    f.drawn.instances = f.shownOf ElementKind.isInstance :=
  Table.keys_ofList_map _ hf.nodup_shownOf

theorem Proper.shown_drawn (hf : f.Proper) :
    f.drawn.shown = ElementKind.places.flatMap f.shownOf := by
  rw [View.shown, hf.instances_drawn]
  simp [drawn, ElementKind.places, List.append_assoc]

/-- Nothing is shown twice. -/
theorem Proper.nodup_shown_drawn (hf : f.Proper) : f.drawn.shown.Nodup := by
  rw [hf.shown_drawn]
  exact hf.nodup_flatMap_shownOf ElementKind.pairwise_places

/-- A view shows what the frame shows, if all that is of a shown kind. -/
theorem mem_shown_drawn
    (h : ∀ id ∈ f.shown, f.model.satisfies (fun e => e.kind.isShown) id = true) :
    id ∈ f.drawn.shown ↔ id ∈ f.shown := by
  have hinstances : id ∈ f.drawn.instances ↔ id ∈ f.shownOf ElementKind.isInstance := by
    rw [View.instances, ← Table.isSome_get?, drawn, Table.get?_ofList_map]
    by_cases hid : id ∈ f.shownOf ElementKind.isInstance <;> simp [hid]
  have hplaces : id ∈ f.drawn.shown ↔ ∃ accept ∈ ElementKind.places, id ∈ f.shownOf accept := by
    simp only [View.shown, List.mem_append, hinstances]
    simp [drawn, ElementKind.places, or_assoc]
  rw [hplaces]
  constructor
  · rintro ⟨accept, -, h⟩
    exact (mem_shownOf.mp h).1
  · intro hid
    obtain ⟨kind, hk, hshown⟩ := Model.satisfies_kind_iff.mp (h id hid)
    obtain ⟨accept, hmem, hacc⟩ := ElementKind.isShown_iff_places.mp hshown
    exact ⟨accept, hmem, mem_shownOf.mpr ⟨hid, kind, hk, hacc⟩⟩

theorem Proper.mem_shown_drawn (hf : f.Proper) : id ∈ f.drawn.shown ↔ id ∈ f.shown :=
  Frame.mem_shown_drawn hf.isShown

theorem mem_entities_drawn : id ∈ f.drawn.entities ↔ id ∈ f.shownOf ElementKind.isEntity := by
  -- The lists of a view come in the order of its fields, the kinds in that of `isEntity`.
  have hkind : ∀ kind : ElementKind, kind.isEntity = true ↔
      (kind = .aspect ∨ kind = .concept) ∨ kind = .relationEntity := by
    intro kind
    cases kind <;> simp [ElementKind.isEntity]
  simp only [View.entities, drawn, List.mem_append, mem_shownOf, decide_eq_true_eq, hkind]
  grind

theorem mem_classifiers_drawn :
    id ∈ f.drawn.classifiers ↔ id ∈ f.shownOf ElementKind.isClassifier := by
  rw [View.classifiers, List.mem_append, mem_entities_drawn]
  simp only [drawn, mem_shownOf, decide_eq_true_eq, ElementKind.isClassifier_iff]
  grind

/-- **Inclusion in the view** is what resolution went by. -/
theorem Proper.isIncluded_iff (hf : f.Proper) :
    f.isIncluded id = true ↔ f.drawn.Includes f.model f.locals id := by
  have hknown : (fun k => f.isLocal k || k ∈ f.shown) =
      fun k => decide (k ∈ f.locals) || f.drawn.contains k := by
    funext k
    simp [isLocal, View.contains, hf.mem_shown_drawn]
  rw [isIncluded, hknown, Model.isIncluded_iff, View.Includes]

end Frame

/-! ## The analysis -/

theorem exists_of_any {outcome : Except ViewError View} {test : View → Bool}
    (h : outcome.toOption.any test = true) : ∃ v, outcome = .ok v ∧ test v = true := by
  cases outcome with
  | ok v => exact ⟨v, rfl, h⟩
  | error err => nomatch h

namespace LinkedModel

variable {lm : LinkedModel} {root : ElementId} {locality : Locality} {order : List ElementId}

/-- The frame that an analysis resolves after meeting the elements in `order`. -/
def frame (lm : LinkedModel) (root : ElementId) (locality : Locality) (order : List ElementId) :
    Frame where
  linked := lm
  locals := lm.model.localElements root locality
  shown := order.filter (lm.model.satisfies fun e => e.kind.isShown)

theorem proper_frame (h : lm.model.met root = .ok order) : (lm.frame root locality order).Proper where
  nodup := (Model.mem_met_iff h).1.filter _
  isShown := fun _ hid => (List.mem_filter.mp hid).2

theorem analyze_of_unknown (he : lm.model.element? root = none) :
    lm.analyze root locality = .error (.unknownElement root) := by
  unfold analyze
  rw [he]

theorem analyze_of_other {e : Element} (he : lm.model.element? root = some e)
    (hk : e.kind ≠ .ontology) :
    lm.analyze root locality = .error (.notAnOntology root e.kind) := by
  unfold analyze
  rw [he]
  cases e with
  | ontology header => exact absurd rfl hk
  | _ => rfl

/-- Resolution cannot fail: an analysis of an ontology fails where the walk does. -/
theorem analyze_of_ontology {header : Ontology}
    (he : lm.model.element? root = some (.ontology header)) :
    lm.analyze root locality =
      (lm.model.met root).map fun order => (lm.frame root locality order).drawn := by
  have hview : ∀ shown, Frame.view ⟨lm, lm.model.localElements root locality, shown⟩ =
      .ok (Frame.drawn ⟨lm, lm.model.localElements root locality, shown⟩) := fun _ => Frame.view_eq _
  unfold analyze
  rw [he, Model.discover]
  simp only [hview]
  cases lm.model.met root <;> rfl

/-- **There is a view** if the root is an ontology and everything in reach of it can be met. -/
theorem analyze_eq_ok_iff {v : View} : lm.analyze root locality = .ok v ↔
    (∃ header, lm.model.element? root = some (.ontology header)) ∧
      ∃ order, lm.model.met root = .ok order ∧ v = (lm.frame root locality order).drawn := by
  cases he : lm.model.element? root with
  | none => simp [analyze_of_unknown he]
  | some e =>
    by_cases hk : e.kind = .ontology
    · cases e with
      | ontology header =>
        rw [analyze_of_ontology he]
        cases lm.model.met root <;> simp [Except.map, eq_comm]
      | _ => nomatch hk
    · -- The root is an element, but no ontology.
      rw [analyze_of_other he hk]
      simp only [reduceCtorEq, false_iff]
      rintro ⟨⟨header, he'⟩, -⟩
      obtain rfl := Option.some.inj he'
      exact hk rfl

/-- Every view is what is drawn in a proper frame. -/
theorem exists_frame {v : View} (h : lm.analyze root locality = .ok v) :
    ∃ order, lm.model.met root = .ok order ∧ (lm.frame root locality order).Proper ∧
      v = (lm.frame root locality order).drawn := by
  obtain ⟨-, order, hmet, hv⟩ := analyze_eq_ok_iff.mp h
  exact ⟨order, hmet, proper_frame hmet, hv⟩

/-! ## What finished views show -/

section Finished

variable {v : View} {id c : ElementId}

/-- A view shows what is in reach and of a shown kind. -/
theorem mem_shown_iff (h : lm.analyze root locality = .ok v) : id ∈ v.shown ↔
    lm.model.Reached root id ∧ ∃ kind, lm.model.kind? id = some kind ∧ kind.isShown = true := by
  obtain ⟨order, hmet, hproper, rfl⟩ := exists_frame h
  rw [hproper.mem_shown_drawn, ← (Model.mem_met_iff hmet).2, ← Model.satisfies_kind_iff]
  exact List.mem_filter

/-- The entities of a view are the shown elements of their kinds. -/
theorem mem_entities_iff (h : lm.analyze root locality = .ok v) : c ∈ v.entities ↔
    c ∈ v.shown ∧ ∃ kind, lm.model.kind? c = some kind ∧ kind.isEntity = true := by
  obtain ⟨order, -, hproper, rfl⟩ := exists_frame h
  rw [Frame.mem_entities_drawn, Frame.mem_shownOf, hproper.mem_shown_drawn]
  rfl

/-- The classifiers of a view are the shown elements of their kinds. -/
theorem mem_classifiers_iff (h : lm.analyze root locality = .ok v) : c ∈ v.classifiers ↔
    c ∈ v.shown ∧ ∃ kind, lm.model.kind? c = some kind ∧ kind.isClassifier = true := by
  obtain ⟨order, -, hproper, rfl⟩ := exists_frame h
  rw [Frame.mem_classifiers_drawn, Frame.mem_shownOf, hproper.mem_shown_drawn]
  rfl

/-- A classifier among the statements is a classifier of the view. -/
theorem mem_classifiers_of_mem_statements {kind : ElementKind}
    (h : lm.analyze root locality = .ok v) (hs : c ∈ lm.model.statements root)
    (hk : lm.model.kind? c = some kind) (hclassifier : kind.isClassifier = true) :
    c ∈ v.classifiers := by
  have hshown : kind.isShown = true := by simp [ElementKind.isShown, hclassifier]
  exact (mem_classifiers_iff h).mpr
    ⟨(mem_shown_iff h).mpr ⟨.statement hs, kind, hk, hshown⟩, kind, hk, hclassifier⟩

/-- Classifiers of a view are part of it. -/
theorem includes_of_mem_classifiers (h : lm.analyze root locality = .ok v)
    (hc : c ∈ v.classifiers) :
    v.Includes lm.model (lm.model.localElements root locality) c := by
  obtain ⟨hshown, kind, hk, hclassifier⟩ := (mem_classifiers_iff h).mp hc
  exact (View.includes_classifier_iff hk hclassifier).mpr (Or.inr hshown)

end Finished

end LinkedModel

end OntologyView

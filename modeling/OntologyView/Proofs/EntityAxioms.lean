/-
  AXIOMS: which axioms an entity shows.

  1. **Specification** — `Model.Upheld`, one rule for each sort of axiom: a key needs all of its
     properties, and every other axiom needs what it refers to, all of it.  An entity shows the local
     axioms that belong to it and are upheld, in the order of their kinds (`Model.Arranged`).

  2. **Program** — `Frame.axiomCandidates` collects the local axioms of the four kinds, and
     `Frame.retains` keeps some of them.

  3. **The crux** — candidates are looked up in the model alone, and inclusion is the same for the
     finished view as it was for the frame.  So nothing in the answer hangs on when it was asked.

  `LinkedModel.entityAxioms_upheld` says this of finished views.
-/
import OntologyView.Model.Edit
import OntologyView.Proofs.Analysis

namespace OntologyView

/-! ## The rules -/

namespace Model

/-- Axioms all of whose referents are `included`. -/
inductive Upheld (m : Model) (included : ElementId → Prop) (x : ElementId) : Prop where
  | key {properties : List ElementId} (he : m.element? x = some (.key properties))
      (hproperties : ∀ p ∈ properties, included p) : Upheld m included x
  | specialization {super : ElementId} (he : m.element? x = some (.specialization (some super)))
      (hsuper : included super) : Upheld m included x
  | propertyRestriction {propertyKind : PropertyKind} {kind : PropertyRestrictionKind}
      {property : ElementId} {range : Option ElementId}
      (he : m.element? x = some (.propertyRestriction propertyKind kind (some property) range))
      (hproperty : included property) : Upheld m included x
  | cardinality {relation entity : ElementId}
      (he : m.element? x = some (.relationRestriction .cardinality (some relation)))
      (howner : m.owningEntity? relation = some entity) (hentity : included entity) :
      Upheld m included x
  | range {relation entity narrowed : ElementId}
      (he : m.element? x = some (.relationRestriction (.range (some narrowed)) (some relation)))
      (howner : m.owningEntity? relation = some entity) (hentity : included entity)
      (hrange : included narrowed) : Upheld m included x
  | target {relation entity given : ElementId}
      (he : m.element? x = some (.relationRestriction (.target (some given)) (some relation)))
      (howner : m.owningEntity? relation = some entity) (hentity : included entity)
      (htarget : included given) : Upheld m included x

/-- The list goes through elements of some kinds, kind by kind. -/
def Arranged (m : Model) : List ElementKind → List ElementId → Prop
  | [], l => l = []
  | kind :: kinds, l => ∃ first rest, l = first ++ rest ∧
      (∀ x ∈ first, m.hasKind kind x = true) ∧ m.Arranged kinds rest

variable {m : Model} {kinds : List ElementKind}

theorem arranged_flatMap {part : ElementKind → List ElementId}
    (h : ∀ kind, ∀ x ∈ part kind, m.hasKind kind x = true) :
    m.Arranged kinds (kinds.flatMap part) := by
  induction kinds with
  | nil => rfl
  | cons kind kinds ih => exact ⟨part kind, kinds.flatMap part, rfl, h kind, ih⟩

/-- Leaving elements out keeps the order. -/
theorem Arranged.sublist {l l' : List ElementId} (h : m.Arranged kinds l) (hl : l'.Sublist l) :
    m.Arranged kinds l' := by
  induction kinds generalizing l l' with
  | nil =>
    obtain rfl : l = [] := h
    exact List.sublist_nil.mp hl
  | cons kind kinds ih =>
    obtain ⟨first, rest, rfl, hfirst, hrest⟩ := h
    -- A part of `first ++ rest` is a part of `first`, and after it a part of `rest`.
    obtain ⟨first', rest', rfl, hsub, hsub'⟩ := List.sublist_append_iff.mp hl
    exact ⟨first', rest', rfl, fun x hx => hfirst x (hsub.subset hx), ih hrest hsub'⟩

end Model

/-! ## What a frame keeps -/

namespace Frame

variable {f : Frame} {x entity : ElementId}

/-- What a frame keeps of the axioms of entities is upheld. -/
theorem upheld_of_keeps {kind : ElementKind} (hk : f.model.hasKind kind x = true)
    (hkind : kind ∈ ElementKind.entityAxioms) (hkeeps : f.keeps x = true) :
    f.model.Upheld (fun id => f.isIncluded id = true) x := by
  obtain ⟨e, he, rfl⟩ := Model.hasKind_iff_exists.mp hk
  unfold keeps retains at hkeeps
  rw [he] at hkeeps
  cases e with
  | key properties => exact .key he (List.all_eq_true.mp hkeeps)
  | specialization super =>
    obtain ⟨super, rfl, hsuper⟩ := (Option.any_eq_true _ _).mp hkeeps
    exact .specialization he hsuper
  | propertyRestriction propertyKind kind property range =>
    obtain ⟨property, rfl, hproperty⟩ := (Option.any_eq_true _ _).mp hkeeps
    exact .propertyRestriction he hproperty
  | relationRestriction demand relation =>
    obtain ⟨howner, hdemand⟩ := Bool.and_eq_true_iff.mp hkeeps
    obtain ⟨entity, howner, hentity⟩ := (Option.any_eq_true _ _).mp howner
    obtain ⟨relation, rfl, howner⟩ := Option.bind_eq_some_iff.mp howner
    -- All three demands need the owner of the relation; two of them need a referent besides.
    cases demand with
    | cardinality => exact .cardinality he howner hentity
    | range narrowed =>
      obtain ⟨narrowed, rfl, hrange⟩ := (Option.any_eq_true _ _).mp hdemand
      exact .range he howner hentity hrange
    | target given =>
      obtain ⟨given, rfl, htarget⟩ := (Option.any_eq_true _ _).mp hdemand
      exact .target he howner hentity htarget
  | _ => simp [Element.kind, ElementKind.entityAxioms] at hkind

/-- What is upheld is kept. -/
theorem keeps_of_upheld (h : f.model.Upheld (fun id => f.isIncluded id = true) x) :
    f.keeps x = true := by
  unfold keeps retains
  cases h with
  | key he hproperties =>
    rw [he]
    exact List.all_eq_true.mpr hproperties
  | specialization he hsuper =>
    rw [he]
    exact hsuper
  | propertyRestriction he hproperty =>
    rw [he]
    exact hproperty
  | cardinality he howner hentity => simp [he, howner, hentity]
  | range he howner hentity hrange => simp [he, howner, hentity, hrange]
  | target he howner hentity htarget => simp [he, howner, hentity, htarget]

theorem hasKind_of_upheld {m : Model} {included : ElementId → Prop} (h : m.Upheld included x) :
    ∃ kind ∈ ElementKind.entityAxioms, m.hasKind kind x = true := by
  have hkind : ∀ e : Element, m.element? x = some e → e.kind ∈ ElementKind.entityAxioms →
      ∃ kind ∈ ElementKind.entityAxioms, m.hasKind kind x = true :=
    fun e he hmem => ⟨e.kind, hmem, Model.hasKind_iff_exists.mpr ⟨e, he, rfl⟩⟩
  cases h with
  | key he | specialization he | propertyRestriction he | cardinality he | range he | target he =>
    exact hkind _ he (by simp [Element.kind, ElementKind.entityAxioms])

/-! ## What a frame draws -/

theorem axiomCandidates_eq (f : Frame) (entity : ElementId) : f.axiomCandidates entity =
    f.localOnly (ElementKind.entityAxioms.flatMap fun kind => f.linked.belongings kind entity) := by
  simp [axiomCandidates, ElementKind.entityAxioms, LinkedModel.keysOf,
    LinkedModel.specializationsOf, LinkedModel.propertyRestrictionsOf,
    LinkedModel.relationRestrictionsOf]

theorem mem_axiomCandidates : x ∈ f.axiomCandidates entity ↔ x ∈ f.locals ∧
    ∃ kind ∈ ElementKind.entityAxioms, x ∈ f.linked.belongings kind entity := by
  rw [axiomCandidates_eq, mem_localOnly, List.mem_flatMap, and_comm]

theorem nodup_axiomCandidates (f : Frame) (entity : ElementId) :
    (f.axiomCandidates entity).Nodup :=
  f.nodup_localOnly _

theorem arranged_axiomCandidates (f : Frame) (entity : ElementId) :
    f.model.Arranged ElementKind.entityAxioms (f.axiomCandidates entity) := by
  have hall : f.model.Arranged ElementKind.entityAxioms
      (ElementKind.entityAxioms.flatMap fun kind => f.linked.belongings kind entity) :=
    Model.arranged_flatMap fun _ _ => LinkedModel.hasKind_of_mem_belongings
  rw [axiomCandidates_eq]
  exact hall.sublist (f.localOnly_sublist _)

theorem get?_entityAxioms_drawn (h : entity ∈ f.drawn.entities) :
    f.drawn.entityAxioms.get? entity = some ((f.axiomCandidates entity).filter f.keeps) := by
  rw [mem_entities_drawn] at h
  exact Table.get?_ofList_map_of_mem _ h

end Frame

/-! ## What a view shows -/

namespace LinkedModel

variable {m : Model} {root : ElementId} {locality : Locality} {order : List ElementId} {v : View}
  {e x : ElementId}

theorem mem_axiomCandidates : x ∈ ((ofModel m).frame root locality order).axiomCandidates e ↔
    x ∈ m.localElements root locality ∧ m.BelongsTo x e ∧
      ∃ kind ∈ ElementKind.entityAxioms, m.hasKind kind x = true := by
  rw [Frame.mem_axiomCandidates]
  refine and_congr_right fun _ => ?_
  constructor
  · rintro ⟨kind, hkind, hx⟩
    obtain ⟨hbelongs, hk⟩ := mem_belongings.mp hx
    exact ⟨hbelongs, kind, hkind, hk⟩
  · rintro ⟨hbelongs, kind, hkind, hk⟩
    exact ⟨kind, hkind, mem_belongings.mpr ⟨hbelongs, hk⟩⟩

/-- **The axioms of an entity** are those local ones that belong to it and are upheld by what the
    view includes, each once, and in the order of their kinds.  What leads nowhere is not included,
    and a reference is if its member is.  In models with rings this is said of the runs that end
    (`gives_analyzeFor`). -/
theorem entityAxioms_upheld (h : (ofModel m).analyze root locality = .ok v)
    (he : e ∈ v.entities) :
    ∃ axioms, v.entityAxioms.get? e = some axioms ∧ axioms.Nodup ∧
      m.Arranged [.key, .specialization, .propertyRestriction, .relationRestriction] axioms ∧
      (∀ x, x ∈ axioms ↔ x ∈ m.localElements root locality ∧ m.BelongsTo x e ∧
        m.Upheld (v.Includes m (m.localElements root locality)) x) ∧
      (∀ id, m.member? id = none → ¬ v.Includes m (m.localElements root locality) id) ∧
      ∀ r kind member, m.element? r = some (.reference kind (some member)) →
        (v.Includes m (m.localElements root locality) r ↔
          v.Includes m (m.localElements root locality) member) := by
  obtain ⟨order, -, hproper, rfl⟩ := exists_frame h
  have hincludes : (fun id => ((ofModel m).frame root locality order).isIncluded id = true) =
      ((ofModel m).frame root locality order).drawn.Includes m (m.localElements root locality) :=
    funext fun id => propext hproper.isIncluded_iff
  -- Filtering the candidates keeps them distinct and in order; it remains to say which are kept.
  refine ⟨_, Frame.get?_entityAxioms_drawn he, (Frame.nodup_axiomCandidates _ e).filter _,
    (Frame.arranged_axiomCandidates _ e).sublist List.filter_sublist, fun x => ?_, ?_, ?_⟩
  · rw [List.mem_filter, mem_axiomCandidates, ← hincludes]
    constructor
    · rintro ⟨⟨hlocal, hbelongs, kind, hkind, hk⟩, hkeeps⟩
      have hupheld :=
        Frame.upheld_of_keeps (f := (ofModel m).frame root locality order) hk hkind hkeeps
      exact ⟨hlocal, hbelongs, hupheld⟩
    · rintro ⟨hlocal, hbelongs, hupheld⟩
      exact ⟨⟨hlocal, hbelongs, Frame.hasKind_of_upheld hupheld⟩, Frame.keeps_of_upheld hupheld⟩
  · exact fun id => View.not_includes_of_dangling
  · exact fun r kind member => View.includes_reference_iff

end LinkedModel

/-- A concept and a reference to it with axioms of all four kinds on them.  The specialization
    leads to another document, one key to no element, and one restriction nowhere. -/
def axiomsOnReference : Model := .ofEdits [.vocabulary "http://example.com/dnd#" "dnd",
  .vocabulary "http://example.com/base#" "base", .aspect 1 "Hidden", .concept 0 "Monster",
  .property 0 "name" .scalar (some 3) none, .reference 0 .concept (some 3),
  .specialize 3 (some 2), .key 3 [4, 99], .key 5 [4],
  .relationEntity 0 "Eats" (some 3) (some 3), .relation 9 "eats" .forward,
  .relationRestriction 3 .cardinality (some 10),
  .relationRestriction 5 (.target none) (some 10),
  .propertyRestriction 3 .scalar .range (some 4) none]

theorem entityAxioms_upheld_axiomsOnReference :
    ∃ v, (LinkedModel.ofModel axiomsOnReference).analyze 0 .ownedContent = .ok v ∧
      v.entityAxioms.get? 3 = some [8, 13, 11] ∧ 3 ∈ v.entities ∧
      ∃ axioms, v.entityAxioms.get? 3 = some axioms ∧ axioms.Nodup ∧
        ∀ x, x ∈ axioms ↔ x ∈ axiomsOnReference.localElements 0 .ownedContent ∧
          axiomsOnReference.BelongsTo x 3 ∧ axiomsOnReference.Upheld
            (v.Includes axiomsOnReference (axiomsOnReference.localElements 0 .ownedContent)) x := by
  have hok : ((LinkedModel.ofModel axiomsOnReference).analyze 0 .ownedContent).toOption.any
      (fun v => decide (v.entityAxioms.get? 3 = some [8, 13, 11] ∧ 3 ∈ v.entities)) = true := by
    decide +kernel
  obtain ⟨v, hv, htest⟩ := exists_of_any hok
  obtain ⟨haxioms, he⟩ := of_decide_eq_true htest
  obtain ⟨axioms, hget, hnodup, -, hmem, -⟩ := LinkedModel.entityAxioms_upheld hv he
  exact ⟨v, hv, haxioms, he, axioms, hget, hnodup, hmem⟩

end OntologyView

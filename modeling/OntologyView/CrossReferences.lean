/-
  CROSS REFERENCES, looked up from either end.

  A reference goes from a source, in a role, to a target.  Elements list the references that they
  hold; `CrossReferences` keeps them by target as well, so that the referrers of an element are found
  without a scan of the model.

  The same reference may be recorded twice and counts once.  Every look-up answers in the order in
  which things were first recorded.  For the references of a model (`ofModel`) that is the order of
  the ids of the referrers.
-/
import OntologyView.Model
import OntologyView.Ordered.Table

namespace OntologyView

/-- One reference: `source` refers to `target` in a role. -/
structure CrossReference where
  source : ElementId
  role : Role
  target : ElementId
deriving DecidableEq, Repr

/-- A reference seen from its target. -/
structure Referrer where
  source : ElementId
  role : Role
deriving DecidableEq, Repr

/-- References by target and by source. -/
structure CrossReferences where
  /-- Who refers to an element, and in which role. -/
  byTarget : Table ElementId (List Referrer)
  /-- What an element refers to, roles forgotten. -/
  bySource : Table ElementId (List ElementId)
deriving DecidableEq, Repr

/-- The references that a model holds, in order of the referring elements. -/
def Model.crossReferences (m : Model) : List CrossReference :=
  m.ids.flatMap fun id =>
    ((m.element? id).elim [] Element.references).map fun r => ⟨id, r.1, r.2⟩

theorem Model.mem_crossReferences {m : Model} {s t : ElementId} {role : Role} :
    ⟨s, role, t⟩ ∈ m.crossReferences ↔ ∃ e, m.element? s = some e ∧ (role, t) ∈ e.references := by
  simp only [crossReferences, List.mem_flatMap, mem_ids, List.mem_map, CrossReference.mk.injEq]
  constructor
  · rintro ⟨id, _, ⟨r, t'⟩, hr, rfl, rfl, rfl⟩
    cases he : m.element? id with
    | none => simp [he] at hr
    | some e => exact ⟨e, rfl, by simpa [he] using hr⟩
  · rintro ⟨e, he, hr⟩
    exact ⟨s, lt_size_of_element? he, (role, t), by simpa [he] using hr, rfl, rfl, rfl⟩

namespace CrossReferences

/-! ## Recording -/

/-- No references. -/
def empty : CrossReferences := ⟨.empty, .empty⟩

/-- One more reference. -/
def add (x : CrossReferences) (r : CrossReference) : CrossReferences where
  byTarget := x.byTarget.addTo r.target ⟨r.source, r.role⟩
  bySource := x.bySource.addTo r.source r.target

/-- Several more references, in order. -/
def addAll (x : CrossReferences) (refs : List CrossReference) : CrossReferences :=
  refs.foldl add x

/-- The references of a model. -/
def ofModel (m : Model) : CrossReferences :=
  empty.addAll m.crossReferences

/-! ## Looking up -/

/-- Who refers to a target, and in which role. -/
def referrers (x : CrossReferences) (target : ElementId) : List Referrer :=
  x.byTarget.listAt target

/-- The elements that refer to a target, each once. -/
def sources (x : CrossReferences) (target : ElementId) : List ElementId :=
  ((x.referrers target).map Referrer.source).eraseDups

/-- The elements that refer to a target in a role. -/
def sourcesInRole (x : CrossReferences) (role : Role) (target : ElementId) : List ElementId :=
  ((x.referrers target).filter fun r => r.role = role).map Referrer.source

/-- The elements that a source refers to, each once. -/
def targets (x : CrossReferences) (source : ElementId) : List ElementId :=
  x.bySource.listAt source

/-- Whether anything refers to a target. -/
def isReferenced (x : CrossReferences) (target : ElementId) : Bool :=
  !(x.referrers target).isEmpty

/-- The number of elements that are referred to. -/
def targetCount (x : CrossReferences) : Nat :=
  x.byTarget.keys.length

/-- The number of references. -/
def referenceCount (x : CrossReferences) : Nat :=
  x.byTarget.values.flatten.length

/-! ## One more reference, look-up by look-up -/

theorem referrers_add (x : CrossReferences) (r : CrossReference) (t : ElementId) :
    (x.add r).referrers t =
      if t = r.target then addNew (x.referrers t) ⟨r.source, r.role⟩ else x.referrers t := by
  rw [referrers, add, Table.listAt_addTo]
  split
  · rename_i h
    rw [h]
    rfl
  · rfl

theorem targets_add (x : CrossReferences) (r : CrossReference) (s : ElementId) :
    (x.add r).targets s =
      if s = r.source then addNew (x.targets s) r.target else x.targets s := by
  rw [targets, add, Table.listAt_addTo]
  split
  · rename_i h
    rw [h]
    rfl
  · rfl

theorem mem_sourcesInRole {x : CrossReferences} {role : Role} {t s : ElementId} :
    s ∈ x.sourcesInRole role t ↔ ⟨s, role⟩ ∈ x.referrers t := by
  simp only [sourcesInRole, List.mem_map, List.mem_filter, decide_eq_true_eq]
  constructor
  · rintro ⟨⟨_, _⟩, ⟨h, rfl⟩, rfl⟩
    exact h
  · exact fun h => ⟨⟨s, role⟩, ⟨h, rfl⟩, rfl⟩

/-! ## Many references -/

theorem mem_referrers_addAll {x : CrossReferences} {refs : List CrossReference} {s t : ElementId}
    {role : Role} : ⟨s, role⟩ ∈ (x.addAll refs).referrers t ↔
      ⟨s, role⟩ ∈ x.referrers t ∨ ⟨s, role, t⟩ ∈ refs := by
  unfold addAll
  induction refs generalizing x with
  | nil => simp
  | cons r rest ih =>
    rw [List.foldl_cons, ih, referrers_add, List.mem_cons]
    by_cases h : t = r.target
    · subst h
      rw [if_pos rfl, mem_addNew, or_assoc]
      refine or_congr_right (or_congr_left ⟨fun e => ?_, fun e => by rw [← e]⟩)
      rw [Referrer.mk.injEq] at e
      rw [e.1, e.2]
    · have hne : (⟨s, role, t⟩ : CrossReference) ≠ r := fun e => h (e ▸ rfl)
      simp [h, hne]

/-- The references of a model are found from their targets. -/
theorem mem_referrers_ofModel {m : Model} {s t : ElementId} {role : Role} :
    ⟨s, role⟩ ∈ (ofModel m).referrers t ↔
      ∃ e, m.element? s = some e ∧ (role, t) ∈ e.references := by
  rw [ofModel, mem_referrers_addAll, Model.mem_crossReferences]
  exact or_iff_right List.not_mem_nil

/-! ## Running the definitions -/

example : (empty.addAll [⟨1, .domain, 0⟩, ⟨1, .range, 0⟩, ⟨1, .domain, 0⟩]).sources 0 = [1] := by
  decide
example : (empty.addAll [⟨1, .domain, 0⟩, ⟨1, .range, 0⟩]).referenceCount = 2 := by decide

end CrossReferences

end OntologyView

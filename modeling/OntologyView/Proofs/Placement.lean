/-
  PLACEMENT: elements that are put where there is a place.

  1. **Specification** — the models of edits that place every element in a container that is there
     (`Model.Placed`).  What the elements refer to may still be missing, or come later.

  2. **The crux** — a container that is there is older than what is put in it.  One edit keeps this
     (`OwnersFirst.apply`), and so does a list of edits (`Placed.ownersFirst`).  Hence none of the
     links up is left out when edits list children (`Model.Edited.children_eq`): the links agree in
     both directions (`Model.Interlinked`), and children come in the order of their ids.

  `Model.Linked` is the direction that holds wherever the elements were placed.
-/
import OntologyView.Proofs.Links

namespace OntologyView

/-- The container that an edit puts an element in. -/
def Edit.container? : Edit → Option ElementId
  | .add container _ => some container
  | .ontology .. | .importing .. | .setRange .. => none

namespace Model

/-! ## Models whose elements were placed -/

/-- Edits of `m` that place no element before its container is there. -/
def Places (m : Model) : List Edit → Prop
  | [] => True
  | edit :: rest => (∀ c ∈ edit.container?, c < m.size) ∧ (m.apply edit).Places rest

instance decidablePlaces (m : Model) : (edits : List Edit) → Decidable (m.Places edits)
  | [] => .isTrue trivial
  | edit :: rest =>
    have := decidablePlaces (m.apply edit) rest
    inferInstanceAs (Decidable (_ ∧ _))

/-- Models that a list of edits makes, each element in a container that was there before it. -/
def Placed (m : Model) : Prop :=
  ∃ edits, empty.Places edits ∧ m = .ofEdits edits

/-- The links up and down agree, and children come in the order of their ids. -/
structure Interlinked (m : Model) : Prop where
  mem_children_iff : ∀ owner child, child ∈ m.children owner ↔ m.container? child = some owner
  ascending : ∀ owner, (m.children owner).Pairwise (· < ·)

variable {m : Model} {owner child id : ElementId}

theorem Interlinked.linked (h : m.Interlinked) : m.Linked :=
  fun owner child => (h.mem_children_iff owner child).mp

/-- Every element is younger than its container. -/
def OwnersFirst (m : Model) : Prop :=
  ∀ id owner, m.container? id = some owner → owner < id

/-! ## Owners come first -/

/-- **An edit that finds the container** puts the new element in an older one. -/
theorem OwnersFirst.apply (h : m.OwnersFirst) {edit : Edit}
    (hedit : ∀ c ∈ edit.container?, c < m.size) : (m.apply edit).OwnersFirst := by
  intro id owner hc
  obtain ⟨node', hn, hcontainer⟩ := Option.bind_eq_some_iff.mp hc
  obtain ⟨node, hkeeps, hnode⟩ := exists_keeps_of_apply hn
  rw [hkeeps.container] at hcontainer
  rcases hnode with hold | ⟨rfl, hnew⟩
  · exact h id owner (Option.bind_eq_some_iff.mpr ⟨node, hold, hcontainer⟩)
  · refine hedit owner ?_
    cases edit with
    | ontology kind ns nsPrefix =>
      obtain rfl := Option.some.inj hnew
      nomatch hcontainer
    | add container element =>
      obtain rfl := Option.some.inj hnew
      exact hcontainer
    | importing | setRange => nomatch hnew

theorem Placed.ownersFirst (h : m.Placed) : m.OwnersFirst := by
  obtain ⟨edits, hedits, rfl⟩ := h
  have hrun : ∀ {m : Model}, m.OwnersFirst → m.Places edits →
      (edits.foldl Model.apply m).OwnersFirst := by
    clear hedits
    induction edits with
    | nil => exact fun hm _ => hm
    | cons edit rest ih => exact fun hm hedits => ih (hm.apply hedits.1) hedits.2
  exact hrun (fun id owner hc => by simp [container?, node?, empty] at hc) hedits

/-! ## The links agree -/

theorem Placed.edited (h : m.Placed) : m.Edited := by
  obtain ⟨edits, -, rfl⟩ := h
  exact ⟨edits, rfl⟩

/-- **In models whose elements were placed the links agree in both directions.** -/
theorem Placed.interlinked (h : m.Placed) : m.Interlinked where
  mem_children_iff := by
    intro owner child
    rw [h.edited.mem_children_iff]
    exact and_iff_left_of_imp fun hc => Nat.le_of_lt (h.ownersFirst child owner hc)
  ascending := by
    intro owner
    rw [h.edited.children_eq]
    exact ascending_owned m owner

end Model

end OntologyView

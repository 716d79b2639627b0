/-
  DETACHMENT: elements that are given a container which is not there.

  1. **Specification** — such an element should stand apart: nobody lists it, and nothing contains it.

  2. **Program** — an edit writes the link up before it looks for the container, and looks for it when
     the new node is in place.  An unknown id is not refused, and it may be handed out later.

  3. **The crux** — so what becomes of the element hangs on when its container is handed out
     (`Model.Edited.detached_iff`):
     * never: it stands apart;
     * later: it lies in the container, and in all that this lies in, but nobody lists it;
     * at once, to the element itself: it lists itself, lies in itself, and the walk up from it ends
       nowhere else.
-/
import OntologyView.Proofs.Containment

namespace OntologyView

namespace Model

variable {m : Model} {id a owner container : ElementId} {fuel : Nat}

/-- An element lies in what is there if and only if its container is there. -/
theorem exists_liesIn_iff (hc : m.container? id = some container) :
    (∃ a, a < m.size ∧ m.LiesIn id a) ↔ container < m.size := by
  constructor
  · rintro ⟨a, ha, hin⟩
    rcases (liesIn_iff_of_container? hc).mp hin with rfl | hin
    · exact ha
    · exact hin.lt_size
  · exact fun hlt => ⟨container, hlt, (liesIn_iff_of_container? hc).mpr (Or.inl rfl)⟩

/-- A walk up through a container that is not there ends after one link, and finds nothing. -/
theorem isContainedInFor_of_unknown (hc : m.container? id = some container)
    (hunknown : m.size ≤ container) (ha : a < m.size) (hfuel : 2 ≤ fuel) :
    m.isContainedInFor a fuel id = some false := by
  obtain ⟨fuel, rfl⟩ : ∃ n, fuel = n + 2 := ⟨fuel - 2, by omega⟩
  have hne : container ≠ a := fun h => Nat.not_lt_of_le hunknown (h ▸ ha)
  have hnone : m.container? container = none := Option.eq_none_iff_forall_ne_some.mpr fun _ h =>
    Nat.not_lt_of_le hunknown (lt_size_of_container? h)
  rw [isContainedInFor_of_container? hc, if_neg hne, isContainedInFor_of_container?_none hnone]

/-- **What becomes of an element whose container is not there**, after whatever edits come later.
    Nobody lists it, unless it was given its own id and lists itself.  It lies in nothing that is
    there, and the walk up from it ends and says so, exactly as long as the id of its container was
    not handed out.  With its own id the walk to anything else never ends.  And an element is its own
    container exactly if it was given its own id, which no edit refuses. -/
theorem Edited.detached_iff (hm : m.Edited) (hunknown : m.size ≤ container) {element : Element}
    {later : List Edit} {after : Model}
    (hafter : after = (Edit.add container element :: later).foldl apply m) :
    (∀ owner, m.size ∈ after.children owner ↔ owner = m.size ∧ container = m.size) ∧
    ((∃ a, a < after.size ∧ after.LiesIn m.size a) ↔ container < after.size) ∧
    ((∀ a < after.size, ∀ fuel, 2 ≤ fuel →
      after.isContainedInFor a fuel m.size = some false) ↔ after.size ≤ container) ∧
    (container = m.size → ∀ a, m.size ≠ a → ∀ fuel,
      after.isContainedInFor a fuel m.size = none) ∧
    (∀ id, after.container? id = some id ↔ m.container? id = some id ∨
      ∃ earlier given rest, Edit.add container element :: later = earlier ++ .add id given :: rest ∧
        (earlier.foldl apply m).size = id) := by
  have hc : after.container? m.size = some container := by
    rw [hafter]
    exact container?_foldl_apply_eq_some_iff.mpr (Or.inr ⟨[], element, later, rfl, rfl⟩)
  have hedited : after.Edited := hafter ▸ hm.foldl_apply _
  refine ⟨fun owner => ?_, exists_liesIn_iff hc, ⟨fun h => ?_, ?_⟩, ?_, fun id => ?_⟩
  · rw [hedited.mem_children_iff, hc, Option.some.injEq]
    constructor
    · rintro ⟨rfl, hle⟩
      have heq : container = m.size := Nat.le_antisymm hle hunknown
      exact ⟨heq, heq⟩
    · rintro ⟨rfl, rfl⟩
      exact ⟨rfl, Nat.le_refl _⟩
  · -- Were the container there, the walk to it would find it.
    refine Nat.le_of_not_lt fun hlt => ?_
    have hfound := h container hlt 2 (Nat.le_refl 2)
    rw [isContainedInFor_of_container? hc, if_pos rfl] at hfound
    nomatch hfound
  · exact fun hle a ha fuel hfuel => isContainedInFor_of_unknown hc hle ha hfuel
  · rintro rfl a ha fuel
    exact isContainedInFor_of_own_container hc ha fuel
  · rw [hafter]
    exact container?_foldl_apply_eq_some_iff

end Model

/-- An aspect that is given its own id as its container, and one that is given the id of an ontology
    which comes after it. -/
def looseElements : List Edit := [.vocabulary "http://example.com/dnd#" "dnd", .aspect 1 "Own",
  .aspect 3 "Early", .vocabulary "http://example.com/late#" "late"]

theorem detached_iff_looseElements :
    (Model.ofEdits (looseElements.take 2)).Edited ∧
    (Model.ofEdits (looseElements.take 2)).size ≤ 3 ∧
    (∀ owner, 2 ∉ (Model.ofEdits looseElements).children owner) ∧
    ∃ a, a < (Model.ofEdits looseElements).size ∧ (Model.ofEdits looseElements).LiesIn 2 a := by
  have hm : (Model.ofEdits (looseElements.take 2)).Edited := ⟨_, rfl⟩
  have hunknown : (Model.ofEdits (looseElements.take 2)).size ≤ 3 := by decide +kernel
  have hsize : (Model.ofEdits (looseElements.take 2)).size = 2 := by decide +kernel
  have hafter : Model.ofEdits looseElements = (Edit.aspect 3 "Early" ::
      [Edit.vocabulary "http://example.com/late#" "late"]).foldl Model.apply
        (Model.ofEdits (looseElements.take 2)) := rfl
  obtain ⟨hlisted, hlies, -⟩ := hm.detached_iff hunknown hafter
  rw [hsize] at hlisted hlies
  refine ⟨hm, hunknown, fun owner h => ?_, hlies.mpr (by decide +kernel)⟩
  exact absurd ((hlisted owner).mp h).2 (by decide)

/-- Neither of the two stands apart: the first one lists itself and lies in itself, and the second
    one lies in an ontology which does not list it. -/
theorem looseElements_not_detached :
    (Model.ofEdits (looseElements.take 1)).size = 1 ∧
    (Model.ofEdits looseElements).children 1 = [1] ∧
    (Model.ofEdits looseElements).container? 1 = some 1 ∧
    (Model.ofEdits looseElements).isContainedInFor 1 1 1 = some true ∧
    (Model.ofEdits (looseElements.take 2)).size = 2 ∧
    3 < (Model.ofEdits looseElements).size ∧
    (Model.ofEdits looseElements).isContainedInFor 3 1 2 = some true ∧
    (Model.ofEdits looseElements).children 3 = [] := by
  decide +kernel

end OntologyView

/-
  EXPLORATION FINDS WHAT IS REACHED, and lists it once.

  The walk of `OntologyView.Exploration` never looks back: it only asks of each new node whether it
  was found before.  What makes the answer complete is what holds of every state in between, the
  `Frontier`: a node that was found either waits or has all its successors found.  A step of the walk
  keeps it (`Frontier.expand`), so the end of the walk, where nothing waits, is closed under `step`
  (`mem_found_explore`).

  The root needs care.  It waits at the start although it need not be found, and it may be found
  later on, so the invariant speaks of "the root or a node that was found" throughout.
-/
import OntologyView.Exploration

namespace OntologyView.Exploration

variable {α : Type} [DecidableEq α] {step : α → List α} {root : α} {includeRoot : Bool}

/-! ## The invariant -/

/-- A state of the walk from `root`: `found` holds nothing that is not asked for, and whatever was
    found and does not wait has been expanded. -/
structure Frontier (step : α → List α) (root : α) (includeRoot : Bool) (found waiting : List α) :
    Prop where
  nodup : found.Nodup
  sound : ∀ a ∈ found, Reaches step root a ∨ includeRoot = true ∧ a = root
  waits : ∀ a ∈ waiting, a = root ∨ a ∈ found
  closed : ∀ a, a = root ∨ a ∈ found → a ∈ waiting ∨ ∀ b ∈ step a, b ∈ found
  root_mem : includeRoot = true → root ∈ found

omit [DecidableEq α] in
theorem Frontier.start :
    Frontier step root includeRoot (if includeRoot then [root] else []) [root] where
  nodup := by cases includeRoot <;> simp
  sound := by cases includeRoot <;> simp
  waits := fun a ha => Or.inl (List.mem_singleton.mp ha)
  closed := by cases includeRoot <;> simp
  root_mem := by cases includeRoot <;> simp

/-- **One step keeps the invariant**: the first waiting node makes room for its new successors. -/
theorem Frontier.expand {found rest : List α} {node : α}
    (h : Frontier step root includeRoot found (node :: rest)) :
    Frontier step root includeRoot (found ++ fresh found (step node))
      (fresh found (step node) ++ rest) where
  nodup := nodup_append_fresh (step node) h.nodup
  sound := by
    intro a ha
    rcases List.mem_append.mp ha with ha | ha
    · exact h.sound a ha
    · have hstep : Reaches step node a := .of_step (mem_fresh.mp ha).1
      -- The root waits without having been found; any other waiting node was found before.
      rcases h.waits node List.mem_cons_self with rfl | hnode
      · exact Or.inl hstep
      · rcases h.sound node hnode with hr | ⟨-, rfl⟩
        · exact Or.inl (hr.trans hstep)
        · exact Or.inl hstep
  waits := by
    intro a ha
    rcases List.mem_append.mp ha with ha | ha
    · exact Or.inr (List.mem_append_right _ ha)
    · exact (h.waits a (List.mem_cons_of_mem _ ha)).imp_right (List.mem_append_left _)
  closed := by
    -- `node` alone stops waiting, and with this step all its successors are found.
    have hnew : ∀ b ∈ step node, b ∈ found ++ fresh found (step node) := by
      intro b hb
      by_cases hf : b ∈ found
      · exact List.mem_append_left _ hf
      · exact List.mem_append_right _ (mem_fresh.mpr ⟨hb, hf⟩)
    have hold : ∀ a, a = root ∨ a ∈ found → a ∈ fresh found (step node) ++ rest ∨
        ∀ b ∈ step a, b ∈ found ++ fresh found (step node) := by
      intro a ha
      rcases h.closed a ha with hw | hc
      · rcases List.mem_cons.mp hw with rfl | hw
        · exact Or.inr hnew
        · exact Or.inl (List.mem_append_right _ hw)
      · exact Or.inr fun b hb => List.mem_append_left _ (hc b hb)
    rintro a (ha | ha)
    · exact hold a (Or.inl ha)
    · rcases List.mem_append.mp ha with ha | ha
      · exact hold a (Or.inr ha)
      · exact Or.inl (List.mem_append_left _ ha)
  root_mem := fun hi => List.mem_append_left _ (h.root_mem hi)

/-- A whole run keeps the invariant, and leaves nothing waiting. -/
theorem Frontier.run {bound found waiting : List α}
    (hb : ∀ a ∈ waiting, ∀ b, Reaches step a b → b ∈ bound)
    (h : Frontier step root includeRoot found waiting) :
    Frontier step root includeRoot (Exploration.run step bound found waiting hb).found [] := by
  fun_induction Exploration.run step bound found waiting hb with
  | case1 found => exact h
  | case2 found node rest _ later _ ih => exact ih h.expand

/-! ## What is found -/

section Explore

variable {bound : List α} (hb : ∀ b, Reaches step root b → b ∈ bound)

theorem frontier_explore :
    Frontier step root includeRoot (explore step root includeRoot bound hb).found [] :=
  Frontier.run _ Frontier.start

theorem nodup_found_explore : (explore step root includeRoot bound hb).found.Nodup :=
  (frontier_explore hb).nodup

/-- **Exploration is reachability.** -/
theorem mem_found_explore {a : α} : a ∈ (explore step root includeRoot bound hb).found ↔
    Reaches step root a ∨ includeRoot = true ∧ a = root := by
  have h : Frontier step root includeRoot (explore step root includeRoot bound hb).found [] :=
    frontier_explore hb
  constructor
  · exact h.sound a
  · rintro (hr | ⟨hi, rfl⟩)
    · induction hr with
      | single hs => exact ((h.closed root (Or.inl rfl)).resolve_left List.not_mem_nil) _ hs
      | tail _ hs ih => exact ((h.closed _ (Or.inr ih)).resolve_left List.not_mem_nil) _ hs
    · exact h.root_mem hi

end Explore

end OntologyView.Exploration

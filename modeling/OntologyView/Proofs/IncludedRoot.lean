/-
  THE ROOT MAKES NO OTHER DIFFERENCE to an exploration that is asked for it.

  1. **Specification** — with the root asked for, the same nodes are found in the same order as without
     it, only that the root comes first, wherever it was found otherwise.

  2. **Program** — the two walks of `OntologyView.Exploration` go through different states.  If some
     steps lead back to the root, the walk that was not asked for it finds it, lets it wait and expands
     it again.  The other one has found it before.

  3. **The crux** — the root is expanded first, so from then on its successors are found, and expanding
     it again finds nothing.  Without the root, the found nodes and the waiting nodes of the two walks
     are the same after every step, except that the root itself, where it waits, takes one of them an
     idle step (`runFor_without_root`).
-/
import OntologyView.Proofs.Exploration
import OntologyView.Proofs.Superterms

namespace OntologyView

namespace Exploration

variable {α : Type} [DecidableEq α] {step : α → List α} {root : α} {x : Exploration α}

/-- What is left of an exploration where the root is put first among the nodes found, and is not
    expanded. -/
def rootFirst (root : α) (x : Exploration α) : Exploration α :=
  ⟨root :: x.found.filter (· ≠ root), x.expanded.filter (· ≠ root)⟩

/-- **The walk that found the root before** comes to the same end as the one that did not, once the
    successors of the root are found. -/
theorem runFor_without_root {steps : Nat} {found waiting : List α}
    (hroot : ∀ b ∈ step root, b ∈ found) (h : runFor step steps found waiting = some x) :
    ∃ steps', runFor step steps' (root :: found.filter (· ≠ root)) (waiting.filter (· ≠ root)) =
      some (x.rootFirst root) := by
  induction steps generalizing found waiting x with
  | zero =>
    cases waiting with
    | nil => exact ⟨0, by rw [← Option.some.inj h]; rfl⟩
    | cons node rest => nomatch h
  | succ steps ih =>
    cases waiting with
    | nil => exact ⟨0, by rw [← Option.some.inj h]; rfl⟩
    | cons node rest =>
      obtain ⟨later, hlater, hx⟩ := Option.bind_eq_some_iff.mp h
      obtain rfl := Option.some.inj hx
      obtain ⟨steps', hsteps⟩ := ih (fun b hb => List.mem_append_left _ (hroot b hb)) hlater
      by_cases hnode : node = root
      · -- The root waits for the second time, and finds nothing.
        subst hnode
        have hnothing : fresh found (step node) = [] := List.eq_nil_iff_forall_not_mem.mpr
          fun b hb => (mem_fresh.mp hb).2 (hroot b (mem_fresh.mp hb).1)
        refine ⟨steps', ?_⟩
        rw [hnothing, List.append_nil, List.nil_append] at hsteps
        rw [List.filter_cons_of_neg (by simp), hsteps]
        simp [rootFirst]
      · refine ⟨steps' + 1, ?_⟩
        rw [List.filter_append, List.filter_append, ← fresh_cons_filter_ne] at hsteps
        rw [List.filter_cons_of_pos (by simpa using hnode), runFor, List.cons_append, hsteps]
        simp [rootFirst, hnode]

/-- The first step of a walk that was not asked for the root. -/
theorem exploreFor_succ_false (steps : Nat) : exploreFor step (steps + 1) root false =
    (runFor step steps (fresh [] (step root)) (fresh [] (step root))).map
      fun later => ⟨later.found, root :: later.expanded⟩ := by
  rw [exploreFor, if_neg Bool.false_ne_true, runFor, List.nil_append, List.append_nil]
  cases runFor step steps (fresh [] (step root)) (fresh [] (step root)) <;> rfl

/-- The first step of a walk that was asked for it finds the same nodes, but for the root. -/
theorem exploreFor_succ_true (steps : Nat) : exploreFor step (steps + 1) root true =
    (runFor step steps (root :: (fresh [] (step root)).filter (· ≠ root))
      ((fresh [] (step root)).filter (· ≠ root))).map
        fun later => ⟨later.found, root :: later.expanded⟩ := by
  have hfresh : fresh [root] (step root) = (fresh [] (step root)).filter (· ≠ root) :=
    fresh_cons_filter_ne root [] (step root)
  rw [exploreFor, if_pos rfl, runFor, hfresh, List.singleton_append, List.append_nil]
  cases runFor step steps (root :: (fresh [] (step root)).filter (· ≠ root))
    ((fresh [] (step root)).filter (· ≠ root)) <;> rfl

section Explore

variable {bound : List α} (hb : ∀ b, Reaches step root b → b ∈ bound)

/-- **With the root and without it**, an exploration finds the same nodes, but for the place of the
    root, and expands the same nodes, but for the second time that it expands the root. -/
theorem explore_true_eq : explore step root true bound hb =
    ⟨root :: (explore step root false bound hb).found.filter (· ≠ root),
      root :: (explore step root false bound hb).expanded.filter (· ≠ root)⟩ := by
  generalize hx : explore step root false bound hb = x
  have hwalk : exploreFor step (x.expanded.length + 1) root false = some x := by
    rw [exploreFor_eq step hb, hx, if_pos (Nat.le_succ _)]
  rw [exploreFor_succ_false] at hwalk
  obtain ⟨later, hlater, rfl⟩ := Option.map_eq_some_iff.mp hwalk
  have hroot : ∀ b ∈ step root, b ∈ fresh [] (step root) := fun b hs =>
    mem_fresh.mpr ⟨hs, List.not_mem_nil⟩
  obtain ⟨steps, hsteps⟩ := runFor_without_root hroot hlater
  have hincluded : exploreFor step (steps + 1) root true =
      some ⟨(later.rootFirst root).found, root :: (later.rootFirst root).expanded⟩ := by
    rw [exploreFor_succ_true, hsteps, Option.map_some]
  rw [← eq_explore_of_exploreFor step hb hincluded]
  simp [rootFirst]

theorem found_explore_true : (explore step root true bound hb).found =
    root :: (explore step root false bound hb).found.erase root := by
  rw [explore_true_eq, (nodup_found_explore hb).erase_eq_filter]
  exact congrArg (root :: ·) (List.filter_congr fun b _ => by rw [Bool.eq_iff_iff]; simp)

end Explore

/-- **An exploration that is asked for its root puts it first**, and finds all else as the one that is
    not: the same nodes in the same order, if finitely many nodes are reached.  It expands the root,
    and then what the other one expands but the root. -/
theorem included_root_comes_first
    (hfinite : ∃ bound : List α, ∀ b, Reaches step root b → b ∈ bound) :
    ∃ x y : Exploration α,
      (∀ steps, exploreFor step steps root true =
        if x.expanded.length ≤ steps then some x else none) ∧
      (∀ steps, exploreFor step steps root false =
        if y.expanded.length ≤ steps then some y else none) ∧
      (∀ bound hb, explore step root true bound hb = x ∧ explore step root false bound hb = y) ∧
      x.found = root :: y.found.erase root ∧
      x.expanded = root :: y.expanded.filter (· ≠ root) := by
  obtain ⟨bound, hb⟩ := hfinite
  refine ⟨explore step root true bound hb, explore step root false bound hb,
    exploreFor_eq step hb true, exploreFor_eq step hb false,
    fun _ _ => ⟨run_bound_irrel step _ _, run_bound_irrel step _ _⟩, found_explore_true hb, ?_⟩
  rw [explore_true_eq]

end Exploration

/-- A root that is found again between its descendants. -/
def ringThroughRoot : List (Nat × Nat) := [(1, 2), (1, 3), (2, 1), (2, 4), (4, 1), (3, 5)]

theorem included_root_comes_first_ringThroughRoot :
    (∃ bound : List Nat, ∀ b,
      Exploration.Reaches (Exploration.targetsFrom ringThroughRoot) 1 b → b ∈ bound) ∧
    Exploration.ofEdges ringThroughRoot 1 false = ⟨[2, 3, 1, 4, 5], [1, 2, 1, 4, 3, 5]⟩ ∧
    Exploration.ofEdges ringThroughRoot 1 true = ⟨[1, 2, 3, 4, 5], [1, 2, 4, 3, 5]⟩ ∧
    Exploration.exploreFor (Exploration.targetsFrom ringThroughRoot) 5 1 true =
      some ⟨[1, 2, 3, 4, 5], [1, 2, 4, 3, 5]⟩ := by
  have hfinite : ∃ bound : List Nat, ∀ b,
      Exploration.Reaches (Exploration.targetsFrom ringThroughRoot) 1 b → b ∈ bound :=
    ⟨ringThroughRoot.map Prod.snd, fun _ => Exploration.Reaches.mem_targets⟩
  obtain ⟨x, y, hx, -, hexplore, hfound, hexpanded⟩ :=
    Exploration.included_root_comes_first hfinite
  have hy : Exploration.ofEdges ringThroughRoot 1 false =
      ⟨[2, 3, 1, 4, 5], [1, 2, 1, 4, 3, 5]⟩ := by
    decide +kernel
  obtain rfl := hy.symm.trans (hexplore _ fun _ => Exploration.Reaches.mem_targets).2
  have hanswer : x = ⟨[1, 2, 3, 4, 5], [1, 2, 4, 3, 5]⟩ :=
    calc x = ⟨x.found, x.expanded⟩ := rfl
      _ = ⟨[1, 2, 3, 4, 5], [1, 2, 4, 3, 5]⟩ := by
        rw [hfound, hexpanded]
        decide
  refine ⟨hfinite, hy, ?_, ?_⟩
  · exact (hexplore _ fun _ => Exploration.Reaches.mem_targets).1.trans hanswer
  · rw [hx, hanswer]
    rfl

/-- The superterms of a term, itself among them, are the term and then its superterms. -/
theorem LinkedModel.superterms_true_eq (lm : LinkedModel) (term : ElementId) :
    lm.superterms term true = term :: (lm.superterms term false).erase term :=
  Exploration.found_explore_true _

end OntologyView

/-
  EXPLORATION EXPANDS EVERY NODE ONCE.

  1. **Specification** — a walk from a root from which finitely many nodes are reached ends.  It finds
     the nodes that one or more steps lead to, and the root if it was asked for, each once; and it
     expands the root and all that it found, each once, and nothing else.

  2. **The exception** — a root that was not asked for waits at the start without having been found.
     If some steps lead back to it, it is found later on, waits again and is expanded again.

  3. **The crux** — no node waits that is not expanded in the end, and a node begins to wait when it is
     found.  So the nodes expanded are those that waited at the start and those that were found since:
     a step of the walk keeps that (`perm_of_expand`), and so does a run (`expanded_run_perm`).  With
     nothing found twice, the number of times a node is expanded can be read off.
-/
import OntologyView.Proofs.Exploration

namespace OntologyView.Exploration

variable {α : Type} [DecidableEq α] {step : α → List α} {root : α} {includeRoot : Bool}

/-! ## What is expanded -/

omit [DecidableEq α] in
/-- The first waiting node is expanded, and its new successors are found and wait. -/
theorem perm_of_expand {expanded new rest later : List α} {node : α}
    (h : expanded.Perm (new ++ rest ++ later)) :
    (node :: expanded).Perm (node :: rest ++ (new ++ later)) := by
  have hswap : (new ++ rest ++ later).Perm (rest ++ new ++ later) :=
    List.perm_append_comm.append_right later
  rw [List.append_assoc rest] at hswap
  exact (h.trans hswap).cons node

/-- A run expands what waited at the start and what it found. -/
theorem expanded_run_perm {bound waiting : List α} (found : List α)
    (hb : ∀ a ∈ waiting, ∀ b, Reaches step a b → b ∈ bound) :
    ∃ new, (run step bound found waiting hb).found = found ++ new ∧
      (run step bound found waiting hb).expanded.Perm (waiting ++ new) := by
  fun_induction run step bound found waiting hb with
  | case1 found => exact ⟨[], by simp, by simp⟩
  | case2 found node rest _ later _ ih =>
    obtain ⟨new, hfound, hperm⟩ := ih
    exact ⟨fresh found (step node) ++ new, by rw [hfound, List.append_assoc],
      perm_of_expand hperm⟩

section Explore

variable (includeRoot) {bound : List α} (hb : ∀ b, Reaches step root b → b ∈ bound)

/-- The root waits at the start; it is found at the start only if it was asked for. -/
theorem expanded_explore_perm :
    (explore step root includeRoot bound hb).expanded.Perm
      (if includeRoot then (explore step root includeRoot bound hb).found
        else root :: (explore step root includeRoot bound hb).found) := by
  obtain ⟨new, hfound, hperm⟩ := expanded_run_perm (if includeRoot then [root] else [])
    fun a (ha : a ∈ [root]) => List.mem_singleton.mp ha ▸ hb
  cases includeRoot with
  | true =>
    rw [if_pos rfl, explore, hfound]
    exact hperm
  | false =>
    rw [if_neg Bool.false_ne_true, explore, hfound]
    exact hperm

/-- A node is expanded if it is found, and the root is expanded once more if it was not asked for. -/
theorem count_expanded_explore (a : α) :
    (explore step root includeRoot bound hb).expanded.count a =
      (if a ∈ (explore step root includeRoot bound hb).found then 1 else 0) +
        if includeRoot = false ∧ a = root then 1 else 0 := by
  rw [(expanded_explore_perm includeRoot hb).count_eq, ← (nodup_found_explore hb).count]
  cases includeRoot with
  | true => simp
  | false => simp [List.count_cons, eq_comm (a := root)]

/-- No more nodes are expanded than the bound holds, and the root twice. -/
theorem length_expanded_explore_le :
    (explore step root includeRoot bound hb).expanded.length ≤ bound.length + 2 := by
  have hfound : (explore step root includeRoot bound hb).found.length ≤ (root :: bound).length :=
    length_le_of_nodup (nodup_found_explore hb) fun a ha =>
      ((mem_found_explore hb).mp ha).elim (fun h => List.mem_cons_of_mem root (hb a h))
        fun h => h.2 ▸ List.mem_cons_self
  rw [(expanded_explore_perm includeRoot hb).length_eq]
  simp only [List.length_cons] at hfound
  split
  · omega
  · rw [List.length_cons]
    omega

end Explore

/-! ## The whole walk -/

/-- **Exploration ends, finds what is reached, and expands every node once**, if finitely many nodes
    are reached.  Only a root that was not asked for, and is reached from itself, is expanded twice.
    The walk needs one step for each node expanded, and the bound that `explore` is given has no part
    in the answer. -/
theorem exploration_exact (hfinite : ∃ bound : List α, ∀ b, Reaches step root b → b ∈ bound)
    (includeRoot : Bool) :
    ∃ x : Exploration α,
      (∀ steps, exploreFor step steps root includeRoot =
        if x.expanded.length ≤ steps then some x else none) ∧
      (∀ bound hb, explore step root includeRoot bound hb = x) ∧
      x.found.Nodup ∧
      (∀ a, a ∈ x.found ↔ Reaches step root a ∨ includeRoot = true ∧ a = root) ∧
      (∀ a, a ≠ root → x.expanded.count a = if a ∈ x.found then 1 else 0) ∧
      (includeRoot = false ∧ Reaches step root root → x.expanded.count root = 2) ∧
      (¬ (includeRoot = false ∧ Reaches step root root) → x.expanded.count root = 1) := by
  obtain ⟨bound, hb⟩ := hfinite
  have hcount := count_expanded_explore includeRoot hb
  have hroot : root ∈ (explore step root includeRoot bound hb).found ↔
      Reaches step root root ∨ includeRoot = true := by
    simp [mem_found_explore]
  refine ⟨explore step root includeRoot bound hb, exploreFor_eq step hb includeRoot,
    fun _ _ => run_bound_irrel step _ _, nodup_found_explore hb, fun _ => mem_found_explore hb,
    fun a ha => ?_, fun h => ?_, fun h => ?_⟩
  · simp [hcount, ha]
  · obtain ⟨rfl, hback⟩ := h
    simp [hcount, hroot, hback]
  · -- The root is found once if it was asked for, and if not it was not reached.
    cases includeRoot with
    | true => simp [hcount, hroot]
    | false => simp_all

end Exploration

/-- A diamond below the root, the second edge to one side of it given twice, and two steps back from
    its end: one into the diamond, and one to the root. -/
theorem exploration_exact_diamondAndRings :
    (∃ bound : List Nat, ∀ b, Exploration.Reaches (Exploration.targetsFrom
      [(1, 2), (1, 3), (1, 2), (2, 4), (3, 4), (4, 2), (4, 1)]) 1 b → b ∈ bound) ∧
    ∃ x : Exploration Nat, (∀ steps, Exploration.exploreFor (Exploration.targetsFrom
        [(1, 2), (1, 3), (1, 2), (2, 4), (3, 4), (4, 2), (4, 1)]) steps 1 false =
          if 5 ≤ steps then some x else none) ∧
      x = ⟨[2, 3, 4, 1], [1, 2, 4, 1, 3]⟩ ∧ x.found.Nodup ∧ x.expanded.count 4 = 1 ∧
      x.expanded.count 1 = 2 := by
  generalize hedges : [(1, 2), (1, 3), (1, 2), (2, 4), (3, 4), (4, 2), (4, 1)] = edges
  have hfinite : ∃ bound : List Nat, ∀ b,
      Exploration.Reaches (Exploration.targetsFrom edges) 1 b → b ∈ bound :=
    ⟨edges.map Prod.snd, fun _ => Exploration.Reaches.mem_of_step fun _ _ hb =>
      List.mem_map_of_mem (Exploration.mem_targetsFrom.mp hb)⟩
  obtain ⟨x, hx, hexplore, hnodup, hfound, hcount, htwice, -⟩ :=
    Exploration.exploration_exact hfinite false
  have hanswer : x = ⟨[2, 3, 4, 1], [1, 2, 4, 1, 3]⟩ := by
    rw [← hexplore (edges.map Prod.snd) fun _ => Exploration.Reaches.mem_of_step fun _ _ hb =>
      List.mem_map_of_mem (Exploration.mem_targetsFrom.mp hb), ← hedges]
    decide +kernel
  have hback : Exploration.Reaches (Exploration.targetsFrom edges) 1 1 :=
    ((hfound 1).mp (by simp [hanswer])).resolve_right nofun
  refine ⟨hfinite, x, ?_, hanswer, hnodup, ?_, htwice ⟨rfl, hback⟩⟩
  · simpa [hanswer] using hx
  · rw [hcount 4 (by decide), hanswer]
    rfl

end OntologyView

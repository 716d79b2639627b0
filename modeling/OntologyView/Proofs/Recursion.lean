/-
  EXPLORATION IS A RECURSION, although it keeps a worklist.

  1. **Specification** — `descendFor` visits a node: it expands it, puts its successors one by one
     behind what was found, and then visits those that were new, in order.  Nothing is kept but what
     was found and what was expanded; what is still to be done is in the recursion.

  2. **Program** — the worklist of `OntologyView.Exploration`, where the nodes that wait below several
     visits stand in one line.

  3. **The crux** — a visit only works at the front of the line.  Whatever waits behind its node, the
     walk takes the same steps as the visit and comes to what waits behind with the same nodes found
     (`Passes`).  So the new successors of a node, in front of its siblings, are passed before them;
     and the whole line is the stack of the recursion.

  The recursion takes its depth as fuel.  Every level but the last finds a new node, so the depth is
  bounded by what is found.
-/
import OntologyView.Proofs.Exploration

namespace OntologyView

namespace Exploration

variable {α : Type} [DecidableEq α]

/-! ## The recursion -/

section Recursion

variable (step : α → List α)

/-- Visits a node, or answers `none` if the visits below it go deeper than so many levels. -/
def descendFor : (depth : Nat) → Exploration α → α → Option (Exploration α)
  | 0, _, _ => none
  | depth + 1, x, node =>
    let found := (step node).foldl addNew x.found
    (found.drop x.found.length).foldlM (descendFor depth) ⟨found, x.expanded ++ [node]⟩

/-- Explores from a root by visiting it, on so many levels if they are enough. -/
def recurseFor (depth : Nat) (root : α) (includeRoot : Bool) : Option (Exploration α) :=
  descendFor step depth ⟨if includeRoot then [root] else [], []⟩ root

end Recursion

variable {step : α → List α} {root : α} {includeRoot : Bool} {depth : Nat} {x y z : Exploration α}

/-- A visit is an expansion, and then visits of the new successors. -/
theorem descendFor_succ (depth : Nat) (x : Exploration α) (node : α) :
    descendFor step (depth + 1) x node = (fresh x.found (step node)).foldlM (descendFor step depth)
      ⟨x.found ++ fresh x.found (step node), x.expanded ++ [node]⟩ := by
  rw [descendFor, foldl_addNew, List.drop_left]

/-! ## Passing the front of the line -/

/-- Wherever `nodes` wait in front of others, the walk goes on from `x` to `y` and has the others
    left. -/
def Passes (step : α → List α) (x : Exploration α) (nodes : List α) (y : Exploration α) : Prop :=
  ∃ new, y.expanded = x.expanded ++ new ∧ ∀ steps rest,
    runFor step (new.length + steps) x.found (nodes ++ rest) =
      (runFor step steps y.found rest).map fun later => ⟨later.found, new ++ later.expanded⟩

theorem Passes.nil (x : Exploration α) : Passes step x [] x :=
  ⟨[], by simp, fun steps rest => by simp⟩

/-- What waits in front is passed one after the other. -/
theorem Passes.append {nodes later : List α} (h : Passes step x nodes y)
    (h' : Passes step y later z) : Passes step x (nodes ++ later) z := by
  obtain ⟨new, hnew, hrun⟩ := h
  obtain ⟨new', hnew', hrun'⟩ := h'
  refine ⟨new ++ new', by rw [hnew', hnew, List.append_assoc], fun steps rest => ?_⟩
  rw [List.length_append, Nat.add_assoc, List.append_assoc, hrun, hrun', Option.map_map]
  simp [Function.comp_def]

/-- **A node is passed** when it is expanded and its new successors, which take its place, are
    passed. -/
theorem Passes.expand {node : α}
    (h : Passes step ⟨x.found ++ fresh x.found (step node), x.expanded ++ [node]⟩
      (fresh x.found (step node)) y) : Passes step x [node] y := by
  obtain ⟨new, hnew, hrun⟩ := h
  refine ⟨node :: new, by simp [hnew], fun steps rest => ?_⟩
  have hsteps : (node :: new).length + steps = new.length + steps + 1 := by
    rw [List.length_cons]
    omega
  rw [hsteps, List.singleton_append, runFor, hrun]
  cases runFor step steps y.found rest <;> rfl

/-- **What the recursion visits the walk passes.** -/
theorem passes_of_foldlM {nodes : List α} (h : nodes.foldlM (descendFor step depth) x = some y) :
    Passes step x nodes y := by
  induction depth generalizing nodes x y with
  | zero =>
    cases nodes with
    | nil => exact Option.some.inj h ▸ Passes.nil x
    | cons node rest => nomatch h
  | succ depth ihdepth =>
    induction nodes generalizing x with
    | nil => exact Option.some.inj h ▸ Passes.nil x
    | cons node rest ihrest =>
      rw [List.foldlM_cons] at h
      obtain ⟨z, hfirst, hrest⟩ := Option.bind_eq_some_iff.mp h
      rw [descendFor_succ] at hfirst
      exact (ihdepth hfirst).expand.append (ihrest hrest)

/-- **Where the recursion ends, the walk ends with the same answer**, whether or not finitely many
    nodes are reached. -/
theorem exploreFor_of_recurseFor (h : recurseFor step depth root includeRoot = some x) {steps : Nat}
    (hsteps : x.expanded.length ≤ steps) : exploreFor step steps root includeRoot = some x := by
  have hvisit : [root].foldlM (descendFor step depth)
      ⟨if includeRoot then [root] else [], []⟩ = some x := by
    rw [List.foldlM_cons]
    exact Option.bind_eq_some_iff.mpr ⟨x, h, rfl⟩
  obtain ⟨new, hnew, hrun⟩ := passes_of_foldlM hvisit
  obtain rfl : x.expanded = new := hnew
  obtain ⟨more, rfl⟩ := Nat.exists_eq_add_of_le hsteps
  have hend := hrun more []
  rw [List.append_nil] at hend
  rw [exploreFor, hend, runFor]
  simp

/-! ## The depth of the recursion -/

/-- A level of the recursion ends if the levels below it do: the nodes to be visited there are new
    ones, so fewer are still to be found. -/
theorem exists_descendFor_succ {bound : List α} {node : α}
    (hb : ∀ b, Reaches step node b → b ∈ bound) (hdepth : unseen bound x.found ≤ depth)
    (hbelow : ∀ {nodes : List α} {x : Exploration α},
      (∀ a ∈ nodes, ∀ b, Reaches step a b → b ∈ bound) → unseen bound x.found < depth →
        ∃ y, nodes.foldlM (descendFor step depth) x = some y ∧ ∀ a ∈ x.found, a ∈ y.found) :
    ∃ y, descendFor step (depth + 1) x node = some y ∧ ∀ a ∈ x.found, a ∈ y.found := by
  have hnew : ∀ a ∈ fresh x.found (step node), Reaches step node a := fun a ha =>
    .of_step (mem_fresh.mp ha).1
  have hless : unseen bound (x.found ++ fresh x.found (step node)) +
      (fresh x.found (step node)).length ≤ unseen bound x.found :=
    unseen_append_add_length_le (nodup_fresh _ _) fun a ha =>
      ⟨hb a (hnew a ha), (mem_fresh.mp ha).2⟩
  rw [descendFor_succ]
  cases hfresh : fresh x.found (step node) with
  | nil => exact ⟨_, rfl, fun a ha => List.mem_append_left _ ha⟩
  | cons first others =>
    rw [hfresh] at hnew hless
    have hfewer : unseen bound (x.found ++ first :: others) < depth := by
      rw [List.length_cons] at hless
      omega
    obtain ⟨y, hy, hfound⟩ := hbelow (x := ⟨x.found ++ first :: others, x.expanded ++ [node]⟩)
      (fun a ha b hab => hb b ((hnew a ha).trans hab)) hfewer
    exact ⟨y, hy, fun a ha => hfound a (List.mem_append_left _ ha)⟩

/-- Visits that stay inside a bound end, no deeper than the number of nodes still to be found. -/
theorem exists_foldlM_descendFor {bound nodes : List α}
    (hb : ∀ a ∈ nodes, ∀ b, Reaches step a b → b ∈ bound) (hdepth : unseen bound x.found < depth) :
    ∃ y, nodes.foldlM (descendFor step depth) x = some y ∧ ∀ a ∈ x.found, a ∈ y.found := by
  induction depth generalizing nodes x with
  | zero => nomatch hdepth
  | succ depth ihdepth =>
    induction nodes generalizing x with
    | nil => exact ⟨x, rfl, fun _ ha => ha⟩
    | cons node rest ihrest =>
      obtain ⟨y, hfirst, hfound⟩ := exists_descendFor_succ (hb node List.mem_cons_self)
        (Nat.le_of_lt_succ hdepth) ihdepth
      have hle : unseen bound y.found ≤ unseen bound x.found := unseen_le_of_subset hfound
      obtain ⟨z, hrest, hfound'⟩ := ihrest (fun a ha => hb a (List.mem_cons_of_mem node ha))
        (Nat.lt_of_le_of_lt hle hdepth)
      refine ⟨z, ?_, fun a ha => hfound' a (hfound a ha)⟩
      rw [List.foldlM_cons]
      exact Option.bind_eq_some_iff.mpr ⟨y, hfirst, hrest⟩

/-- **The recursion ends**, no deeper than the number of nodes that are reached, and one. -/
theorem exists_recurseFor {bound : List α} (hb : ∀ b, Reaches step root b → b ∈ bound)
    (hdepth : bound.length < depth) : ∃ x, recurseFor step depth root includeRoot = some x := by
  have hunseen : unseen bound (if includeRoot then [root] else []) < depth :=
    Nat.lt_of_le_of_lt (List.length_filter_le _ bound) hdepth
  have hroot : ∀ a ∈ [root], ∀ b, Reaches step a b → b ∈ bound := fun a ha =>
    List.mem_singleton.mp ha ▸ hb
  obtain ⟨x, hx, -⟩ :=
    exists_foldlM_descendFor (x := ⟨if includeRoot then [root] else [], []⟩) hroot hunseen
  rw [List.foldlM_cons] at hx
  obtain ⟨y, hy, -⟩ := Option.bind_eq_some_iff.mp hx
  exact ⟨y, hy⟩

/-- **The walk is the recursion**: if finitely many nodes are reached, both end, find the same nodes in
    the same order, and expand the same nodes in the same order.  The recursion goes no deeper than
    the number of nodes found, and one. -/
theorem exploration_is_recursion (hfinite : ∃ bound : List α, ∀ b, Reaches step root b → b ∈ bound)
    (includeRoot : Bool) :
    ∃ x : Exploration α,
      (∀ steps, exploreFor step steps root includeRoot =
        if x.expanded.length ≤ steps then some x else none) ∧
      (∀ bound hb, explore step root includeRoot bound hb = x) ∧
      (∀ depth, x.found.length < depth → recurseFor step depth root includeRoot = some x) ∧
      ∀ depth y, recurseFor step depth root includeRoot = some y → y = x := by
  obtain ⟨bound, hb⟩ := hfinite
  have hsame : ∀ depth y, recurseFor step depth root includeRoot = some y →
      y = explore step root includeRoot bound hb := by
    intro depth y hy
    have hwalk : exploreFor step y.expanded.length root includeRoot = some y :=
      exploreFor_of_recurseFor hy (Nat.le_refl _)
    exact eq_explore_of_exploreFor step hb hwalk
  have hfound : ∀ b, Reaches step root b → b ∈ (explore step root includeRoot bound hb).found :=
    fun b hr => (mem_found_explore hb).mpr (Or.inl hr)
  refine ⟨explore step root includeRoot bound hb, exploreFor_eq step hb includeRoot,
    fun _ _ => run_bound_irrel step _ _, fun depth hdepth => ?_, hsame⟩
  obtain ⟨y, hy⟩ : ∃ y, recurseFor step depth root includeRoot = some y :=
    exists_recurseFor hfound hdepth
  rw [hy, hsame depth y hy]

end Exploration

/-- Visits on four levels: what the first of them leaves to its siblings is found below it, and one
    step leads back to the root. -/
def crossedVisits : List (Nat × Nat) :=
  [(1, 2), (1, 3), (2, 4), (2, 3), (4, 5), (5, 1), (5, 4), (3, 6), (3, 6), (6, 2)]

theorem exploration_is_recursion_crossedVisits :
    (∃ bound : List Nat, ∀ b,
      Exploration.Reaches (Exploration.targetsFrom crossedVisits) 1 b → b ∈ bound) ∧
    Exploration.recurseFor (Exploration.targetsFrom crossedVisits) 7 1 false =
      some ⟨[2, 3, 4, 5, 1, 6], [1, 2, 4, 5, 1, 3, 6]⟩ ∧
    Exploration.exploreFor (Exploration.targetsFrom crossedVisits) 7 1 false =
      some ⟨[2, 3, 4, 5, 1, 6], [1, 2, 4, 5, 1, 3, 6]⟩ := by
  have hfinite : ∃ bound : List Nat, ∀ b,
      Exploration.Reaches (Exploration.targetsFrom crossedVisits) 1 b → b ∈ bound :=
    ⟨crossedVisits.map Prod.snd, fun _ => Exploration.Reaches.mem_targets⟩
  obtain ⟨x, hwalk, hexplore, hrecursion, -⟩ := Exploration.exploration_is_recursion hfinite false
  have hanswer : Exploration.ofEdges crossedVisits 1 false =
      ⟨[2, 3, 4, 5, 1, 6], [1, 2, 4, 5, 1, 3, 6]⟩ := by
    decide +kernel
  obtain rfl := hanswer.symm.trans (hexplore _ fun _ => Exploration.Reaches.mem_targets)
  refine ⟨hfinite, hrecursion 7 (by decide), ?_⟩
  rw [hwalk]
  rfl

end OntologyView

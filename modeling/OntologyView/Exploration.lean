/-
  EXPLORATION: everything that a step function leads to from a root, in order of discovery.

  1. **Program** — a worklist.  `run` takes the first waiting node, expands it, and appends to
     `found` what the step brings that was not found before; the new nodes wait in front of the
     others, the first of them first.  So every node enters `found` once and waits once.

  2. **Specification** — `Reaches step`: one or more steps.  The root itself is found only if it is
     asked for (`includeRoot`) or if some steps lead back to it.

  3. **The crux** — the walk ends although `step` may run in rings.  Its measure is the number of
     nodes still to be found plus the number of nodes waiting: a step that finds `k` nodes takes `k`
     from the first and adds `k - 1` to the second.  For the first number to be finite the caller
     gives a list `bound` that holds all that can be reached.  Only the measure looks at it: another
     bound gives the same exploration (`run_bound_irrel`).

  The nodes are also listed in the order in which they were expanded.  Each is expanded once, except
  a root that was not asked for and is found again: it is expanded at the start and when found.

  `runFor` is the same walk without a bound.  It may need more steps than it is given, however many;
  where there is a bound, it ends with the answer of `run` (`runFor_eq`).
-/
import OntologyView.Ordered.Distinct

namespace OntologyView

/-- What an exploration found, and the nodes that it expanded, each in order. -/
structure Exploration (α : Type) where
  found : List α
  expanded : List α
deriving DecidableEq, Repr

namespace Exploration

variable {α : Type}

/-! ## Reachability -/

/-- `b` is reached from `a` by one or more steps. -/
def Reaches (step : α → List α) : α → α → Prop :=
  Relation.TransGen fun a b => b ∈ step a

theorem Reaches.of_step {step : α → List α} {a b : α} (h : b ∈ step a) : Reaches step a b :=
  Relation.TransGen.single h

theorem Reaches.trans {step : α → List α} {a b c : α} (h : Reaches step a b)
    (h' : Reaches step b c) : Reaches step a c :=
  Relation.TransGen.trans h h'

/-- What some steps lead to, more steps lead to. -/
theorem Reaches.mono {step step' : α → List α} (h : ∀ a b, b ∈ step a → b ∈ step' a) {a b : α}
    (hab : Reaches step a b) : Reaches step' a b := by
  induction hab with
  | single hb => exact .single (h _ _ hb)
  | tail _ hb ih => exact .tail ih (h _ _ hb)

/-- Reachability ends in a step, so it stays inside whatever all steps lead into. -/
theorem Reaches.mem_of_step {step : α → List α} {bound : List α}
    (h : ∀ a b, b ∈ step a → b ∈ bound) {a b : α} (hab : Reaches step a b) : b ∈ bound := by
  cases hab with
  | single hb => exact h _ _ hb
  | tail _ hb => exact h _ _ hb

/-! ## The worklist -/

variable [DecidableEq α] (step : α → List α)

omit [DecidableEq α] in
/-- What the waiting nodes reach stays inside `bound` when the first of them is replaced by nodes
    that it leads to. -/
theorem reaches_bound_of_expand {bound : List α} {node : α} {new rest : List α}
    (h : ∀ a ∈ node :: rest, ∀ b, Reaches step a b → b ∈ bound) (hnew : ∀ a ∈ new, a ∈ step node) :
    ∀ a ∈ new ++ rest, ∀ b, Reaches step a b → b ∈ bound := by
  intro a ha b hb
  rcases List.mem_append.mp ha with ha | ha
  · exact h node List.mem_cons_self b ((Reaches.of_step (hnew a ha)).trans hb)
  · exact h a (List.mem_cons_of_mem node ha) b hb

/-- Expands the waiting nodes, first one first, until none is left. -/
def run (bound found : List α) : (waiting : List α) →
    (∀ a ∈ waiting, ∀ b, Reaches step a b → b ∈ bound) → Exploration α
  | [], _ => ⟨found, []⟩
  | node :: rest, h =>
    let later := run bound (found ++ fresh found (step node)) (fresh found (step node) ++ rest)
      (reaches_bound_of_expand step h fun _ ha => (mem_fresh.mp ha).1)
    ⟨later.found, node :: later.expanded⟩
termination_by waiting => unseen bound found + waiting.length
decreasing_by
  have hle : unseen bound (found ++ fresh found (step node)) + (fresh found (step node)).length ≤
      unseen bound found :=
    unseen_append_add_length_le (nodup_fresh found (step node)) fun a ha =>
      ⟨h node List.mem_cons_self a (.of_step (mem_fresh.mp ha).1), (mem_fresh.mp ha).2⟩
  simp only [List.length_append, List.length_cons]
  omega

/-- Explores from a root all of whose reachable nodes are in `bound`. -/
def explore (root : α) (includeRoot : Bool) (bound : List α)
    (h : ∀ b, Reaches step root b → b ∈ bound) : Exploration α :=
  run step bound (if includeRoot then [root] else []) [root] fun _ ha =>
    List.mem_singleton.mp ha ▸ h

/-! ## The bound is evidence only -/

theorem run_bound_irrel {bound bound' found waiting : List α}
    (h : ∀ a ∈ waiting, ∀ b, Reaches step a b → b ∈ bound)
    (h' : ∀ a ∈ waiting, ∀ b, Reaches step a b → b ∈ bound') :
    run step bound found waiting h = run step bound' found waiting h' := by
  fun_induction run step bound found waiting h with
  | case1 found => rw [run]
  | case2 found node rest h later _ ih =>
    rw [run, ← ih (reaches_bound_of_expand step h' fun _ ha => (mem_fresh.mp ha).1)]

/-- The same steps give the same exploration, whatever the bounds. -/
theorem explore_congr {step step' : α → List α} (hstep : step = step') {root : α}
    {includeRoot : Bool} {bound bound' : List α} (h : ∀ b, Reaches step root b → b ∈ bound)
    (h' : ∀ b, Reaches step' root b → b ∈ bound') :
    explore step root includeRoot bound h = explore step' root includeRoot bound' h' := by
  subst hstep
  exact run_bound_irrel step _ _

/-! ## Without a bound -/

/-- The walk of `run` with no word on whether it ends: `none` if it needs more than so many steps. -/
def runFor : (steps : Nat) → (found waiting : List α) → Option (Exploration α)
  | _, found, [] => some ⟨found, []⟩
  | 0, _, _ :: _ => none
  | steps + 1, found, node :: rest => do
    let later ← runFor steps (found ++ fresh found (step node)) (fresh found (step node) ++ rest)
    some ⟨later.found, node :: later.expanded⟩

/-- Explores from a root, in so many steps if they are enough. -/
def exploreFor (steps : Nat) (root : α) (includeRoot : Bool) : Option (Exploration α) :=
  runFor step steps (if includeRoot then [root] else []) [root]

/-- A walk that stays inside a bound ends, after one step for each node that it expands. -/
theorem runFor_eq {bound found waiting : List α}
    (h : ∀ a ∈ waiting, ∀ b, Reaches step a b → b ∈ bound) (steps : Nat) :
    runFor step steps found waiting =
      if (run step bound found waiting h).expanded.length ≤ steps then
        some (run step bound found waiting h) else none := by
  fun_induction run step bound found waiting h generalizing steps with
  | case1 found => simp [runFor]
  | case2 found node rest _ later _ ih =>
    cases steps with
    | zero => simp [runFor]
    | succ steps =>
      rw [runFor, ih steps]
      by_cases hle : later.expanded.length ≤ steps <;> simp [hle, later]

theorem exploreFor_eq {root : α} {bound : List α} (h : ∀ b, Reaches step root b → b ∈ bound)
    (includeRoot : Bool) (steps : Nat) :
    exploreFor step steps root includeRoot =
      if (explore step root includeRoot bound h).expanded.length ≤ steps then
        some (explore step root includeRoot bound h) else none :=
  runFor_eq step _ steps

/-- Where the open walk ends, it ends with the answer of the guarded one. -/
theorem eq_explore_of_exploreFor {root : α} {bound : List α}
    (h : ∀ b, Reaches step root b → b ∈ bound) {includeRoot : Bool} {steps : Nat} {x : Exploration α}
    (hx : exploreFor step steps root includeRoot = some x) :
    x = explore step root includeRoot bound h := by
  rw [exploreFor_eq step h] at hx
  exact (Option.some.inj (Option.ite_none_right_eq_some.mp hx).2).symm

/-! ## Graphs given by their edges -/

/-- The targets of the edges from a node, in order, repetitions kept. -/
def targetsFrom (edges : List (α × α)) (node : α) : List α :=
  (edges.filter fun edge => edge.1 = node).map Prod.snd

theorem mem_targetsFrom {edges : List (α × α)} {a b : α} :
    b ∈ targetsFrom edges a ↔ (a, b) ∈ edges := by
  simp [targetsFrom]

/-- Walks in a graph stay inside the targets of its edges. -/
theorem Reaches.mem_targets {edges : List (α × α)} {a b : α}
    (h : Reaches (targetsFrom edges) a b) : b ∈ edges.map Prod.snd :=
  h.mem_of_step fun _ _ hb => List.mem_map_of_mem (mem_targetsFrom.mp hb)

/-- Explores a finite graph. -/
def ofEdges (edges : List (α × α)) (root : α) (includeRoot : Bool) : Exploration α :=
  explore (targetsFrom edges) root includeRoot (edges.map Prod.snd) fun _ =>
    Reaches.mem_of_step fun _ _ hb => List.mem_map_of_mem (mem_targetsFrom.mp hb)

/-! ## Running the definitions -/

example : ofEdges [(1, 2), (1, 3), (2, 4), (3, 4)] 1 true = ⟨[1, 2, 3, 4], [1, 2, 4, 3]⟩ := by
  decide +kernel
example : ofEdges [(1, 2), (2, 1)] 1 false = ⟨[2, 1], [1, 2, 1]⟩ := by decide +kernel

end Exploration

end OntologyView

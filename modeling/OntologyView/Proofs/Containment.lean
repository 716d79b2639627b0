/-
  CONTAINMENT: the forest of owners, rooted in ontologies.

  1. **Specification** — `Model.LiesIn`: one or more links up lead from an element to an owner.  In a
     forest (`Model.Forest`) this is a strict order in which all that contains one element is in line,
     the links down say the same as the links up, and every element has one root, an ontology
     (`Model.IsRootOf`).

  2. **Program** — `isContainedIn` and `rootOntology?` walk up, and stop when they come back to an
     element that they left.  `isContainedInFor` and `rootOntologyFor` have nothing to stop them.

  3. **The crux** — the guarded walk meets all that an element lies in, rings or not: when it comes
     back, every further link leads to what it has met (`mem_of_liesIn`).  A walk without a guard that
     ends has met no ring, so both have one answer (`top_eq_of_topFor`).  In models whose elements
     were placed it ends, since every container is older than what it contains.  So no walk up follows
     more links than the id of its start, guarded or not, and where it ends nothing was placed: only
     ontologies stand alone (`Edited.kind?_of_container?_none`).
-/
import Mathlib.Logic.Relation
import OntologyView.Model.Containment
import OntologyView.Proofs.Placement

namespace OntologyView

namespace Model

variable {m : Model} {id owner a b : ElementId} {left : List ElementId} {fuel : Nat}

/-! ## What an element lies in -/

/-- `owner` contains `id`, directly or through others. -/
def LiesIn (m : Model) : (id owner : ElementId) → Prop :=
  Relation.TransGen fun id owner => m.container? id = some owner

/-- What an element lies in is its container and what this lies in. -/
theorem liesIn_iff : m.LiesIn id a ↔
    ∃ parent, m.container? id = some parent ∧ (a = parent ∨ m.LiesIn parent a) := by
  unfold LiesIn
  rw [Relation.TransGen.head'_iff]
  simp only [Relation.reflTransGen_iff_eq_or_transGen]

theorem not_liesIn_of_container?_none (hc : m.container? id = none) : ¬ m.LiesIn id a := by
  rw [liesIn_iff, hc]
  rintro ⟨parent, h, -⟩
  nomatch h

theorem liesIn_iff_of_container? {parent : ElementId} (hc : m.container? id = some parent) :
    m.LiesIn id a ↔ a = parent ∨ m.LiesIn parent a := by
  rw [liesIn_iff, hc]
  simp

theorem LiesIn.lt_size (h : m.LiesIn id a) : id < m.size := by
  obtain ⟨parent, hc, -⟩ := liesIn_iff.mp h
  exact lt_size_of_container? hc

/-- **All that an element lies in is in line**, since nothing has two containers. -/
theorem LiesIn.comparable (ha : m.LiesIn id a) (hb : m.LiesIn id b) :
    a = b ∨ m.LiesIn a b ∨ m.LiesIn b a := by
  have hunique : Relator.RightUnique fun id owner => m.container? id = some owner :=
    fun _ _ _ h h' => Option.some.inj (h.symm.trans h')
  have htotal := Relation.ReflTransGen.total_of_right_unique hunique ha.to_reflTransGen
    hb.to_reflTransGen
  simp only [Relation.reflTransGen_iff_eq_or_transGen] at htotal
  rcases htotal with (h | h) | (h | h)
  · exact Or.inl h.symm
  · exact Or.inr (Or.inl h)
  · exact Or.inl h
  · exact Or.inr (Or.inr h)

/-! ## The guarded walk -/

theorem liesIn_of_mem_ancestorsFrom (h : a ∈ m.ancestorsFrom left id) : m.LiesIn id a := by
  fun_induction m.ancestorsFrom left id with
  | case1 left id hid => nomatch h
  | case2 left id hid hc => nomatch h
  | case3 left id hid parent hc ih =>
    exact (liesIn_iff_of_container? hc).mpr ((List.mem_cons.mp h).imp_right ih)

/-- What a walk still finds, where the elements that it left lead to what it has `found`, and what it
    found are these elements and the one it is at. -/
theorem mem_of_liesIn {found : List ElementId} (h : m.LiesIn id a)
    (hleft : ∀ x ∈ left, ∀ y, m.container? x = some y → y ∈ found)
    (hfound : ∀ y ∈ found, y ∈ left ∨ y = id) : a ∈ found ∨ a ∈ m.ancestorsFrom left id := by
  fun_induction m.ancestorsFrom left id generalizing found with
  | case1 left id hid =>
    -- The walk is back: all links from what was left lead to what was left.
    have hback : ∀ {x y}, m.LiesIn x y → x ∈ left → y ∈ found := by
      intro x y hxy
      induction hxy with
      | single hc => exact fun hx => hleft x hx _ hc
      | tail _ hc ih =>
        intro hx
        rcases hfound _ (ih hx) with hmem | rfl
        · exact hleft _ hmem _ hc
        · exact hleft _ hid _ hc
    exact Or.inl (hback h hid)
  | case2 left id hid hc => exact absurd h (not_liesIn_of_container?_none hc)
  | case3 left id hid parent hc ih =>
    rcases (liesIn_iff_of_container? hc).mp h with rfl | hparent
    · exact Or.inr List.mem_cons_self
    · have hmem : a ∈ parent :: found ∨ a ∈ m.ancestorsFrom (id :: left) parent := by
        refine ih hparent (fun x hx y hy => ?_) (fun y hy => ?_)
        · rcases List.mem_cons.mp hx with rfl | hx
          · exact List.mem_cons.mpr (Or.inl (Option.some.inj (hy.symm.trans hc)))
          · exact List.mem_cons_of_mem parent (hleft x hx y hy)
        · rcases List.mem_cons.mp hy with rfl | hy
          · exact Or.inr rfl
          · exact Or.inl (List.mem_cons.mpr (hfound y hy).symm)
      rcases hmem with hmem | hmem
      · exact (List.mem_cons.mp hmem).elim (fun h => Or.inr (h ▸ List.mem_cons_self)) Or.inl
      · exact Or.inr (List.mem_cons_of_mem parent hmem)

/-- **The guarded walk decides what an element lies in**, in every model. -/
theorem isContainedIn_iff : m.isContainedIn id a = true ↔ m.LiesIn id a := by
  rw [isContainedIn, decide_eq_true_eq, ancestors]
  refine ⟨liesIn_of_mem_ancestorsFrom, fun h => ?_⟩
  have hfound : a ∈ ([] : List ElementId) ∨ a ∈ m.ancestorsFrom [] id :=
    mem_of_liesIn h (fun _ hx => absurd hx List.not_mem_nil) fun _ hy => absurd hy List.not_mem_nil
  exact hfound.resolve_left List.not_mem_nil

/-! ## The walk without a guard -/

theorem isContainedInFor_of_container?_none (hc : m.container? id = none) (fuel : Nat) :
    m.isContainedInFor a (fuel + 1) id = some false := by
  rw [isContainedInFor, hc]

theorem isContainedInFor_of_container? {parent : ElementId} (hc : m.container? id = some parent)
    (fuel : Nat) : m.isContainedInFor a (fuel + 1) id =
      if parent = a then some true else m.isContainedInFor a fuel parent := by
  rw [isContainedInFor, hc]

/-- **An element that is its own container** is never found to lie outside of another one. -/
theorem isContainedInFor_of_own_container (hc : m.container? id = some id) (ha : id ≠ a)
    (fuel : Nat) : m.isContainedInFor a fuel id = none := by
  induction fuel with
  | zero => rfl
  | succ fuel ih => rw [isContainedInFor_of_container? hc, if_neg ha, ih]

/-- **Where the walk to an owner ends**, it has the answer of the guarded one, in every model. -/
theorem eq_isContainedIn_of_isContainedInFor {b : Bool} (h : m.isContainedInFor a fuel id = some b) :
    b = m.isContainedIn id a := by
  rw [Bool.eq_iff_iff, isContainedIn_iff]
  induction fuel generalizing id with
  | zero => nomatch h
  | succ fuel ih =>
    cases hc : m.container? id with
    | none =>
      rw [isContainedInFor_of_container?_none hc] at h
      simp [← Option.some.inj h, not_liesIn_of_container?_none hc]
    | some parent =>
      rw [isContainedInFor_of_container? hc] at h
      rw [liesIn_iff_of_container? hc]
      split at h
      · rename_i heq
        simp [← Option.some.inj h, heq]
      · rename_i hne
        rw [ih h, or_iff_right (Ne.symm hne)]

/-- A walk that ends has ended at every owner on its way, with less fuel. -/
theorem exists_topFor_of_liesIn (h : m.topFor fuel id = some owner) (ha : m.LiesIn id a) :
    ∃ fuel' < fuel, m.topFor fuel' a = some owner := by
  have hstep : ∀ {fuel id parent}, m.topFor fuel id = some owner → m.container? id = some parent →
      ∃ fuel' < fuel, m.topFor fuel' parent = some owner := by
    intro fuel id parent h hc
    cases fuel with
    | zero => nomatch h
    | succ fuel =>
      rw [topFor, hc] at h
      exact ⟨fuel, Nat.lt_succ_self fuel, h⟩
  induction ha with
  | single hc => exact hstep h hc
  | tail _ hc ih =>
    obtain ⟨fuel', hlt, h'⟩ := ih
    obtain ⟨fuel'', hlt', h''⟩ := hstep h' hc
    exact ⟨fuel'', Nat.lt_trans hlt' hlt, h''⟩

theorem not_liesIn_self_of_topFor (h : m.topFor fuel id = some owner) : ¬ m.LiesIn id id := by
  intro hself
  induction fuel using Nat.strongRecOn with
  | _ fuel ih =>
    obtain ⟨fuel', hlt, h'⟩ := exists_topFor_of_liesIn h hself
    exact ih fuel' hlt h'

/-- **Where the walk to the top ends**, it ends where the guarded one does, in every model: it never
    comes back to what it left. -/
theorem top_eq_of_topFor (h : m.topFor fuel id = some owner) : m.top id = owner := by
  have hwalk : ∀ {fuel id left}, m.topFor fuel id = some owner → (∀ x ∈ left, m.LiesIn x id) →
      (m.ancestorsFrom left id).getLast?.getD id = owner := by
    intro fuel
    induction fuel with
    | zero => exact fun h _ => nomatch h
    | succ fuel ih =>
      intro id left h hleft
      have hid : id ∉ left := fun hid => not_liesIn_self_of_topFor h (hleft id hid)
      rw [ancestorsFrom_eq, if_neg hid]
      cases hc : m.container? id with
      | none =>
        rw [topFor, hc] at h
        exact Option.some.inj h
      | some parent =>
        rw [topFor, hc] at h
        rw [Option.elim_some, List.getLast?_cons, Option.getD_some]
        refine ih h fun x hx => ?_
        rcases List.mem_cons.mp hx with rfl | hx
        · exact .single hc
        · exact .tail (hleft x hx) hc
  exact hwalk h fun _ hx => absurd hx List.not_mem_nil

theorem rootOntology?_eq_of_rootOntologyFor {root : Option ElementId}
    (h : m.rootOntologyFor fuel id = some root) : m.rootOntology? id = root := by
  obtain ⟨top, htop, rfl⟩ := Option.map_eq_some_iff.mp h
  rw [rootOntology?, top_eq_of_topFor htop]

/-! ## Walks among owners that come first -/

theorem OwnersFirst.lt_of_liesIn (hm : m.OwnersFirst) (h : m.LiesIn id a) : a < id := by
  induction h with
  | single hc => exact hm _ _ hc
  | tail _ hc ih => exact Nat.lt_trans (hm _ _ hc) ih

/-- **The walk to an owner ends**, with no more turns than the id of the element. -/
theorem OwnersFirst.isContainedInFor_eq (hm : m.OwnersFirst) (hfuel : id < fuel) :
    m.isContainedInFor a fuel id = some (m.isContainedIn id a) := by
  have hends : ∃ b, m.isContainedInFor a fuel id = some b := by
    induction fuel generalizing id with
    | zero => nomatch hfuel
    | succ fuel ih =>
      cases hc : m.container? id with
      | none => exact ⟨false, isContainedInFor_of_container?_none hc fuel⟩
      | some parent =>
        rw [isContainedInFor_of_container? hc]
        split
        · exact ⟨true, rfl⟩
        · exact ih (Nat.lt_of_lt_of_le (hm id parent hc) (Nat.le_of_lt_succ hfuel))
  obtain ⟨b, hb⟩ := hends
  rw [hb, eq_isContainedIn_of_isContainedInFor hb]

theorem top_of_container?_none (hc : m.container? id = none) : m.top id = id := by
  rw [top, ancestors_of_container?_none hc]
  rfl

theorem OwnersFirst.topFor_eq (hm : m.OwnersFirst) (hfuel : id < fuel) :
    m.topFor fuel id = some (m.top id) := by
  have hends : ∃ top, m.topFor fuel id = some top := by
    induction fuel generalizing id with
    | zero => nomatch hfuel
    | succ fuel ih =>
      rw [topFor]
      split
      · exact ⟨id, rfl⟩
      · rename_i parent hc
        exact ih (Nat.lt_of_lt_of_le (hm id parent hc) (Nat.le_of_lt_succ hfuel))
  obtain ⟨top, htop⟩ := hends
  rw [htop, top_eq_of_topFor htop]

/-- The top of an element is that of its container. -/
theorem OwnersFirst.top_eq (hm : m.OwnersFirst) {parent : ElementId}
    (hc : m.container? id = some parent) : m.top id = m.top parent := by
  have htop := hm.topFor_eq (Nat.lt_succ_self id)
  rw [topFor, hc] at htop
  exact (top_eq_of_topFor htop).symm

/-- **The walk to the ontology ends**, with no more turns than the id of the element. -/
theorem OwnersFirst.rootOntologyFor_eq (hm : m.OwnersFirst) (hfuel : id < fuel) :
    m.rootOntologyFor fuel id = some (m.rootOntology? id) := by
  rw [rootOntologyFor, hm.topFor_eq hfuel]
  rfl

/-- The top has no container, and it is where the walk goes. -/
theorem OwnersFirst.top_spec (hm : m.OwnersFirst) (id : ElementId) :
    m.container? (m.top id) = none ∧ (m.top id = id ∨ m.LiesIn id (m.top id)) := by
  induction id using Nat.strongRecOn with
  | _ id ih =>
    cases hc : m.container? id with
    | none =>
      rw [top_of_container?_none hc]
      exact ⟨hc, Or.inl rfl⟩
    | some parent =>
      obtain ⟨hnone, htop⟩ := ih parent (hm id parent hc)
      rw [hm.top_eq hc]
      exact ⟨hnone, Or.inr ((liesIn_iff_of_container? hc).mpr htop)⟩

/-! ## Only ontologies stand alone -/

/-- **What has no container is an ontology**, wherever the elements were placed. -/
theorem Edited.kind?_of_container?_none (h : m.Edited) (hid : id < m.size)
    (hc : m.container? id = none) : m.kind? id = some .ontology := by
  obtain ⟨edits, rfl⟩ := h
  have hrun : ∀ {m : Model}, (∀ id node, m.node? id = some node → node.container = none →
        node.element.kind = .ontology) →
      ∀ id node, (edits.foldl apply m).node? id = some node → node.container = none →
        node.element.kind = .ontology := by
    clear hid hc
    induction edits with
    | nil => exact fun hm => hm
    | cons edit rest ih =>
      refine fun hm => ih fun id node' hn hnone => ?_
      obtain ⟨node, hkeeps, hnode⟩ := exists_keeps_of_apply hn
      rw [hkeeps.container] at hnone
      rw [hkeeps.kind]
      rcases hnode with hold | ⟨-, hnew⟩
      · exact hm id node hold hnone
      · cases edit with
        | ontology kind ns nsPrefix =>
          obtain rfl := Option.some.inj hnew
          rfl
        | add container element =>
          obtain rfl := Option.some.inj hnew
          nomatch hnone
        | importing | setRange => nomatch hnew
  obtain ⟨e, he⟩ := Option.isSome_iff_exists.mp (isSome_element?.mpr hid)
  obtain ⟨node, hn, rfl⟩ := Option.map_eq_some_iff.mp he
  have hnone : node.container = none := by
    rw [container?, hn] at hc
    exact hc
  have hkind := hrun (fun id node hn => by simp [node?, empty] at hn) id node hn hnone
  rw [kind?, he, Option.map_some, hkind]

/-! ## Roots -/

/-- The one element without a container among an element and all that contains it: an ontology. -/
structure IsRootOf (m : Model) (root id : ElementId) : Prop where
  ontology : m.kind? root = some .ontology
  topmost : m.container? root = none
  holds : root = id ∨ m.isContainedIn id root = true
  unique : ∀ other, m.container? other = none → other = id ∨ m.isContainedIn id other = true →
    other = root

/-- Of all that contains an element only one has no container. -/
theorem eq_of_topmost (ha : m.container? a = none) (hb : m.container? b = none)
    (hida : a = id ∨ m.LiesIn id a) (hidb : b = id ∨ m.LiesIn id b) : a = b := by
  rcases hida with rfl | hida
  · exact hidb.elim Eq.symm fun h => absurd h (not_liesIn_of_container?_none ha)
  · rcases hidb with rfl | hidb
    · exact absurd hida (not_liesIn_of_container?_none hb)
    · rcases hida.comparable hidb with h | h | h
      · exact h
      · exact absurd h (not_liesIn_of_container?_none ha)
      · exact absurd h (not_liesIn_of_container?_none hb)

/-- **Every element has a root.** -/
theorem Placed.isRootOf_top (hm : m.Placed) (hid : id < m.size) : m.IsRootOf (m.top id) id := by
  obtain ⟨hnone, htop⟩ := hm.ownersFirst.top_spec id
  have hle : m.top id ≤ id := htop.elim Nat.le_of_eq fun h =>
    Nat.le_of_lt (hm.ownersFirst.lt_of_liesIn h)
  exact
    { ontology := hm.edited.kind?_of_container?_none (Nat.lt_of_le_of_lt hle hid) hnone
      topmost := hnone
      holds := htop.imp_right isContainedIn_iff.mpr
      unique := fun other hother hholds =>
        eq_of_topmost hother hnone (hholds.imp_right isContainedIn_iff.mp) htop }

theorem Placed.rootOntology?_eq (hm : m.Placed) (hid : id < m.size) :
    m.rootOntology? id = some (m.top id) := by
  rw [rootOntology?, if_pos (isSome_ontology?_iff.mpr (hm.isRootOf_top hid).ontology)]

/-! ## The forest -/

/-- The containers of a model form a forest that is rooted in ontologies, and both walks up in it end
    with no more turns than the id of the element that they start at. -/
structure Forest (m : Model) : Prop where
  mem_children_iff : ∀ owner child, child ∈ m.children owner ↔ m.container? child = some owner
  ascending : ∀ owner, (m.children owner).Pairwise (· < ·)
  listed_once : ∀ owner, (m.children owner).Nodup
  one_owner : ∀ owner owner' child, child ∈ m.children owner → child ∈ m.children owner' →
    owner = owner'
  isContainedIn_iff : ∀ id owner, m.isContainedIn id owner = true ↔
    Relation.TransGen (fun child parent => m.container? child = some parent) id owner
  irrefl : ∀ id, m.isContainedIn id id = false
  trans : ∀ id owner above, m.isContainedIn id owner = true → m.isContainedIn owner above = true →
    m.isContainedIn id above = true
  comparable : ∀ id owner other, m.isContainedIn id owner = true → m.isContainedIn id other = true →
    owner = other ∨ m.isContainedIn owner other = true ∨ m.isContainedIn other owner = true
  containment_ends : ∀ id owner fuel, id < fuel →
    m.isContainedInFor owner fuel id = some (m.isContainedIn id owner)
  root : ∀ id < m.size, ∃ root, (∀ fuel, id < fuel → m.rootOntologyFor fuel id = some (some root)) ∧
    m.rootOntology? id = some root ∧ m.IsRootOf root id

theorem Placed.forest (hm : m.Placed) : m.Forest where
  mem_children_iff := hm.interlinked.mem_children_iff
  ascending := hm.interlinked.ascending
  listed_once := fun owner => (hm.interlinked.ascending owner).imp Nat.ne_of_lt
  one_owner := fun owner owner' child h h' =>
    Option.some.inj ((hm.interlinked.linked owner child h).symm.trans
      (hm.interlinked.linked owner' child h'))
  isContainedIn_iff := fun _ _ => Model.isContainedIn_iff
  irrefl := fun id => Bool.eq_false_iff.mpr fun h =>
    Nat.lt_irrefl id (hm.ownersFirst.lt_of_liesIn (Model.isContainedIn_iff.mp h))
  trans := fun id owner above h h' => Model.isContainedIn_iff.mpr
    ((Model.isContainedIn_iff.mp h).trans (Model.isContainedIn_iff.mp h'))
  comparable := fun id owner other h h' => by
    simp only [Model.isContainedIn_iff] at h h' ⊢
    exact h.comparable h'
  containment_ends := fun id owner fuel hfuel => hm.ownersFirst.isContainedInFor_eq hfuel
  root := fun id hid => by
    have hroot := hm.rootOntology?_eq hid
    refine ⟨m.top id, fun fuel hfuel => ?_, hroot, hm.isRootOf_top hid⟩
    rw [hm.ownersFirst.rootOntologyFor_eq hfuel, hroot]

/-- **Edits that place every element make a forest.**  They hand out the ids in order, and no edit
    moves an element that is there. -/
theorem forest_ofEdits {edits : List Edit} (h : empty.Places edits) :
    empty.handedOut edits = List.range (ofEdits edits).size ∧
    (∀ earlier later, edits = earlier ++ later → ∀ id < (ofEdits earlier).size,
      (ofEdits edits).container? id = (ofEdits earlier).container? id) ∧
    (ofEdits edits).Forest := by
  refine ⟨?_, ?_, Placed.forest ⟨edits, h, rfl⟩⟩
  · have hids := ids_foldl_apply empty edits
    rw [show empty.ids = [] from rfl, List.nil_append] at hids
    exact hids.symm
  · rintro earlier later rfl id hid
    rw [ofEdits, List.foldl_append]
    exact container?_foldl_apply_of_lt hid later

end Model

/-- An ontology with an ontology in it, a range and an import that add nothing, and an axiom three
    levels down. -/
def nestedOntologyEdits : List Edit := [.vocabulary "http://example.com/dnd#" "dnd",
  .aspect 0 "Dungeon", .add 0 (.ontology ⟨.vocabulary, "http://example.com/inner#", "inner", []⟩),
  .importing 2 ⟨.extension, "http://example.com/dnd#", some "d"⟩, .concept 2 "Monster",
  .setRange 3 ⟨10, 17, by decide⟩, .specialize 3 (some 1)]

theorem forest_ofEdits_nestedOntology :
    Model.empty.Places nestedOntologyEdits ∧
    Model.empty.handedOut nestedOntologyEdits = [0, 1, 2, 3, 4] ∧
    (Model.ofEdits nestedOntologyEdits).children 2 = [3] ∧
    (Model.ofEdits nestedOntologyEdits).isContainedIn 4 0 = true ∧
    (Model.ofEdits nestedOntologyEdits).kind? 2 = some .ontology ∧
    (Model.ofEdits nestedOntologyEdits).rootOntologyFor 5 4 = some (some 0) ∧
    (Model.ofEdits nestedOntologyEdits).IsRootOf 0 4 ∧
    (Model.ofEdits nestedOntologyEdits).Forest := by
  have h : Model.empty.Places nestedOntologyEdits := by decide +kernel
  obtain ⟨hids, -, hforest⟩ := Model.forest_ofEdits h
  obtain ⟨root, hends, -, hroot⟩ := hforest.root 4 (by decide +kernel)
  have hzero : (Model.ofEdits nestedOntologyEdits).rootOntologyFor 5 4 = some (some 0) := by
    decide +kernel
  obtain rfl : root = 0 :=
    Option.some.inj (Option.some.inj ((hends 5 (by decide)).symm.trans hzero))
  exact ⟨h, by decide +kernel, by decide +kernel, by decide +kernel, by decide +kernel, hzero, hroot,
    hforest⟩

end OntologyView

/-
  GROWTH: what one more element does to a model, and to the views of its ontologies.

  1. **Specification** — `Model.OneMore`: an old node keeps all that it holds, and one node at most
     gets one more child, the new element, at the end.  Edits that hand out an id do just that
     (`Model.oneMore_apply`).

  2. **The crux** — the new element may be a child that was not there, a reference to an old member,
     or the element of an id that led nowhere before.  But it takes nothing back: it is last among
     the children, so not even the first relation of a relation entity changes.  So all of the model
     carries over (`Model.OneMore.carriesOver`), and with it what is drawn
     (`LinkedModel.view_grows_with_model`).

  What the new element shows may be the domain of a property that had sunk, and then the property
  goes up to it: of properties only so much is kept that some owner shows them.
-/
import OntologyView.Proofs.Comparison

namespace OntologyView

namespace Model

/-- `m'` is `m` with one element more, which comes last in the model and among the children of its
    container. -/
structure OneMore (m m' : Model) : Prop where
  size : m'.size = m.size + 1
  node : ∀ id < m.size, m'.node? id = m.node? id ∨
    m'.node? id = (m.node? id).map (Node.withChild m.size)
  /-- The new element may have been given itself as its container. -/
  children_new : m'.children m.size = [] ∨ m'.children m.size = [m.size]

variable {m m' : Model} {id : ElementId}

theorem oneMore_push_none (m : Model) (element : Element) : m.OneMore (m.push none element) where
  size := size_push m none element
  node := fun id hid => Or.inl (by rw [node?_push, if_neg (Nat.ne_of_lt hid)])
  children_new := Or.inl (by rw [children_push, children_of_size_le (Nat.le_refl m.size)])

theorem oneMore_add (m : Model) (container : ElementId) (element : Element) :
    m.OneMore (m.apply (.add container element)) where
  size := by
    rw [apply, size_modify, size_push]
  node := by
    intro id hid
    have hpush : (m.push (some container) element).node? id = m.node? id := by
      rw [node?_push, if_neg (Nat.ne_of_lt hid)]
    rw [apply, node?_modify, hpush]
    split
    · exact Or.inr rfl
    · exact Or.inl rfl
  children_new := by
    rw [apply, children, node?_modify, node?_push, if_pos rfl]
    split
    · exact Or.inr rfl
    · exact Or.inl rfl

/-- **An edit that hands out an id adds one element**, and the id is the next one. -/
theorem oneMore_apply {edit : Edit} {x : ElementId} (hx : edit.newId? m = some x) :
    m.OneMore (m.apply edit) ∧ x = m.size := by
  cases edit with
  | ontology kind ns nsPrefix => exact ⟨oneMore_push_none m _, (Option.some.inj hx).symm⟩
  | add container element => exact ⟨oneMore_add m container element, (Option.some.inj hx).symm⟩
  | importing | setRange => nomatch hx

/-! ## Look-ups after an addition -/

namespace OneMore

variable (h : m.OneMore m')

include h

theorem element? (hid : id < m.size) : m'.element? id = m.element? id := by
  rcases h.node id hid with hn | hn
  · rw [Model.element?, hn, Model.element?]
  · rw [Model.element?, hn, Model.element?, Option.map_map]
    rfl

theorem container? (hid : id < m.size) : m'.container? id = m.container? id := by
  rcases h.node id hid with hn | hn
  · rw [Model.container?, hn, Model.container?]
  · rw [Model.container?, hn, Model.container?]
    cases m.node? id <;> rfl

theorem range? (hid : id < m.size) : m'.range? id = m.range? id := by
  rcases h.node id hid with hn | hn
  · rw [Model.range?, hn, Model.range?]
  · rw [Model.range?, hn, Model.range?]
    cases m.node? id <;> rfl

/-- Children stay, and the new element may come after them. -/
theorem children (id : ElementId) :
    m'.children id = m.children id ∨ m'.children id = m.children id ++ [m.size] := by
  rcases Nat.lt_trichotomy id m.size with hid | rfl | hid
  · rcases h.node id hid with hn | hn
    · exact Or.inl (by rw [Model.children, hn, Model.children])
    · refine Or.inr ?_
      rw [Model.children, hn, Model.children, node?, Array.getElem?_eq_getElem hid]
      rfl
  · rw [children_of_size_le (Nat.le_refl m.size)]
    exact h.children_new
  · have hsize := h.size
    exact Or.inl (by rw [children_of_size_le (by omega), children_of_size_le (by omega)])

theorem mem_children {owner x : ElementId} (hx : x ∈ m'.children owner) :
    x ∈ m.children owner ∨ x = m.size := by
  rcases h.children owner with hc | hc
  · exact Or.inl (hc ▸ hx)
  · rw [hc, List.mem_append, List.mem_singleton] at hx
    exact hx

/-- The first relation stays the first one.  Where there was none, the new element may be it. -/
theorem relation? (hm : m.Linked) (direction : Direction) (owner : ElementId) :
    m'.relation? direction owner = m.relation? direction owner ∨
      m.relation? direction owner = none ∧ m'.relation? direction owner = some m.size := by
  have hold : (m.children owner).find? (m'.hasKind (.relation direction)) =
      m.relation? direction owner := by
    rw [Model.relation?, ← List.head?_filter, ← List.head?_filter]
    refine congrArg List.head? (List.filter_congr fun child hchild => ?_)
    have hlt : child < m.size := lt_size_of_container? (hm owner child hchild)
    rw [hasKind, satisfies, h.element? hlt, hasKind, satisfies]
  rw [Model.relation?]
  rcases h.children owner with hc | hc
  · exact Or.inl (hc ▸ hold)
  · rw [hc, List.find?_append, hold]
    cases m.relation? direction owner with
    | some x => exact Or.inl rfl
    | none =>
      cases m'.hasKind (.relation direction) m.size <;> simp [*]

/-- **All of a model carries over** to the model with one element more. -/
theorem carriesOver (hm : m.Linked) : m.CarriesOver (fun _ => True) m' where
  element := fun _ he => (h.element? (lt_size_of_element? he)).trans he
  container := fun _ hc => (h.container? (lt_size_of_container? hc)).trans hc
  child := by
    intro owner x _ hx
    rcases h.children owner with hc | hc
    · rwa [hc]
    · rw [hc]
      exact List.mem_append_left _ hx
  relation := by
    intro owner direction x _ _ hx
    rcases h.relation? hm direction owner with heq | ⟨hnone, -⟩
    · exact heq.trans hx
    · nomatch hnone.symm.trans hx
  among_reference := fun _ _ _ => trivial
  among_container := fun _ _ => trivial
  among_owner := fun _ _ => trivial

end OneMore

end Model

namespace LinkedModel

variable {m : Model} {root : ElementId} {locality : Locality} {v v' : View}

/-- **Views grow with the model.**  With one more element anywhere, an analysis that succeeds shows
    all that it showed before, and draws the same axioms, edges and assertions at least on the same
    elements.  A property that was shown is shown, perhaps by another owner.  In models with rings
    this is said of the runs that end (`gives_analyzeFor`). -/
theorem view_grows_with_model (hm : m.Edited) (container : ElementId) (element : Element)
    (hv : (ofModel m).analyze root locality = .ok v)
    (hv' : (ofModel (m.apply (.add container element))).analyze root locality = .ok v') :
    v.Within v' := by
  obtain ⟨order, hmet, hproper, rfl⟩ := exists_frame hv
  obtain ⟨order', hmet', hproper', rfl⟩ := exists_frame hv'
  have hcarries := (Model.oneMore_add m container element).carriesOver hm.linked
  exact (hcarries.frame locality hmet hmet').within (fun _ _ => trivial) hproper hproper'

end LinkedModel

/-- The property of a hidden aspect goes up from the aspects below it when a reference shows the
    hidden one. -/
theorem view_grows_with_model_hiddenTop :
    hiddenTop.Edited ∧
    ∃ v v', (LinkedModel.ofModel hiddenTop).analyze 0 .topLevelStatements = .ok v ∧
      (LinkedModel.ofModel (hiddenTop.apply (.reference 0 .aspect (some 2)))).analyze 0
        .topLevelStatements = .ok v' ∧
      ((v.properties .scalar).listAt 3 = [7] ∧ (v.properties .scalar).listAt 2 = []) ∧
      ((v'.properties .scalar).listAt 3 = [] ∧ (v'.properties .scalar).listAt 2 = [7]) ∧
      v.Within v' := by
  have hm : hiddenTop.Edited := ⟨_, rfl⟩
  have hok : ((LinkedModel.ofModel hiddenTop).analyze 0 .topLevelStatements).toOption.any
      (fun v => decide ((v.properties .scalar).listAt 3 = [7] ∧
        (v.properties .scalar).listAt 2 = [])) = true := by
    decide +kernel
  have hok' : ((LinkedModel.ofModel (hiddenTop.apply (.reference 0 .aspect (some 2)))).analyze 0
      .topLevelStatements).toOption.any
      (fun v => decide ((v.properties .scalar).listAt 3 = [] ∧
        (v.properties .scalar).listAt 2 = [7])) = true := by
    decide +kernel
  obtain ⟨v, hv, htest⟩ := exists_of_any hok
  obtain ⟨v', hv', htest'⟩ := exists_of_any hok'
  exact ⟨hm, v, v', hv, hv', of_decide_eq_true htest, of_decide_eq_true htest',
    LinkedModel.view_grows_with_model hm 0 (.reference .aspect (some 2)) hv hv'⟩

end OntologyView

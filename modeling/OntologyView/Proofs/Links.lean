/-
  LINKS: the models that edits make, and how their links up and down agree.

  1. **Specification** — a model is plain data, and nothing says that the container of an element has
     it among its children.  Which children edits give an element is said here by the links up alone
     (`Model.owned`): the elements that have it as their container, in order, without those that are
     older than it.

  2. **Program** — an edit writes both links of a new element at once, the one up whatever the
     container is, and the one down if there is a node to hold it.  The new node is there by then.

  3. **The crux** — no edit takes a link away, and ids are handed out in order.  So an edit adds a new
     child exactly where it adds a new element to `Model.owned` (`children_apply`), and in models that
     edits make the two are one (`Model.Edited.children_eq`).

  Hence whoever lists an element is its container (`Model.Linked`).  The converse does not hold: an
  element that is given a container which is not there yet has a link up, and nobody lists it.  But
  what is LOCAL to an ontology was found by links down, and so it is listed by its container
  (`Model.Linked.mem_children_of_local`).
-/
import OntologyView.Model.Edit
import OntologyView.Proofs.Exploration
import OntologyView.View.Locality

namespace OntologyView.Model

/-- Models that a list of edits makes. -/
def Edited (m : Model) : Prop :=
  ∃ edits, m = .ofEdits edits

/-- Whoever lists an element among its children is the container of it. -/
def Linked (m : Model) : Prop :=
  ∀ owner child, child ∈ m.children owner → m.container? child = some owner

variable {m : Model} {id : ElementId}

theorem Edited.foldl_apply (h : m.Edited) (edits : List Edit) : (edits.foldl apply m).Edited := by
  obtain ⟨first, rfl⟩ := h
  exact ⟨first ++ edits, (List.foldl_append ..).symm⟩

/-! ## Links after a change of one node -/

theorem container?_push (m : Model) (container : Option ElementId) (element : Element)
    (id : ElementId) : (m.push container element).container? id =
      if id = m.size then container else m.container? id := by
  rw [container?, node?_push]
  split <;> rfl

theorem children_of_size_le (hid : m.size ≤ id) : m.children id = [] :=
  List.eq_nil_iff_forall_not_mem.mpr fun _ hc =>
    Nat.not_lt_of_le hid (lt_size_of_mem_children hc)

/-- A new element owns nothing yet. -/
theorem children_push (m : Model) (container : Option ElementId) (element : Element)
    (id : ElementId) : (m.push container element).children id = m.children id := by
  rw [children, node?_push]
  split
  · rename_i hid
    exact (children_of_size_le (Nat.le_of_eq hid.symm)).symm
  · rfl

theorem container?_modify {f : Node → Node} (hf : ∀ node, (f node).container = node.container)
    (j : ElementId) : (m.modify j f).container? id = m.container? id := by
  rw [container?, node?_modify, container?]
  split
  · cases m.node? id <;> simp [hf]
  · rfl

theorem children_modify {f : Node → Node} (hf : ∀ node, (f node).children = node.children)
    (j : ElementId) : (m.modify j f).children id = m.children id := by
  rw [children, node?_modify, children]
  split
  · cases m.node? id <;> simp [hf]
  · rfl

/-- A node that is there gets one more child, at the end. -/
theorem children_modify_withChild (m : Model) (j new id : ElementId) :
    (m.modify j (Node.withChild new)).children id =
      if id = j ∧ j < m.size then m.children id ++ [new] else m.children id := by
  rw [children, node?_modify, children]
  by_cases hj : j = id
  · subst hj
    rw [if_pos rfl]
    cases hn : m.node? j with
    | none =>
      have hsize : ¬ j < m.size := Nat.not_lt_of_le (Array.getElem?_eq_none_iff.mp hn)
      simp [hsize]
    | some node =>
      have hsize : j < m.size := (Array.getElem?_eq_some_iff.mp hn).1
      simp [hsize, Node.withChild]
  · rw [if_neg hj, if_neg fun h => hj h.1.symm]

/-! ## Nodes after an edit -/

theorem exists_keeps_of_push {container : Option ElementId} {element : Element} {node' : Node}
    (h : (m.push container element).node? id = some node') : ∃ node : Node, node.Keeps node' ∧
      (m.node? id = some node ∨ id = m.size ∧ node = ⟨element, container, [], none⟩) := by
  rw [node?_push] at h
  split at h
  · exact ⟨node', ⟨rfl, rfl, rfl⟩, Or.inr ⟨‹_›, (Option.some.inj h).symm⟩⟩
  · exact ⟨node', ⟨rfl, rfl, rfl⟩, Or.inl h⟩

theorem exists_keeps_of_modify {f : Node → Node} (hf : ∀ node : Node, node.Keeps (f node)) {j : ElementId}
    {node' : Node} (h : (m.modify j f).node? id = some node') :
    ∃ node : Node, node.Keeps node' ∧ m.node? id = some node := by
  rw [node?_modify] at h
  split at h
  · obtain ⟨node, hnode, rfl⟩ := Option.map_eq_some_iff.mp h
    exact ⟨node, hf node, hnode⟩
  · exact ⟨node', ⟨rfl, rfl, rfl⟩, h⟩

/-- **All that an edit does to nodes**: a node after it keeps what an old one held, or the new one. -/
theorem exists_keeps_of_apply {edit : Edit} {node' : Node}
    (h : (m.apply edit).node? id = some node') : ∃ node : Node, node.Keeps node' ∧
      (m.node? id = some node ∨ id = m.size ∧ edit.newNode? = some node) := by
  cases edit with
  | ontology kind ns nsPrefix =>
    obtain ⟨node, hkeeps, hnode⟩ := exists_keeps_of_push h
    exact ⟨node, hkeeps, hnode.imp_right fun h => ⟨h.1, congrArg some h.2.symm⟩⟩
  | add container element =>
    -- The new node may be changed at once, if it is its own container.
    obtain ⟨node₁, hchild, h₁⟩ := exists_keeps_of_modify (Node.keeps_withChild m.size) h
    obtain ⟨node, hkeeps, hnode⟩ := exists_keeps_of_push h₁
    exact ⟨node, hkeeps.trans hchild, hnode.imp_right fun h => ⟨h.1, congrArg some h.2.symm⟩⟩
  | importing j what =>
    obtain ⟨node, hkeeps, hnode⟩ := exists_keeps_of_modify (Node.keeps_withImport what) h
    exact ⟨node, hkeeps, Or.inl hnode⟩
  | setRange j range =>
    obtain ⟨node, hkeeps, hnode⟩ := exists_keeps_of_modify (Node.keeps_withRange range) h
    exact ⟨node, hkeeps, Or.inl hnode⟩

/-! ## Links after an edit -/

/-- The new element is linked to its container, and all others are where they were. -/
theorem container?_add (m : Model) (container : ElementId) (element : Element) (id : ElementId) :
    (m.apply (.add container element)).container? id =
      if id = m.size then some container else m.container? id := by
  have hcontainer : ∀ node, (Node.withChild m.size node).container = node.container := fun _ => rfl
  rw [apply, container?_modify hcontainer, container?_push]

/-- An edit that adds nothing leaves everything where it is. -/
theorem container?_apply_of_newId? {edit : Edit} (hedit : edit.newId? m = none) :
    (m.apply edit).container? id = m.container? id := by
  cases edit with
  | ontology | add => nomatch hedit
  | importing j what => exact container?_modify (Node.container_withImport what) j
  | setRange j range =>
    exact container?_modify (f := fun node => { node with range := some range }) (fun _ => rfl) j

theorem children_apply_of_newId? {edit : Edit} (hedit : edit.newId? m = none) :
    (m.apply edit).children id = m.children id := by
  cases edit with
  | ontology | add => nomatch hedit
  | importing j what => exact children_modify (Node.children_withImport what) j
  | setRange j range =>
    exact children_modify (f := fun node => { node with range := some range }) (fun _ => rfl) j

/-- The new element comes last among the children of its container, if this is there by then: an
    older element, or the new one itself. -/
theorem children_add (m : Model) (container : ElementId) (element : Element) (id : ElementId) :
    (m.apply (.add container element)).children id =
      if id = container ∧ container ≤ m.size then m.children id ++ [m.size] else m.children id := by
  rw [apply, children_modify_withChild, children_push, size_push]
  simp only [Nat.lt_succ_iff]

/-! ## Containers after many edits -/

/-- An edit gives a container to the element that it adds, and to nothing else. -/
theorem container?_apply_eq_some_iff {edit : Edit} {owner : ElementId} :
    (m.apply edit).container? id = some owner ↔
      m.container? id = some owner ∨ m.size = id ∧ ∃ element, edit = .add owner element := by
  have hnew : m.container? m.size ≠ some owner := fun h =>
    Nat.lt_irrefl m.size (lt_size_of_container? h)
  cases edit with
  | ontology kind ns nsPrefix =>
    rw [apply, container?_push]
    by_cases hid : id = m.size
    · subst hid
      simp [hnew]
    · simp [hid]
  | add container element =>
    rw [container?_add]
    by_cases hid : id = m.size
    · subst hid
      simp [hnew]
    · simp [hid, Ne.symm hid]
  | importing | setRange =>
    rw [container?_apply_of_newId? rfl]
    simp

theorem size_le_size_foldl_apply (m : Model) (edits : List Edit) :
    m.size ≤ (edits.foldl apply m).size := by
  have hids : (edits.foldl apply m).ids.length = m.ids.length + (m.handedOut edits).length := by
    rw [ids_foldl_apply, List.length_append]
  simp only [ids, List.length_range] at hids
  omega

/-- **Who gave an element its container**: the edit that handed out its id, and no later one. -/
theorem container?_foldl_apply_eq_some_iff {edits : List Edit} {owner : ElementId} :
    (edits.foldl apply m).container? id = some owner ↔ m.container? id = some owner ∨
      ∃ earlier element later, edits = earlier ++ .add owner element :: later ∧
        (earlier.foldl apply m).size = id := by
  induction edits generalizing m with
  | nil => simp
  | cons edit rest ih =>
    rw [List.foldl_cons, ih, container?_apply_eq_some_iff, or_assoc]
    refine or_congr_right ⟨?_, ?_⟩
    · rintro (⟨hsize, element, rfl⟩ | ⟨earlier, element, later, rfl, hsize⟩)
      · exact ⟨[], element, rest, rfl, hsize⟩
      · exact ⟨edit :: earlier, element, later, rfl, hsize⟩
    · rintro ⟨earlier, element, later, hedits, hsize⟩
      cases earlier with
      | nil =>
        obtain ⟨rfl, rfl⟩ := List.cons.inj hedits
        exact Or.inl ⟨hsize, element, rfl⟩
      | cons first earlier =>
        obtain ⟨rfl, rfl⟩ := List.cons.inj hedits
        exact Or.inr ⟨earlier, element, later, rfl, hsize⟩

/-- **Containers stay**, whatever edits come. -/
theorem container?_foldl_apply_of_lt (hid : id < m.size) (edits : List Edit) :
    (edits.foldl apply m).container? id = m.container? id := by
  refine Option.ext fun owner => ?_
  rw [container?_foldl_apply_eq_some_iff]
  refine or_iff_left ?_
  rintro ⟨earlier, -, -, -, rfl⟩
  exact Nat.not_lt_of_le (size_le_size_foldl_apply m earlier) hid

/-! ## Children by the links up -/

/-- The elements whose container is `owner`, in order, without those that are older than it. -/
def owned (m : Model) (owner : ElementId) : List ElementId :=
  m.ids.filter fun child => m.container? child = some owner ∧ owner ≤ child

theorem mem_owned {owner child : ElementId} :
    child ∈ m.owned owner ↔ m.container? child = some owner ∧ owner ≤ child := by
  rw [owned, List.mem_filter, mem_ids, decide_eq_true_eq]
  exact and_iff_right_of_imp fun h => lt_size_of_container? h.1

theorem ascending_owned (m : Model) (owner : ElementId) : (m.owned owner).Pairwise (· < ·) :=
  List.pairwise_lt_range.filter _

theorem owned_congr {m' : Model} (hsize : m'.size = m.size)
    (hcontainer : ∀ id, m'.container? id = m.container? id) (owner : ElementId) :
    m'.owned owner = m.owned owner := by
  rw [owned, owned, ids, ids, hsize]
  simp only [hcontainer]

theorem owned_push (m : Model) (container : Option ElementId) (element : Element)
    (owner : ElementId) : (m.push container element).owned owner =
      m.owned owner ++ if container = some owner ∧ owner ≤ m.size then [m.size] else [] := by
  have hids : (m.push container element).ids = m.ids ++ [m.size] := by
    rw [ids, size_push, List.range_succ, ids]
  have hold : (m.ids.filter fun child =>
      (m.push container element).container? child = some owner ∧ owner ≤ child) = m.owned owner :=
    List.filter_congr fun child hchild => by
      rw [container?_push, if_neg (Nat.ne_of_lt (mem_ids.mp hchild))]
  have hnew : (m.push container element).container? m.size = container := by
    rw [container?_push, if_pos rfl]
  rw [owned, hids, List.filter_append, hold, List.filter_cons, hnew, List.filter_nil]
  simp only [decide_eq_true_eq]

theorem owned_add (m : Model) (container : ElementId) (element : Element) (owner : ElementId) :
    (m.apply (.add container element)).owned owner =
      m.owned owner ++ if container = owner ∧ owner ≤ m.size then [m.size] else [] := by
  have hcontainer : ∀ id, (m.apply (.add container element)).container? id =
      (m.push (some container) element).container? id := fun id => by
    rw [container?_add, container?_push]
  have hpush : (m.apply (.add container element)).owned owner =
      (m.push (some container) element).owned owner :=
    owned_congr (size_modify _ _ _) hcontainer owner
  rw [hpush, owned_push]
  simp only [Option.some.injEq]

theorem owned_apply_of_newId? {edit : Edit} (hedit : edit.newId? m = none) (owner : ElementId) :
    (m.apply edit).owned owner = m.owned owner := by
  have hsize : (m.apply edit).size = m.size := by
    rw [Edit.size_apply, hedit]
    rfl
  exact owned_congr hsize (fun _ => container?_apply_of_newId? hedit) owner

/-- **An edit adds a child where it adds an owned element.** -/
theorem children_apply (h : ∀ owner, m.children owner = m.owned owner) (edit : Edit)
    (owner : ElementId) : (m.apply edit).children owner = (m.apply edit).owned owner := by
  cases edit with
  | ontology kind ns nsPrefix =>
    rw [apply, children_push, owned_push, h, if_neg (by simp), List.append_nil]
  | add container element =>
    rw [children_add, owned_add, h]
    by_cases howner : owner = container
    · subst howner
      by_cases hle : owner ≤ m.size <;> simp [hle]
    · simp [howner, Ne.symm howner]
  | importing | setRange => rw [children_apply_of_newId? rfl, owned_apply_of_newId? rfl, h]

/-- **The children of an element, in models that edits make.** -/
theorem Edited.children_eq (h : m.Edited) (owner : ElementId) :
    m.children owner = m.owned owner := by
  obtain ⟨edits, rfl⟩ := h
  have hrun : ∀ {m : Model}, (∀ owner, m.children owner = m.owned owner) →
      ∀ owner, (edits.foldl apply m).children owner = (edits.foldl apply m).owned owner := by
    induction edits with
    | nil => exact id
    | cons edit rest ih => exact fun hm => ih (children_apply hm edit)
  exact hrun (fun owner => by simp [children, owned, ids, size, node?, empty]) owner

theorem Edited.mem_children_iff (h : m.Edited) {owner child : ElementId} :
    child ∈ m.children owner ↔ m.container? child = some owner ∧ owner ≤ child := by
  rw [h.children_eq, mem_owned]

/-- **In models that edits make the links agree.** -/
theorem Edited.linked (h : m.Edited) : m.Linked :=
  fun _ _ hchild => (h.mem_children_iff.mp hchild).1

/-! ## Local elements -/

theorem isSome_ontology?_iff : (m.ontology? id).isSome = true ↔ m.kind? id = some .ontology := by
  unfold ontology? kind?
  cases m.element? id with
  | none => simp
  | some e => cases e <;> simp [Element.kind]

theorem mem_statements_iff {root x : ElementId} :
    x ∈ m.statements root ↔ m.kind? root = some .ontology ∧ x ∈ m.children root := by
  rw [statements, ← isSome_ontology?_iff]
  split <;> simp [*]

/-- The content of an ontology is what links down lead to. -/
theorem mem_ownedContent_iff {root x : ElementId} : x ∈ m.localElements root .ownedContent ↔
    m.kind? root = some .ontology ∧ Exploration.Reaches m.children root x := by
  have hcontents : x ∈ m.contents root ↔ Exploration.Reaches m.children root x := by
    simp [contents, Exploration.mem_found_explore]
  rw [localElements, ← isSome_ontology?_iff, ← hcontents]
  split <;> simp [*]

/-- Statements are local, whatever the locality. -/
theorem mem_localElements_of_mem_statements {root x : ElementId} {locality : Locality}
    (h : x ∈ m.statements root) : x ∈ m.localElements root locality := by
  cases locality with
  | topLevelStatements => exact h
  | ownedContent =>
    obtain ⟨hk, hchild⟩ := mem_statements_iff.mp h
    exact mem_ownedContent_iff.mpr ⟨hk, .of_step hchild⟩

theorem Linked.lt_size_of_mem_statements {root x : ElementId} (hm : m.Linked)
    (h : x ∈ m.statements root) : x < m.size :=
  lt_size_of_container? (hm root x (mem_statements_iff.mp h).2)

/-- What is local to an ontology is a child of something. -/
theorem exists_mem_children_of_local {root x : ElementId} {locality : Locality}
    (h : x ∈ m.localElements root locality) : ∃ owner, x ∈ m.children owner := by
  cases locality with
  | topLevelStatements => exact ⟨root, (mem_statements_iff.mp h).2⟩
  | ownedContent =>
    -- Contents are reached by links down, the last of which leads to `x`.
    cases (mem_ownedContent_iff.mp h).2 with
    | single hx => exact ⟨_, hx⟩
    | tail _ hx => exact ⟨_, hx⟩

/-- The container of a local element lists it. -/
theorem Linked.mem_children_of_local {root x owner : ElementId} {locality : Locality}
    (hm : m.Linked) (h : x ∈ m.localElements root locality) (hc : m.container? x = some owner) :
    x ∈ m.children owner := by
  obtain ⟨owner', hx⟩ := exists_mem_children_of_local h
  obtain rfl : owner' = owner := Option.some.inj ((hm owner' x hx).symm.trans hc)
  exact hx

end OntologyView.Model

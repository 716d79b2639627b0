/-
  RING-FREE MODELS, in which nothing stands for itself.

  A reference stands on its member, and a specialization on its two terms.  Where these steps lead
  back to an element, the element says nothing: inclusion leaves it out (`Model.Included`).  A model
  without such rings is `RingFree`.

  Rings of specialized terms, of the ends of relation entities and of children are other rings, and
  not excluded.

  * A model is ring-free if it was made in order, each element after its container and after what it
    refers to (`MadeInOrder.ringFree`).  The container counts, so that `RefersBack` is not enough: a
    specialization whose owner comes after it may own itself, or be owned by a reference to it.
  * In a ring-free model a step leads to less: to an element with a smaller `support`, which is all
    that it stands on (`RingFree.length_support_lt`).  So a recursion that follows the steps ends.
-/
import OntologyView.Model.Term
import OntologyView.Proofs.Links

namespace OntologyView.Model

/-- What a reference or a specialization is only as good as. -/
def standsOn (m : Model) (id : ElementId) : List ElementId :=
  match m.element? id with
  | some (.reference _ member) => member.toList
  | some (.specialization super) => super.toList ++ (m.subterm? id).toList
  | _ => []

/-- No element stands on itself, directly or through others. -/
def RingFree (m : Model) : Prop :=
  ∀ id, ¬ Exploration.Reaches m.standsOn id id

variable {m : Model} {id k : ElementId}

theorem mem_standsOn_reference {kind : ReferenceKind}
    (he : m.element? id = some (.reference kind (some k))) : k ∈ m.standsOn id := by
  rw [standsOn, he]
  exact List.mem_singleton_self k

theorem mem_standsOn_super (he : m.element? id = some (.specialization (some k))) :
    k ∈ m.standsOn id := by
  rw [standsOn, he]
  exact List.mem_append_left _ (List.mem_singleton_self k)

theorem mem_standsOn_subterm {super : Option ElementId}
    (he : m.element? id = some (.specialization super)) (hs : m.subterm? id = some k) :
    k ∈ m.standsOn id := by
  rw [standsOn, he]
  exact List.mem_append_right _ (Option.mem_toList.mpr hs)

theorem lt_size_of_mem_standsOn (h : k ∈ m.standsOn id) : id < m.size := by
  unfold standsOn at h
  cases he : m.element? id with
  | none =>
    rw [he] at h
    nomatch h
  | some e => exact lt_size_of_element? he

/-- Models in which everything stands on older elements are ring-free. -/
theorem ringFree_of_descends (h : ∀ id ∈ m.ids, ∀ k ∈ m.standsOn id, k < id) : m.RingFree := by
  have hstep : ∀ {a b : ElementId}, b ∈ m.standsOn a → b < a := fun hb =>
    h _ (mem_ids.mpr (lt_size_of_mem_standsOn hb)) _ hb
  -- Every step leads to an older element, so a path does, and no path comes back.
  have hdown : ∀ {a b : ElementId}, Exploration.Reaches m.standsOn a b → b < a := by
    intro a b hab
    induction hab with
    | single hb => exact hstep hb
    | tail _ hb ih => exact Nat.lt_trans (hstep hb) ih
  exact fun id hid => Nat.lt_irrefl id (hdown hid)

/-! ## Models made in order -/

/-- Edits of `m` that mention no element before it is there. -/
def InOrder (m : Model) : List Edit → Prop
  | [] => True
  | edit :: rest => (∀ id ∈ edit.mentions, id < m.size) ∧ (m.apply edit).InOrder rest

instance decidableInOrder (m : Model) : (edits : List Edit) → Decidable (m.InOrder edits)
  | [] => .isTrue trivial
  | edit :: rest =>
    have := decidableInOrder (m.apply edit) rest
    inferInstanceAs (Decidable (_ ∧ _))

/-- Edits of `m` that refer to no element before it is there.  What they add may come before its
    container. -/
def RefersBack (m : Model) : List Edit → Prop
  | [] => True
  | edit :: rest => (∀ id ∈ edit.refersTo, id < m.size) ∧ (m.apply edit).RefersBack rest

instance decidableRefersBack (m : Model) : (edits : List Edit) → Decidable (m.RefersBack edits)
  | [] => .isTrue trivial
  | edit :: rest =>
    have := decidableRefersBack (m.apply edit) rest
    inferInstanceAs (Decidable (_ ∧ _))

/-- Models that a list of edits makes in order. -/
def MadeInOrder (m : Model) : Prop :=
  ∃ edits, empty.InOrder edits ∧ m = .ofEdits edits

/-- Every element is younger than its container and than all that it refers to. -/
def PointsBack (m : Model) : Prop :=
  ∀ id node, m.node? id = some node →
    (∀ c, node.container = some c → c < id) ∧ ∀ r ∈ node.element.references, r.2 < id

/-- **An edit that mentions what is there** adds an element that is younger than all of it. -/
theorem PointsBack.apply (h : m.PointsBack) {edit : Edit}
    (hedit : ∀ id ∈ edit.mentions, id < m.size) : (m.apply edit).PointsBack := by
  intro id node' hn
  obtain ⟨node, hkeeps, hnode⟩ := exists_keeps_of_apply hn
  rw [hkeeps.container, hkeeps.references]
  rcases hnode with hold | ⟨rfl, hnew⟩
  · exact h id node hold
  · cases edit with
    | ontology kind ns nsPrefix =>
      obtain rfl := Option.some.inj hnew
      exact ⟨nofun, nofun⟩
    | add container element =>
      obtain rfl := Option.some.inj hnew
      refine ⟨fun c hc => hedit c ?_, fun r hr => hedit r.2 ?_⟩
      · exact Option.some.inj hc ▸ List.mem_cons_self
      · exact List.mem_cons_of_mem _ (List.mem_map_of_mem hr)
    | importing | setRange => nomatch hnew

theorem MadeInOrder.pointsBack (h : m.MadeInOrder) : m.PointsBack := by
  obtain ⟨edits, hedits, rfl⟩ := h
  have hrun : ∀ {m : Model}, m.PointsBack → m.InOrder edits →
      (edits.foldl Model.apply m).PointsBack := by
    clear hedits
    induction edits with
    | nil => exact fun hm _ => hm
    | cons edit rest ih => exact fun hm hedits => ih (hm.apply hedits.1) hedits.2
  exact hrun (fun id node hn => nomatch hn) hedits

theorem PointsBack.lt_of_reference (h : m.PointsBack) {e : Element} (role : Role)
    (he : m.element? id = some e) (hr : (role, k) ∈ e.references) : k < id := by
  obtain ⟨node, hn, rfl⟩ := Option.map_eq_some_iff.mp he
  exact (h id node hn).2 _ hr

/-- What an element stands for is not younger. -/
theorem PointsBack.le_of_member? (h : m.PointsBack) (hk : m.member? id = some k) : k ≤ id := by
  rcases member?_eq_some_iff.mp hk with ⟨kind, he⟩ | ⟨rfl, -, -⟩
  · exact Nat.le_of_lt (h.lt_of_reference .member he (by simp [Element.references]))
  · exact Nat.le_refl id

theorem PointsBack.lt_of_subterm? (h : m.PointsBack) (hs : m.subterm? id = some k) : k < id := by
  obtain ⟨owner, hc, hmember⟩ := Option.bind_eq_some_iff.mp (subterm?_eq_some_iff.mp hs).2
  obtain ⟨node, hn, hcontainer⟩ := Option.bind_eq_some_iff.mp hc
  exact Nat.lt_of_le_of_lt (h.le_of_member? hmember) ((h id node hn).1 owner hcontainer)

/-- **Models made in order are ring-free.** -/
theorem MadeInOrder.ringFree (h : m.MadeInOrder) : m.RingFree := by
  refine ringFree_of_descends fun id _ k hk => ?_
  unfold standsOn at hk
  split at hk
  · rename_i kind member he
    obtain rfl : member = some k := Option.mem_toList.mp hk
    exact h.pointsBack.lt_of_reference .member he (by simp [Element.references])
  · rename_i super he
    rcases List.mem_append.mp hk with hsuper | hsub
    · obtain rfl : super = some k := Option.mem_toList.mp hsuper
      exact h.pointsBack.lt_of_reference .superterm he (by simp [Element.references])
    · exact h.pointsBack.lt_of_subterm? (Option.mem_toList.mp hsub)
  · nomatch hk

/-! ## Support -/

/-- Everything that something stands on. -/
def foundations (m : Model) : List ElementId :=
  m.ids.flatMap m.standsOn

theorem mem_foundations_of_mem_standsOn (h : k ∈ m.standsOn id) : k ∈ m.foundations :=
  List.mem_flatMap.mpr ⟨id, mem_ids.mpr (lt_size_of_mem_standsOn h), h⟩

/-- What an element stands on, directly or through others. -/
def support (m : Model) (id : ElementId) : List ElementId :=
  (Exploration.explore m.standsOn id false m.foundations fun _ =>
    Exploration.Reaches.mem_of_step fun _ _ => mem_foundations_of_mem_standsOn).found

theorem mem_support : k ∈ m.support id ↔ Exploration.Reaches m.standsOn id k := by
  simp [support, Exploration.mem_found_explore]

/-- Only elements stand on something. -/
theorem lt_size_of_reaches (h : Exploration.Reaches m.standsOn id k) : id < m.size := by
  induction h with
  | single hk => exact lt_size_of_mem_standsOn hk
  | tail _ _ ih => exact ih

/-- Whether a model is ring-free can be found out. -/
theorem ringFree_iff : m.RingFree ↔ ∀ id ∈ m.ids, id ∉ m.support id := by
  refine ⟨fun h id _ hid => h id (mem_support.mp hid), fun h id hid => ?_⟩
  exact h id (mem_ids.mpr (lt_size_of_reaches hid)) (mem_support.mpr hid)

instance : Decidable m.RingFree :=
  decidable_of_iff _ ringFree_iff.symm

theorem nodup_support (id : ElementId) : (m.support id).Nodup :=
  Exploration.nodup_found_explore _

theorem length_support_le (m : Model) (id : ElementId) :
    (m.support id).length ≤ m.foundations.length :=
  length_le_of_nodup (nodup_support id) fun _ hk =>
    (mem_support.mp hk).mem_of_step fun _ _ => mem_foundations_of_mem_standsOn

/-- **Every step loses support** in a ring-free model. -/
theorem RingFree.length_support_lt (hm : m.RingFree) (hk : k ∈ m.standsOn id) :
    (m.support k).length < (m.support id).length := by
  have hself : k ∉ m.support k := fun h => hm k (mem_support.mp h)
  have hsub : ∀ a ∈ k :: m.support k, a ∈ m.support id := by
    intro a ha
    rcases List.mem_cons.mp ha with rfl | ha
    · exact mem_support.mpr (.of_step hk)
    · exact mem_support.mpr ((Exploration.Reaches.of_step hk).trans (mem_support.mp ha))
  exact length_le_of_nodup (List.nodup_cons.mpr ⟨hself, nodup_support k⟩) hsub

end OntologyView.Model

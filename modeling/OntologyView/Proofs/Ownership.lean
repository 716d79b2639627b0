/-
  OWNERSHIP, asked from either end.

  1. **Specification** — read upwards, an axiom or an assertion is of the member that its container
     stands for: of the container itself, or of the member of the container if that is a reference.

  2. **Program** — the queries of `LinkedModel` read downwards.  `belongings` goes through the children
     of a member, and then through those of the references to it, which are looked up.

  3. **The crux** — where elements were placed the links agree in both directions, so both readings
     find the same (`Model.Interlinked.belongsTo_iff`).  Nobody has two containers and references come
     in the order of their ids, so the list of belongings is ordered (`Model.ListedBefore`), and what
     is ordered strictly is listed once.

  A reference is no such member: what its children are of is what it stands for.
-/
import OntologyView.Proofs.Placement
import OntologyView.Proofs.References

namespace OntologyView

/-! ## Owners, read upwards -/

namespace Model

variable {m : Model} {owner member x y : ElementId}

/-- **What belongs to a member is what has an owner that stands for it**, if the links agree and the
    member is no reference. -/
theorem Interlinked.belongsTo_iff (hm : m.Interlinked) (hmember : m.kind? member ≠ some .reference) :
    m.BelongsTo x member ↔ (m.container? x).bind m.member? = some member := by
  constructor
  · rintro (hx | ⟨r, kind, hr, hx⟩)
    · have hself : m.member? member = some member :=
        member?_eq_some_iff.mpr (Or.inr ⟨rfl, lt_size_of_mem_children hx, hmember⟩)
      rw [hm.linked member x hx, Option.bind_some, hself]
    · have hstands : m.member? r = some member := member?_eq_some_iff.mpr (Or.inl ⟨kind, hr⟩)
      rw [hm.linked r x hx, Option.bind_some, hstands]
  · intro h
    obtain ⟨owner, hc, howner⟩ := Option.bind_eq_some_iff.mp h
    exact belongsTo_of_mem_children ((hm.mem_children_iff owner x).mpr hc) howner

/-! ## The order of belongings -/

/-- The order in which the belongings of a member are listed: first its own children, then those of
    one reference after the other, by the ids of the references; and children of one owner as they
    were declared. -/
inductive ListedBefore (m : Model) (member x y : ElementId) : Prop where
  | declared {owner : ElementId} (hx : m.container? x = some owner)
      (hy : m.container? y = some owner) (hlt : x < y) : ListedBefore m member x y
  | own {r : ElementId} (hx : m.container? x = some member) (hy : m.container? y = some r)
      (hr : r ≠ member) : ListedBefore m member x y
  | byReference {r r' : ElementId} (hx : m.container? x = some r) (hy : m.container? y = some r')
      (hr : r ≠ member) (hlt : r < r') : ListedBefore m member x y

theorem ListedBefore.ne (h : m.ListedBefore member x y) : x ≠ y := by
  rintro rfl
  cases h with
  | declared hx hy hlt => exact Nat.lt_irrefl x hlt
  | own hx hy hr => exact hr (Option.some.inj (hy.symm.trans hx))
  | byReference hx hy hr hlt =>
    rw [Option.some.inj (hy.symm.trans hx)] at hlt
    exact Nat.lt_irrefl _ hlt

/-- A list of what is wanted of a member: all of it, each once, in the order of belongings. -/
structure Lists (m : Model) (member : ElementId) (wanted : ElementId → Prop)
    (found : List ElementId) : Prop where
  mem_iff : ∀ x, x ∈ found ↔ wanted x
  ordered : found.Pairwise (m.ListedBefore member)
  nodup : found.Nodup

/-- An element of a kind whose owner stands for the member. -/
def IsOf (m : Model) (kind : ElementKind) (member x : ElementId) : Prop :=
  m.kind? x = some kind ∧ (m.container? x).bind m.member? = some member

end Model

/-! ## Belongings, read downwards -/

namespace LinkedModel

variable {m : Model} {kind : ElementKind} {member : ElementId}

theorem ordered_ownedOfKind (hm : m.Interlinked) (owner : ElementId) :
    ((ofModel m).ownedOfKind kind owner).Pairwise (m.ListedBefore member) := by
  refine (List.Pairwise.imp_of_mem ?_ (hm.ascending owner)).filter _
  intro x y hx hy hlt
  exact .declared (hm.linked owner x hx) (hm.linked owner y hy) hlt

/-- The member comes before the references to it, and these come in order. -/
theorem ordered_belongings (hm : m.Interlinked) (hmember : m.kind? member ≠ some .reference) :
    ((ofModel m).belongings kind member).Pairwise (m.ListedBefore member) := by
  have hcontainer : ∀ owner, ∀ x ∈ (ofModel m).ownedOfKind kind owner,
      m.container? x = some owner := fun owner x hx =>
    hm.linked owner x (mem_ownedOfKind.mp hx).1
  have hne : ∀ r ∈ (ofModel m).referencesTo member, r ≠ member := by
    rintro r hr rfl
    obtain ⟨kind, he⟩ := mem_referencesTo.mp hr
    exact hmember (by rw [Model.kind?, he]; rfl)
  refine List.pairwise_flatMap.mpr ⟨fun owner _ => ordered_ownedOfKind hm owner, ?_⟩
  refine List.pairwise_cons.mpr ⟨fun r hr x hx y hy => ?_, ?_⟩
  · exact .own (hcontainer member x hx) (hcontainer r y hy) (hne r hr)
  · refine List.Pairwise.imp_of_mem (fun {r r'} hr _ hlt => ?_)
      (ascending_referring m .member (fun e => e.kind = .reference) member)
    intro x hx y hy
    exact .byReference (hcontainer r x hx) (hcontainer r' y hy) (hne r hr) hlt

/-- **The belongings of a member** are the elements of the kind whose owners stand for it. -/
theorem lists_belongings (hm : m.Interlinked) (hmember : m.kind? member ≠ some .reference)
    (kind : ElementKind) :
    m.Lists member (m.IsOf kind member) ((ofModel m).belongings kind member) where
  mem_iff := by
    intro x
    rw [mem_belongings, hm.belongsTo_iff hmember, Model.hasKind_iff, and_comm]
    rfl
  ordered := ordered_belongings hm hmember
  nodup := (ordered_belongings hm hmember).imp Model.ListedBefore.ne

/-- **Queries for what a member owns and look-ups of owners agree** in models whose elements were
    placed, for every member that is no reference, be it there or not.  What the queries find are the
    elements of their kinds whose owners stand for the member: its own first, as they were declared,
    and then those of the references to it, in the order of the references. -/
theorem queries_agree_on_owner (hm : m.Placed) (hmember : m.kind? member ≠ some .reference) :
    m.Lists member (fun x => m.subterm? x = some member)
      ((ofModel m).specializationsOf member) ∧
    m.Lists member (m.IsOf .key member) ((ofModel m).keysOf member) ∧
    m.Lists member (m.IsOf .propertyRestriction member)
      ((ofModel m).propertyRestrictionsOf member) ∧
    m.Lists member (m.IsOf .relationRestriction member)
      ((ofModel m).relationRestrictionsOf member) ∧
    m.Lists member (m.IsOf .link member) ((ofModel m).linksOf member) ∧
    (m.kind? member = some .conceptInstance ∨ m.kind? member = some .relationInstance →
      m.Lists member (m.IsOf .propertyValue member) ((ofModel m).propertyValuesOf member)) := by
  have hlists : ∀ kind, m.Lists member (m.IsOf kind member) ((ofModel m).belongings kind member) :=
    lists_belongings hm.interlinked hmember
  have hsubterm : (fun x => m.subterm? x = some member) = m.IsOf .specialization member :=
    funext fun x => propext Model.subterm?_eq_some_iff
  refine ⟨hsubterm ▸ hlists .specialization, hlists .key, hlists .propertyRestriction,
    hlists .relationRestriction, hlists .link, fun hk => ?_⟩
  have hnamed : (ofModel m).model.satisfies (·.kind.isNamedInstance) member = true := by
    rw [Model.satisfies_kind_iff]
    rcases hk with hk | hk
    · exact ⟨_, hk, rfl⟩
    · exact ⟨_, hk, rfl⟩
  rw [propertyValuesOf, if_pos hnamed]
  exact hlists .propertyValue

end LinkedModel

/-- An instance and two references to it, the first of them older than the instance, with values on
    all three, and a link and a specialization on the references.  A value on a reference to no
    instance is of nothing. -/
def sharedInstance : Model := .ofEdits [.description "http://example.com/game#" "game",
  .reference 0 .conceptInstance (some 2), .conceptInstance 0 "goblin" [], .propertyValue 1 none,
  .propertyValue 2 none, .reference 0 .conceptInstance (some 2), .propertyValue 5 none,
  .propertyValue 2 none, .link 1 none none, .specialize 5 none,
  .reference 0 .conceptInstance none, .propertyValue 10 none]

theorem queries_agree_on_owner_sharedInstance :
    sharedInstance.Placed ∧ sharedInstance.kind? 2 ≠ some .reference ∧
    sharedInstance.kind? 2 = some .conceptInstance ∧
    (LinkedModel.ofModel sharedInstance).propertyValuesOf 2 = [4, 7, 3, 6] ∧
    sharedInstance.Lists 2 (sharedInstance.IsOf .propertyValue 2) [4, 7, 3, 6] ∧
    sharedInstance.Lists 2 (sharedInstance.IsOf .link 2) [8] ∧
    sharedInstance.Lists 2 (fun x => sharedInstance.subterm? x = some 2) [9] := by
  have hm : sharedInstance.Placed := ⟨_, by decide +kernel, rfl⟩
  have hk : sharedInstance.kind? 2 = some .conceptInstance := by decide +kernel
  have hmember : sharedInstance.kind? 2 ≠ some .reference := by
    rw [hk]
    decide
  have hvalues : (LinkedModel.ofModel sharedInstance).propertyValuesOf 2 = [4, 7, 3, 6] := by
    decide +kernel
  have hlinks : (LinkedModel.ofModel sharedInstance).linksOf 2 = [8] := by decide +kernel
  have hspecializations : (LinkedModel.ofModel sharedInstance).specializationsOf 2 = [9] := by
    decide +kernel
  obtain ⟨hsub, -, -, -, hlink, hvalue⟩ := LinkedModel.queries_agree_on_owner hm hmember
  exact ⟨hm, hmember, hk, hvalues, hvalues ▸ hvalue (Or.inl hk), hlinks ▸ hlink,
    hspecializations ▸ hsub⟩

end OntologyView

/-
  INCLUSION: whether an element of a model is part of a view.

  Most elements are part of a view if they are KNOWN to it: declared locally, or shown.  Two kinds
  are only as good as what they stand for:

  * a reference is included if its member is;
  * a specialization is included if its superterm and its subterm are.

  1. **Specification** — `Included`, the least set that these rules close.  What only stands for
     itself, by a ring of references or specializations, is not in it.

  2. **Program** — `isIncluded` follows the rules downwards.  It carries the elements that it is in
     the middle of deciding, and answers `false` when it comes back to one of them.

  3. **The crux** — coming back never loses an answer (`includedFrom_of_derivation`).  A derivation
     of least height holds its conclusion nowhere above a premise: if it did, the conclusion would
     have a lower derivation.  So the walk along it never meets an element of its own path, and the
     program decides the specification in every model (`isIncluded_iff`).
-/
import OntologyView.Model.Containment
import OntologyView.Model.Term

namespace OntologyView.Model

/-! ## The rules -/

/-- What the rules of inclusion derive, if the elements `known` are known. -/
inductive Included (m : Model) (known : ElementId → Bool) : ElementId → Prop where
  | specialization {id super sub : ElementId}
      (he : m.element? id = some (.specialization (some super))) (hs : m.subterm? id = some sub)
      (hsuper : Included m known super) (hsub : Included m known sub) : Included m known id
  | reference {id member : ElementId} {kind : ReferenceKind}
      (he : m.element? id = some (.reference kind (some member)))
      (hmember : Included m known member) : Included m known id
  | known {id : ElementId} {e : Element} (he : m.element? id = some e)
      (hspecialization : e.kind ≠ .specialization) (hreference : e.kind ≠ .reference)
      (hknown : known id) : Included m known id

/-! ## The walk -/

/-- Inclusion of `id`, asked for in the middle of deciding the elements of `path`. -/
def includedFrom (m : Model) (known : ElementId → Bool) (path : List ElementId) (id : ElementId) :
    Bool :=
  if _hn : id ∈ path then false
  else
    match _he : m.element? id with
    | none => false
    | some (.specialization super) =>
      super.any (m.includedFrom known (id :: path)) &&
        (m.subterm? id).any (m.includedFrom known (id :: path))
    | some (.reference _ member) => member.any (m.includedFrom known (id :: path))
    | some _ => known id
termination_by unseen m.ids path
decreasing_by all_goals exact unseen_ids_lt (lt_size_of_element? _he) _hn

/-- Whether an element is part of a view that knows the elements `known`. -/
def isIncluded (m : Model) (known : ElementId → Bool) (id : ElementId) : Bool :=
  m.includedFrom known [] id

/-! ## The walk, rule by rule -/

variable {m : Model} {known : ElementId → Bool} {path : List ElementId} {id : ElementId}

theorem includedFrom_of_mem (h : id ∈ path) : m.includedFrom known path id = false := by
  rw [includedFrom, dif_pos h]

theorem includedFrom_of_unknown (he : m.element? id = none) :
    m.includedFrom known path id = false := by
  rw [includedFrom]
  split
  · rfl
  · split <;> simp_all

theorem includedFrom_specialization {super : Option ElementId} (hn : id ∉ path)
    (he : m.element? id = some (.specialization super)) :
    m.includedFrom known path id = (super.any (m.includedFrom known (id :: path)) &&
      (m.subterm? id).any (m.includedFrom known (id :: path))) := by
  rw [includedFrom, dif_neg hn]
  split <;> simp_all

theorem includedFrom_reference {kind : ReferenceKind} {member : Option ElementId} (hn : id ∉ path)
    (he : m.element? id = some (.reference kind member)) :
    m.includedFrom known path id = member.any (m.includedFrom known (id :: path)) := by
  rw [includedFrom, dif_neg hn]
  split <;> simp_all

theorem includedFrom_known {e : Element} (hn : id ∉ path) (he : m.element? id = some e)
    (hspecialization : e.kind ≠ .specialization) (hreference : e.kind ≠ .reference) :
    m.includedFrom known path id = known id := by
  rw [includedFrom, dif_neg hn]
  split
  · simp_all
  · rename_i super h
    rw [he, Option.some.injEq] at h
    exact absurd (h ▸ rfl) hspecialization
  · rename_i kind member h
    rw [he, Option.some.injEq] at h
    exact absurd (h ▸ rfl) hreference
  · rfl

theorem kind_ne_specialization {e : Element} (h : ∀ super, e = .specialization super → False) :
    e.kind ≠ .specialization := by
  intro hk
  cases e with
  | specialization super => exact h super rfl
  | _ => nomatch hk

theorem kind_ne_reference {e : Element} (h : ∀ kind member, e = .reference kind member → False) :
    e.kind ≠ .reference := by
  intro hk
  cases e with
  | reference kind member => exact h kind member rfl
  | _ => nomatch hk

/-! ## The walk derives what it answers -/

theorem included_of_includedFrom (h : m.includedFrom known path id = true) :
    m.Included known id := by
  induction hn : unseen m.ids path using Nat.strongRecOn generalizing path id with
  | _ n ih =>
    subst hn
    by_cases hp : id ∈ path
    · rw [includedFrom_of_mem hp] at h
      nomatch h
    · have step : ∀ {k : ElementId} {e : Element}, m.element? id = some e →
          m.includedFrom known (id :: path) k = true → m.Included known k := fun he hk =>
        ih _ (unseen_ids_lt (lt_size_of_element? he) hp) hk rfl
      cases he : m.element? id with
      | none =>
        rw [includedFrom_of_unknown he] at h
        nomatch h
      | some e =>
        by_cases hs : e.kind = .specialization
        · cases e with
          | specialization super =>
            rw [includedFrom_specialization hp he, Bool.and_eq_true, Option.any_eq_true,
              Option.any_eq_true] at h
            obtain ⟨⟨t, rfl, ht⟩, s, hs, hsub⟩ := h
            exact .specialization he hs (step he ht) (step he hsub)
          | _ => nomatch hs
        · by_cases hr : e.kind = .reference
          · cases e with
            | reference kind member =>
              rw [includedFrom_reference hp he, Option.any_eq_true] at h
              obtain ⟨k, rfl, hk⟩ := h
              exact .reference he (step he hk)
            | _ => nomatch hr
          · rw [includedFrom_known hp he hs hr] at h
            exact .known he hs hr h

/-! ## Derivations of least height -/

/-- Derivations of inclusion whose premises are derived lower than `height`. -/
inductive Derivation (m : Model) (known : ElementId → Bool) : Nat → ElementId → Prop where
  | specialization {height i j : Nat} {id super sub : ElementId}
      (he : m.element? id = some (.specialization (some super))) (hs : m.subterm? id = some sub)
      (hsuper : Derivation m known i super) (hsub : Derivation m known j sub)
      (hi : i < height) (hj : j < height) : Derivation m known height id
  | reference {height i : Nat} {id member : ElementId} {kind : ReferenceKind}
      (he : m.element? id = some (.reference kind (some member)))
      (hmember : Derivation m known i member) (hi : i < height) : Derivation m known height id
  | known {height : Nat} {id : ElementId} {e : Element} (he : m.element? id = some e)
      (hspecialization : e.kind ≠ .specialization) (hreference : e.kind ≠ .reference)
      (hknown : known id) : Derivation m known height id

theorem exists_derivation (h : m.Included known id) : ∃ height, m.Derivation known height id := by
  induction h with
  | specialization he hs _ _ ihsuper ihsub =>
    obtain ⟨i, hi⟩ := ihsuper
    obtain ⟨j, hj⟩ := ihsub
    exact ⟨i + j + 1, .specialization he hs hi hj (by omega) (by omega)⟩
  | reference he _ ih =>
    obtain ⟨i, hi⟩ := ih
    exact ⟨i + 1, .reference he hi (by omega)⟩
  | known he hs hr hk => exact ⟨0, .known he hs hr hk⟩

/-- The walk finds every derivation that is lower than all those of the elements of its path. -/
theorem includedFrom_of_derivation {height : Nat} (h : m.Derivation known height id)
    (hpath : ∀ p ∈ path, ∀ k ≤ height, ¬ m.Derivation known k p) :
    m.includedFrom known path id = true := by
  induction height using Nat.strongRecOn generalizing path id with
  | _ height ih =>
    by_cases hlower : ∃ k, k < height ∧ m.Derivation known k id
    · obtain ⟨k, hk, hd⟩ := hlower
      exact ih k hk hd fun p hp j hj => hpath p hp j (by omega)
    · have hn : id ∉ path := fun hp => hpath id hp height (Nat.le_refl _) h
      have step : ∀ {i : Nat} {k : ElementId}, i < height → m.Derivation known i k →
          m.includedFrom known (id :: path) k = true := by
        intro i k hi hd
        refine ih i hi hd fun p hp j hj => ?_
        rcases List.mem_cons.mp hp with rfl | hp
        · exact fun hdp => hlower ⟨j, by omega, hdp⟩
        · exact hpath p hp j (by omega)
      cases h with
      | specialization he hs hsuper hsub hi hj =>
        rw [includedFrom_specialization hn he, hs]
        simp [step hi hsuper, step hj hsub]
      | reference he hmember hi =>
        rw [includedFrom_reference hn he]
        simp [step hi hmember]
      | known he hs hr hk => rw [includedFrom_known hn he hs hr, hk]

/-- The walk decides the rules, in every model. -/
theorem isIncluded_iff : m.isIncluded known id = true ↔ m.Included known id :=
  ⟨included_of_includedFrom, fun h => by
    obtain ⟨height, hd⟩ := exists_derivation h
    exact includedFrom_of_derivation hd fun _ hp => nomatch hp⟩

/-! ## The rules hold of the answers -/

/-- A reference is included if its member is. -/
theorem isIncluded_reference {kind : ReferenceKind} {member : Option ElementId}
    (he : m.element? id = some (.reference kind member)) :
    m.isIncluded known id = member.any (m.isIncluded known) := by
  rw [Bool.eq_iff_iff, isIncluded_iff, Option.any_eq_true]
  simp only [isIncluded_iff]
  constructor
  · intro h
    cases h with
    | reference he' hmember =>
      rw [he] at he'
      exact ⟨_, (Element.reference.inj (Option.some.inj he')).2, hmember⟩
    | specialization he' =>
      rw [he] at he'
      nomatch he'
    | known he' _ hreference =>
      rw [he] at he'
      exact absurd (Option.some.inj he' ▸ rfl) hreference
  · rintro ⟨member, rfl, hmember⟩
    exact .reference he hmember

/-- A specialization is included if its two terms are. -/
theorem isIncluded_specialization {super : Option ElementId}
    (he : m.element? id = some (.specialization super)) :
    m.isIncluded known id =
      (super.any (m.isIncluded known) && (m.subterm? id).any (m.isIncluded known)) := by
  rw [Bool.eq_iff_iff, isIncluded_iff, Bool.and_eq_true, Option.any_eq_true, Option.any_eq_true]
  simp only [isIncluded_iff]
  constructor
  · intro h
    cases h with
    | specialization he' hs hsuper hsub =>
      rw [he] at he'
      exact ⟨⟨_, Element.specialization.inj (Option.some.inj he'), hsuper⟩, _, hs, hsub⟩
    | reference he' =>
      rw [he] at he'
      nomatch he'
    | known he' hspecialization =>
      rw [he] at he'
      exact absurd (Option.some.inj he' ▸ rfl) hspecialization
  · rintro ⟨⟨super, rfl, hsuper⟩, sub, hs, hsub⟩
    exact .specialization he hs hsuper hsub

end OntologyView.Model

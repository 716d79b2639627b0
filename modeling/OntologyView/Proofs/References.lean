/-
  REFERRERS IN ORDER: what is looked up by target is a scan of the model.

  1. **Program** — `CrossReferences.ofModel` records the references of a model one by one, element by
     element, and every look-up answers in the order in which things were first recorded.

  2. **Specification** — who refers to a target in a role are the elements of the model that hold such
     a reference, in order of their ids (`sourcesInRole_ofModel`).  So a query that looks for referrers
     is a filter of all ids (`LinkedModel.referring_ofModel`), and neither the other references that an
     element holds nor its other fields have any part in the answer.

  3. **The crux** — one more reference is one more arrival at the list of its target and its role, and
     at no other (`sourcesInRole_add`).  All references of an element are one arrival of the element
     (`sourcesInRole_addAll_map`), which is new, since the elements come in order.

  Which role stands for which field is the business of `Element.references`.
  `LinkedModel.queries_scan` says what the queries find in terms of the fields.
-/
import OntologyView.Proofs.Queries
import OntologyView.Proofs.Recording

namespace OntologyView

namespace CrossReferences

variable {x : CrossReferences} {role : Role} {s t : ElementId}

/-! ## One element after the other -/

/-- The references of one element are one arrival of the element. -/
theorem sourcesInRole_addAll_map (x : CrossReferences) (s : ElementId)
    (refs : List (Role × ElementId)) (role : Role) (t : ElementId) :
    (x.addAll (refs.map fun r => ⟨s, r.1, r.2⟩)).sourcesInRole role t =
      if (role, t) ∈ refs then addNew (x.sourcesInRole role t) s else x.sourcesInRole role t := by
  unfold addAll
  induction refs generalizing x with
  | nil => simp
  | cons r rest ih =>
    rw [List.map_cons, List.foldl_cons, ih, sourcesInRole_add]
    by_cases hfirst : (role, t) = r
    · subst hfirst
      have harrived : s ∈ addNew (x.sourcesInRole role t) s := mem_addNew.mpr (Or.inr rfl)
      simp [addNew_of_mem harrived]
    · have hne : ¬ (t = r.2 ∧ role = r.1) := fun h => hfirst (Prod.ext h.2 h.1)
      simp [hne, hfirst]

/-! ## All elements of a model -/

/-- Whether an element refers to a target in a role. -/
def refersTo (m : Model) (role : Role) (t : ElementId) (id : ElementId) : Bool :=
  (role, t) ∈ (m.element? id).elim [] Element.references

/-- **Who refers to a target in a role** are the elements that do, in order of their ids. -/
theorem sourcesInRole_ofModel (m : Model) (role : Role) (t : ElementId) :
    (ofModel m).sourcesInRole role t = m.ids.filter (refersTo m role t) := by
  have hprefix : ∀ n, ((empty.addAll ((List.range n).flatMap fun id =>
      ((m.element? id).elim [] Element.references).map fun r => ⟨id, r.1, r.2⟩)).sourcesInRole role t)
        = (List.range n).filter (refersTo m role t) := by
    intro n
    induction n with
    | zero => rfl
    | succ n ih =>
      -- The next element is larger than all that were recorded, so it comes last.
      have hnew : n ∉ (List.range n).filter (refersTo m role t) := fun h =>
        Nat.lt_irrefl n (List.mem_range.mp (List.mem_filter.mp h).1)
      rw [addAll] at ih
      rw [List.range_succ, List.flatMap_append, List.filter_append, addAll, List.foldl_append,
        List.flatMap_singleton, ← addAll, sourcesInRole_addAll_map, ih]
      by_cases href : (role, t) ∈ (m.element? n).elim [] Element.references
      · simp [href, refersTo, addNew, hnew]
      · simp [href, refersTo]
  exact hprefix m.size

end CrossReferences

namespace LinkedModel

/-- **Referrers of a sort** are a scan of the model. -/
theorem referring_ofModel (m : Model) (role : Role) (accept : Element → Bool)
    (t : ElementId) : (ofModel m).referring role accept t =
      m.ids.filter fun id =>
        m.satisfies (fun e => accept e && decide ((role, t) ∈ e.references)) id := by
  rw [referring, show (ofModel m).refs = .ofModel m from rfl,
    CrossReferences.sourcesInRole_ofModel, List.filter_filter]
  refine List.filter_congr fun id _ => ?_
  show (m.satisfies accept id && CrossReferences.refersTo m role t id) = _
  unfold CrossReferences.refersTo Model.satisfies
  cases m.element? id <;> rfl

theorem ascending_referring (m : Model) (role : Role) (accept : Element → Bool) (t : ElementId) :
    ((ofModel m).referring role accept t).Pairwise (· < ·) := by
  rw [referring_ofModel]
  exact List.pairwise_lt_range.filter _

/-! ## The queries for referrers -/

/-- What a scan of all ids finds: the wanted ones, in ascending order, and nothing else. -/
structure Scan (wanted : ElementId → Prop) (found : List ElementId) : Prop where
  ascending : found.Pairwise (· < ·)
  mem_iff : ∀ x, x ∈ found ↔ wanted x

/-- **The queries for referrers are scans of the model.**  What they find is said by the kind of the
    elements and by one of their fields, whichever role stands for the field among the references, and
    whether what the field holds is there or not.  And a referrer is recorded in a role if and only if
    it lists the reference. -/
theorem queries_scan (m : Model) (t : ElementId) :
    Scan (fun x => ∃ kind, m.element? x = some (.reference kind (some t)))
      ((ofModel m).referencesTo t) ∧
    Scan (fun x => m.element? x = some (.specialization (some t)))
      ((ofModel m).specializationsInto t) ∧
    Scan (fun x => ∃ name range, m.element? x = some (.property .scalar name (some t) range))
      ((ofModel m).propertiesWithDomain .scalar t) ∧
    Scan (fun x => ∃ name range, m.element? x = some (.property .structured name (some t) range))
      ((ofModel m).propertiesWithDomain .structured t) ∧
    Scan (fun x => ∃ relation,
        m.element? x = some (.relationRestriction (.range (some t)) relation))
      ((ofModel m).rangeRestrictionsTo t) ∧
    Scan (fun x => ∃ name target, m.element? x = some (.relationEntity name (some t) target))
      ((ofModel m).relationEntitiesFrom t) ∧
    Scan (fun x => ∃ name source, m.element? x = some (.relationEntity name source (some t)))
      ((ofModel m).relationEntitiesTo t) ∧
    Scan (fun x => ∃ name types sources targets,
        m.element? x = some (.relationInstance name types sources targets) ∧ t ∈ sources)
      ((ofModel m).relationInstancesFrom t) ∧
    ∀ s role, ⟨s, role⟩ ∈ (CrossReferences.ofModel m).referrers t ↔
      ∃ e, m.element? s = some e ∧ (role, t) ∈ e.references := by
  have hscan {role : Role} {accept : Element → Bool} {wanted : ElementId → Prop}
      (hmem : ∀ x, x ∈ (ofModel m).referring role accept t ↔ wanted x) :
      Scan wanted ((ofModel m).referring role accept t) :=
    ⟨ascending_referring m role accept t, hmem⟩
  refine ⟨hscan fun x => mem_referencesTo, hscan fun x => mem_specializationsInto,
    hscan fun x => mem_propertiesWithDomain, hscan fun x => mem_propertiesWithDomain,
    hscan fun x => mem_rangeRestrictionsTo, hscan fun x => mem_relationEntitiesFrom,
    hscan fun x => mem_relationEntitiesTo, hscan fun x => mem_relationInstancesFrom,
    fun s role => ?_⟩
  exact CrossReferences.mem_referrers_ofModel

end LinkedModel

end OntologyView

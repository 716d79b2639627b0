/-
  ATTRIBUTION: which classifier shows which property.

  1. **Specification** — a local property that is declared on `d` is shown by `d` if `d` is included.
     If it is not, the property sinks to every shown classifier that has `d` among its superterms
     (`LinkedModel.property_attribution`).

  2. **Program** — every shown classifier walks up its superterms and writes what it finds, each
     property at its owner, into one table.  Several classifiers write into one entry.

  3. **The crux** — what a classifier writes hangs on the frame only, not on what the others wrote, so
     the table holds the attributions of all of them (`Frame.mem_listAt_propertyTable`).

  That each classifier goes by itself shows where inherited properties meet.  Two of them show one
  property if and only if its domain is hidden and above both (`LinkedModel.shown_by_both_iff`).  So a
  property may appear on a classifier and again on a subterm of it
  (`property_repeated_below_hidden_domain`).
-/
import OntologyView.Model.Edit
import OntologyView.Proofs.Analysis
import OntologyView.Proofs.RingFree

namespace OntologyView

/-- `p` is a property of a kind that is declared on `domain`. -/
def Model.IsPropertyOf (m : Model) (kind : PropertyKind) (p domain : ElementId) : Prop :=
  ∃ name range, m.element? p = some (.property kind name (some domain) range)

/-- A property is declared on one domain. -/
theorem Model.IsPropertyOf.domain_unique {m : Model} {kind : PropertyKind} {p d d' : ElementId}
    (h : m.IsPropertyOf kind p d) (h' : m.IsPropertyOf kind p d') : d = d' := by
  obtain ⟨name, range, he⟩ := h
  obtain ⟨name', range', he'⟩ := h'
  have heq := Option.some.inj (he.symm.trans he')
  exact Option.some.inj (Element.property.inj heq).2.2.1

/-! ## The table of a frame -/

namespace Frame

variable {f : Frame} {kind : PropertyKind} {o p : ElementId}

theorem mem_attributions : (o, p) ∈ f.attributions kind ↔
    ∃ c ∈ f.shownOf ElementKind.isClassifier, ∃ d ∈ f.linked.superterms c true,
      p ∈ f.linked.propertiesWithDomain kind d ∧ p ∈ f.locals ∧
        o = if f.isIncluded d then d else c := by
  simp only [attributions, attributionsOf, List.mem_flatMap, List.mem_map, List.mem_filter, isLocal,
    decide_eq_true_eq, Prod.mk.injEq]
  constructor
  · rintro ⟨c, hc, d, hd, _, ⟨hp, hlocal⟩, ho, rfl⟩
    exact ⟨c, hc, d, hd, hp, hlocal, ho.symm⟩
  · rintro ⟨c, hc, d, hd, hp, hlocal, ho⟩
    exact ⟨c, hc, d, hd, p, ⟨hp, hlocal⟩, ho.symm, rfl⟩

/-- **The table holds the attributions**, whoever wrote them. -/
theorem mem_listAt_propertyTable :
    p ∈ (f.propertyTable kind).listAt o ↔ (o, p) ∈ f.attributions kind := by
  -- The keys are written first, all with the empty list, so what a list holds was added to it.
  have hempty : ∀ l : List ElementId,
      (Table.ofList (l.map fun id => (id, ([] : List ElementId)))).listAt o = [] := by
    intro l
    rw [Table.listAt, Table.get?_ofList_map]
    split <;> rfl
  rw [propertyTable, Table.mem_listAt_foldl_addTo, hempty]
  exact or_iff_right List.not_mem_nil

/-- The owner of an attribution, in terms of the view. -/
theorem Proper.owner_iff (hf : f.Proper) {c d : ElementId} :
    (o = if f.isIncluded d then d else c) ↔
      f.drawn.Includes f.model f.locals d ∧ o = d ∨
        ¬ f.drawn.Includes f.model f.locals d ∧ o = c := by
  have hincluded : f.isIncluded d = true ↔ f.drawn.Includes f.model f.locals d := hf.isIncluded_iff
  by_cases hd : f.isIncluded d = true
  · rw [if_pos hd, and_iff_right (hincluded.mp hd), or_iff_left]
    exact fun h => h.1 (hincluded.mp hd)
  · have hhidden := fun h => hd (hincluded.mpr h)
    rw [if_neg hd, and_iff_right hhidden, or_iff_right]
    exact fun h => hhidden h.1

/-- A table of properties has the shown classifiers for keys, and all owners of properties. -/
theorem Proper.mem_keys_propertyTable (hf : f.Proper) :
    o ∈ (f.propertyTable kind).keys ↔
      o ∈ f.shownOf ElementKind.isClassifier ∨ ∃ p, p ∈ (f.propertyTable kind).listAt o := by
  have hkeys : (Table.ofList ((f.shownOf ElementKind.isClassifier).map fun id =>
      (id, ([] : List ElementId)))).keys = f.shownOf ElementKind.isClassifier :=
    Table.keys_ofList_map _ hf.nodup_shownOf
  simp only [mem_listAt_propertyTable]
  rw [propertyTable, Table.mem_keys_foldl_addTo, hkeys]

theorem properties_drawn : f.drawn.properties kind = f.propertyTable kind := by
  cases kind <;> rfl

end Frame

/-! ## What a view shows -/

namespace LinkedModel

variable {m : Model} {root : ElementId} {locality : Locality} {v : View} {kind : PropertyKind}
  {a c o p : ElementId}

/-- A property is shown by its domain or, if that is hidden, by the classifiers below it. -/
theorem mem_properties_iff (h : (ofModel m).analyze root locality = .ok v) :
    p ∈ (v.properties kind).listAt o ↔
      p ∈ m.localElements root locality ∧ ∃ d, m.IsPropertyOf kind p d ∧
        ∃ c ∈ v.classifiers, d ∈ (ofModel m).superterms c true ∧
          (v.Includes m (m.localElements root locality) d ∧ o = d ∨
            ¬ v.Includes m (m.localElements root locality) d ∧ o = c) := by
  obtain ⟨order, -, hproper, rfl⟩ := exists_frame h
  rw [Frame.properties_drawn, Frame.mem_listAt_propertyTable, Frame.mem_attributions]
  constructor
  · rintro ⟨c, hc, d, hd, hp, hlocal, ho⟩
    exact ⟨hlocal, d, mem_propertiesWithDomain.mp hp, c, Frame.mem_classifiers_drawn.mpr hc, hd,
      hproper.owner_iff.mp ho⟩
  · rintro ⟨hlocal, d, hp, c, hc, hd, ho⟩
    exact ⟨c, Frame.mem_classifiers_drawn.mp hc, d, hd, mem_propertiesWithDomain.mpr hp, hlocal,
      hproper.owner_iff.mpr ho⟩

/-- **Attribution.**  A local property is shown by its domain, if a shown classifier has the domain
    among its superterms and the domain is included; by all those classifiers, if it is not; and by
    nothing else.  So it is always shown.  In models with rings this is said of the runs that end
    (`gives_analyzeFor`). -/
theorem property_attribution (h : (ofModel m).analyze root locality = .ok v) (kind : PropertyKind) :
    (∀ o p, p ∈ (v.properties kind).listAt o ↔
      p ∈ m.localElements root locality ∧ ∃ d, m.IsPropertyOf kind p d ∧
        ∃ c ∈ v.classifiers, d ∈ (ofModel m).superterms c true ∧
          (v.Includes m (m.localElements root locality) d ∧ o = d ∨
            ¬ v.Includes m (m.localElements root locality) d ∧ o = c)) ∧
    ∀ p ∈ m.localElements root locality, ∀ d, m.IsPropertyOf kind p d →
      ∀ c ∈ v.classifiers, d ∈ (ofModel m).superterms c true →
        ∃ o, (o = c ∨ o = d) ∧ v.Includes m (m.localElements root locality) o ∧
          p ∈ (v.properties kind).listAt o := by
  refine ⟨fun o p => mem_properties_iff h, ?_⟩
  intro p hlocal d hp c hc hd
  by_cases hincluded : v.Includes m (m.localElements root locality) d
  · refine ⟨d, Or.inr rfl, hincluded, (mem_properties_iff h).mpr ⟨hlocal, d, hp, c, hc, hd, ?_⟩⟩
    exact Or.inl ⟨hincluded, rfl⟩
  · refine ⟨c, Or.inl rfl, includes_of_mem_classifiers h hc,
      (mem_properties_iff h).mpr ⟨hlocal, d, hp, c, hc, hd, ?_⟩⟩
    exact Or.inr ⟨hincluded, rfl⟩

/-- **Where inherited properties meet.**  A classifier and one of its superterms both show a
    property if and only if its domain is hidden, and above the superterm, too.  In models with
    rings this is said of the runs that end (`gives_analyzeFor`). -/
theorem shown_by_both_iff (h : (ofModel m).analyze root locality = .ok v) (ha : a ∈ v.classifiers)
    (hc : c ∈ v.classifiers) (hne : a ≠ c) (hsup : a ∈ (ofModel m).superterms c false) :
    (p ∈ (v.properties kind).listAt a ∧ p ∈ (v.properties kind).listAt c) ↔
      p ∈ m.localElements root locality ∧ ∃ d, m.IsPropertyOf kind p d ∧
        ¬ v.Includes m (m.localElements root locality) d ∧
        d ∈ (ofModel m).superterms a false := by
  constructor
  · rintro ⟨hpa, hpc⟩
    obtain ⟨hlocal, d, hp, b, -, hd, howner⟩ := (mem_properties_iff h).mp hpa
    obtain ⟨-, d', hp', b', -, -, howner'⟩ := (mem_properties_iff h).mp hpc
    obtain rfl := hp.domain_unique hp'
    rcases howner with ⟨hincluded, rfl⟩ | ⟨hhidden, rfl⟩
    · -- Shown by its domain, which is included, and so by nothing else.
      rcases howner' with ⟨-, heq⟩ | ⟨hhidden, -⟩
      · exact absurd heq.symm hne
      · exact absurd hincluded hhidden
    · -- Sunk to the superterm, so the domain is above it, and not the superterm itself.
      refine ⟨hlocal, d, hp, hhidden, ?_⟩
      rcases mem_superterms_true.mp hd with hd | rfl
      · exact hd
      · exact absurd (includes_of_mem_classifiers h ha) hhidden
  · rintro ⟨hlocal, d, hp, hhidden, hd⟩
    constructor
    · exact (mem_properties_iff h).mpr
        ⟨hlocal, d, hp, a, ha, mem_superterms_true.mpr (Or.inl hd), Or.inr ⟨hhidden, rfl⟩⟩
    · have hdc : d ∈ (ofModel m).superterms c false := superterms_trans hsup hd
      exact (mem_properties_iff h).mpr
        ⟨hlocal, d, hp, c, hc, mem_superterms_true.mpr (Or.inl hdc), Or.inr ⟨hhidden, rfl⟩⟩

end LinkedModel

/-! ## Hidden domains -/

/-- A chain of three aspects, the middle one in another document, with a property on each of the
    upper two. -/
def hiddenMiddle : Model := .ofEdits [.vocabulary "http://example.com/dnd#" "dnd",
  .vocabulary "http://example.com/base#" "base", .aspect 0 "A", .aspect 1 "B", .aspect 0 "C",
  .specialize 3 (some 2), .specialize 4 (some 3), .property 0 "a" .scalar (some 2) none,
  .property 0 "b" .scalar (some 3) none]

theorem property_attribution_hiddenMiddle :
    ∃ v, (LinkedModel.ofModel hiddenMiddle).analyze 0 .topLevelStatements = .ok v ∧
      (∀ o p, p ∈ (v.properties .scalar).listAt o ↔
        p ∈ hiddenMiddle.localElements 0 .topLevelStatements ∧
          ∃ d, hiddenMiddle.IsPropertyOf .scalar p d ∧
            ∃ c ∈ v.classifiers, d ∈ (LinkedModel.ofModel hiddenMiddle).superterms c true ∧
              (v.Includes hiddenMiddle (hiddenMiddle.localElements 0 .topLevelStatements) d ∧ o = d ∨
                ¬ v.Includes hiddenMiddle (hiddenMiddle.localElements 0 .topLevelStatements) d ∧
                  o = c)) ∧
      8 ∈ (v.properties .scalar).listAt 4 ∧ (v.properties .scalar).listAt 3 = [] := by
  have hok : ((LinkedModel.ofModel hiddenMiddle).analyze 0 .topLevelStatements).toOption.any
      (fun v => decide (8 ∈ (v.properties .scalar).listAt 4 ∧
        (v.properties .scalar).listAt 3 = [])) = true := by
    decide +kernel
  obtain ⟨v, hv, htest⟩ := exists_of_any hok
  exact ⟨v, hv, (LinkedModel.property_attribution hv .scalar).1, of_decide_eq_true htest⟩

/-- A chain of three aspects, the upper one in another document, with a property on that one. -/
def hiddenTop : Model := .ofEdits [.vocabulary "http://example.com/dnd#" "dnd",
  .vocabulary "http://example.com/base#" "base", .aspect 1 "Hidden", .aspect 0 "A", .aspect 0 "C",
  .specialize 3 (some 2), .specialize 4 (some 3), .property 0 "p" .scalar (some 2) none]

theorem ringFree_hiddenTop : hiddenTop.RingFree :=
  Model.ringFree_of_descends (by decide +kernel)

theorem shown_by_both_iff_hiddenTop :
    ∃ v, (LinkedModel.ofModel hiddenTop).analyze 0 .topLevelStatements = .ok v ∧
      3 ∈ v.classifiers ∧ 4 ∈ v.classifiers ∧
      3 ∈ (LinkedModel.ofModel hiddenTop).superterms 4 false ∧
      ((7 ∈ (v.properties .scalar).listAt 3 ∧ 7 ∈ (v.properties .scalar).listAt 4) ↔
        7 ∈ hiddenTop.localElements 0 .topLevelStatements ∧
          ∃ d, hiddenTop.IsPropertyOf .scalar 7 d ∧
            ¬ v.Includes hiddenTop (hiddenTop.localElements 0 .topLevelStatements) d ∧
            d ∈ (LinkedModel.ofModel hiddenTop).superterms 3 false) := by
  have hok : ((LinkedModel.ofModel hiddenTop).analyze 0 .topLevelStatements).toOption.any
      (fun v => decide (3 ∈ v.classifiers ∧ 4 ∈ v.classifiers)) = true := by
    decide +kernel
  have hsup : 3 ∈ (LinkedModel.ofModel hiddenTop).superterms 4 false := by decide +kernel
  obtain ⟨v, hv, htest⟩ := exists_of_any hok
  obtain ⟨ha, hc⟩ := of_decide_eq_true htest
  exact ⟨v, hv, ha, hc, hsup, LinkedModel.shown_by_both_iff hv ha hc (by decide) hsup⟩

/-- A property with a hidden domain is repeated along a chain below it, also without rings. -/
theorem property_repeated_below_hidden_domain :
    ¬ ∀ (m : Model) (root : ElementId) (locality : Locality) (v : View), m.RingFree →
      (LinkedModel.ofModel m).analyze root locality = .ok v →
      ∀ a ∈ v.classifiers, ∀ c ∈ v.classifiers, a ≠ c →
        a ∈ (LinkedModel.ofModel m).superterms c false →
        c ∉ (LinkedModel.ofModel m).superterms a false →
        ∀ kind p, ¬ (p ∈ (v.properties kind).listAt a ∧ p ∈ (v.properties kind).listAt c) := by
  intro honce
  have hok : ((LinkedModel.ofModel hiddenTop).analyze 0 .topLevelStatements).toOption.any
      (fun v => decide (3 ∈ v.classifiers ∧ 4 ∈ v.classifiers ∧
        7 ∈ (v.properties .scalar).listAt 3 ∧ 7 ∈ (v.properties .scalar).listAt 4)) = true := by
    decide +kernel
  have hsup : 3 ∈ (LinkedModel.ofModel hiddenTop).superterms 4 false := by decide +kernel
  have hnsup : 4 ∉ (LinkedModel.ofModel hiddenTop).superterms 3 false := by decide +kernel
  obtain ⟨v, hv, htest⟩ := exists_of_any hok
  obtain ⟨ha, hc, hpa, hpc⟩ := of_decide_eq_true htest
  exact honce hiddenTop 0 .topLevelStatements v ringFree_hiddenTop hv 3 ha 4 hc (by decide) hsup
    hnsup .scalar 7 ⟨hpa, hpc⟩

end OntologyView

/-
  PREFIXES: which namespace a prefix stands for, said of the imports alone.

  A text `p:Name` is read with two tables, the second one made from the first: from the imported
  namespaces to their prefixes, and back again.  In the first table a later import replaces the
  prefix and leaves the namespace at its place; in the second one the first place wins.

  Neither table is needed to say what comes out:

  * LAST PREFIX   a namespace goes by the last of the prefixes that it is imported under
                  (`lastPrefix?`);
  * FIRST PLACE   of the namespaces that go by one prefix, that one is meant whose first import
                  under any prefix comes earliest (`StandsFirst`).

  The crux is that the last import decides WHICH namespaces compete and the first import decides WHO
  wins, so that one search through the imports does both (`firstKnown?`,
  `Ontology.find?_importPrefixes`).
-/
import OntologyView.Proofs.Labels

namespace OntologyView

/-! ## The imports in order -/

namespace Import

variable {imports : List Import} {nsPrefix ns ns' : String}

/-- The prefix that a namespace goes by: that of its last import that carries one. -/
def lastPrefix? (imports : List Import) (ns : String) : Option String :=
  ((imports.filter fun what => what.ns = ns).filterMap Import.nsPrefix).getLast?

/-- The place of the first import of a namespace that carries a prefix.  Without such an import, the
    end of the list. -/
def firstPlace (imports : List Import) (ns : String) : Nat :=
  imports.findIdx fun what => what.ns = ns ∧ what.nsPrefix.isSome

/-- Among the namespaces that go by a prefix, `ns` is the one that comes first. -/
structure StandsFirst (imports : List Import) (nsPrefix ns : String) : Prop where
  known : lastPrefix? imports ns = some nsPrefix
  earliest : ∀ other, lastPrefix? imports other = some nsPrefix →
    firstPlace imports ns ≤ firstPlace imports other

/-- The namespace of the first import that carries a prefix and is one of a namespace that goes by
    `nsPrefix`.  The two prefixes need not be the same. -/
def firstKnown? (imports : List Import) (nsPrefix : String) : Option String :=
  (imports.find? fun what =>
    what.nsPrefix.isSome ∧ lastPrefix? imports what.ns = some nsPrefix).map Import.ns

/-- A namespace that goes by a prefix stands somewhere in the list. -/
theorem getElem?_firstPlace (h : lastPrefix? imports ns = some nsPrefix) :
    ∃ what, imports[firstPlace imports ns]? = some what ∧ what.ns = ns ∧ what.nsPrefix.isSome := by
  obtain ⟨what, hwhat, hcarries⟩ := List.mem_filterMap.mp (List.mem_of_getLast? h)
  obtain ⟨hmem, hns⟩ := List.mem_filter.mp hwhat
  have hfound : (imports.find? fun what => what.ns = ns ∧ what.nsPrefix.isSome).isSome :=
    List.find?_isSome.mpr ⟨what, hmem,
      decide_eq_true ⟨of_decide_eq_true hns, Option.isSome_of_eq_some hcarries⟩⟩
  obtain ⟨first, hfirst⟩ := Option.isSome_iff_exists.mp hfound
  have hprefixes := List.find?_some hfirst
  exact ⟨first, List.find?_eq_getElem?_findIdx.symm.trans hfirst, of_decide_eq_true hprefixes⟩

theorem firstPlace_le {i : Nat} {what : Import} (hi : i < imports.length) (hat : imports[i] = what)
    (hcarries : what.nsPrefix.isSome) : firstPlace imports what.ns ≤ i := by
  refine Nat.le_of_not_lt fun hlt => ?_
  have hnot := List.not_of_lt_findIdx hlt
  simp [hat, hcarries] at hnot

/-- No two namespaces have their first import at one place. -/
theorem StandsFirst.unique (h : StandsFirst imports nsPrefix ns)
    (h' : StandsFirst imports nsPrefix ns') : ns = ns' := by
  have hplace : firstPlace imports ns = firstPlace imports ns' :=
    Nat.le_antisymm (h.earliest ns' h'.known) (h'.earliest ns h.known)
  obtain ⟨what, hwhat, hns, -⟩ := getElem?_firstPlace h.known
  obtain ⟨what', hwhat', hns', -⟩ := getElem?_firstPlace h'.known
  obtain rfl : what = what' := Option.some.inj (hwhat.symm.trans (hplace ▸ hwhat'))
  exact hns.symm.trans hns'

theorem standsFirst_of_firstKnown? (h : firstKnown? imports nsPrefix = some ns) :
    StandsFirst imports nsPrefix ns := by
  obtain ⟨what, hfound, rfl⟩ := Option.map_eq_some_iff.mp h
  obtain ⟨hwhat, i, hi, hat, hbefore⟩ := List.find?_eq_some_iff_getElem.mp hfound
  obtain ⟨hcarries, hknown⟩ := of_decide_eq_true hwhat
  refine ⟨hknown, fun other hother => Nat.le_trans (firstPlace_le hi hat hcarries) ?_⟩
  -- An import of another one further in front would have been found instead.
  obtain ⟨first, hfirst, rfl, hfirstCarries⟩ := getElem?_firstPlace hother
  obtain ⟨_, hatFirst⟩ := List.getElem?_eq_some_iff.mp hfirst
  refine Nat.le_of_not_lt fun hlt => ?_
  have hnot := hbefore _ hlt
  simp [hatFirst, hfirstCarries, hother] at hnot

theorem firstKnown?_eq_none_iff :
    firstKnown? imports nsPrefix = none ↔ ∀ ns, lastPrefix? imports ns ≠ some nsPrefix := by
  rw [firstKnown?, Option.map_eq_none_iff, List.find?_eq_none]
  constructor
  · intro hnone ns hknown
    obtain ⟨what, hwhat, rfl, hcarries⟩ := getElem?_firstPlace hknown
    exact hnone what (List.mem_of_getElem? hwhat) (decide_eq_true ⟨hcarries, hknown⟩)
  · intro hunknown what _ hwhat
    exact hunknown what.ns (of_decide_eq_true hwhat).2

/-- **The first namespace by a prefix**, as found by one search. -/
theorem firstKnown?_eq_some_iff :
    firstKnown? imports nsPrefix = some ns ↔ StandsFirst imports nsPrefix ns := by
  refine ⟨standsFirst_of_firstKnown?, fun h => ?_⟩
  cases hfound : firstKnown? imports nsPrefix with
  | none => exact absurd h.known (firstKnown?_eq_none_iff.mp hfound ns)
  | some found => rw [(standsFirst_of_firstKnown? hfound).unique h]

end Import

/-! ## The two tables of an ontology -/

namespace Ontology

/-- Of the first table: of several prefixes of a namespace, the last one. -/
theorem get?_importPrefixes (o : Ontology) (ns : String) :
    o.importPrefixes.get? ns = Import.lastPrefix? o.imports ns := by
  rw [importPrefixes, Table.get?_ofList, Import.lastPrefix?, List.filterMap_filter,
    List.filter_filterMap, List.map_filterMap]
  congr 2
  funext what
  by_cases h : what.ns = ns <;> cases what.nsPrefix <;> simp [h]

/-- Of the second table: of several namespaces of a prefix, the one that arrived first. -/
theorem find?_importPrefixes (o : Ontology) (nsPrefix : String) :
    (o.importPrefixes.entries.find? fun entry => entry.2 = nsPrefix).map Prod.fst =
      Import.firstKnown? o.imports nsPrefix := by
  have harrivals : (o.imports.filterMap fun what => what.nsPrefix.map (what.ns, ·)).map Prod.fst =
      (o.imports.filter fun what => what.nsPrefix.isSome).map Import.ns := by
    induction o.imports with
    | nil => rfl
    | cons what rest ih => cases hcarries : what.nsPrefix <;> simp [hcarries, ih]
  rw [Table.map_fst_find?_entries]
  simp only [get?_importPrefixes]
  rw [importPrefixes, Table.find?_keys_ofList, harrivals, List.find?_map, List.find?_filter,
    Import.firstKnown?]
  simp

theorem meaning?_of_ne {o : Ontology} {nsPrefix : String} (h : nsPrefix ≠ o.nsPrefix) :
    o.meaning? nsPrefix = Import.firstKnown? o.imports nsPrefix := by
  rw [meaning?, if_neg h, find?_importPrefixes]

end Ontology

/-! ## Reading by the imports -/

namespace Model

variable {m : Model} {c : ElementId} {text nsPrefix name : String}

/-- The imports of an ontology.  Nothing else has imports. -/
def imports (m : Model) (id : ElementId) : List Import :=
  (m.ontology? id).elim [] Ontology.imports

/-- A prefix that is not the own one stands for what the imports say. -/
theorem meaning?_of_imports
    (h : ∀ header, m.ontology? c = some header → nsPrefix ≠ header.nsPrefix) :
    m.meaning? c nsPrefix = Import.firstKnown? (m.imports c) nsPrefix := by
  rw [meaning?, imports]
  cases hc : m.ontology? c with
  | none => rfl
  | some header => exact Ontology.meaning?_of_ne (h header hc)

theorem expandText_of_abbreviated (h : Iri.Form.of text = .abbreviated nsPrefix name) :
    m.expandText c text = (m.meaning? c nsPrefix).elim text (Iri.memberIri · name) := by
  rw [expandText, Iri.expand_of_abbreviated h, get?_namespaces]

/-- Text that is full, or has no colon, stands for itself. -/
theorem expandText_of_plain (h : Iri.isFull text ∨ ':' ∉ text.toList) :
    m.expandText c text = text := by
  refine Iri.expand_of_not_abbreviated fun p n hform => ?_
  obtain ⟨hfull, rfl, -⟩ := Iri.Form.of_eq_abbreviated_iff.mp hform
  rcases h with h | h
  · exact hfull h
  · exact h (by simp [Iri.toList_prefixed])

/-- **Prefixes are resolved by the imports.**  Text that is full, or has no colon, stands for itself.
    Any other text is a prefix and a name around its first colon.  The own prefix of the ontology
    comes first.  Then comes the one namespace that stands first among those that go by the prefix.
    Where none does, the text stands for itself.  What was expanded is not expanded again. -/
theorem expandText_over_imports (m : Model) (c : ElementId) (text : String) :
    (Iri.isFull text ∨ ':' ∉ text.toList → m.expandText c text = text) ∧
    (¬ (Iri.isFull text ∨ ':' ∉ text.toList) →
      ∃ nsPrefix name, text = Iri.prefixed nsPrefix name ∧ ':' ∉ nsPrefix.toList ∧
        (∀ header, m.ontology? c = some header → nsPrefix = header.nsPrefix →
          m.expandText c text = Iri.memberIri header.ns name) ∧
        ((∀ header, m.ontology? c = some header → nsPrefix ≠ header.nsPrefix) →
          ((∃ known, Import.lastPrefix? (m.imports c) known = some nsPrefix) →
            ∃ ns, (∀ first, Import.StandsFirst (m.imports c) nsPrefix first ↔ first = ns) ∧
              m.expandText c text = Iri.memberIri ns name) ∧
          ((∀ ns, Import.lastPrefix? (m.imports c) ns ≠ some nsPrefix) →
            m.expandText c text = text))) ∧
    m.expandText c (m.expandText c text) = m.expandText c text := by
  refine ⟨expandText_of_plain, fun hplain => ?_, Iri.expand_expand _ text⟩
  rw [not_or, Decidable.not_not] at hplain
  obtain ⟨nsPrefix, name, hform⟩ := Iri.Form.exists_of_eq_abbreviated hplain.1 hplain.2
  obtain ⟨-, htext, hcolon⟩ := Iri.Form.of_eq_abbreviated_iff.mp hform
  refine ⟨nsPrefix, name, htext, hcolon, ?_, fun hother => ⟨?_, ?_⟩⟩
  · rintro header hc rfl
    rw [expandText_of_abbreviated hform, meaning?_own hc, Option.elim_some]
  · -- Some namespace goes by the prefix, so the search finds the first one, and there is only one.
    rintro ⟨known, hknown⟩
    cases hfound : Import.firstKnown? (m.imports c) nsPrefix with
    | none => exact absurd hknown (Import.firstKnown?_eq_none_iff.mp hfound known)
    | some ns =>
      refine ⟨ns, fun first => ?_, ?_⟩
      · rw [← Import.firstKnown?_eq_some_iff, hfound, Option.some.injEq, eq_comm]
      · rw [expandText_of_abbreviated hform, meaning?_of_imports hother, hfound, Option.elim_some]
  · intro hunknown
    rw [expandText_of_abbreviated hform, meaning?_of_imports hother,
      Import.firstKnown?_eq_none_iff.mpr hunknown, Option.elim_none]

end Model

/-- An ontology that imports `base` under a prefix that is given up for another one later, which by
    then is the prefix of another namespace, too.  A last import uses the own prefix of the
    ontology. -/
def renamedImportEdits : List Edit := [.vocabulary "http://example.com/dnd#" "dnd",
  .importing 0 ⟨.extension, "http://example.com/base#", some "old"⟩,
  .importing 0 ⟨.extension, "http://example.com/late#", some "b"⟩,
  .importing 0 ⟨.extension, "http://example.com/base#", some "b"⟩,
  .importing 0 ⟨.usage, "http://example.com/base#", none⟩,
  .importing 0 ⟨.extension, "http://example.com/other#", some "dnd"⟩]

theorem expandText_over_imports_renamedImport :
    (Model.ofEdits renamedImportEdits).expandText 0 "b:Thing:1" =
      "<http://example.com/base#Thing:1>" ∧
    (Model.ofEdits renamedImportEdits).expandText 0 "dnd:Monster" =
      "<http://example.com/dnd#Monster>" ∧
    (Model.ofEdits renamedImportEdits).expandText 0 "old:Thing" = "old:Thing" ∧
    (Model.ofEdits renamedImportEdits).expandText 0 "<b:Thing>" = "<b:Thing>" := by
  obtain ⟨header, hheader, hns, howned⟩ : ∃ header,
      (Model.ofEdits renamedImportEdits).ontology? 0 = some header ∧
      header.ns = "http://example.com/dnd#" ∧ header.nsPrefix = "dnd" :=
    ⟨_, rfl, by decide +kernel, by decide +kernel⟩
  have hother : ∀ nsPrefix, nsPrefix ≠ "dnd" → ∀ context,
      (Model.ofEdits renamedImportEdits).ontology? 0 = some context →
        nsPrefix ≠ context.nsPrefix := by
    intro nsPrefix hne context hcontext
    rwa [← Option.some.inj (hheader.symm.trans hcontext), howned]
  refine ⟨?_, ?_, ?_, ?_⟩
  · obtain ⟨nsPrefix, name, htext, hcolon, -, hread⟩ :=
      (Model.expandText_over_imports (Model.ofEdits renamedImportEdits) 0 "b:Thing:1").2.1
        (by decide +kernel)
    obtain ⟨rfl, rfl⟩ : "b" = nsPrefix ∧ "Thing:1" = name :=
      (Iri.prefixed_inj (by decide +kernel) hcolon).mp ((by decide +kernel : _ = _).trans htext)
    obtain ⟨ns, hfirst, hexpanded⟩ := (hread (hother "b" (by decide))).1
      ⟨"http://example.com/late#", by decide +kernel⟩
    -- The import as `old` stands first, although `late` is imported as `b` before `base` is.
    have hplace : Import.firstPlace ((Model.ofEdits renamedImportEdits).imports 0)
        "http://example.com/base#" = 0 := by decide +kernel
    obtain rfl : "http://example.com/base#" = ns :=
      (hfirst _).mp ⟨by decide +kernel, fun _ _ => hplace ▸ Nat.zero_le _⟩
    exact hexpanded.trans (by decide +kernel)
  · obtain ⟨nsPrefix, name, htext, hcolon, hown, -⟩ :=
      (Model.expandText_over_imports (Model.ofEdits renamedImportEdits) 0 "dnd:Monster").2.1
        (by decide +kernel)
    obtain ⟨rfl, rfl⟩ : "dnd" = nsPrefix ∧ "Monster" = name :=
      (Iri.prefixed_inj (by decide +kernel) hcolon).mp ((by decide +kernel : _ = _).trans htext)
    rw [hown header hheader howned.symm, hns]
    decide +kernel
  · obtain ⟨nsPrefix, name, htext, hcolon, -, hread⟩ :=
      (Model.expandText_over_imports (Model.ofEdits renamedImportEdits) 0 "old:Thing").2.1
        (by decide +kernel)
    obtain ⟨rfl, rfl⟩ : "old" = nsPrefix ∧ "Thing" = name :=
      (Iri.prefixed_inj (by decide +kernel) hcolon).mp ((by decide +kernel : _ = _).trans htext)
    exact (hread (hother "old" (by decide))).2
      (Import.firstKnown?_eq_none_iff.mp (by decide +kernel))
  · exact (Model.expandText_over_imports (Model.ofEdits renamedImportEdits) 0 "<b:Thing>").1
      (by decide +kernel)

end OntologyView

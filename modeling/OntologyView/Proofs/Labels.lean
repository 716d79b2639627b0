/-
  LABELS READ BACK: what is written of a member stands for that member.

  The label by the prefix of the member's own ontology is read back in that ontology, whatever else
  is imported there: the own prefix is looked at first (`meaning?_own`).

  The crux is the label in ANOTHER ontology.  It is written with one table and read with its inverse,
  where one prefix may stand for several namespaces, and the own prefix of the context shadows all
  of them.  `meaning?` says which namespace the inverse chooses (`get?_namespaces`), and the label is
  read back exactly when that is the namespace of the member (`Placed.labels_read_back`).

  The full IRI needs no context.  Where names hold no hash it tells members apart by their name and
  by the bare namespace of their ontology, and by nothing else (`full_iris_tell_apart`).  In a ring of
  containers the guarded walk has an answer, and the other one never ends.
-/
import OntologyView.Model.Label
import OntologyView.Proofs.Containment

namespace OntologyView

/-! ## What a prefix stands for -/

/-- The namespace that a prefix stands for: that of the ontology itself if the prefix is its own, and
    otherwise the first of the imported ones that has this prefix. -/
def Ontology.meaning? (o : Ontology) (nsPrefix : String) : Option String :=
  if nsPrefix = o.nsPrefix then some o.ns
  else (o.importPrefixes.entries.find? fun entry => entry.2 = nsPrefix).map Prod.fst

theorem Ontology.get?_namespaces (o : Ontology) (nsPrefix : String) :
    o.namespaces.get? nsPrefix = o.meaning? nsPrefix := by
  rw [namespaces, Table.get?_foldl_insertNew, Table.insert, Table.get?_update, meaning?]
  split <;> simp

/-- A prefix that is written for some namespace stands for one, if not for the same. -/
theorem Ontology.exists_meaning?_of_get?_importPrefixes {o : Ontology} {ns nsPrefix : String}
    (h : o.importPrefixes.get? ns = some nsPrefix) : ∃ read, o.meaning? nsPrefix = some read := by
  rw [← Option.isSome_iff_exists, meaning?]
  split
  · rfl
  · rw [Option.isSome_map, List.find?_isSome]
    exact ⟨(ns, nsPrefix), Table.get?_eq_some_iff.mp h, decide_eq_true rfl⟩

namespace Model

variable {m : Model} {member o c : ElementId} {header : Ontology} {name nsPrefix ns : String}

/-- The namespace that a prefix stands for in an ontology. -/
def meaning? (m : Model) (context : ElementId) (nsPrefix : String) : Option String :=
  (m.ontology? context).bind (·.meaning? nsPrefix)

/-- **The inverse table, entry by entry.** -/
theorem get?_namespaces (m : Model) (c : ElementId) (nsPrefix : String) :
    (m.namespaces c).get? nsPrefix = m.meaning? c nsPrefix := by
  rw [namespaces, meaning?]
  cases m.ontology? c with
  | none => rfl
  | some context => exact context.get?_namespaces nsPrefix

/-- Nothing shadows the own prefix of an ontology. -/
theorem meaning?_own (ho : m.ontology? o = some header) :
    m.meaning? o header.nsPrefix = some header.ns := by
  rw [meaning?, ho, Option.bind_some, Ontology.meaning?, if_pos rfl]

/-- Elsewhere than in itself an ontology is known by the import of its namespace. -/
theorem prefixIn?_eq (ho : m.ontology? o = some header) (hc : c ≠ o) :
    m.prefixIn? o c = (m.importPrefixes c).get? header.ns := by
  rw [prefixIn?, ho, Option.bind_some, if_neg (Ne.symm hc)]

theorem exists_meaning?_of_prefixIn? (ho : m.ontology? o = some header) (hc : c ≠ o)
    (h : m.prefixIn? o c = some nsPrefix) : ∃ ns, m.meaning? c nsPrefix = some ns := by
  rw [prefixIn?_eq ho hc, importPrefixes] at h
  cases hcontext : m.ontology? c with
  | none => simp [hcontext] at h
  | some context =>
    rw [hcontext, Option.elim_some] at h
    obtain ⟨ns, hns⟩ := Ontology.exists_meaning?_of_get?_importPrefixes h
    exact ⟨ns, by rw [meaning?, hcontext, Option.bind_some, hns]⟩

/-- A name behind a prefix is read as the namesake in what the prefix stands for. -/
theorem expandText_prefixed (hp : Iri.Readable nsPrefix) (hns : m.meaning? c nsPrefix = some ns)
    (name : String) : m.expandText c (Iri.prefixed nsPrefix name) = Iri.memberIri ns name :=
  Iri.expand_prefixed hp ((m.get?_namespaces c nsPrefix).trans hns) name

/-! ## The three ways to write a member -/

theorem fullIri?_eq (hname : m.name? member = some name) (hroot : m.rootOntology? member = some o)
    (ho : m.ontology? o = some header) :
    m.fullIri? member = some (Iri.memberIri header.ns name) := by
  simp only [fullIri?, hname, hroot, ho, Option.bind_some, Option.map_some]

theorem abbreviatedIri?_eq (hname : m.name? member = some name)
    (hroot : m.rootOntology? member = some o) (ho : m.ontology? o = some header) :
    m.abbreviatedIri? member = some (Iri.prefixed header.nsPrefix name) := by
  simp only [abbreviatedIri?, hname, hroot, ho, Option.bind_some, Option.map_some]

theorem abbreviatedIriIn?_eq (hname : m.name? member = some name)
    (hroot : m.rootOntology? member = some o) (hc : c ≠ o) :
    m.abbreviatedIriIn? member c = (m.prefixIn? o c).map (Iri.prefixed · name) := by
  simp only [abbreviatedIriIn?, hname, hroot, Option.bind_some, if_neg (Ne.symm hc)]

/-! ## Reading what was written -/

theorem lt_size_of_name? (hname : m.name? member = some name) : member < m.size := by
  obtain ⟨e, he, -⟩ := Option.bind_eq_some_iff.mp hname
  exact lt_size_of_element? he

/-- In a model whose elements were all placed, every element belongs to an ontology. -/
theorem Placed.exists_rootOntology? (hm : m.Placed) (hid : member < m.size) :
    ∃ o header, m.rootOntology? member = some o ∧ m.ontology? o = some header := by
  obtain ⟨header, hheader⟩ := Option.isSome_iff_exists.mp
    (isSome_ontology?_iff.mpr (hm.isRootOf_top hid).ontology)
  exact ⟨m.top member, header, hm.rootOntology?_eq hid, hheader⟩

/-- **Labels are read back.**  A named member belongs to an ontology `o`, and by the prefix of `o` it
    is written and read back as itself in `o`.  In any other ontology a label of it is read as its
    namesake in the namespace that the prefix stands for there, so it is read back exactly when
    this is the namespace of `o`. -/
theorem Placed.labels_read_back (hm : m.Placed) (hname : m.name? member = some name) :
    ∃ o header full, m.rootOntology? member = some o ∧ m.ontology? o = some header ∧
      m.fullIri? member = some full ∧
      (∃ label, m.abbreviatedIri? member = some label ∧
        (Iri.Readable header.nsPrefix → m.expandText o label = full)) ∧
      ∀ c label, c ≠ o → m.abbreviatedIriIn? member c = some label →
        ∃ nsPrefix ns, m.prefixIn? o c = some nsPrefix ∧ m.meaning? c nsPrefix = some ns ∧
          (Iri.Readable nsPrefix →
            (m.expandText c label = full ↔ Iri.namespaceIri ns = Iri.namespaceIri header.ns)) := by
  obtain ⟨o, header, hroot, ho⟩ := hm.exists_rootOntology? (lt_size_of_name? hname)
  refine ⟨o, header, _, hroot, ho, fullIri?_eq hname hroot ho,
    ⟨_, abbreviatedIri?_eq hname hroot ho, fun hp => expandText_prefixed hp (meaning?_own ho) name⟩,
    ?_⟩
  -- Elsewhere a label stands behind the prefix of an import, and so the prefix stands for something.
  intro c label hc hlabel
  rw [abbreviatedIriIn?_eq hname hroot hc] at hlabel
  obtain ⟨nsPrefix, hwritten, rfl⟩ := Option.map_eq_some_iff.mp hlabel
  obtain ⟨ns, hns⟩ := exists_meaning?_of_prefixIn? ho hc hwritten
  refine ⟨nsPrefix, ns, hwritten, hns, fun hp => ?_⟩
  rw [expandText_prefixed hp hns, Iri.memberIri_left_inj]

end Model

/-- A member with a colon in its name, and two ontologies that import its namespace as `b`.  The first
    one had imported it under another prefix before, and imports a later namespace as `b`, too.  The
    second one has `b` as its own prefix. -/
def sharedPrefixEdits : List Edit := [.vocabulary "http://example.com/base#" "base",
  .aspect 0 "Thing:1", .vocabulary "http://example.com/dnd#" "dnd",
  .importing 2 ⟨.extension, "http://example.com/base#", some "old"⟩,
  .importing 2 ⟨.extension, "http://example.com/late#", some "b"⟩,
  .importing 2 ⟨.extension, "http://example.com/base#", some "b"⟩,
  .vocabulary "http://example.com/bare#" "b",
  .importing 3 ⟨.extension, "http://example.com/base#", some "b"⟩]

theorem labels_read_back_sharedPrefix :
    (Model.ofEdits sharedPrefixEdits).Placed ∧
    (Model.ofEdits sharedPrefixEdits).name? 1 = some "Thing:1" ∧
    (Model.ofEdits sharedPrefixEdits).abbreviatedIriIn? 1 2 = some "b:Thing:1" ∧
    (Model.ofEdits sharedPrefixEdits).abbreviatedIriIn? 1 3 = some "b:Thing:1" ∧
    ∃ full, (Model.ofEdits sharedPrefixEdits).fullIri? 1 = some full ∧
      (Model.ofEdits sharedPrefixEdits).expandText 0 "base:Thing:1" = full ∧
      (Model.ofEdits sharedPrefixEdits).expandText 2 "b:Thing:1" = full ∧
      (Model.ofEdits sharedPrefixEdits).expandText 3 "b:Thing:1" ≠ full := by
  have hm : (Model.ofEdits sharedPrefixEdits).Placed := ⟨_, by decide +kernel, rfl⟩
  have hname : (Model.ofEdits sharedPrefixEdits).name? 1 = some "Thing:1" := by decide +kernel
  have hroot' : (Model.ofEdits sharedPrefixEdits).rootOntology? 1 = some 0 := by decide +kernel
  have ho' : (Model.ofEdits sharedPrefixEdits).ontology? 0 =
    some ⟨.vocabulary, "http://example.com/base#", "base", []⟩ := by decide +kernel
  have hlabel' : (Model.ofEdits sharedPrefixEdits).abbreviatedIri? 1 = some "base:Thing:1" := by
    decide +kernel
  have htwo : (Model.ofEdits sharedPrefixEdits).abbreviatedIriIn? 1 2 = some "b:Thing:1" := by
    decide +kernel
  have hthree : (Model.ofEdits sharedPrefixEdits).abbreviatedIriIn? 1 3 = some "b:Thing:1" := by
    decide +kernel
  obtain ⟨o, header, full, hroot, ho, hfull, ⟨label, hlabel, hown⟩, helsewhere⟩ :=
    hm.labels_read_back hname
  obtain rfl : o = 0 := Option.some.inj (hroot.symm.trans hroot')
  obtain rfl := Option.some.inj (ho.symm.trans ho')
  obtain rfl := Option.some.inj (hlabel.symm.trans hlabel')
  refine ⟨hm, hname, htwo, hthree, full, hfull, hown (by decide +kernel), ?_, ?_⟩
  · obtain ⟨nsPrefix, ns, hknown, hns, hiff⟩ := helsewhere 2 _ (by decide) htwo
    obtain rfl : nsPrefix = "b" := Option.some.inj (hknown.symm.trans (by decide +kernel))
    obtain rfl : ns = "http://example.com/base#" :=
      Option.some.inj (hns.symm.trans (by decide +kernel))
    exact (hiff (by decide +kernel)).mpr rfl
  · obtain ⟨nsPrefix, ns, hknown, hns, hiff⟩ := helsewhere 3 _ (by decide) hthree
    obtain rfl : nsPrefix = "b" := Option.some.inj (hknown.symm.trans (by decide +kernel))
    obtain rfl : ns = "http://example.com/bare#" :=
      Option.some.inj (hns.symm.trans (by decide +kernel))
    exact mt (hiff (by decide +kernel)).mp (by decide +kernel)

/-! ## Telling members apart -/

namespace Model

/-- An element is a member of an ontology, under a name. -/
structure MemberOf (m : Model) (header : Ontology) (name : String) (id : ElementId) : Prop where
  name? : m.name? id = some name
  ontology? : (m.rootOntology? id).bind m.ontology? = some header

theorem MemberOf.fullIri?_eq {m : Model} {header : Ontology} {name : String} {id : ElementId}
    (h : m.MemberOf header name id) : m.fullIri? id = some (Iri.memberIri header.ns name) := by
  obtain ⟨o, hroot, ho⟩ := Option.bind_eq_some_iff.mp h.ontology?
  exact Model.fullIri?_eq h.name? hroot ho

/-- An element is a member of an ontology, under a name, and with so much fuel the walk to the ontology
    ends. -/
structure MemberWithin (m : Model) (fuel : Nat) (header : Ontology) (name : String)
    (id : ElementId) : Prop where
  name? : m.name? id = some name
  ontology? : ∃ o, m.rootOntologyFor fuel id = some (some o) ∧ m.ontology? o = some header

theorem MemberWithin.fullIriFor_eq {m : Model} {fuel : Nat} {header : Ontology} {name : String}
    {id : ElementId} (h : m.MemberWithin fuel header name id) :
    m.fullIriFor fuel id = some (some (Iri.memberIri header.ns name)) := by
  obtain ⟨o, hroot, ho⟩ := h.ontology?
  simp only [fullIriFor, h.name?, hroot, ho, Option.map_some, Option.bind_some]

/-- What a walk that ends finds is what the guarded one finds. -/
theorem MemberWithin.memberOf {m : Model} {fuel : Nat} {header : Ontology} {name : String}
    {id : ElementId} (h : m.MemberWithin fuel header name id) : m.MemberOf header name id := by
  obtain ⟨o, hroot, ho⟩ := h.ontology?
  exact ⟨h.name?, by rw [rootOntology?_eq_of_rootOntologyFor hroot, Option.bind_some, ho]⟩

/-- **Full IRIs tell members apart.**  Where names hold no hash, a full IRI is that of one bare
    namespace and one name.  So two members of a model have the same full IRI exactly when they are
    namesakes in ontologies with the same bare namespace.  This is said of the guarded walk to the
    ontology, and of the one without a guard, with any fuel that it ends with. -/
theorem full_iris_tell_apart :
    (∀ ns ns' name name' : String, '#' ∉ name.toList → '#' ∉ name'.toList →
      (Iri.memberIri ns name = Iri.memberIri ns' name' ↔
        Iri.namespaceIri ns = Iri.namespaceIri ns' ∧ name = name')) ∧
    (∀ (m : Model) (header header' : Ontology) (name name' : String) (id id' : ElementId),
      m.MemberOf header name id → m.MemberOf header' name' id' →
      '#' ∉ name.toList → '#' ∉ name'.toList →
      ∃ full full', m.fullIri? id = some full ∧ m.fullIri? id' = some full' ∧
        (full = full' ↔
          name = name' ∧ Iri.namespaceIri header.ns = Iri.namespaceIri header'.ns)) ∧
    ∀ (m : Model) (fuel fuel' : Nat) (header header' : Ontology) (name name' : String)
      (id id' : ElementId),
      m.MemberWithin fuel header name id → m.MemberWithin fuel' header' name' id' →
      '#' ∉ name.toList → '#' ∉ name'.toList →
      ∃ full full', m.fullIriFor fuel id = some (some full) ∧
        m.fullIriFor fuel' id' = some (some full') ∧ m.fullIri? id = some full ∧
        m.fullIri? id' = some full' ∧
        (full = full' ↔
          name = name' ∧ Iri.namespaceIri header.ns = Iri.namespaceIri header'.ns) := by
  refine ⟨fun _ _ _ _ => Iri.memberIri_inj, ?_, ?_⟩
  · intro m header header' name name' id id' hid hid' hname hname'
    exact ⟨_, _, hid.fullIri?_eq, hid'.fullIri?_eq,
      (Iri.memberIri_inj hname hname').trans and_comm⟩
  · intro m fuel fuel' header header' name name' id id' hid hid' hname hname'
    exact ⟨_, _, hid.fullIriFor_eq, hid'.fullIriFor_eq, hid.memberOf.fullIri?_eq,
      hid'.memberOf.fullIri?_eq, (Iri.memberIri_inj hname hname').trans and_comm⟩

end Model

/-- Two ontologies with the same bare namespace, which has a hash of its own, and one whose namespace
    is the part before that hash.  All of them have a monster. -/
def sameNamespaceEdits : List Edit := [.vocabulary "http://example.com/a#b/" "one",
  .aspect 0 "Monster", .vocabulary "<http://example.com/a#b#>" "two", .concept 2 "Monster",
  .concept 2 "Goblin", .vocabulary "http://example.com/a" "three", .aspect 5 "Monster"]

theorem full_iris_tell_apart_sameNamespace :
    Iri.memberIri "http://example.com/a#b/" "Monster" =
      Iri.memberIri "<http://example.com/a#b#>" "Monster" ∧
    (Model.ofEdits sameNamespaceEdits).fullIri? 1 =
      (Model.ofEdits sameNamespaceEdits).fullIri? 3 ∧
    (Model.ofEdits sameNamespaceEdits).fullIri? 1 ≠
      (Model.ofEdits sameNamespaceEdits).fullIri? 4 ∧
    (Model.ofEdits sameNamespaceEdits).fullIri? 1 ≠
      (Model.ofEdits sameNamespaceEdits).fullIri? 6 ∧
    (Model.ofEdits sameNamespaceEdits).fullIriFor 2 1 =
      (Model.ofEdits sameNamespaceEdits).fullIriFor 2 3 := by
  have hone : (Model.ofEdits sameNamespaceEdits).MemberOf
    ⟨.vocabulary, "http://example.com/a#b/", "one", []⟩ "Monster" 1 :=
    ⟨by decide +kernel, by decide +kernel⟩
  have htwo : (Model.ofEdits sameNamespaceEdits).MemberOf
    ⟨.vocabulary, "<http://example.com/a#b#>", "two", []⟩ "Monster" 3 :=
    ⟨by decide +kernel, by decide +kernel⟩
  have hgoblin : (Model.ofEdits sameNamespaceEdits).MemberOf
    ⟨.vocabulary, "<http://example.com/a#b#>", "two", []⟩ "Goblin" 4 :=
    ⟨by decide +kernel, by decide +kernel⟩
  have hthree : (Model.ofEdits sameNamespaceEdits).MemberOf
    ⟨.vocabulary, "http://example.com/a", "three", []⟩ "Monster" 6 :=
    ⟨by decide +kernel, by decide +kernel⟩
  have honeWithin : (Model.ofEdits sameNamespaceEdits).MemberWithin 2
    ⟨.vocabulary, "http://example.com/a#b/", "one", []⟩ "Monster" 1 :=
    ⟨by decide +kernel, 0, by decide +kernel, by decide +kernel⟩
  have htwoWithin : (Model.ofEdits sameNamespaceEdits).MemberWithin 2
    ⟨.vocabulary, "<http://example.com/a#b#>", "two", []⟩ "Monster" 3 :=
    ⟨by decide +kernel, 2, by decide +kernel, by decide +kernel⟩
  obtain ⟨htexts, hmembers, hwithin⟩ := Model.full_iris_tell_apart
  refine ⟨(htexts _ _ _ _ (by decide +kernel) (by decide +kernel)).mpr
    ⟨by decide +kernel, rfl⟩, ?_, ?_, ?_, ?_⟩
  · obtain ⟨full, full', hfull, hfull', hiff⟩ :=
      hmembers _ _ _ _ _ _ _ hone htwo (by decide +kernel) (by decide +kernel)
    rw [hfull, hfull', hiff.mpr ⟨rfl, by decide +kernel⟩]
  · obtain ⟨full, full', hfull, hfull', hiff⟩ :=
      hmembers _ _ _ _ _ _ _ hone hgoblin (by decide +kernel) (by decide +kernel)
    rw [hfull, hfull', Ne, Option.some.injEq, hiff]
    decide +kernel
  · obtain ⟨full, full', hfull, hfull', hiff⟩ :=
      hmembers _ _ _ _ _ _ _ hone hthree (by decide +kernel) (by decide +kernel)
    rw [hfull, hfull', Ne, Option.some.injEq, hiff]
    decide +kernel
  · obtain ⟨full, full', hfull, hfull', -, -, hiff⟩ :=
      hwithin _ _ _ _ _ _ _ _ _ honeWithin htwoWithin (by decide +kernel) (by decide +kernel)
    rw [hfull, hfull', hiff.mpr ⟨rfl, by decide +kernel⟩]

end OntologyView

/-
  LABELS: how a member is written in a given ontology, and how what is written is read back.

  Every ontology gives its own namespace a prefix, and may import other namespaces under prefixes.
  A label is written with the table NAMESPACE → PREFIX of the ontology that it stands in
  (`importPrefixes`), and read with the table PREFIX → NAMESPACE (`namespaces`), which inverts it.
  Where two namespaces share a prefix, the inverse has to choose:

  * writing: a later import of the same namespace replaces its prefix, in place;
  * reading: the ontology's own prefix comes first, then the first namespace that has the prefix.
-/
import OntologyView.Iri
import OntologyView.Model.Containment
import OntologyView.Ordered.Table

namespace OntologyView

/-! ## The prefixes of an ontology -/

namespace Ontology

/-- The prefixes of the imported namespaces.  An import without a prefix does not count. -/
def importPrefixes (o : Ontology) : Table String String :=
  Table.ofList (o.imports.filterMap fun what => what.nsPrefix.map (what.ns, ·))

/-- The namespaces that the prefixes of an ontology stand for. -/
def namespaces (o : Ontology) : Table String String :=
  o.importPrefixes.entries.foldl (fun t entry => t.insertNew entry.2 entry.1)
    (Table.empty.insert o.nsPrefix o.ns)

end Ontology

namespace Model

/-- The import prefixes of an ontology, none for anything else. -/
def importPrefixes (m : Model) (id : ElementId) : Table String String :=
  (m.ontology? id).elim Table.empty Ontology.importPrefixes

/-- The prefix under which an ontology is known in `context`: its own prefix in itself, and the
    prefix of its import elsewhere. -/
def prefixIn? (m : Model) (ontology context : ElementId) : Option String :=
  (m.ontology? ontology).bind fun o =>
    if ontology = context then some o.nsPrefix else (m.importPrefixes context).get? o.ns

/-! ## Writing -/

/-- The label of a member by the prefix of its own ontology.  Without an ontology, the bare
    name. -/
def abbreviatedIri? (m : Model) (member : ElementId) : Option String :=
  (m.name? member).map fun name =>
    match (m.rootOntology? member).bind m.ontology? with
    | some o => Iri.prefixed o.nsPrefix name
    | none => name

/-- The label of a member in `context`: the bare name in its own ontology, and elsewhere the name
    behind the prefix of the import.  There is no label where there is no such prefix. -/
def abbreviatedIriIn? (m : Model) (member context : ElementId) : Option String :=
  (m.name? member).bind fun name =>
    (m.rootOntology? member).bind fun ontology =>
      if ontology = context then some name
      else (m.prefixIn? ontology context).map (Iri.prefixed · name)

/-- The full IRI of a member. -/
def fullIri? (m : Model) (member : ElementId) : Option String :=
  (m.name? member).bind fun name =>
    ((m.rootOntology? member).bind m.ontology?).map fun o => Iri.memberIri o.ns name

/-- The full IRI of a member, if the walk to its ontology ends. -/
def fullIriFor (m : Model) (fuel : Nat) (member : ElementId) : Option (Option String) :=
  match m.name? member with
  | none => some none
  | some name => (m.rootOntologyFor fuel member).map fun root =>
    (root.bind m.ontology?).map fun o => Iri.memberIri o.ns name

/-! ## Reading -/

/-- What the prefixes in `context` stand for. -/
def namespaces (m : Model) (context : ElementId) : Table String String :=
  (m.ontology? context).elim Table.empty Ontology.namespaces

/-- The full IRI of a text in `context`, where its prefix is known there.  Any other text stands
    for itself. -/
def expandText (m : Model) (context : ElementId) (text : String) : String :=
  Iri.expand (m.namespaces context).get? text

end Model

end OntologyView

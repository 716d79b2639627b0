import OntologyView.Iri
import OntologyView.Ordered.Distinct
import OntologyView.Ordered.Table
import OntologyView.SourceRange
import OntologyView.Element.Kind
import OntologyView.Element
import OntologyView.Model
import OntologyView.Model.Edit
import OntologyView.Model.Containment
import OntologyView.Model.Term
import OntologyView.Model.Label
import OntologyView.Exploration
import OntologyView.CrossReferences
import OntologyView.LinkedModel
import OntologyView.View.Error
import OntologyView.View.Locality
import OntologyView.View.Inclusion
import OntologyView.View.Discovery
import OntologyView.View
import OntologyView.View.Resolution
import OntologyView.View.Analysis
import OntologyView.View.Draft
import OntologyView.View.Fuel
import OntologyView.Proofs.Runs
import OntologyView.Proofs.Exploration
import OntologyView.Proofs.Expansion
import OntologyView.Proofs.Queries
import OntologyView.Proofs.Recursion
import OntologyView.Proofs.Superterms
import OntologyView.Proofs.IncludedRoot
import OntologyView.Proofs.Recording
import OntologyView.Proofs.References
import OntologyView.Proofs.Discovery
import OntologyView.Proofs.Resolution
import OntologyView.Proofs.Analysis
import OntologyView.Proofs.Membership
import OntologyView.Proofs.Worklist
import OntologyView.Proofs.Drafting
import OntologyView.Proofs.RingFree
import OntologyView.Proofs.Guards
import OntologyView.Proofs.Attribution
import OntologyView.Proofs.EntityAxioms
import OntologyView.Proofs.Failure
import OntologyView.Proofs.WellFormed
import OntologyView.Proofs.Links
import OntologyView.Proofs.Placement
import OntologyView.Proofs.Ownership
import OntologyView.Proofs.IncidentElements
import OntologyView.Proofs.RelationEnds
import OntologyView.Proofs.Comparison
import OntologyView.Proofs.Growth
import OntologyView.Proofs.Independence
import OntologyView.Proofs.Isolation
import OntologyView.Proofs.Statements
import OntologyView.Proofs.Termination
import OntologyView.Proofs.Outline
import OntologyView.Proofs.Containment
import OntologyView.Proofs.OwnedContent
import OntologyView.Proofs.Detachment
import OntologyView.Proofs.Labels
import OntologyView.Proofs.Prefixes
import OntologyView.Proofs.InstanceAssertions

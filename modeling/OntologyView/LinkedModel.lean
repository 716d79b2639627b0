/-
  QUERIES over a model whose references can be followed backwards.

  A `LinkedModel` is a model together with recorded references.  Its queries come in two shapes, and
  most of them are one line in one of these:

  * `referring`   — the elements that refer to `x` in a given role and are of a given sort;
  * `belongings`  — the children of `x` AND of every reference to `x`, of a given kind.

  The second shape is what references are for: a document may add axioms or assertions to a member
  that another document declares, and they count as the member's own.

  The recorded references need not be those of the model.  With others the queries still answer, and
  the walk up the superterms still ends (`mem_supertermIds_of_mem_directSuperterms`): every step of
  it ends in the superterm of some element of the model.
-/
import OntologyView.CrossReferences
import OntologyView.Exploration
import OntologyView.Model.Term

namespace OntologyView

/-- The superterms of all specializations of a model. -/
def Model.supertermIds (m : Model) : List ElementId :=
  m.ids.filterMap m.superterm?

/-- A model and the references to look up in. -/
structure LinkedModel where
  model : Model
  refs : CrossReferences

namespace LinkedModel

/-- A model with its own references. -/
def ofModel (m : Model) : LinkedModel := ⟨m, .ofModel m⟩

variable (lm : LinkedModel)

/-! ## The two shapes of a query -/

/-- The elements that refer to `target` in a role and are accepted. -/
def referring (role : Role) (accept : Element → Bool) (target : ElementId) : List ElementId :=
  (lm.refs.sourcesInRole role target).filter (lm.model.satisfies accept)

/-- The elements of a kind that refer to `target` in a role. -/
def referringOfKind (role : Role) (kind : ElementKind) (target : ElementId) : List ElementId :=
  lm.referring role (fun e => e.kind = kind) target

/-- The children of a kind. -/
def ownedOfKind (kind : ElementKind) (owner : ElementId) : List ElementId :=
  (lm.model.children owner).filter (lm.model.hasKind kind)

/-- The references to a member. -/
def referencesTo (member : ElementId) : List ElementId :=
  lm.referringOfKind .member .reference member

/-- What belongs to a member: its own children of a kind, then those of the references to it. -/
def belongings (kind : ElementKind) (member : ElementId) : List ElementId :=
  (member :: lm.referencesTo member).flatMap (lm.ownedOfKind kind)

/-! ## Specialization -/

/-- The specializations whose subterm is `term`. -/
def specializationsOf (term : ElementId) : List ElementId :=
  lm.belongings .specialization term

/-- The specializations whose superterm is `term`. -/
def specializationsInto (term : ElementId) : List ElementId :=
  lm.referringOfKind .superterm .specialization term

/-- The terms that `term` is declared to specialize. -/
def directSuperterms (term : ElementId) : List ElementId :=
  (lm.specializationsOf term).filterMap lm.model.superterm?

theorem mem_supertermIds_of_mem_directSuperterms {a b : ElementId}
    (h : b ∈ lm.directSuperterms a) : b ∈ lm.model.supertermIds := by
  obtain ⟨id, _, hs⟩ := List.mem_filterMap.mp h
  exact List.mem_filterMap.mpr ⟨id, Model.mem_ids.mpr (Model.lt_size_of_superterm? hs), hs⟩

/-- The terms that `term` specializes, directly or through others, in order of discovery.  The term
    itself is among them if it is asked for, or if it specializes itself. -/
def superterms (term : ElementId) (inclusive : Bool) : List ElementId :=
  (Exploration.explore lm.directSuperterms term inclusive lm.model.supertermIds fun _ =>
    Exploration.Reaches.mem_of_step fun _ _ => lm.mem_supertermIds_of_mem_directSuperterms).found

/-! ## Properties -/

/-- The properties of a kind whose domain is `domain`. -/
def propertiesWithDomain (kind : PropertyKind) (domain : ElementId) : List ElementId :=
  lm.referringOfKind .domain (.property kind) domain

/-- The properties whose domain is `domain`, scalar ones first. -/
def allPropertiesWithDomain (domain : ElementId) : List ElementId :=
  lm.propertiesWithDomain .scalar domain ++ lm.propertiesWithDomain .structured domain

/-! ## Keys and restrictions -/

/-- The keys of an entity. -/
def keysOf (entity : ElementId) : List ElementId :=
  lm.belongings .key entity

/-- The property restrictions of a classifier. -/
def propertyRestrictionsOf (classifier : ElementId) : List ElementId :=
  lm.belongings .propertyRestriction classifier

/-- The relation restrictions of an entity. -/
def relationRestrictionsOf (entity : ElementId) : List ElementId :=
  lm.belongings .relationRestriction entity

/-- The relation restrictions that narrow a range to `range`. -/
def rangeRestrictionsTo (range : ElementId) : List ElementId :=
  lm.referring .restrictionRange (fun e =>
    match e with
    | .relationRestriction (.range _) _ => true
    | _ => false) range

/-! ## Relations -/

/-- The relation entities whose source is `source`. -/
def relationEntitiesFrom (source : ElementId) : List ElementId :=
  lm.referringOfKind .source .relationEntity source

/-- The relation entities whose target is `target`. -/
def relationEntitiesTo (target : ElementId) : List ElementId :=
  lm.referringOfKind .target .relationEntity target

/-- The relations that start at an entity: forward ones of the relation entities that have it as
    their source, then reverse ones of those that have it as their target. -/
def relationsFrom (entity : ElementId) : List ElementId :=
  (lm.relationEntitiesFrom entity).filterMap (lm.model.relation? .forward) ++
    (lm.relationEntitiesTo entity).filterMap (lm.model.relation? .reverse)

/-- The relations that end at an entity: forward ones of the relation entities that have it as their
    target, then reverse ones of those that have it as their source. -/
def relationsTo (entity : ElementId) : List ElementId :=
  (lm.relationEntitiesTo entity).filterMap (lm.model.relation? .forward) ++
    (lm.relationEntitiesFrom entity).filterMap (lm.model.relation? .reverse)

/-! ## Instances -/

/-- The property values of an instance.  Only named instances can be referenced, so only they have
    values beyond their children. -/
def propertyValuesOf (id : ElementId) : List ElementId :=
  if lm.model.satisfies (·.kind.isNamedInstance) id then lm.belongings .propertyValue id
  else lm.ownedOfKind .propertyValue id

/-- The links of an instance. -/
def linksOf (id : ElementId) : List ElementId :=
  lm.belongings .link id

/-- The relation instances that have `source` among their sources. -/
def relationInstancesFrom (source : ElementId) : List ElementId :=
  lm.referringOfKind .instanceSource .relationInstance source

end LinkedModel

end OntologyView

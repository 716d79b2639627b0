/-
  OUTLINES: what of a model the views of its ontologies hang on.

  1. **Specification** — `Model.outline`: the kinds of the elements, who contains whom, and of what
     elements refer to the ends of relation entities, the domains of properties, superterms, the
     properties of keys, what restrictions restrict, the demands on relations, the sources of relation
     instances and the members of references.  All else is cleared, constructor by constructor
     (`Element.outline`), and so is the source range of every element.

  2. **Program** — `LinkedModel.analyze`, with the references of the model itself.  What an outline
     clears is recorded among them too, and comes up in the same tables, only in other roles.

  3. **The crux** — referrers are a scan of the model, so what an element holds in other roles, or at
     other elements, cannot move them (`referring_outline`, from `LinkedModel.referring_ofModel`).  The
     rest is one law a definition: each query, test and walk goes alike in a model and in its outline,
     up to the frames (`agrees_outline`).

  Errors are the exception.  They name the source range of the element to blame, which no outline
  keeps, so a model and its outline fail alike only when ranges are forgotten (`ViewError.outline`).
-/
import OntologyView.Proofs.Failure
import OntologyView.Proofs.References
import OntologyView.Proofs.RingFree

namespace OntologyView

/-! ## Outlines -/

/-- An element without what no analysis looks at: names, what an ontology says about itself, the kinds
    of scalars and of property restrictions, what references say they point at, and the references
    that are not followed. -/
def Element.outline : Element → Element
  | .ontology _ => .ontology ⟨.vocabulary, "", "", []⟩
  | .aspect _ => .aspect ""
  | .concept _ => .concept ""
  | .relationEntity _ source target => .relationEntity "" source target
  | .struct _ => .struct ""
  | .scalar _ _ => .scalar "" .faceted
  | .property kind _ domain _ => .property kind "" domain none
  | .relation direction _ => .relation direction ""
  | .rule _ => .rule ""
  | .conceptInstance _ _ => .conceptInstance "" []
  | .relationInstance _ _ sources _ => .relationInstance "" [] sources []
  | .structureInstance _ => .structureInstance none
  | .specialization super => .specialization super
  | .key properties => .key properties
  | .propertyRestriction _ _ restricted _ => .propertyRestriction .scalar .range restricted none
  | .relationRestriction demand restricted => .relationRestriction demand restricted
  | .propertyValue _ => .propertyValue none
  | .link _ _ => .link none none
  | .reference _ member => .reference .concept member

/-- A node with the outline of its element, and without its source range. -/
def Node.outline (node : Node) : Node where
  element := node.element.outline
  container := node.container
  children := node.children
  range := none

/-- The outlines of all nodes, each in its place. -/
def Model.outline (m : Model) : Model :=
  ⟨m.nodes.map Node.outline⟩

/-- An error without the source range that it names. -/
def ViewError.outline : ViewError → ViewError
  | .unhandledElement id kind phase _ => .unhandledElement id kind phase none
  | err => err

/-- The roles of the references that outlines keep, whatever element holds them. -/
def Role.isOutlined : Role → Bool
  | .domain | .superterm | .source | .target | .keyProperty | .restrictedProperty
  | .restrictedRelation | .instanceSource | .member => true
  | _ => false

namespace Element

@[simp] theorem kind_outline (e : Element) : e.outline.kind = e.kind := by
  cases e <;> rfl

@[simp] theorem leads_outline (e : Element) : e.outline.leads = e.leads := by
  cases e <;> rfl

theorem mem_references_outline {role : Role} (hrole : role.isOutlined = true) (e : Element)
    (t : ElementId) : (role, t) ∈ e.outline.references ↔ (role, t) ∈ e.references := by
  -- What an outline drops is held in one of the other roles.
  have hne : ∀ other : Role, other.isOutlined = false → role ≠ other := fun other hother h => by
    rw [h, hother] at hrole
    nomatch hrole
  cases e <;> simp [outline, references, hne .range rfl, hne .instanceType rfl,
    hne .instanceTarget rfl, hne .structureType rfl, hne .restrictionRange rfl,
    hne .assertedProperty rfl, hne .linkRelation rfl, hne .linkTarget rfl]

end Element

namespace Model

variable (m : Model)

/-! ## Look-ups in an outline -/

@[simp] theorem node?_outline (id : ElementId) :
    m.outline.node? id = (m.node? id).map Node.outline :=
  Array.getElem?_map

@[simp] theorem element?_outline (id : ElementId) :
    m.outline.element? id = (m.element? id).map Element.outline := by
  rw [element?, node?_outline, element?, Option.map_map, Option.map_map]
  rfl

@[simp] theorem container?_outline : m.outline.container? = m.container? := by
  funext id
  rw [container?, node?_outline, container?]
  cases m.node? id <;> rfl

@[simp] theorem children_outline : m.outline.children = m.children := by
  funext id
  rw [children, node?_outline, children]
  cases m.node? id <;> rfl

@[simp] theorem range?_outline (id : ElementId) : m.outline.range? id = none := by
  rw [range?, node?_outline]
  cases m.node? id <;> rfl

@[simp] theorem ids_outline : m.outline.ids = m.ids := by
  rw [ids, ids, size, size, outline, Array.size_map]

@[simp] theorem kind?_outline : m.outline.kind? = m.kind? := by
  funext id
  rw [kind?, element?_outline, kind?, Option.map_map]
  cases m.element? id <;> simp

theorem satisfies_outline {accept accept' : Element → Bool}
    (h : ∀ e, accept e.outline = accept' e) : m.outline.satisfies accept = m.satisfies accept' := by
  funext id
  rw [satisfies, element?_outline, satisfies]
  cases m.element? id with
  | none => rfl
  | some e => exact h e

theorem satisfies_kind_outline (accept : ElementKind → Bool) :
    m.outline.satisfies (fun e => accept e.kind) = m.satisfies fun e => accept e.kind :=
  m.satisfies_outline fun e => by rw [e.kind_outline]

@[simp] theorem hasKind_outline (kind : ElementKind) :
    m.outline.hasKind kind = m.hasKind kind :=
  m.satisfies_kind_outline fun k => k = kind

@[simp] theorem member?_outline : m.outline.member? = m.member? := by
  funext id
  unfold member?
  rw [element?_outline]
  cases m.element? id with
  | none => rfl
  | some e => cases e <;> rfl

@[simp] theorem superterm?_outline : m.outline.superterm? = m.superterm? := by
  funext id
  unfold superterm?
  rw [element?_outline]
  cases m.element? id with
  | none => rfl
  | some e => cases e <;> rfl

@[simp] theorem subterm?_outline : m.outline.subterm? = m.subterm? := by
  funext id
  unfold subterm?
  rw [element?_outline, container?_outline, member?_outline]
  cases m.element? id with
  | none => rfl
  | some e => cases e <;> rfl

@[simp] theorem owningEntity?_outline : m.outline.owningEntity? = m.owningEntity? := by
  funext id
  unfold owningEntity?
  rw [element?_outline, container?_outline, hasKind_outline]
  cases m.element? id with
  | none => rfl
  | some e => cases e <;> rfl

@[simp] theorem relation?_outline (direction : Direction) :
    m.outline.relation? direction = m.relation? direction := by
  funext id
  rw [relation?, children_outline, hasKind_outline, relation?]

@[simp] theorem isSome_ontology?_outline (root : ElementId) :
    (m.outline.ontology? root).isSome = (m.ontology? root).isSome := by
  rw [Bool.eq_iff_iff, isSome_ontology?_iff, isSome_ontology?_iff, kind?_outline]

@[simp] theorem statements_outline (root : ElementId) :
    m.outline.statements root = m.statements root := by
  rw [statements, isSome_ontology?_outline, children_outline, statements]

theorem localElements_outline (root : ElementId) (locality : Locality) :
    m.outline.localElements root locality = m.localElements root locality := by
  cases locality with
  | topLevelStatements => exact m.statements_outline root
  | ownedContent =>
    have hcontents : m.outline.contents root = m.contents root :=
      congrArg Exploration.found (Exploration.explore_congr m.children_outline _ _)
    rw [localElements, isSome_ontology?_outline, hcontents, localElements]

/-! ## Inclusion and discovery in an outline -/

theorem includedFrom_outline (known : ElementId → Bool) (path : List ElementId) (id : ElementId) :
    m.outline.includedFrom known path id = m.includedFrom known path id := by
  fun_induction m.includedFrom known path id with
  | case1 path id hid => exact includedFrom_of_mem hid
  | case2 path id hid he => exact includedFrom_of_unknown (by rw [element?_outline, he]; rfl)
  | case3 path id hid super he ih =>
    rw [includedFrom_specialization hid (by rw [element?_outline, he]; rfl), subterm?_outline,
      funext ih]
  | case4 path id hid kind member he ih =>
    rw [includedFrom_reference hid (by rw [element?_outline, he]; rfl), funext ih]
  | case5 path id hid e hspecialization hreference he =>
    have he' : m.outline.element? id = some e.outline := by rw [element?_outline, he]; rfl
    have hs : e.kind ≠ .specialization := kind_ne_specialization hspecialization
    have hr : e.kind ≠ .reference := kind_ne_reference hreference
    exact includedFrom_known hid he' (e.kind_outline ▸ hs) (e.kind_outline ▸ hr)

theorem meet_outline (met waiting : List ElementId) :
    m.outline.meet met waiting = (m.meet met waiting).mapError ViewError.outline := by
  fun_induction m.meet met waiting with
  | case1 met => exact meet_nil
  | case2 met id rest hid ih => rw [meet_of_mem hid, ih]
  | case3 met id rest hid he => exact meet_of_unknown hid (by rw [element?_outline, he]; rfl)
  | case4 met id rest hid header he =>
    rw [meet_of_ontology hid (by rw [element?_outline, he]; rfl) rfl, range?_outline]
    rfl
  | case5 met id rest hid e hk he ih =>
    have he' : m.outline.element? id = some e.outline := by rw [element?_outline, he]; rfl
    have hk' : e.outline.kind ≠ .ontology := e.kind_outline ▸ kind_ne_ontology hk
    rw [meet_of_first hid he' hk', e.leads_outline, ih]

theorem met_outline (root : ElementId) :
    m.outline.met root = (m.met root).mapError ViewError.outline := by
  rw [met, statements_outline, meet_outline, met]

end Model

namespace LinkedModel

variable (m : Model)

/-! ## Queries of an outline -/

theorem referring_outline {role : Role} {accept : Element → Bool} {t : ElementId}
    (h : ∀ e : Element, (accept e.outline && decide ((role, t) ∈ e.outline.references)) =
      (accept e && decide ((role, t) ∈ e.references))) :
    (ofModel m.outline).referring role accept t = (ofModel m).referring role accept t := by
  rw [referring_ofModel, referring_ofModel, m.ids_outline, m.satisfies_outline h]

theorem referringOfKind_outline {role : Role} (hrole : role.isOutlined = true)
    (kind : ElementKind) :
    (ofModel m.outline).referringOfKind role kind = (ofModel m).referringOfKind role kind := by
  funext t
  refine referring_outline m fun e => ?_
  rw [e.kind_outline, decide_eq_decide.mpr (e.mem_references_outline hrole t)]

theorem rangeRestrictionsTo_outline :
    (ofModel m.outline).rangeRestrictionsTo = (ofModel m).rangeRestrictionsTo := by
  funext t
  refine referring_outline m fun e => ?_
  cases e <;> rfl

theorem ownedOfKind_outline (kind : ElementKind) :
    (ofModel m.outline).ownedOfKind kind = (ofModel m).ownedOfKind kind := by
  funext owner
  show (m.outline.children owner).filter (m.outline.hasKind kind) = _
  rw [m.children_outline, m.hasKind_outline]
  rfl

theorem belongings_outline (kind : ElementKind) :
    (ofModel m.outline).belongings kind = (ofModel m).belongings kind := by
  funext member
  rw [belongings, belongings, ownedOfKind_outline, referencesTo, referencesTo,
    referringOfKind_outline m rfl]

theorem superterms_outline (term : ElementId) (inclusive : Bool) :
    (ofModel m.outline).superterms term inclusive = (ofModel m).superterms term inclusive := by
  have hdirect : (ofModel m.outline).directSuperterms = (ofModel m).directSuperterms := by
    funext a
    show ((ofModel m.outline).belongings .specialization a).filterMap m.outline.superterm? = _
    rw [belongings_outline, m.superterm?_outline]
    rfl
  exact congrArg Exploration.found (Exploration.explore_congr hdirect _ _)

theorem relationsFrom_outline (entity : ElementId) :
    (ofModel m.outline).relationsFrom entity = (ofModel m).relationsFrom entity := by
  show ((ofModel m.outline).relationEntitiesFrom entity).filterMap (m.outline.relation? .forward) ++
    ((ofModel m.outline).relationEntitiesTo entity).filterMap (m.outline.relation? .reverse) = _
  rw [m.relation?_outline, m.relation?_outline, relationEntitiesFrom, relationEntitiesTo,
    referringOfKind_outline m rfl, referringOfKind_outline m rfl]
  rfl

theorem relationsTo_outline (entity : ElementId) :
    (ofModel m.outline).relationsTo entity = (ofModel m).relationsTo entity := by
  show ((ofModel m.outline).relationEntitiesTo entity).filterMap (m.outline.relation? .forward) ++
    ((ofModel m.outline).relationEntitiesFrom entity).filterMap (m.outline.relation? .reverse) = _
  rw [m.relation?_outline, m.relation?_outline, relationEntitiesFrom, relationEntitiesTo,
    referringOfKind_outline m rfl, referringOfKind_outline m rfl]
  rfl

theorem propertyValuesOf_outline (id : ElementId) :
    (ofModel m.outline).propertyValuesOf id = (ofModel m).propertyValuesOf id := by
  show (if m.outline.satisfies (fun e => e.kind.isNamedInstance) id then _ else _) = _
  rw [m.satisfies_kind_outline ElementKind.isNamedInstance, belongings_outline,
    ownedOfKind_outline]
  rfl

/-! ## The frame of an outline -/

variable (root : ElementId) (locality : Locality) (order : List ElementId)

theorem isLocal_outline : ((ofModel m.outline).frame root locality order).isLocal =
    ((ofModel m).frame root locality order).isLocal := by
  funext id
  show decide (id ∈ m.outline.localElements root locality) = _
  rw [m.localElements_outline]
  rfl

theorem shown_outline : ((ofModel m.outline).frame root locality order).shown =
    ((ofModel m).frame root locality order).shown := by
  show order.filter (m.outline.satisfies fun e => e.kind.isShown) = _
  rw [m.satisfies_kind_outline]
  rfl

theorem isIncluded_outline : ((ofModel m.outline).frame root locality order).isIncluded =
    ((ofModel m).frame root locality order).isIncluded := by
  funext id
  rw [Frame.isIncluded, isLocal_outline, shown_outline]
  exact m.includedFrom_outline _ [] id

theorem retains_outline (id : ElementId) :
    ((ofModel m.outline).frame root locality order).retains id =
      (((ofModel m).frame root locality order).retains id).mapError ViewError.outline := by
  have howner : ((ofModel m.outline).frame root locality order).model.owningEntity? =
      ((ofModel m).frame root locality order).model.owningEntity? := m.owningEntity?_outline
  have helement : ((ofModel m.outline).frame root locality order).model.element? id =
      (((ofModel m).frame root locality order).model.element? id).map Element.outline :=
    m.element?_outline id
  have hrange : ((ofModel m.outline).frame root locality order).model.range? id = none :=
    m.range?_outline id
  unfold Frame.retains
  rw [isIncluded_outline, howner, helement, hrange]
  cases ((ofModel m).frame root locality order).model.element? id with
  | none => rfl
  | some e => cases e <;> rfl

theorem keeps_outline (id : ElementId) :
    ((ofModel m.outline).frame root locality order).keeps id =
      ((ofModel m).frame root locality order).keeps id := by
  rw [Frame.keeps, retains_outline, Frame.keeps]
  cases ((ofModel m).frame root locality order).retains id <;> rfl

/-- **Resolution goes alike** in a model and in its outline. -/
theorem agrees_outline : ((ofModel m.outline).frame root locality order).Agrees
    ((ofModel m).frame root locality order) := by
  have hlinked : ((ofModel m.outline).frame root locality order).linked = ofModel m.outline := rfl
  have hlocalOnly : ((ofModel m.outline).frame root locality order).localOnly =
      ((ofModel m).frame root locality order).localOnly := by
    funext candidates
    rw [Frame.localOnly, isLocal_outline, Frame.localOnly]
  exact
    { shownOf := fun accept => by
        show (Frame.shown _).filter (m.outline.satisfies fun e => accept e.kind) = _
        rw [shown_outline, m.satisfies_kind_outline]
        rfl
      attributionsOf := fun kind classifier => by
        unfold Frame.attributionsOf propertiesWithDomain
        rw [hlinked, superterms_outline, isLocal_outline, isIncluded_outline,
          referringOfKind_outline m rfl]
        rfl
      axiomCandidates := fun entity => by
        rw [Frame.axiomCandidates, hlocalOnly, hlinked, keysOf, specializationsOf,
          propertyRestrictionsOf, relationRestrictionsOf, belongings_outline, belongings_outline,
          belongings_outline, belongings_outline]
        rfl
      incidentCandidates := fun entity => by
        rw [Frame.incidentCandidates, hlocalOnly, hlinked, specializationsInto,
          referringOfKind_outline m rfl, rangeRestrictionsTo_outline, relationsFrom_outline,
          relationsTo_outline]
        rfl
      keeps := keeps_outline m root locality order
      keepsIncident := fun id => by
        show (if m.outline.hasKind .specialization id then _ else _) = _
        rw [m.hasKind_outline, isIncluded_outline, keeps_outline]
        rfl
      assertionsOf := fun id => by
        have hkind : ((ofModel m.outline).frame root locality order).model.kind? =
            ((ofModel m).frame root locality order).model.kind? := m.kind?_outline
        unfold Frame.assertionsOf
        rw [hkind, hlocalOnly, hlinked, propertyValuesOf_outline, linksOf, belongings_outline,
          relationInstancesFrom, referringOfKind_outline m rfl]
        rfl }

end LinkedModel

/-! ## Analyses of models with one outline -/

/-- An error that names the source range that a model has for the element to blame. -/
def ViewError.locatedIn (m : Model) : ViewError → ViewError
  | .unhandledElement id kind phase _ => .unhandledElement id kind phase (m.range? id)
  | err => err

/-- To locate an error is to forget which range it named. -/
theorem ViewError.mapError_outline_locatedIn (m : Model) (outcome : Except ViewError View) :
    (outcome.mapError ViewError.outline).mapError (ViewError.locatedIn m) =
      outcome.mapError (ViewError.locatedIn m) := by
  cases outcome with
  | ok v => rfl
  | error err => cases err <;> rfl

namespace LinkedModel

variable {m m' : Model} {root : ElementId} {locality : Locality}

/-- The analysis of an outline goes as that of the model, but for the ranges. -/
theorem analyze_outline (m : Model) (root : ElementId) (locality : Locality) :
    (ofModel m.outline).analyze root locality =
      ((ofModel m).analyze root locality).mapError ViewError.outline := by
  have helement : (ofModel m.outline).model.element? root =
      ((ofModel m).model.element? root).map Element.outline := m.element?_outline root
  cases he : (ofModel m).model.element? root with
  | none =>
    rw [he] at helement
    rw [analyze_of_unknown he, analyze_of_unknown helement]
    rfl
  | some e =>
    rw [he] at helement
    by_cases hk : e.kind = .ontology
    · cases e with
      | ontology header =>
        have hmet : (ofModel m.outline).model.met root =
            ((ofModel m).model.met root).mapError ViewError.outline := m.met_outline root
        rw [analyze_of_ontology he, analyze_of_ontology helement, hmet]
        cases (ofModel m).model.met root with
        | error err => rfl
        | ok order => exact congrArg Except.ok (agrees_outline m root locality order).drawn_eq
      | _ => nomatch hk
    · have hk' : e.outline.kind ≠ .ontology := e.kind_outline ▸ hk
      rw [analyze_of_other he hk, analyze_of_other helement hk', e.kind_outline]
      rfl

/-- An error names the range that the model itself has for the element to blame. -/
theorem analyze_eq_locatedIn (lm : LinkedModel) (root : ElementId) (locality : Locality) :
    lm.analyze root locality =
      (lm.analyze root locality).mapError (ViewError.locatedIn lm.model) := by
  cases h : lm.analyze root locality with
  | ok v => rfl
  | error err =>
    refine congrArg Except.error ?_
    rcases failure_cases h with ⟨-, rfl⟩ | ⟨found, -, -, rfl⟩ | ⟨-, x, hx⟩
    · rfl
    · rfl
    · rcases Model.obstacle?_eq_some_iff.mp hx with ⟨-, rfl⟩ | ⟨-, rfl⟩ <;> rfl

/-- **Models with one outline have the same analyses**, with any root and locality: views that are
    equal in all lists and tables, order included, or errors that are equal except that each names
    the range that its own model has for the element to blame.  In models with rings this is said
    of the runs that end (`gives_analyzeFor`). -/
theorem analysis_of_outline (h : m.outline = m'.outline) (root : ElementId) (locality : Locality) :
    (ofModel m').analyze root locality =
      ((ofModel m).analyze root locality).mapError (ViewError.locatedIn m') := by
  calc (ofModel m').analyze root locality
      = ((ofModel m').analyze root locality).mapError (ViewError.locatedIn m') :=
        analyze_eq_locatedIn _ _ _
    _ = ((ofModel m'.outline).analyze root locality).mapError (ViewError.locatedIn m') := by
        rw [analyze_outline, ViewError.mapError_outline_locatedIn]
    _ = ((ofModel m).analyze root locality).mapError (ViewError.locatedIn m') := by
        rw [← h, analyze_outline, ViewError.mapError_outline_locatedIn]

end LinkedModel

/-- A dungeon with a level, its guards, and an axiom and an assertion that refer to properties. -/
def guardedDungeon : Model := .ofEdits [.vocabulary "http://example.com/dnd#" "dnd",
  .concept 0 "Dungeon", .concept 0 "Monster", .scalar 0 "Depth",
  .property 0 "depth" .scalar (some 1) (some 3),
  .relationEntity 0 "Guards" (some 2) (some 1), .relation 5 "guards" .forward,
  .reference 0 .concept (some 1), .propertyRestriction 7 .scalar .range (some 4) (some 3),
  .conceptInstance 0 "owlbear" [2], .propertyValue 9 (some 4), .link 9 (some 6) (some 9)]

/-- The same outline in other words: other names and kinds, and ranges, types and links that refer to
    other elements or to none. -/
def guardedDungeonRetold : Model := .ofEdits [.description "http://example.com/tale#" "tale",
  .importing 0 ⟨.usage, "http://example.com/dnd#", some "dnd"⟩,
  .concept 0 "Cave", .concept 0 "Dragon", .scalar 0 "Gold",
  .property 0 "gold" .scalar (some 1) (some 1),
  .relationEntity 0 "Hoards" (some 2) (some 1), .relation 5 "hoards" .forward,
  .reference 0 .aspect (some 1), .propertyRestriction 7 .structured .value (some 4) (some 2),
  .conceptInstance 0 "smaug" [], .propertyValue 9 (some 1), .link 9 none (some 2),
  .setRange 7 ⟨4, 9, by decide⟩]

theorem analysis_of_outline_guardedDungeon :
    guardedDungeon ≠ guardedDungeonRetold ∧
    guardedDungeon.outline = guardedDungeonRetold.outline ∧
    ∃ v, (LinkedModel.ofModel guardedDungeon).analyze 0 .ownedContent = .ok v ∧
      (LinkedModel.ofModel guardedDungeonRetold).analyze 0 .ownedContent = .ok v ∧
      v.entityAxioms.get? 1 = some [8] ∧ v.instanceAssertions.get? 9 = some [10, 11] := by
  have houtline : guardedDungeon.outline = guardedDungeonRetold.outline := by decide +kernel
  have hok : ((LinkedModel.ofModel guardedDungeon).analyze 0 .ownedContent).toOption.any
      (fun v => decide (v.entityAxioms.get? 1 = some [8] ∧
        v.instanceAssertions.get? 9 = some [10, 11])) = true := by
    decide +kernel
  obtain ⟨v, hv, htest⟩ := exists_of_any hok
  obtain ⟨haxioms, hassertions⟩ := of_decide_eq_true htest
  refine ⟨by decide +kernel, houtline, v, hv, ?_, haxioms, hassertions⟩
  rw [LinkedModel.analysis_of_outline houtline 0 .ownedContent, hv]
  rfl

/-- An ontology among the statements of another one. -/
def nestedOntology : Model := .ofEdits [.vocabulary "http://example.com/dnd#" "dnd",
  .add 0 (.ontology ⟨.vocabulary, "http://example.com/inner#", "inner", []⟩)]

/-- The same, read from a text. -/
def nestedOntologyInText : Model := .ofEdits [.vocabulary "http://example.com/dnd#" "dnd",
  .add 0 (.ontology ⟨.vocabulary, "http://example.com/inner#", "inner", []⟩),
  .setRange 1 ⟨4, 9, by decide⟩]

/-- Errors tell models with one outline apart: they name the range of the element to blame. -/
theorem analyze_ne_nestedOntology :
    nestedOntology.RingFree ∧ nestedOntologyInText.RingFree ∧
    nestedOntology.outline = nestedOntologyInText.outline ∧
    (LinkedModel.ofModel nestedOntology).analyze 0 .topLevelStatements ≠
      (LinkedModel.ofModel nestedOntologyInText).analyze 0 .topLevelStatements := by
  refine ⟨Model.MadeInOrder.ringFree ⟨_, by decide +kernel, rfl⟩,
    Model.MadeInOrder.ringFree ⟨_, by decide +kernel, rfl⟩, by decide +kernel, ?_⟩
  have h : (LinkedModel.ofModel nestedOntology).analyze 0 .topLevelStatements =
      .error (.unhandledElement 1 .ontology .discovery none) :=
    View.eq_error_of_sameOutcome (by decide +kernel)
  have h' : (LinkedModel.ofModel nestedOntologyInText).analyze 0 .topLevelStatements =
      .error (.unhandledElement 1 .ontology .discovery (some ⟨4, 9, by decide⟩)) :=
    View.eq_error_of_sameOutcome (by decide +kernel)
  rw [h, h']
  nofun

end OntologyView

/-
  WHAT THE QUERIES FIND, said of the elements themselves.

  A query of a `LinkedModel` looks things up among recorded references.  With the references of the
  model itself (`LinkedModel.ofModel`) nothing of that shows in the answer: an element is found if
  and only if it says what was asked for in its own fields.

  * `mem_referring`   — the first shape: who refers to a target, in a role;
  * `mem_belongings`  — the second: what belongs to a member (`Model.BelongsTo`);
  * `mem_superterms`  — the walk up the specializations is reachability.

  Of which KIND an answer is does not hang on the references.  That is said of every `LinkedModel`.
-/
import OntologyView.LinkedModel
import OntologyView.Proofs.Exploration

namespace OntologyView

/-! ## The ends of a relation -/

namespace Direction

/-- The end of a relation entity at which its relation in a direction starts.  It ends where the one
    in the other direction starts. -/
def start : Direction → (source target : Option ElementId) → Option ElementId
  | .forward, source, _ => source
  | .reverse, _, target => target

/-- A relation has both ends of its relation entity. -/
theorem start_or_flip_start (direction : Direction) {source target : Option ElementId}
    {e : ElementId} :
    direction.start source target = some e ∨ direction.flip.start source target = some e ↔
      source = some e ∨ target = some e := by
  cases direction with
  | forward => exact Iff.rfl
  | reverse => exact or_comm

end Direction

namespace Model

/-- `x` belongs to a member: it is a child of the member, or of a reference to it. -/
def BelongsTo (m : Model) (x member : ElementId) : Prop :=
  x ∈ m.children member ∨
    ∃ r kind, m.element? r = some (.reference kind (some member)) ∧ x ∈ m.children r

/-- What an owner has belongs to the member that the owner stands for. -/
theorem belongsTo_of_mem_children {m : Model} {x owner member : ElementId}
    (hx : x ∈ m.children owner) (hmember : m.member? owner = some member) :
    m.BelongsTo x member := by
  rcases member?_eq_some_iff.mp hmember with ⟨kind, he⟩ | ⟨rfl, -, -⟩
  · exact Or.inr ⟨owner, kind, he, hx⟩
  · exact Or.inl hx

theorem satisfies_iff {m : Model} {accept : Element → Bool} {id : ElementId} :
    m.satisfies accept id = true ↔ ∃ e, m.element? id = some e ∧ accept e = true := by
  unfold satisfies
  rw [Option.any_eq_true]

theorem hasKind_iff_exists {m : Model} {kind : ElementKind} {id : ElementId} :
    m.hasKind kind id = true ↔ ∃ e, m.element? id = some e ∧ e.kind = kind := by
  simp [hasKind, satisfies_iff]

theorem satisfies_kind_iff {m : Model} {accept : ElementKind → Bool} {id : ElementId} :
    m.satisfies (fun e => accept e.kind) id = true ↔
      ∃ kind, m.kind? id = some kind ∧ accept kind = true := by
  unfold satisfies kind?
  cases m.element? id <;> simp

end Model

namespace LinkedModel

/-! ## Kinds, with any references -/

section Kinds

variable {lm : LinkedModel}

theorem hasKind_of_mem_referringOfKind {role : Role} {kind : ElementKind} {target x : ElementId}
    (h : x ∈ lm.referringOfKind role kind target) : lm.model.hasKind kind x = true :=
  (List.mem_filter.mp h).2

theorem mem_ownedOfKind {kind : ElementKind} {owner x : ElementId} :
    x ∈ lm.ownedOfKind kind owner ↔ x ∈ lm.model.children owner ∧ lm.model.hasKind kind x = true :=
  List.mem_filter

theorem hasKind_of_mem_belongings {kind : ElementKind} {member x : ElementId}
    (h : x ∈ lm.belongings kind member) : lm.model.hasKind kind x = true := by
  obtain ⟨owner, -, hx⟩ := List.mem_flatMap.mp h
  exact (mem_ownedOfKind.mp hx).2

/-- Restrictions of a range are elements of that form. -/
theorem element?_of_mem_rangeRestrictionsTo {range x : ElementId}
    (h : x ∈ lm.rangeRestrictionsTo range) :
    ∃ narrowed relation, lm.model.element? x = some (.relationRestriction (.range narrowed) relation) := by
  obtain ⟨e, he, ha⟩ := Model.satisfies_iff.mp (List.mem_filter.mp h).2
  split at ha
  · exact ⟨_, _, he⟩
  · nomatch ha

theorem hasKind_of_relation? {m : Model} {direction : Direction} {entity x : ElementId}
    (h : m.relation? direction entity = some x) : m.hasKind (.relation direction) x = true := by
  have hx := List.find?_some h
  exact hx

/-- The relations at an entity are the first ones of relation entities. -/
theorem exists_owner_of_mem_relations {entity x : ElementId}
    (h : x ∈ lm.relationsFrom entity ∨ x ∈ lm.relationsTo entity) :
    ∃ owner direction, lm.model.hasKind .relationEntity owner = true ∧
      lm.model.relation? direction owner = some x := by
  simp only [relationsFrom, relationsTo, List.mem_append, List.mem_filterMap] at h
  rcases h with (⟨r, hr, hx⟩ | ⟨r, hr, hx⟩) | (⟨r, hr, hx⟩ | ⟨r, hr, hx⟩)
  all_goals exact ⟨r, _, hasKind_of_mem_referringOfKind hr, hx⟩

/-- The relations at an entity are relations, whichever way they are read. -/
theorem hasKind_of_mem_relations {entity x : ElementId}
    (h : x ∈ lm.relationsFrom entity ∨ x ∈ lm.relationsTo entity) :
    ∃ direction, lm.model.hasKind (.relation direction) x = true := by
  obtain ⟨_, direction, -, hx⟩ := exists_owner_of_mem_relations h
  exact ⟨direction, hasKind_of_relation? hx⟩

end Kinds

/-! ## Referrers, with the references of the model -/

section Referrers

variable {m : Model}

/-- **Who refers to a target in a role** can be read off the referring elements. -/
theorem mem_referring {role : Role} {accept : Element → Bool} {target x : ElementId} :
    x ∈ (ofModel m).referring role accept target ↔
      ∃ e, m.element? x = some e ∧ accept e = true ∧ (role, target) ∈ e.references := by
  rw [referring, List.mem_filter, CrossReferences.mem_sourcesInRole]
  show ⟨x, role⟩ ∈ (CrossReferences.ofModel m).referrers target ∧ m.satisfies accept x = true ↔ _
  rw [CrossReferences.mem_referrers_ofModel, Model.satisfies_iff]
  constructor
  · rintro ⟨⟨e, he, hr⟩, e', he', ha⟩
    obtain rfl : e = e' := Option.some.inj (he.symm.trans he')
    exact ⟨e, he, ha, hr⟩
  · rintro ⟨e, he, ha, hr⟩
    exact ⟨⟨e, he, hr⟩, e, he, ha⟩

theorem mem_referringOfKind {role : Role} {kind : ElementKind} {target x : ElementId} :
    x ∈ (ofModel m).referringOfKind role kind target ↔
      ∃ e, m.element? x = some e ∧ e.kind = kind ∧ (role, target) ∈ e.references := by
  rw [referringOfKind, mem_referring]
  simp only [decide_eq_true_eq]

theorem mem_referencesTo {member x : ElementId} : x ∈ (ofModel m).referencesTo member ↔
    ∃ kind, m.element? x = some (.reference kind (some member)) := by
  rw [referencesTo, mem_referringOfKind]
  constructor
  · rintro ⟨e, he, hk, hr⟩
    cases e with
    | reference kind target =>
      obtain rfl : target = some member := by simpa [Element.references] using hr
      exact ⟨kind, he⟩
    | _ => cases hk
  · rintro ⟨kind, he⟩
    exact ⟨_, he, rfl, by simp [Element.references]⟩

theorem mem_propertiesWithDomain {kind : PropertyKind} {domain x : ElementId} :
    x ∈ (ofModel m).propertiesWithDomain kind domain ↔
      ∃ name range, m.element? x = some (.property kind name (some domain) range) := by
  rw [propertiesWithDomain, mem_referringOfKind]
  constructor
  · rintro ⟨e, he, hk, hr⟩
    cases e with
    | property kind' name declared range =>
      obtain rfl : kind' = kind := ElementKind.property.inj hk
      obtain rfl : declared = some domain := by simpa [Element.references] using hr
      exact ⟨name, range, he⟩
    | _ => cases hk
  · rintro ⟨name, range, he⟩
    exact ⟨_, he, rfl, by simp [Element.references]⟩

theorem mem_specializationsInto {super x : ElementId} : x ∈ (ofModel m).specializationsInto super ↔
    m.element? x = some (.specialization (some super)) := by
  rw [specializationsInto, mem_referringOfKind]
  constructor
  · rintro ⟨e, he, hk, hr⟩
    cases e with
    | specialization target =>
      obtain rfl : target = some super := by simpa [Element.references] using hr
      exact he
    | _ => cases hk
  · exact fun he => ⟨_, he, rfl, by simp [Element.references]⟩

theorem mem_rangeRestrictionsTo {range x : ElementId} : x ∈ (ofModel m).rangeRestrictionsTo range ↔
    ∃ relation, m.element? x = some (.relationRestriction (.range (some range)) relation) := by
  rw [rangeRestrictionsTo, mem_referring]
  constructor
  · rintro ⟨e, he, ha, hr⟩
    split at ha
    · rename_i narrowed relation
      obtain rfl : narrowed = some range := by simpa [Element.references] using hr
      exact ⟨relation, he⟩
    · nomatch ha
  · rintro ⟨relation, he⟩
    exact ⟨_, he, rfl, by simp [Element.references]⟩

theorem mem_relationEntitiesFrom {source x : ElementId} :
    x ∈ (ofModel m).relationEntitiesFrom source ↔
      ∃ name target, m.element? x = some (.relationEntity name (some source) target) := by
  rw [relationEntitiesFrom, mem_referringOfKind]
  constructor
  · rintro ⟨e, he, hk, hr⟩
    cases e with
    | relationEntity name start target =>
      obtain rfl : start = some source := by simpa [Element.references] using hr
      exact ⟨name, target, he⟩
    | _ => cases hk
  · rintro ⟨name, target, he⟩
    exact ⟨_, he, rfl, by simp [Element.references]⟩

theorem mem_relationEntitiesTo {target x : ElementId} :
    x ∈ (ofModel m).relationEntitiesTo target ↔
      ∃ name source, m.element? x = some (.relationEntity name source (some target)) := by
  rw [relationEntitiesTo, mem_referringOfKind]
  constructor
  · rintro ⟨e, he, hk, hr⟩
    cases e with
    | relationEntity name source finish =>
      obtain rfl : finish = some target := by simpa [Element.references] using hr
      exact ⟨name, source, he⟩
    | _ => cases hk
  · rintro ⟨name, source, he⟩
    exact ⟨_, he, rfl, by simp [Element.references]⟩

theorem mem_relationInstancesFrom {source x : ElementId} :
    x ∈ (ofModel m).relationInstancesFrom source ↔ ∃ name types sources targets,
      m.element? x = some (.relationInstance name types sources targets) ∧ source ∈ sources := by
  rw [relationInstancesFrom, mem_referringOfKind]
  constructor
  · rintro ⟨e, he, hk, hr⟩
    cases e with
    | relationInstance name types sources targets =>
      have hsource : source ∈ sources := by simpa [Element.references] using hr
      exact ⟨name, types, sources, targets, he, hsource⟩
    | _ => cases hk
  · rintro ⟨name, types, sources, targets, he, hsource⟩
    exact ⟨_, he, rfl, by simp [Element.references, hsource]⟩

/-- The first forward relations of some relation entities and the first reverse ones of others are
    described together, if the relation entities are chosen by what they say for the direction. -/
theorem mem_filterMap_relations {owners owners' : List ElementId} {x : ElementId}
    {p : Direction → (source target : Option ElementId) → Prop}
    (h : ∀ o, o ∈ owners ↔ ∃ name source target,
      m.element? o = some (.relationEntity name source target) ∧ p .forward source target)
    (h' : ∀ o, o ∈ owners' ↔ ∃ name source target,
      m.element? o = some (.relationEntity name source target) ∧ p .reverse source target) :
    x ∈ owners.filterMap (m.relation? .forward) ++ owners'.filterMap (m.relation? .reverse) ↔
      ∃ owner name source target direction,
        m.element? owner = some (.relationEntity name source target) ∧ p direction source target ∧
          m.relation? direction owner = some x := by
  simp only [List.mem_append, List.mem_filterMap, h, h']
  constructor
  · rintro (⟨o, ⟨name, source, target, he, hp⟩, hx⟩ | ⟨o, ⟨name, source, target, he, hp⟩, hx⟩)
    · exact ⟨o, name, source, target, .forward, he, hp, hx⟩
    · exact ⟨o, name, source, target, .reverse, he, hp, hx⟩
  · rintro ⟨o, name, source, target, direction, he, hp, hx⟩
    cases direction with
    | forward => exact Or.inl ⟨o, ⟨name, source, target, he, hp⟩, hx⟩
    | reverse => exact Or.inr ⟨o, ⟨name, source, target, he, hp⟩, hx⟩

/-- **The relations that start at an entity** are the first ones of relation entities, in the direction
    that starts there. -/
theorem mem_relationsFrom {entity x : ElementId} : x ∈ (ofModel m).relationsFrom entity ↔
    ∃ owner name source target direction,
      m.element? owner = some (.relationEntity name source target) ∧
        direction.start source target = some entity ∧ m.relation? direction owner = some x := by
  refine mem_filterMap_relations (m := m) ?_ ?_
  · intro o
    simp [mem_relationEntitiesFrom, Direction.start]
  · intro o
    simp [mem_relationEntitiesTo, Direction.start]

/-- **The relations that end at an entity** start at the other end in the other direction. -/
theorem mem_relationsTo {entity x : ElementId} : x ∈ (ofModel m).relationsTo entity ↔
    ∃ owner name source target direction,
      m.element? owner = some (.relationEntity name source target) ∧
        direction.flip.start source target = some entity ∧
          m.relation? direction owner = some x := by
  refine mem_filterMap_relations (m := m) ?_ ?_
  · intro o
    simp [mem_relationEntitiesTo, Direction.start, Direction.flip]
  · intro o
    simp [mem_relationEntitiesFrom, Direction.start, Direction.flip]

/-- **The relations at an entity**, whichever way they are read, are the first ones of the relation
    entities that have it as an end. -/
theorem mem_relations_iff {entity x : ElementId} :
    x ∈ (ofModel m).relationsFrom entity ∨ x ∈ (ofModel m).relationsTo entity ↔
      ∃ owner name source target direction,
        m.element? owner = some (.relationEntity name source target) ∧
          (source = some entity ∨ target = some entity) ∧ m.relation? direction owner = some x := by
  rw [mem_relationsFrom, mem_relationsTo]
  constructor
  · rintro (⟨o, name, source, target, direction, he, hend, hx⟩ |
      ⟨o, name, source, target, direction, he, hend, hx⟩)
    · exact ⟨o, name, source, target, direction, he, direction.start_or_flip_start.mp (Or.inl hend),
        hx⟩
    · exact ⟨o, name, source, target, direction, he, direction.start_or_flip_start.mp (Or.inr hend),
        hx⟩
  · rintro ⟨o, name, source, target, direction, he, hend, hx⟩
    rcases direction.start_or_flip_start.mpr hend with hend | hend
    · exact Or.inl ⟨o, name, source, target, direction, he, hend, hx⟩
    · exact Or.inr ⟨o, name, source, target, direction, he, hend, hx⟩

/-! ## What belongs to a member -/

/-- **What belongs to a member** is owned by it or by a reference to it. -/
theorem mem_belongings {kind : ElementKind} {member x : ElementId} :
    x ∈ (ofModel m).belongings kind member ↔ m.BelongsTo x member ∧ m.hasKind kind x = true := by
  have hmodel : (ofModel m).model = m := rfl
  simp only [belongings, List.mem_flatMap, List.mem_cons, mem_ownedOfKind, hmodel]
  constructor
  · rintro ⟨owner, rfl | ho, hx, hk⟩
    · exact ⟨Or.inl hx, hk⟩
    · obtain ⟨kind', hr⟩ := mem_referencesTo.mp ho
      exact ⟨Or.inr ⟨owner, kind', hr, hx⟩, hk⟩
  · rintro ⟨hx | ⟨r, kind', hr, hx⟩, hk⟩
    · exact ⟨member, Or.inl rfl, hx, hk⟩
    · exact ⟨r, Or.inr (mem_referencesTo.mpr ⟨kind', hr⟩), hx, hk⟩

end Referrers

/-! ## Superterms -/

section Superterms

variable {lm : LinkedModel} {a b c : ElementId}

/-- **The superterms of a term** are what one or more specializations lead to. -/
theorem mem_superterms {inclusive : Bool} : b ∈ lm.superterms a inclusive ↔
    Exploration.Reaches lm.directSuperterms a b ∨ inclusive = true ∧ b = a :=
  Exploration.mem_found_explore _

/-- A superterm of a superterm is a superterm. -/
theorem superterms_trans {inclusive : Bool} (hb : b ∈ lm.superterms a false)
    (hc : c ∈ lm.superterms b inclusive) : c ∈ lm.superterms a false := by
  have hab : Exploration.Reaches lm.directSuperterms a b := by simpa [mem_superterms] using hb
  rcases mem_superterms.mp hc with hbc | ⟨-, rfl⟩
  · exact mem_superterms.mpr (Or.inl (hab.trans hbc))
  · exact hb

theorem mem_superterms_true : b ∈ lm.superterms a true ↔ b ∈ lm.superterms a false ∨ b = a := by
  simp [mem_superterms]

end Superterms

end LinkedModel

end OntologyView

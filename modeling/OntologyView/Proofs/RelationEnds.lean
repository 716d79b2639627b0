/-
  RELATIONS AND THEIR ENDS: who is asked for the relations at an element, and who owns a relation.

  1. **Specification** — a relation entity owns a relation, and has a source and a target.  Forward the
     relation starts at the source and ends at the target, and in reverse it is the other way round.

  2. **Program** — the queries for the relations that start or end at an element look up who has it as
     an end, once as a source and once as a target, and take the first relation of each, once forward
     and once in reverse.  Who owns a relation is looked up the other way, from the relation.

  3. **The crux** — a relation is the first of its direction in one relation entity only, since nothing
     is listed as a child by two elements, and it has one direction (`Linked.eq_of_relation?`).  So it
     is found at an element only if its own relation entity has it there, and no look-up finds what
     another one finds, not even where both ends are the same.
-/
import Mathlib.Data.List.Nodup
import OntologyView.Proofs.IncidentElements
import OntologyView.Proofs.References

namespace OntologyView

namespace Model

variable {m : Model} {owner owner' x : ElementId} {direction direction' : Direction}

/-- **A relation is the first one of one direction of one element**, if the links agree. -/
theorem Linked.eq_of_relation? (hm : m.Linked) (hx : m.relation? direction owner = some x)
    (hx' : m.relation? direction' owner' = some x) : owner = owner' ∧ direction = direction' := by
  have hc : m.container? x = some owner := hm owner x (List.mem_of_find?_eq_some hx)
  have hc' : m.container? x = some owner' := hm owner' x (List.mem_of_find?_eq_some hx')
  have hk := hasKind_iff.mp (LinkedModel.hasKind_of_relation? hx)
  have hk' := hasKind_iff.mp (LinkedModel.hasKind_of_relation? hx')
  exact ⟨Option.some.inj (hc.symm.trans hc'),
    ElementKind.relation.inj (Option.some.inj (hk.symm.trans hk'))⟩

/-- A relation is the first one of its own relation entity only, so what holds of some relation entity
    that it is the first one of holds of its own. -/
theorem Linked.exists_relation_iff {name : String} {source target : Option ElementId} (hm : m.Linked)
    (he : m.element? owner = some (.relationEntity name source target))
    (hx : m.relation? direction owner = some x)
    (p : Direction → Option ElementId → Option ElementId → Prop) :
    (∃ owner name source target direction,
      m.element? owner = some (.relationEntity name source target) ∧ p direction source target ∧
        m.relation? direction owner = some x) ↔ p direction source target := by
  constructor
  · rintro ⟨owner', name', source', target', direction', he', hp, hx'⟩
    obtain ⟨rfl, rfl⟩ := hm.eq_of_relation? hx hx'
    obtain ⟨-, rfl, rfl⟩ := Element.relationEntity.inj (Option.some.inj (he.symm.trans he'))
    exact hp
  · intro hp
    exact ⟨owner, name, source, target, direction, he, hp, hx⟩

end Model

namespace LinkedModel

variable {m : Model} {owner entity x : ElementId} {name : String} {source target : Option ElementId}
  {direction : Direction}

/-! ## From the relation to the queries -/

/-- A relation of a relation entity is found where it starts. -/
theorem mem_relationsFrom_iff_start (hm : m.Linked)
    (he : m.element? owner = some (.relationEntity name source target))
    (hx : m.relation? direction owner = some x) :
    x ∈ (ofModel m).relationsFrom entity ↔ direction.start source target = some entity := by
  rw [mem_relationsFrom]
  exact hm.exists_relation_iff he hx fun direction source target =>
    direction.start source target = some entity

/-- A relation of a relation entity is found where it ends. -/
theorem mem_relationsTo_iff_start (hm : m.Linked)
    (he : m.element? owner = some (.relationEntity name source target))
    (hx : m.relation? direction owner = some x) :
    x ∈ (ofModel m).relationsTo entity ↔ direction.flip.start source target = some entity := by
  rw [mem_relationsTo]
  exact hm.exists_relation_iff he hx fun direction source target =>
    direction.flip.start source target = some entity

/-! ## No repetition -/

theorem nodup_referringOfKind (m : Model) (role : Role) (kind : ElementKind) (t : ElementId) :
    ((ofModel m).referringOfKind role kind t).Nodup :=
  (ascending_referring m role _ t).imp Nat.ne_of_lt

/-- The forward relations of some elements and the reverse relations of others are all different. -/
theorem nodup_relations (hm : m.Linked) {owners owners' : List ElementId} (h : owners.Nodup)
    (h' : owners'.Nodup) : (owners.filterMap (m.relation? .forward) ++
      owners'.filterMap (m.relation? .reverse)).Nodup := by
  have hpart : ∀ (direction : Direction) {owners : List ElementId}, owners.Nodup →
      (owners.filterMap (m.relation? direction)).Nodup := fun direction _ h =>
    h.filterMap fun o o' x hx hx' => (hm.eq_of_relation? hx hx').1
  refine List.nodup_append.mpr ⟨hpart .forward h, hpart .reverse h', ?_⟩
  rintro x hx _ hx' rfl
  obtain ⟨o, -, hforward⟩ := List.mem_filterMap.mp hx
  obtain ⟨o', -, hreverse⟩ := List.mem_filterMap.mp hx'
  nomatch (hm.eq_of_relation? hforward hreverse).2

/-- **The relations at an element are those of the relation entities that have it as an end**, in models
    that edits make.  The first forward relation of a relation entity is found to start at the source
    and to end at the target, and nowhere else; the first reverse one the other way round.  Nothing is
    found twice, and what is found belongs to a relation entity that has the element as an end. -/
theorem relations_found_at_their_ends (hm : m.Edited) (entity : ElementId) :
    (∀ owner name source target, m.element? owner = some (.relationEntity name source target) →
      (∀ f, m.relation? .forward owner = some f →
        (f ∈ (ofModel m).relationsFrom entity ↔ source = some entity) ∧
        (f ∈ (ofModel m).relationsTo entity ↔ target = some entity)) ∧
      ∀ r, m.relation? .reverse owner = some r →
        (r ∈ (ofModel m).relationsFrom entity ↔ target = some entity) ∧
        (r ∈ (ofModel m).relationsTo entity ↔ source = some entity)) ∧
    ((ofModel m).relationsFrom entity).Nodup ∧ ((ofModel m).relationsTo entity).Nodup ∧
    ∀ x, x ∈ (ofModel m).relationsFrom entity ∨ x ∈ (ofModel m).relationsTo entity →
      ∃ owner name source target direction, m.owningEntity? x = some owner ∧
        m.element? owner = some (.relationEntity name source target) ∧
        (source = some entity ∨ target = some entity) ∧ m.relation? direction owner = some x := by
  refine ⟨?_, nodup_relations hm.linked (nodup_referringOfKind ..) (nodup_referringOfKind ..),
    nodup_relations hm.linked (nodup_referringOfKind ..) (nodup_referringOfKind ..), ?_⟩
  · intro owner name source target he
    constructor
    · intro f hf
      exact ⟨mem_relationsFrom_iff_start hm.linked he hf, mem_relationsTo_iff_start hm.linked he hf⟩
    · intro r hr
      exact ⟨mem_relationsFrom_iff_start hm.linked he hr, mem_relationsTo_iff_start hm.linked he hr⟩
  · intro x hx
    obtain ⟨owner, name, source, target, direction, he, hend, hrelation⟩ := mem_relations_iff.mp hx
    have hk : m.hasKind .relationEntity owner = true := Model.hasKind_iff_exists.mpr ⟨_, he, rfl⟩
    have howner : m.owningEntity? x = some owner :=
      hm.linked.owningEntity?_of_relation? hk hrelation
    exact ⟨owner, name, source, target, direction, howner, he, hend, hrelation⟩

end LinkedModel

/-- A relation entity, 1, that is its own source and target and has a second forward relation, and
    another one, 6, from 1 to 5, which declares its reverse relation first. -/
def echoes : Model := .ofEdits [.vocabulary "http://example.com/dnd#" "dnd",
  .relationEntity 0 "Echoes" (some 1) (some 1), .relation 1 "echoes" .forward,
  .relation 1 "echoedBy" .reverse, .relation 1 "echoesToo" .forward, .concept 0 "Cave",
  .relationEntity 0 "Fills" (some 1) (some 5), .relation 6 "filledBy" .reverse,
  .relation 6 "fills" .forward]

/-- Both relations of 1 start and end there.  Those of 6 are found at different ends. -/
theorem relations_found_at_their_ends_echoes :
    echoes.Edited ∧ (LinkedModel.ofModel echoes).relationsFrom 1 = [2, 8, 3] ∧
    (LinkedModel.ofModel echoes).relationsTo 1 = [2, 3, 7] ∧
    ((LinkedModel.ofModel echoes).relationsFrom 1).Nodup ∧
    (2 ∈ (LinkedModel.ofModel echoes).relationsTo 1 ∧
      3 ∈ (LinkedModel.ofModel echoes).relationsFrom 1) ∧
    (8 ∉ (LinkedModel.ofModel echoes).relationsTo 1 ∧
      7 ∉ (LinkedModel.ofModel echoes).relationsFrom 1) ∧
    ∃ name source target direction, echoes.owningEntity? 8 = some 6 ∧
      echoes.element? 6 = some (.relationEntity name source target) ∧
      (source = some 1 ∨ target = some 1) ∧ echoes.relation? direction 6 = some 8 := by
  have hm : echoes.Edited := ⟨_, rfl⟩
  have hfrom : (LinkedModel.ofModel echoes).relationsFrom 1 = [2, 8, 3] := by decide +kernel
  have hto : (LinkedModel.ofModel echoes).relationsTo 1 = [2, 3, 7] := by decide +kernel
  obtain ⟨hends, hnodup, -, howner⟩ := LinkedModel.relations_found_at_their_ends hm 1
  have hsame := hends 1 "Echoes" (some 1) (some 1) (by decide +kernel)
  have hother := hends 6 "Fills" (some 1) (some 5) (by decide +kernel)
  have hforward := hsame.1 2 (by decide +kernel)
  have hreverse := hsame.2 3 (by decide +kernel)
  have hfills := hother.1 8 (by decide +kernel)
  have hfilled := hother.2 7 (by decide +kernel)
  obtain ⟨owner, name, source, target, direction, ho, he, hend, hrelation⟩ :=
    howner 8 (Or.inl (hfills.1.mpr rfl))
  obtain rfl : owner = 6 :=
    Option.some.inj (ho.symm.trans (by decide +kernel : echoes.owningEntity? 8 = some 6))
  exact ⟨hm, hfrom, hto, hnodup, ⟨hforward.2.mpr rfl, hreverse.1.mpr rfl⟩,
    ⟨fun h => absurd (hfills.2.mp h) (by decide), fun h => absurd (hfilled.1.mp h) (by decide)⟩,
    name, source, target, direction, ho, he, hend, hrelation⟩

end OntologyView

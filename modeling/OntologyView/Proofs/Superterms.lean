/-
  SUPERTERMS are the transitive closure of the specializations of a model.

  1. **Specification** — `Model.Specializes`: one term is declared to specialize another.  The
     declaration is a specialization into the general term, and it belongs to the specific one, as a
     child of it or of a reference to it.  The superterms of a term are what one or more of these
     steps lead to.

  2. **Program** — `LinkedModel.superterms` is a walk, and each step of it looks things up: the
     references to a term among the recorded ones, the children of the term and of these, and what
     the specializations among the children lead into.  `Exploration.exploreFor` takes the same steps
     with no word on whether they end.

  3. **The crux** — a step of the walk is one specialization (`mem_directSuperterms`), whether the
     term is there or not.  So the walk never leaves the list of what some specialization leads into.
     The list is finite, and no longer than the model: rings make the walk no longer, and what leads
     nowhere adds nothing to it.
-/
import OntologyView.Model.Edit
import OntologyView.Proofs.Expansion
import OntologyView.Proofs.Queries

namespace OntologyView

/-! ## One specialization -/

namespace Model

/-- `s` is declared to specialize `u`: a specialization into `u` belongs to `s`. -/
def Specializes (m : Model) (s u : ElementId) : Prop :=
  ∃ x, m.element? x = some (.specialization (some u)) ∧ m.BelongsTo x s

end Model

namespace LinkedModel

/-- **The direct superterms of a term** are those that it is declared to specialize. -/
theorem mem_directSuperterms {m : Model} {s u : ElementId} :
    u ∈ (ofModel m).directSuperterms s ↔ m.Specializes s u := by
  rw [directSuperterms, List.mem_filterMap]
  show (∃ x, x ∈ (ofModel m).specializationsOf s ∧ m.superterm? x = some u) ↔ _
  constructor
  · rintro ⟨x, hx, hsuper⟩
    have hbelongs : m.BelongsTo x s := (mem_belongings.mp hx).1
    exact ⟨x, Model.superterm?_eq_some_iff.mp hsuper, hbelongs⟩
  · rintro ⟨x, he, hbelongs⟩
    have hk : m.hasKind .specialization x = true := Model.hasKind_iff_exists.mpr ⟨_, he, rfl⟩
    exact ⟨x, mem_belongings.mpr ⟨hbelongs, hk⟩, Model.superterm?_eq_some_iff.mpr he⟩

/-! ## All of them -/

section Walk

variable {lm : LinkedModel}

/-- No walk up the superterms leaves what the specializations of the model lead into. -/
theorem mem_supertermIds_of_reaches (lm : LinkedModel) {a b : ElementId}
    (h : Exploration.Reaches lm.directSuperterms a b) : b ∈ lm.model.supertermIds :=
  h.mem_of_step fun _ _ => lm.mem_supertermIds_of_mem_directSuperterms

theorem nodup_superterms (term : ElementId) (inclusive : Bool) :
    (lm.superterms term inclusive).Nodup :=
  Exploration.nodup_found_explore _

/-- **The walk up the superterms ends**, whatever rings the specializations form. -/
theorem exploreFor_directSuperterms {fuel : Nat} (hfuel : lm.model.supertermIds.length + 2 ≤ fuel)
    (term : ElementId) (inclusive : Bool) :
    (Exploration.exploreFor lm.directSuperterms fuel term inclusive).map Exploration.found =
      some (lm.superterms term inclusive) := by
  have hbound : ∀ b, Exploration.Reaches lm.directSuperterms term b → b ∈ lm.model.supertermIds :=
    fun _ => lm.mem_supertermIds_of_reaches
  have hlength := Exploration.length_expanded_explore_le inclusive hbound
  rw [Exploration.exploreFor_eq _ hbound, if_pos (by omega)]
  rfl

end Walk

/-- Some steps of the walk are some specializations. -/
theorem reaches_directSuperterms_iff {m : Model} {s u : ElementId} :
    Exploration.Reaches (ofModel m).directSuperterms s u ↔
      Relation.TransGen m.Specializes s u := by
  have hstep : (fun a b => b ∈ (ofModel m).directSuperterms a) = m.Specializes :=
    funext fun _ => funext fun _ => propext mem_directSuperterms
  rw [Exploration.Reaches, hstep]

/-- **The superterms of a term are the transitive closure of the specializations**, and the term
    itself is added if it is asked for.  The walk that looks for them ends in every model, with no
    more turns than there are specializations and two, and lists each of them once.  So the superterms
    of a superterm, itself among them, are superterms. -/
theorem superterms_transitive_closure (m : Model) (t : ElementId) (inclusive : Bool) :
    (∀ fuel, m.supertermIds.length + 2 ≤ fuel →
      (Exploration.exploreFor (ofModel m).directSuperterms fuel t inclusive).map Exploration.found =
        some ((ofModel m).superterms t inclusive)) ∧
    ((ofModel m).superterms t inclusive).Nodup ∧
    (∀ u, u ∈ (ofModel m).superterms t inclusive ↔
      Relation.TransGen m.Specializes t u ∨ inclusive = true ∧ u = t) ∧
    ∀ u ∈ (ofModel m).superterms t false, ∀ w ∈ (ofModel m).superterms u true,
      w ∈ (ofModel m).superterms t false := by
  refine ⟨fun fuel hfuel => ?_, nodup_superterms t inclusive, fun u => ?_, fun u hu w hw => ?_⟩
  · exact exploreFor_directSuperterms hfuel t inclusive
  · rw [mem_superterms, reaches_directSuperterms_iff]
  · exact superterms_trans hu hw

end LinkedModel

/-- Three concepts that specialize each other in a ring, one of them by a specialization on a
    reference to it, and a reference to a term that is not there, which specializes one of the three.
    One more specialization leads nowhere. -/
def specializationRing : Model := .ofEdits [.vocabulary "http://example.com/dnd#" "dnd",
  .concept 0 "Creature", .concept 0 "Monster", .concept 0 "Dragon", .specialize 2 (some 1),
  .specialize 2 none, .specialize 3 (some 2), .reference 0 .concept (some 1),
  .specialize 7 (some 3), .reference 0 .concept (some 99), .specialize 9 (some 3)]

theorem superterms_transitive_closure_specializationRing :
    specializationRing.supertermIds.length + 2 ≤ 6 ∧
    (Exploration.exploreFor (LinkedModel.ofModel specializationRing).directSuperterms 6 99
      false).map Exploration.found = some [3, 2, 1] ∧
    (LinkedModel.ofModel specializationRing).superterms 99 false = [3, 2, 1] ∧
    Relation.TransGen specializationRing.Specializes 99 1 ∧
    1 ∈ (LinkedModel.ofModel specializationRing).superterms 99 false ∧
    (∀ w ∈ (LinkedModel.ofModel specializationRing).superterms 1 true,
      w ∈ (LinkedModel.ofModel specializationRing).superterms 99 false) := by
  obtain ⟨hends, -, hiff, htrans⟩ :=
    LinkedModel.superterms_transitive_closure specializationRing 99 false
  have hfuel : specializationRing.supertermIds.length + 2 ≤ 6 := by decide +kernel
  have hall : (LinkedModel.ofModel specializationRing).superterms 99 false = [3, 2, 1] := by
    decide +kernel
  have hmem : 1 ∈ (LinkedModel.ofModel specializationRing).superterms 99 false := by
    rw [hall]
    decide
  have hpath : Relation.TransGen specializationRing.Specializes 99 1 :=
    ((hiff 1).mp hmem).resolve_right nofun
  exact ⟨hfuel, hall ▸ hends 6 hfuel, hall, hpath, hmem, htrans 1 hmem⟩

end OntologyView

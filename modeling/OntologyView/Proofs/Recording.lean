/-
  RECORDING: two tables hold one set of references.

  1. **Program** — `CrossReferences.add` writes a reference to two tables: by its target, as a referrer
     in a role, and by its source, as a bare target.  Each table drops what it holds already, and they
     do so by different things.  The same source in two roles is two referrers and one target.

  2. **Specification** — `Records x refs`: all that `x` is asked is answered from the list of what was
     recorded, repetitions and all.  An answer lists what the references that it is about say, each
     thing once, in the order in which the references came.

  3. **The crux** — one more reference is one more arrival at every answer that it is about, and at no
     other (`referrers_add`, `sources_add`, `sourcesInRole_add`, `targets_add`).  The same holds of the
     distinct values of a list (`eraseDups_map_filter_concat`).  The number of references goes up when a
     target gets a new referrer, which is when the reference is new (`Records.mem_referrers_iff`).
     So a step keeps `Records` (`Records.add`), and a run of any length does (`records_addAll`).
-/
import OntologyView.CrossReferences

namespace OntologyView.CrossReferences

/-! ## One more reference -/

/-- The source arrives among those of its target. -/
theorem sources_add (x : CrossReferences) (r : CrossReference) (t : ElementId) :
    (x.add r).sources t =
      if t = r.target then addNew (x.sources t) r.source else x.sources t := by
  rw [sources, referrers_add]
  split
  · exact eraseDups_map_addNew Referrer.source (x.referrers t) ⟨r.source, r.role⟩
  · rfl

/-- One more reference arrives at the list of its target and role, and at no other. -/
theorem sourcesInRole_add (x : CrossReferences) (r : CrossReference) (role : Role)
    (t : ElementId) : (x.add r).sourcesInRole role t =
      if t = r.target ∧ role = r.role then addNew (x.sourcesInRole role t) r.source
      else x.sourcesInRole role t := by
  have hmem : ⟨r.source, r.role⟩ ∈ x.referrers t ↔ r.source ∈ x.sourcesInRole r.role t :=
    mem_sourcesInRole.symm
  rw [sourcesInRole, referrers_add]
  by_cases ht : t = r.target
  · by_cases hrole : role = r.role
    · subst hrole
      by_cases hold : r.source ∈ x.sourcesInRole r.role t
      · rw [if_pos ht, if_pos ⟨ht, rfl⟩, addNew_of_mem hold, addNew_of_mem (hmem.mpr hold),
          sourcesInRole]
      · rw [if_pos ht, if_pos ⟨ht, rfl⟩, addNew, if_neg (mt hmem.mp hold), addNew, if_neg hold,
          List.filter_append, List.map_append, ← sourcesInRole]
        simp
    · -- The new referrer is filtered out, in whichever place it came.
      have hother : ¬ (t = r.target ∧ role = r.role) := fun h => hrole h.2
      rw [if_pos ht, if_neg hother, sourcesInRole, addNew]
      split
      · rfl
      · simp [List.filter_append, Ne.symm hrole]
  · have hother : ¬ (t = r.target ∧ role = r.role) := fun h => ht h.1
    rw [if_neg ht, if_neg hother, sourcesInRole]

/-- The number of references goes up unless the target has the referrer. -/
theorem referenceCount_add (x : CrossReferences) (r : CrossReference) :
    (x.add r).referenceCount = x.referenceCount +
      if ⟨r.source, r.role⟩ ∈ x.referrers r.target then 0 else 1 :=
  Table.length_flatten_values_addTo x.byTarget r.target ⟨r.source, r.role⟩

/-- What is recorded again, in the same role, is dropped by both tables. -/
theorem add_of_mem {x : CrossReferences} {r : CrossReference}
    (hreferrer : ⟨r.source, r.role⟩ ∈ x.referrers r.target) (htarget : r.target ∈ x.targets r.source) :
    x.add r = x := by
  rw [add, Table.addTo_of_mem hreferrer, Table.addTo_of_mem htarget]

/-- A source is one in some role. -/
theorem mem_sources_iff_exists_role {x : CrossReferences} {s t : ElementId} :
    s ∈ x.sources t ↔ ∃ role, s ∈ x.sourcesInRole role t := by
  rw [sources, List.mem_eraseDups, List.mem_map]
  constructor
  · rintro ⟨⟨s, role⟩, hr, rfl⟩
    exact ⟨role, mem_sourcesInRole.mpr hr⟩
  · rintro ⟨role, hs⟩
    exact ⟨⟨s, role⟩, mem_sourcesInRole.mp hs, rfl⟩

/-! ## Answers from a list of references -/

/-- The look-ups of `x` are answered from a list of references: each with what those that it is about
    say, each thing once, in the order in which they came. -/
structure Records (x : CrossReferences) (refs : List CrossReference) : Prop where
  referrers : ∀ t, x.referrers t =
    ((refs.filter fun r => t = r.target).map fun r => (⟨r.source, r.role⟩ : Referrer)).eraseDups
  sources : ∀ t, x.sources t =
    ((refs.filter fun r => t = r.target).map CrossReference.source).eraseDups
  sourcesInRole : ∀ role t, x.sourcesInRole role t =
    ((refs.filter fun r => t = r.target ∧ role = r.role).map CrossReference.source).eraseDups
  targets : ∀ s, x.targets s =
    ((refs.filter fun r => s = r.source).map CrossReference.target).eraseDups
  /-- What is referred to, in order. -/
  keys : x.byTarget.keys = (refs.map CrossReference.target).eraseDups
  referenceCount : x.referenceCount = refs.eraseDups.length

theorem mem_eraseDups_map_filter {α : Type} [DecidableEq α] {about : CrossReference → Prop}
    [DecidablePred about] {value : CrossReference → α} {refs : List CrossReference} {a : α} :
    a ∈ ((refs.filter fun r => about r).map value).eraseDups ↔
      ∃ r ∈ refs, about r ∧ value r = a := by
  simp [List.mem_eraseDups, and_assoc]

/-- One more reference brings a value to what it is about, and nothing to all else. -/
theorem eraseDups_map_filter_concat {α : Type} [DecidableEq α] (about : CrossReference → Prop)
    [DecidablePred about] (value : CrossReference → α) (refs : List CrossReference)
    (r : CrossReference) : (((refs ++ [r]).filter fun r => about r).map value).eraseDups =
      if about r then addNew ((refs.filter fun r => about r).map value).eraseDups (value r)
      else ((refs.filter fun r => about r).map value).eraseDups := by
  by_cases h : about r <;> simp [List.filter_append, h, eraseDups_concat]

namespace Records

variable {x : CrossReferences} {refs : List CrossReference} {s t : ElementId} {role : Role}

theorem empty : Records .empty [] where
  referrers := fun _ => rfl
  sources := fun _ => rfl
  sourcesInRole := fun _ _ => rfl
  targets := fun _ => rfl
  keys := rfl
  referenceCount := rfl

theorem mem_referrers_iff (h : x.Records refs) {r : CrossReference} :
    ⟨r.source, r.role⟩ ∈ x.referrers r.target ↔ r ∈ refs := by
  rw [h.referrers, mem_eraseDups_map_filter]
  constructor
  · rintro ⟨⟨s, role, t⟩, hr, rfl, heq⟩
    obtain ⟨rfl, rfl⟩ := Referrer.mk.inj heq
    exact hr
  · exact fun hr => ⟨r, hr, rfl, rfl⟩

theorem mem_sources_iff (h : x.Records refs) :
    s ∈ x.sources t ↔ ∃ r ∈ refs, t = r.target ∧ r.source = s := by
  rw [h.sources, mem_eraseDups_map_filter]

theorem mem_targets_iff (h : x.Records refs) :
    t ∈ x.targets s ↔ ∃ r ∈ refs, s = r.source ∧ r.target = t := by
  rw [h.targets, mem_eraseDups_map_filter]

/-- The bare look-ups from either end agree. -/
theorem mem_targets_iff_mem_sources (h : x.Records refs) : t ∈ x.targets s ↔ s ∈ x.sources t := by
  rw [h.mem_targets_iff, h.mem_sources_iff]
  constructor
  · rintro ⟨r, hr, rfl, rfl⟩
    exact ⟨r, hr, rfl, rfl⟩
  · rintro ⟨r, hr, rfl, rfl⟩
    exact ⟨r, hr, rfl, rfl⟩

theorem isReferenced_iff (h : x.Records refs) :
    x.isReferenced t = true ↔ ∃ r ∈ refs, r.target = t := by
  have hsome : x.isReferenced t = true ↔ ∃ referrer, referrer ∈ x.referrers t := by
    unfold isReferenced
    cases x.referrers t <;> simp
  rw [hsome]
  constructor
  · rintro ⟨referrer, hreferrer⟩
    rw [h.referrers, mem_eraseDups_map_filter] at hreferrer
    obtain ⟨r, hr, ht, -⟩ := hreferrer
    exact ⟨r, hr, ht.symm⟩
  · rintro ⟨r, hr, rfl⟩
    exact ⟨_, h.mem_referrers_iff.mpr hr⟩

/-- **One more reference** is answered for as if it came last. -/
theorem add (h : x.Records refs) (r : CrossReference) : (x.add r).Records (refs ++ [r]) where
  referrers := by
    intro t
    rw [referrers_add, h.referrers, eraseDups_map_filter_concat fun r => t = r.target]
  sources := by
    intro t
    rw [sources_add, h.sources, eraseDups_map_filter_concat fun r => t = r.target]
  sourcesInRole := by
    intro role t
    rw [sourcesInRole_add, h.sourcesInRole,
      eraseDups_map_filter_concat fun r => t = r.target ∧ role = r.role]
  targets := by
    intro s
    rw [targets_add, h.targets, eraseDups_map_filter_concat fun r => s = r.source]
  keys := by
    show (x.byTarget.addTo r.target ⟨r.source, r.role⟩).keys = _
    rw [Table.keys_addTo, h.keys, List.map_append, List.map_singleton, eraseDups_concat]
  referenceCount := by
    -- Whether the referrer is new is whether the reference is.
    have hmem : ⟨r.source, r.role⟩ ∈ x.referrers r.target ↔ r ∈ refs.eraseDups := by
      rw [h.mem_referrers_iff, List.mem_eraseDups]
    rw [referenceCount_add, h.referenceCount, eraseDups_concat, length_addNew]
    simp only [hmem]

/-- Many references, one after the other. -/
theorem addAll (h : x.Records refs) (more : List CrossReference) :
    (x.addAll more).Records (refs ++ more) := by
  induction more generalizing x refs with
  | nil => simpa [CrossReferences.addAll] using h
  | cons r rest ih =>
    have hrest : ((x.add r).addAll rest).Records (refs ++ [r] ++ rest) := ih (h.add r)
    rw [List.append_assoc] at hrest
    exact hrest

/-- What was recorded is dropped when it comes again. -/
theorem add_of_mem {r : CrossReference} (h : x.Records refs) (hr : r ∈ refs) : x.add r = x :=
  CrossReferences.add_of_mem (h.mem_referrers_iff.mpr hr) (h.mem_targets_iff.mpr ⟨r, hr, rfl, rfl⟩)

end Records

/-! ## The whole of it -/

/-- **Recorded references are a set of references**, whatever sequence of them was recorded.  Every
    look-up answers from the sequence, in order of first arrival.  Who is referred to has referrers, the
    counts are those of distinct targets and of distinct references, the look-ups from either end agree,
    and what comes again changes nothing. -/
theorem records_addAll (refs : List CrossReference) :
    (empty.addAll refs).Records refs ∧
    (∀ t, (empty.addAll refs).isReferenced t = true ↔ ∃ r ∈ refs, r.target = t) ∧
    (empty.addAll refs).targetCount = (refs.map CrossReference.target).eraseDups.length ∧
    (∀ s t, (t ∈ (empty.addAll refs).targets s ↔ s ∈ (empty.addAll refs).sources t) ∧
      (s ∈ (empty.addAll refs).sources t ↔
        ∃ role, s ∈ (empty.addAll refs).sourcesInRole role t)) ∧
    ∀ r ∈ refs, (empty.addAll refs).add r = empty.addAll refs := by
  have h : (empty.addAll refs).Records refs := Records.empty.addAll refs
  have hcount : (empty.addAll refs).targetCount =
      (refs.map CrossReference.target).eraseDups.length := by
    rw [targetCount, h.keys]
  exact ⟨h, fun t => h.isReferenced_iff, hcount,
    fun s t => ⟨h.mem_targets_iff_mem_sources, mem_sources_iff_exists_role⟩,
    fun r hr => h.add_of_mem hr⟩

/-- Two sources of one target, the first in two roles and in one of them twice, and again in another
    role of another target. -/
def repeatedReferences : List CrossReference :=
  [⟨1, .domain, 0⟩, ⟨1, .range, 0⟩, ⟨2, .superterm, 0⟩, ⟨1, .domain, 0⟩, ⟨1, .range, 5⟩]

theorem records_addAll_repeatedReferences :
    ⟨1, .domain, 0⟩ ∈ repeatedReferences ∧
    (empty.addAll repeatedReferences).referrers 0 =
      [⟨1, .domain⟩, ⟨1, .range⟩, ⟨2, .superterm⟩] ∧
    (empty.addAll repeatedReferences).sources 0 = [1, 2] ∧
    (empty.addAll repeatedReferences).targets 1 = [0, 5] ∧
    (empty.addAll repeatedReferences).targetCount = 2 ∧
    (empty.addAll repeatedReferences).referenceCount = 4 ∧
    (empty.addAll repeatedReferences).add ⟨1, .domain, 0⟩ = empty.addAll repeatedReferences := by
  obtain ⟨h, -, htargets, -, hagain⟩ := records_addAll repeatedReferences
  have hmem : ⟨1, .domain, 0⟩ ∈ repeatedReferences := by decide
  exact ⟨hmem, (h.referrers 0).trans (by decide), (h.sources 0).trans (by decide),
    (h.targets 1).trans (by decide), htargets.trans (by decide),
    h.referenceCount.trans (by decide), hagain _ hmem⟩

end OntologyView.CrossReferences

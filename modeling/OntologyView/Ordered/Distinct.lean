/-
  LISTS WITHOUT REPETITION, in order of first arrival.

  Everything this library answers is a list whose order means something: the elements of a view in
  the order in which they were met, the referrers of an element in the order in which they were
  recorded.  What arrives again is not recorded again and keeps its first place.

  * `addNew l a`     — `a` arrives at `l`;
  * `fresh seen l`   — what `l` brings that `seen` does not hold, each once;
  * `SameMembers`    — equality once the order is forgotten.

  `List.eraseDups` keeps first occurrences, so `fresh [] l = l.eraseDups`.  What many arrivals bring
  together is what they bring one by one (`foldl_addNew`).
-/
namespace OntologyView

variable {α : Type} [DecidableEq α]

/-! ## One arrival -/

/-- `l` after the arrival of `a`: at its end, unless `l` holds it already. -/
def addNew (l : List α) (a : α) : List α :=
  if a ∈ l then l else l ++ [a]

theorem mem_addNew {l : List α} {a b : α} : b ∈ addNew l a ↔ b ∈ l ∨ b = a := by
  by_cases h : a ∈ l
  · simp only [addNew, h, if_true]
    exact ⟨Or.inl, fun hb => hb.elim id fun e => e ▸ h⟩
  · simp [addNew, h]

theorem nodup_addNew {l : List α} (a : α) (hl : l.Nodup) : (addNew l a).Nodup := by
  by_cases h : a ∈ l
  · simpa [addNew, h] using hl
  · simp only [addNew, h, if_false]
    exact List.nodup_append.mpr ⟨hl, by simp, fun x hx y hy e => by
      rw [List.mem_singleton] at hy
      exact h (hy ▸ e ▸ hx)⟩

theorem addNew_of_mem {l : List α} {a : α} (h : a ∈ l) : addNew l a = l := by
  simp [addNew, h]

theorem length_addNew (l : List α) (a : α) :
    (addNew l a).length = l.length + if a ∈ l then 0 else 1 := by
  by_cases h : a ∈ l <;> simp [addNew, h]

theorem mem_ite_addNew {c : Prop} [Decidable c] {l : List α} {a b : α} :
    b ∈ (if c then addNew l a else l) ↔ b ∈ l ∨ c ∧ b = a := by
  by_cases hc : c <;> simp [hc, mem_addNew]

/-! ## Many arrivals -/

/-- What comes last arrives at what came before. -/
theorem eraseDups_concat (l : List α) (a : α) : (l ++ [a]).eraseDups = addNew l.eraseDups a := by
  rw [List.eraseDups_append]
  by_cases h : a ∈ l <;> simp [addNew, List.removeAll, List.mem_eraseDups, h, List.eraseDups_cons]

/-- The values of what was there before one arrival, and of what arrived. -/
theorem eraseDups_map_addNew {β : Type} [DecidableEq β] (g : α → β) (l : List α) (a : α) :
    ((addNew l a).map g).eraseDups = addNew (l.map g).eraseDups (g a) := by
  by_cases h : a ∈ l
  · have hg : g a ∈ (l.map g).eraseDups := List.mem_eraseDups.mpr (List.mem_map_of_mem h)
    rw [addNew_of_mem h, addNew_of_mem hg]
  · rw [addNew, if_neg h, List.map_append, List.map_singleton, eraseDups_concat]

theorem nodup_eraseDups (l : List α) : l.eraseDups.Nodup := by
  induction hn : l.length using Nat.strongRecOn generalizing l with
  | _ n ih =>
    cases l with
    | nil => simp
    | cons a rest =>
      rw [List.eraseDups_cons, List.nodup_cons]
      have hlen : (rest.filter fun b => !b == a).length < n := by
        have := List.length_filter_le (fun b => !b == a) rest
        simp only [List.length_cons] at hn
        omega
      exact ⟨by simp [List.mem_eraseDups], ih _ hlen _ rfl⟩

theorem eraseDups_sublist (l : List α) : l.eraseDups.Sublist l := by
  induction hn : l.length using Nat.strongRecOn generalizing l with
  | _ n ih =>
    cases l with
    | nil => simp
    | cons a rest =>
      have hfilter : (rest.filter fun b => !b == a).Sublist rest := List.filter_sublist
      have hlen := hfilter.length_le
      simp only [List.length_cons] at hn
      rw [List.eraseDups_cons]
      exact ((ih _ (by omega) _ rfl).trans hfilter).cons_cons a

/-- What `l` brings that `seen` does not hold, each once, in order of first occurrence. -/
def fresh (seen l : List α) : List α :=
  (l.removeAll seen).eraseDups

theorem mem_fresh {seen l : List α} {a : α} : a ∈ fresh seen l ↔ a ∈ l ∧ a ∉ seen := by
  simp [fresh, List.mem_eraseDups, List.removeAll]

theorem nodup_fresh (seen l : List α) : (fresh seen l).Nodup :=
  nodup_eraseDups _

theorem nodup_append_fresh {seen : List α} (l : List α) (h : seen.Nodup) :
    (seen ++ fresh seen l).Nodup :=
  List.nodup_append.mpr ⟨h, nodup_fresh seen l, fun _ hx _ hy e => (mem_fresh.mp hy).2 (e ▸ hx)⟩

/-- What a list brings is what its first entry brings, and then the others. -/
theorem fresh_cons (seen : List α) (a : α) (l : List α) :
    fresh seen (a :: l) = if a ∈ seen then fresh seen l else a :: fresh (seen ++ [a]) l := by
  by_cases h : a ∈ seen
  · simp [fresh, List.removeAll, h]
  · have hrest : (l.removeAll seen).filter (fun b => !b == a) = l.removeAll (seen ++ [a]) := by
      simp only [List.removeAll, List.filter_filter]
      refine List.filter_congr fun b _ => ?_
      by_cases hb : b = a <;> simp [hb]
    have hfirst : (a :: l).removeAll seen = a :: l.removeAll seen := by
      simp [List.removeAll, h]
    rw [if_neg h, fresh, hfirst, List.eraseDups_cons, hrest, fresh]

/-- Arrivals one by one bring what they bring together. -/
theorem foldl_addNew (seen l : List α) : l.foldl addNew seen = seen ++ fresh seen l := by
  induction l generalizing seen with
  | nil => simp [fresh, List.removeAll]
  | cons a rest ih =>
    rw [List.foldl_cons, ih, fresh_cons]
    by_cases h : a ∈ seen
    · rw [addNew_of_mem h, if_pos h]
    · rw [addNew, if_neg h, if_neg h, List.append_assoc, List.singleton_append]

theorem mem_foldl_addNew {seen l : List α} {a : α} : a ∈ l.foldl addNew seen ↔ a ∈ seen ∨ a ∈ l := by
  rw [foldl_addNew, List.mem_append, mem_fresh]
  by_cases h : a ∈ seen <;> simp [h]

/-- Where nothing arrives twice, everything does arrive. -/
theorem foldl_addNew_of_nodup {seen l : List α} (h : (seen ++ l).Nodup) :
    l.foldl addNew seen = seen ++ l := by
  induction l generalizing seen with
  | nil => simp
  | cons a rest ih =>
    have hna : a ∉ seen := fun ha => (List.nodup_append.mp h).2.2 a ha a List.mem_cons_self rfl
    rw [List.append_cons] at h
    rw [List.foldl_cons, addNew, if_neg hna, ih h, ← List.append_cons]

/-- One arrival puts nothing in front of what was there. -/
theorem find?_addNew (q : α → Bool) (l : List α) (a : α) :
    (addNew l a).find? q = (l ++ [a]).find? q := by
  by_cases h : a ∈ l
  · rw [addNew_of_mem h, List.find?_append]
    cases hq : l.find? q with
    | some b => rfl
    | none => simp [List.find?_eq_none.mp hq a h]
  · rw [addNew, if_neg h]

/-- What is found first among the arrivals is what is found first when they are listed with their
    repetitions. -/
theorem find?_foldl_addNew (q : α → Bool) (seen l : List α) :
    (l.foldl addNew seen).find? q = (seen ++ l).find? q := by
  induction l generalizing seen with
  | nil => simp
  | cons a rest ih =>
    rw [List.foldl_cons, ih, List.find?_append, find?_addNew, ← List.find?_append,
      List.append_assoc, List.singleton_append]

/-- Where `a` was there before, the rest of a list brings what it brings otherwise, without `a`. -/
theorem fresh_cons_filter_ne (a : α) (seen l : List α) :
    fresh (a :: seen.filter (· ≠ a)) l = (fresh seen l).filter (· ≠ a) := by
  induction l generalizing seen with
  | nil => simp [fresh, List.removeAll]
  | cons b rest ih =>
    rw [fresh_cons, fresh_cons]
    by_cases hb : b ∈ seen
    · have hb' : b ∈ a :: seen.filter (· ≠ a) := by
        by_cases hba : b = a <;> simp [hba, hb]
      rw [if_pos hb, if_pos hb', ih]
    · by_cases hba : b = a
      · -- `a` itself is new for the right side only, where it is dropped again.
        subst hba
        have hsame : (seen ++ [b]).filter (· ≠ b) = seen.filter (· ≠ b) := by simp
        rw [if_neg hb, if_pos List.mem_cons_self, List.filter_cons_of_neg (by simp), ← ih, hsame]
      · have hb' : b ∉ a :: seen.filter (· ≠ a) := by simp [hba, hb]
        have hsnoc : a :: seen.filter (· ≠ a) ++ [b] = a :: (seen ++ [b]).filter (· ≠ a) := by
          simp [hba]
        rw [if_neg hb, if_neg hb', List.filter_cons_of_pos (by simpa using hba), ← ih, hsnoc]

/-! ## Counting what has not been seen -/

/-- How many of the entries of `bound` are not in `seen`: the measure of every search in this
    library. -/
def unseen (bound seen : List α) : Nat :=
  (bound.filter fun a => a ∉ seen).length

/-- A new arrival out of `bound` is one entry less to see. -/
theorem unseen_lt {bound seen : List α} {a : α} (ha : a ∈ bound) (hn : a ∉ seen) :
    unseen bound (a :: seen) < unseen bound seen := by
  have h : (bound.filter fun b => b ∉ a :: seen) =
      (bound.filter fun b => b ∉ seen).filter fun b => b ≠ a := by
    rw [List.filter_filter]
    congr 1
    funext b
    simp
  rw [unseen, h]
  exact List.length_filter_lt_length_iff_exists.mpr ⟨a, by simp [ha, hn], by simp⟩

theorem unseen_congr {bound seen seen' : List α} (h : ∀ a, a ∈ seen ↔ a ∈ seen') :
    unseen bound seen = unseen bound seen' := by
  simp [unseen, h]

theorem unseen_le_of_subset {bound seen seen' : List α} (h : ∀ a ∈ seen, a ∈ seen') :
    unseen bound seen' ≤ unseen bound seen := by
  unfold unseen
  rw [← List.countP_eq_length_filter, ← List.countP_eq_length_filter]
  refine List.countP_mono_left fun a _ ha => ?_
  exact decide_eq_true fun hs => of_decide_eq_true ha (h a hs)

/-- Several new arrivals at once are that many entries less to see. -/
theorem unseen_append_add_length_le {bound seen : List α} :
    ∀ {new : List α}, new.Nodup → (∀ a ∈ new, a ∈ bound ∧ a ∉ seen) →
      unseen bound (seen ++ new) + new.length ≤ unseen bound seen
  | [], _, _ => by simp
  | a :: new, hnd, h => by
    obtain ⟨hna, hnd⟩ := List.nodup_cons.mp hnd
    have ih := unseen_append_add_length_le hnd fun b hb => h b (List.mem_cons_of_mem a hb)
    have hn : a ∉ seen ++ new := by
      rw [List.mem_append]
      exact fun hm => hm.elim (h a List.mem_cons_self).2 hna
    have hlt := unseen_lt (h a List.mem_cons_self).1 hn
    have heq : unseen bound (seen ++ a :: new) = unseen bound (a :: (seen ++ new)) :=
      unseen_congr fun b => by simp; grind
    simp only [List.length_cons]
    omega

/-- A list without repetition is no longer than one that holds all of it. -/
theorem length_le_of_nodup {l bound : List α} (hl : l.Nodup) (h : ∀ a ∈ l, a ∈ bound) :
    l.length ≤ bound.length := by
  have hle : unseen bound ([] ++ l) + l.length ≤ unseen bound [] :=
    unseen_append_add_length_le hl fun a ha => ⟨h a ha, List.not_mem_nil⟩
  have hall : unseen bound [] ≤ bound.length := List.length_filter_le _ bound
  omega

/-! ## Order forgotten -/

/-- The two lists hold the same elements. -/
def SameMembers (l l' : List α) : Prop :=
  (∀ a ∈ l, a ∈ l') ∧ ∀ a ∈ l', a ∈ l

instance (l l' : List α) : Decidable (SameMembers l l') :=
  inferInstanceAs (Decidable (_ ∧ _))

/-! ## Running the definitions -/

example : addNew [3, 1] 3 = [3, 1] := by decide
example : fresh [2] [5, 2, 5, 4] = [5, 4] := by decide
example : SameMembers [1, 2, 1] [2, 1] := by decide

end OntologyView

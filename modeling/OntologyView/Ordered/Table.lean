/-
  TABLES in order of first arrival of their keys.

  A `Table α β` holds at most one value per key and lists its keys in the order in which they first
  arrived; a later value takes the place of the earlier one and does not move the key.  That no key
  is listed twice is part of the type.

  There is ONE writing operation, `update k f`, which sees the value that `k` had.  Its two laws say
  all there is to say: what it does to the look-up (`get?_update`) and to the list of keys
  (`keys_update`: the key arrives, as in `addNew`).  `insert`, `insertNew` and `addTo` are `update`
  with the rule for the old value filled in: replace it, keep it, or add to it.

  Of many pairs with one key a table keeps the last value at the first place (`get?_ofList`,
  `keys_ofList`).
-/
import OntologyView.Ordered.Distinct

namespace OntologyView

/-- Values by key, keys in order of first arrival. -/
structure Table (α β : Type) where
  entries : List (α × β)
  /-- No key is listed twice. -/
  nodup : (entries.map Prod.fst).Nodup
deriving DecidableEq, Repr

namespace Table

variable {α β : Type}

/-- The keys, in order of first arrival. -/
def keys (t : Table α β) : List α :=
  t.entries.map Prod.fst

/-- The values, in the order of their keys. -/
def values (t : Table α β) : List β :=
  t.entries.map Prod.snd

/-- The table without keys. -/
def empty : Table α β := ⟨[], List.nodup_nil⟩

@[simp] theorem keys_empty : (empty : Table α β).keys = [] := rfl

variable [DecidableEq α]

/-! ## Reading -/

/-- The value of the first entry for `k`. -/
def find (k : α) : List (α × β) → Option β
  | [] => none
  | (a, b) :: rest => if a = k then some b else find k rest

/-- The value of `k`, if the table has that key. -/
def get? (t : Table α β) (k : α) : Option β :=
  find k t.entries

@[simp] theorem get?_empty (k : α) : (empty : Table α β).get? k = none := rfl

theorem isSome_find {k : α} {l : List (α × β)} :
    (find k l).isSome ↔ k ∈ l.map Prod.fst := by
  induction l with
  | nil => simp [find]
  | cons entry rest ih =>
    obtain ⟨a, b⟩ := entry
    by_cases h : a = k
    · simp [find, h]
    · simp only [find, h, if_false, ih, List.map_cons, List.mem_cons]
      exact ⟨Or.inr, fun hk => hk.elim (fun e => absurd e.symm h) id⟩

theorem isSome_get? {t : Table α β} {k : α} : (t.get? k).isSome ↔ k ∈ t.keys :=
  isSome_find

theorem find_eq_some_iff {k : α} {b : β} {l : List (α × β)} (hl : (l.map Prod.fst).Nodup) :
    find k l = some b ↔ (k, b) ∈ l := by
  induction l with
  | nil => simp [find]
  | cons entry rest ih =>
    obtain ⟨a, c⟩ := entry
    rw [List.map_cons, List.nodup_cons] at hl
    by_cases h : a = k
    · subst h
      have hn : (a, b) ∉ rest := fun hm => hl.1 (List.mem_map.mpr ⟨_, hm, rfl⟩)
      simp [find, hn, eq_comm]
    · simp [find, h, ih hl.2, Ne.symm h]

/-- The look-up finds exactly the entries. -/
theorem get?_eq_some_iff {t : Table α β} {k : α} {b : β} :
    t.get? k = some b ↔ (k, b) ∈ t.entries :=
  find_eq_some_iff t.nodup

/-- The first entry with a value has the first key that is looked up as this value. -/
theorem map_fst_find?_entries [DecidableEq β] (t : Table α β) (b : β) :
    (t.entries.find? fun entry => entry.2 = b).map Prod.fst =
      t.keys.find? fun k => t.get? k = some b := by
  have along : ∀ l : List (α × β), (∀ entry ∈ l, t.get? entry.1 = some entry.2) →
      (l.find? fun entry => entry.2 = b).map Prod.fst =
        (l.map Prod.fst).find? fun k => t.get? k = some b := by
    intro l hl
    induction l with
    | nil => rfl
    | cons entry rest ih =>
      have hfirst := hl entry List.mem_cons_self
      have hrest := ih fun e he => hl e (List.mem_cons_of_mem _ he)
      by_cases h : entry.2 = b
      · simp [hfirst, h]
      · simpa [hfirst, h] using hrest
  exact along t.entries fun _ h => get?_eq_some_iff.mpr h

/-- The keys and the look-up say all there is to say about a table. -/
theorem ext_get? {t u : Table α β} (hkeys : t.keys = u.keys) (hget : ∀ k, t.get? k = u.get? k) :
    t = u := by
  have entries_eq : ∀ t : Table α β,
      t.entries = t.keys.filterMap fun k => (t.get? k).map (k, ·) := by
    intro t
    have along : ∀ l : List (α × β), (∀ entry ∈ l, t.get? entry.1 = some entry.2) →
        l = (l.map Prod.fst).filterMap fun k => (t.get? k).map (k, ·) := by
      intro l hl
      induction l with
      | nil => rfl
      | cons entry rest ih =>
        have hrest := ih fun e he => hl e (List.mem_cons_of_mem _ he)
        rw [List.map_cons, List.filterMap_cons, hl entry List.mem_cons_self, ← hrest]
        rfl
    exact along t.entries fun _ h => get?_eq_some_iff.mpr h
  have hentries : t.entries = u.entries := by
    rw [entries_eq t, entries_eq u, hkeys, funext hget]
  cases t
  cases u
  exact mk.injEq .. ▸ hentries

/-! ## Writing -/

/-- The entries after `k` got the value `f old`, where `old` is its former value. -/
def updateEntries (k : α) (f : Option β → β) : List (α × β) → List (α × β)
  | [] => [(k, f none)]
  | (a, b) :: rest =>
    if a = k then (a, f (some b)) :: rest else (a, b) :: updateEntries k f rest

theorem map_fst_updateEntries (k : α) (f : Option β → β) (l : List (α × β)) :
    (updateEntries k f l).map Prod.fst = addNew (l.map Prod.fst) k := by
  induction l with
  | nil => simp [updateEntries, addNew]
  | cons entry rest ih =>
    obtain ⟨a, b⟩ := entry
    by_cases h : a = k
    · simp [updateEntries, addNew, h]
    · simp only [updateEntries, h, if_false, List.map_cons, ih, addNew, List.mem_cons,
        Ne.symm h, false_or]
      split <;> simp

theorem find_updateEntries (k j : α) (f : Option β → β) (l : List (α × β)) :
    find j (updateEntries k f l) = if j = k then some (f (find k l)) else find j l := by
  induction l with
  | nil =>
    by_cases h : j = k
    · simp [updateEntries, find, h]
    · simp [updateEntries, find, h, Ne.symm h]
  | cons entry rest ih =>
    obtain ⟨a, b⟩ := entry
    by_cases hk : a = k
    · subst hk
      by_cases h : j = a
      · simp [updateEntries, find, h]
      · simp [updateEntries, find, h, Ne.symm h]
    · by_cases hj : a = j
      · subst hj
        simp [updateEntries, find, hk]
      · simp [updateEntries, find, hk, hj, ih]

/-- `k` gets the value `f old`, where `old` is its former value.  A new key comes last. -/
def update (t : Table α β) (k : α) (f : Option β → β) : Table α β :=
  ⟨updateEntries k f t.entries, map_fst_updateEntries k f t.entries ▸ nodup_addNew k t.nodup⟩

theorem keys_update (t : Table α β) (k : α) (f : Option β → β) :
    (t.update k f).keys = addNew t.keys k :=
  map_fst_updateEntries k f t.entries

theorem get?_update (t : Table α β) (k j : α) (f : Option β → β) :
    (t.update k f).get? j = if j = k then some (f (t.get? k)) else t.get? j :=
  find_updateEntries k j f t.entries

/-- `k` gets the value `b`, whatever it had. -/
def insert (t : Table α β) (k : α) (b : β) : Table α β :=
  t.update k fun _ => b

/-- `k` gets the value `b` unless it has one. -/
def insertNew (t : Table α β) (k : α) (b : β) : Table α β :=
  t.update k fun old => old.getD b

theorem keys_insert (t : Table α β) (k : α) (b : β) : (t.insert k b).keys = addNew t.keys k :=
  keys_update t k _

theorem keys_insertNew (t : Table α β) (k : α) (b : β) :
    (t.insertNew k b).keys = addNew t.keys k :=
  keys_update t k _

theorem get?_insertNew (t : Table α β) (k j : α) (b : β) :
    (t.insertNew k b).get? j = if j = k then some ((t.get? k).getD b) else t.get? j :=
  get?_update t k j _

/-- A key that is new gets the first value that it is given. -/
theorem update_of_not_mem {t : Table α β} {k : α} (hk : k ∉ t.keys) (f : Option β → β) :
    t.update k f = t.insert k (f none) := by
  have hnone : t.get? k = none := by
    rw [← isSome_get?] at hk
    exact Option.not_isSome_iff_eq_none.mp hk
  refine ext_get? (by rw [keys_insert, keys_update]) fun j => ?_
  rw [insert, get?_update, get?_update, hnone]

/-- The table of some pairs, inserted in order. -/
def ofList (pairs : List (α × β)) : Table α β :=
  pairs.foldl (fun t p => t.insert p.1 p.2) empty

/-! ## Tables of lists -/

/-- The list of `k`, empty when `k` is no key. -/
def listAt (t : Table α (List β)) (k : α) : List β :=
  (t.get? k).getD []

/-- `b` arrives at the list of `k`. -/
def addTo [DecidableEq β] (t : Table α (List β)) (k : α) (b : β) : Table α (List β) :=
  t.update k fun old => addNew (old.getD []) b

/-- All of `bs` arrive at the list of `k`, which becomes a key even if there are none. -/
def extend [DecidableEq β] (t : Table α (List β)) (k : α) (bs : List β) : Table α (List β) :=
  t.update k fun old => bs.foldl addNew (old.getD [])

theorem listAt_addTo [DecidableEq β] (t : Table α (List β)) (k j : α) (b : β) :
    (t.addTo k b).listAt j = if j = k then addNew (t.listAt k) b else t.listAt j := by
  unfold listAt addTo
  rw [get?_update]
  split <;> simp

theorem keys_addTo [DecidableEq β] (t : Table α (List β)) (k : α) (b : β) :
    (t.addTo k b).keys = addNew t.keys k :=
  keys_update t k _

theorem keys_extend [DecidableEq β] (t : Table α (List β)) (k : α) (bs : List β) :
    (t.extend k bs).keys = addNew t.keys k :=
  keys_update t k _

theorem mem_listAt_extend [DecidableEq β] {t : Table α (List β)} {k j : α} {bs : List β} {b : β} :
    b ∈ (t.extend k bs).listAt j ↔ b ∈ t.listAt j ∨ j = k ∧ b ∈ bs := by
  unfold listAt extend
  rw [get?_update]
  split
  · rename_i h
    simp [h, mem_foldl_addNew]
  · simp [*]

theorem mem_listAt_insert {t : Table α (List β)} {k j : α} {bs : List β} {b : β}
    (h : b ∈ (t.insert k bs).listAt j) : b ∈ t.listAt j ∨ j = k ∧ b ∈ bs := by
  unfold listAt insert at h
  rw [get?_update] at h
  split at h
  · exact Or.inr ⟨‹_›, h⟩
  · exact Or.inl h

theorem updateEntries_addNew_of_mem [DecidableEq β] {k : α} {b : β} {l : List (α × List β)}
    (h : b ∈ (find k l).getD []) :
    updateEntries k (fun old => addNew (old.getD []) b) l = l := by
  induction l with
  | nil => nomatch h
  | cons entry rest ih =>
    obtain ⟨a, members⟩ := entry
    by_cases hk : a = k
    · have hb : b ∈ members := by simpa [find, hk] using h
      simp [updateEntries, hk, addNew_of_mem hb]
    · simp only [find, hk, if_false] at h
      simp only [updateEntries, hk, if_false, ih h]

/-- What the list of `k` holds already does not arrive again. -/
theorem addTo_of_mem [DecidableEq β] {t : Table α (List β)} {k : α} {b : β}
    (h : b ∈ t.listAt k) : t.addTo k b = t := by
  cases t
  rw [addTo, update, mk.injEq]
  exact updateEntries_addNew_of_mem h

/-- What arrives at a list is one member more, unless the list holds it. -/
theorem length_flatten_values_addTo [DecidableEq β] (t : Table α (List β)) (k : α) (b : β) :
    (t.addTo k b).values.flatten.length =
      t.values.flatten.length + if b ∈ t.listAt k then 0 else 1 := by
  show ((updateEntries k (fun old => addNew (old.getD []) b) t.entries).map Prod.snd).flatten.length =
    (t.entries.map Prod.snd).flatten.length + if b ∈ (find k t.entries).getD [] then 0 else 1
  induction t.entries with
  | nil => simp [updateEntries, find, length_addNew]
  | cons entry rest ih =>
    obtain ⟨a, l⟩ := entry
    by_cases hk : a = k
    · simp only [updateEntries, find, hk, if_true, List.map_cons, List.flatten_cons,
        List.length_append, Option.getD_some, length_addNew]
      omega
    · simp only [updateEntries, find, hk, if_false, List.map_cons, List.flatten_cons,
        List.length_append, ih]
      omega

/-! ## Many writes -/

/-- Of several values for one key the last one stays. -/
theorem get?_foldl_insert (pairs : List (α × β)) (t : Table α β) (k : α) :
    (pairs.foldl (fun t p => t.insert p.1 p.2) t).get? k =
      ((pairs.filter fun p => p.1 = k).map Prod.snd).getLast?.or (t.get? k) := by
  induction pairs generalizing t with
  | nil => simp
  | cons p rest ih =>
    rw [List.foldl_cons, ih, insert, get?_update]
    by_cases h : p.1 = k
    · simp [h, List.getLast?_cons]
    · simp [h, Ne.symm h]

/-- Of several places for one key the first one stays. -/
theorem keys_foldl_insert (pairs : List (α × β)) (t : Table α β) :
    (pairs.foldl (fun t p => t.insert p.1 p.2) t).keys =
      (pairs.map Prod.fst).foldl addNew t.keys := by
  induction pairs generalizing t with
  | nil => rfl
  | cons p rest ih =>
    rw [List.foldl_cons, ih, insert, keys_update, List.map_cons, List.foldl_cons]

theorem ofList_concat (pairs : List (α × β)) (p : α × β) :
    ofList (pairs ++ [p]) = (ofList pairs).insert p.1 p.2 := by
  rw [ofList, List.foldl_append]
  rfl

theorem get?_ofList (pairs : List (α × β)) (k : α) :
    (ofList pairs).get? k = ((pairs.filter fun p => p.1 = k).map Prod.snd).getLast? := by
  rw [ofList, get?_foldl_insert, get?_empty, Option.or_none]

theorem keys_ofList (pairs : List (α × β)) :
    (ofList pairs).keys = (pairs.map Prod.fst).foldl addNew [] :=
  keys_foldl_insert pairs empty

/-- The first key of interest in a table of pairs is the first one among the pairs. -/
theorem find?_keys_ofList (q : α → Bool) (pairs : List (α × β)) :
    (ofList pairs).keys.find? q = (pairs.map Prod.fst).find? q := by
  rw [keys_ofList, find?_foldl_addNew, List.nil_append]

/-- The look-up in a table made of the values of a function. -/
theorem get?_ofList_map (g : α → β) (l : List α) (k : α) :
    (ofList (l.map fun a => (a, g a))).get? k = if k ∈ l then some (g k) else none := by
  have hvalues : (((l.map fun a => (a, g a)).filter fun p => p.1 = k).map Prod.snd) =
      List.replicate (l.count k) (g k) := by
    simp [List.filter_map, Function.comp_def, List.filter_eq]
  rw [get?_ofList, hvalues, List.getLast?_replicate]
  simp [List.count_eq_zero]

theorem get?_ofList_map_of_mem (g : α → β) {l : List α} {k : α} (hk : k ∈ l) :
    (ofList (l.map fun a => (a, g a))).get? k = some (g k) := by
  rw [get?_ofList_map, if_pos hk]

theorem mem_listAt_ofList_map {g : α → List β} {l : List α} {k : α} {b : β} :
    b ∈ (ofList (l.map fun a => (a, g a))).listAt k ↔ k ∈ l ∧ b ∈ g k := by
  rw [listAt, get?_ofList_map]
  split <;> simp [*]

theorem listAt_ofList_map_of_mem (g : α → List β) {l : List α} {k : α} (hk : k ∈ l) :
    (ofList (l.map fun a => (a, g a))).listAt k = g k := by
  rw [listAt, get?_ofList_map_of_mem g hk, Option.getD_some]

/-- The first arrival at a key stays, and gives way to what was there before. -/
theorem get?_foldl_insertNew (arrivals : List (β × α)) (t : Table α β) (k : α) :
    (arrivals.foldl (fun t a => t.insertNew a.2 a.1) t).get? k =
      (t.get? k).or ((arrivals.find? fun a => a.2 = k).map Prod.fst) := by
  induction arrivals generalizing t with
  | nil => simp
  | cons a rest ih =>
    rw [List.foldl_cons, ih, get?_insertNew]
    by_cases h : k = a.2
    · subst h
      cases t.get? a.2 <;> simp
    · simp [h, Ne.symm h]

/-- The keys of a table made of the values of a function are where it was evaluated. -/
theorem keys_ofList_map (g : α → β) {l : List α} (hl : l.Nodup) :
    (ofList (l.map fun a => (a, g a))).keys = l := by
  have hkeys : (l.map fun a => (a, g a)).map Prod.fst = l := by simp [Function.comp_def]
  rw [keys_ofList, hkeys, foldl_addNew_of_nodup (by simpa using hl), List.nil_append]

/-- Many arrivals, each at the list of its own key. -/
theorem mem_listAt_foldl_addTo [DecidableEq β] {arrivals : List (α × β)} {t : Table α (List β)}
    {k : α} {b : β} : b ∈ (arrivals.foldl (fun t a => t.addTo a.1 a.2) t).listAt k ↔
      b ∈ t.listAt k ∨ (k, b) ∈ arrivals := by
  induction arrivals generalizing t with
  | nil => simp
  | cons a rest ih =>
    rw [List.foldl_cons, ih, listAt_addTo, List.mem_cons]
    by_cases h : k = a.1
    · subst h
      rw [if_pos rfl, mem_addNew, or_assoc]
      exact or_congr_right (or_congr_left ⟨fun e => e ▸ rfl, fun e => e ▸ rfl⟩)
    · have hne : (k, b) ≠ a := fun e => h (e ▸ rfl)
      simp [h, hne]

/-- The keys after many arrivals: those from before, and those that something arrived at. -/
theorem mem_keys_foldl_addTo [DecidableEq β] {arrivals : List (α × β)} {t : Table α (List β)}
    {k : α} : k ∈ (arrivals.foldl (fun t a => t.addTo a.1 a.2) t).keys ↔
      k ∈ t.keys ∨ ∃ b, (k, b) ∈ arrivals := by
  induction arrivals generalizing t with
  | nil => simp
  | cons a rest ih =>
    obtain ⟨j, c⟩ := a
    rw [List.foldl_cons, ih, keys_addTo, mem_addNew, or_assoc]
    refine or_congr_right ?_
    constructor
    · rintro (rfl | ⟨b, hb⟩)
      · exact ⟨c, List.mem_cons_self⟩
      · exact ⟨b, List.mem_cons_of_mem _ hb⟩
    · rintro ⟨b, hb⟩
      rcases List.mem_cons.mp hb with heq | hb
      · exact Or.inl (Prod.mk.inj heq).1
      · exact Or.inr ⟨b, hb⟩

/-! ## Order forgotten -/

/-- The same keys with the same members, in any order.  A key with the empty list is not the same
    as no key. -/
def Same [DecidableEq β] (t u : Table α (List β)) : Prop :=
  SameMembers t.keys u.keys ∧ ∀ k ∈ t.keys, SameMembers (t.listAt k) (u.listAt k)

instance [DecidableEq β] (t u : Table α (List β)) : Decidable (t.Same u) :=
  inferInstanceAs (Decidable (_ ∧ _))

/-- All keys are keys of the other table, and all members of a list are members there. -/
def Within (t u : Table α (List β)) : Prop :=
  (∀ k ∈ t.keys, k ∈ u.keys) ∧ ∀ k, ∀ b ∈ t.listAt k, b ∈ u.listAt k

theorem same_of_within [DecidableEq β] {t u : Table α (List β)} (h : t.Within u)
    (h' : u.Within t) : t.Same u :=
  ⟨⟨h.1, h'.1⟩, fun k _ => ⟨h.2 k, h'.2 k⟩⟩

/-- A table of the values of a function grows with the places and with the values. -/
theorem within_ofList_map {l l' : List α} {g g' : α → List β} (hl : ∀ k ∈ l, k ∈ l')
    (hg : ∀ k ∈ l, ∀ b ∈ g k, b ∈ g' k) :
    (ofList (l.map fun a => (a, g a))).Within (ofList (l'.map fun a => (a, g' a))) := by
  constructor
  · intro k hk
    rw [← isSome_get?, get?_ofList_map] at hk ⊢
    split at hk
    · rename_i hmem
      rw [if_pos (hl k hmem)]
      rfl
    · nomatch hk
  · intro k b hb
    obtain ⟨hk, hb⟩ := mem_listAt_ofList_map.mp hb
    exact mem_listAt_ofList_map.mpr ⟨hl k hk, hg k hk b hb⟩

/-! ## Running the definitions -/

example : ((empty.insert 1 'a').insert 2 'b').insert 1 'c' = ⟨[(1, 'c'), (2, 'b')], by decide⟩ := by
  decide
example : ((empty.insertNew 1 'a').insertNew 1 'c').get? 1 = some 'a' := by decide
example : ((empty.addTo 7 1).addTo 7 1).listAt 7 = [1] := by decide

end Table

end OntologyView

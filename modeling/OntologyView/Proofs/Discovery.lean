/-
  DISCOVERY MEETS WHAT IS IN REACH, depth first.

  1. **Specifications** — two of them.  `Reached` says WHICH elements there are to meet: the least
     set that holds the statements of the ontology and is closed under the leads of its elements.
     `DepthFirst` says in which ORDER they are met, and where the walk fails: it is the recursion that
     visits an element, then all that it leads to, and only then the next one.

  2. **Program** — `Model.meet`, which does not recurse: what an element leads to is put in front of
     the elements that wait.

  3. **The crux** — for the order, a waiting list in two parts is visited as two recursive calls, one
     after the other (`DepthFirst.split`, `meet_append`).  For the set, an invariant of the states in
     between (`Progress`): whatever a met element leads to was met or waits.  Visiting one element
     keeps it (`Progress.first`), so a walk that ends, with nothing waiting, has met a closed set.
-/
import OntologyView.View.Discovery

namespace OntologyView.Model

/-! ## What is in reach -/

/-- The elements in reach of an ontology. -/
inductive Reached (m : Model) (root : ElementId) : ElementId → Prop where
  | statement {id : ElementId} (h : id ∈ m.statements root) : Reached m root id
  | member {id member : ElementId} {kind : ReferenceKind} (h : Reached m root id)
      (he : m.element? id = some (.reference kind (some member))) : Reached m root member
  | source {id source : ElementId} {name : String} {target : Option ElementId}
      (h : Reached m root id) (he : m.element? id = some (.relationEntity name (some source) target)) :
      Reached m root source
  | target {id target : ElementId} {name : String} {source : Option ElementId}
      (h : Reached m root id) (he : m.element? id = some (.relationEntity name source (some target))) :
      Reached m root target

/-- The depth-first visit of some elements after those in `met`, and its outcome. -/
inductive DepthFirst (m : Model) :
    List ElementId → List ElementId → Except ViewError (List ElementId) → Prop where
  | done {met : List ElementId} : DepthFirst m met [] (.ok met)
  /-- An element is visited once. -/
  | again {met rest : List ElementId} {id : ElementId} {outcome : Except ViewError (List ElementId)}
      (hid : id ∈ met) (hrest : DepthFirst m met rest outcome) : DepthFirst m met (id :: rest) outcome
  /-- First the element, then all that it leads to, then the others. -/
  | first {met below rest : List ElementId} {id : ElementId} {e : Element}
      {outcome : Except ViewError (List ElementId)} (hid : id ∉ met)
      (he : m.element? id = some e) (hk : e.kind ≠ .ontology)
      (hbelow : DepthFirst m (met ++ [id]) e.leads (.ok below))
      (hrest : DepthFirst m below rest outcome) : DepthFirst m met (id :: rest) outcome
  | failsBelow {met rest : List ElementId} {id : ElementId} {e : Element} {err : ViewError}
      (hid : id ∉ met) (he : m.element? id = some e) (hk : e.kind ≠ .ontology)
      (hbelow : DepthFirst m (met ++ [id]) e.leads (.error err)) :
      DepthFirst m met (id :: rest) (.error err)
  | unknown {met rest : List ElementId} {id : ElementId} (hid : id ∉ met)
      (he : m.element? id = none) : DepthFirst m met (id :: rest) (.error (.unknownElement id))
  | ontology {met rest : List ElementId} {id : ElementId} {e : Element} (hid : id ∉ met)
      (he : m.element? id = some e) (hk : e.kind = .ontology) :
      DepthFirst m met (id :: rest)
        (.error (.unhandledElement id .ontology .discovery (m.range? id)))

variable {m : Model} {root id : ElementId} {met waiting : List ElementId}

/-! ## The program, case by case -/

theorem meet_nil : m.meet met [] = .ok met := by
  rw [meet]

theorem meet_of_mem (hid : id ∈ met) : m.meet met (id :: waiting) = m.meet met waiting := by
  rw [meet, dif_pos hid]

theorem meet_of_unknown (hid : id ∉ met) (he : m.element? id = none) :
    m.meet met (id :: waiting) = .error (.unknownElement id) := by
  rw [meet, dif_neg hid]
  split <;> simp_all

theorem meet_of_ontology {e : Element} (hid : id ∉ met) (he : m.element? id = some e)
    (hk : e.kind = .ontology) : m.meet met (id :: waiting) =
      .error (.unhandledElement id .ontology .discovery (m.range? id)) := by
  cases e with
  | ontology header =>
    rw [meet, dif_neg hid]
    split <;> simp_all
  | _ => cases hk

theorem meet_of_first {e : Element} (hid : id ∉ met) (he : m.element? id = some e)
    (hk : e.kind ≠ .ontology) :
    m.meet met (id :: waiting) = m.meet (met ++ [id]) (e.leads ++ waiting) := by
  rw [meet, dif_neg hid]
  split
  · simp_all
  · rename_i header h
    rw [he, Option.some.injEq] at h
    exact absurd (h ▸ rfl) hk
  · rename_i e' _ h
    rw [he, Option.some.injEq] at h
    rw [h]

theorem kind_ne_ontology {e : Element} (h : ∀ header, e = .ontology header → False) :
    e.kind ≠ .ontology := by
  intro hk
  cases e with
  | ontology header => exact h header rfl
  | _ => cases hk

/-- The elements that wait behind others are visited when those are done. -/
theorem meet_append (l l' : List ElementId) :
    m.meet met (l ++ l') = m.meet met l >>= fun below => m.meet below l' := by
  fun_induction m.meet met l with
  | case1 met => rfl
  | case2 met id rest hid ih => rw [List.cons_append, meet_of_mem hid, ih]
  | case3 met id rest hid he => rw [List.cons_append, meet_of_unknown hid he]; rfl
  | case4 met id rest hid header he => rw [List.cons_append, meet_of_ontology hid he rfl]; rfl
  | case5 met id rest hid e hk he ih =>
    rw [List.cons_append, meet_of_first hid he (kind_ne_ontology hk), ← List.append_assoc, ih]

/-! ## The order -/

/-- A visit of a list in two parts is a visit of the first and then, unless that fails, of the
    second. -/
theorem DepthFirst.split {l l' : List ElementId} {outcome : Except ViewError (List ElementId)}
    (h : DepthFirst m met (l ++ l') outcome) :
    (∃ below, DepthFirst m met l (.ok below) ∧ DepthFirst m below l' outcome) ∨
      ∃ err, outcome = .error err ∧ DepthFirst m met l (.error err) := by
  induction l generalizing met with
  | nil => exact Or.inl ⟨met, .done, h⟩
  | cons id rest ih =>
    cases h with
    | again hid hrest =>
      rcases ih hrest with ⟨below, h1, h2⟩ | ⟨err, herr, h1⟩
      · exact Or.inl ⟨below, .again hid h1, h2⟩
      · exact Or.inr ⟨err, herr, .again hid h1⟩
    | first hid he hk hbelow hrest =>
      rcases ih hrest with ⟨below, h1, h2⟩ | ⟨err, herr, h1⟩
      · exact Or.inl ⟨below, .first hid he hk hbelow h1, h2⟩
      · exact Or.inr ⟨err, herr, .first hid he hk hbelow h1⟩
    | failsBelow hid he hk hbelow => exact Or.inr ⟨_, rfl, .failsBelow hid he hk hbelow⟩
    | unknown hid he => exact Or.inr ⟨_, rfl, .unknown hid he⟩
    | ontology hid he hk => exact Or.inr ⟨_, rfl, .ontology hid he hk⟩

theorem depthFirst_meet : DepthFirst m met waiting (m.meet met waiting) := by
  fun_induction m.meet met waiting with
  | case1 met => exact .done
  | case2 met id rest hid ih => exact .again hid ih
  | case3 met id rest hid he => exact .unknown hid he
  | case4 met id rest hid header he => exact .ontology hid he rfl
  | case5 met id rest hid e hk he ih =>
    -- The program visits the leads of `id` and the others as one list.
    rcases ih.split with ⟨below, h1, h2⟩ | ⟨err, herr, h1⟩
    · exact .first hid he (kind_ne_ontology hk) h1 h2
    · rw [herr]
      exact .failsBelow hid he (kind_ne_ontology hk) h1

/-- **The walk is the depth-first visit**, in its order and in where it fails. -/
theorem depthFirst_iff {outcome : Except ViewError (List ElementId)} :
    DepthFirst m met waiting outcome ↔ m.meet met waiting = outcome := by
  constructor
  · intro h
    induction h with
    | done => exact meet_nil
    | again hid _ ih => rw [meet_of_mem hid, ih]
    | first hid he hk _ _ ihbelow ihrest =>
      rw [meet_of_first hid he hk, meet_append, ihbelow]
      exact ihrest
    | failsBelow hid he hk _ ih =>
      rw [meet_of_first hid he hk, meet_append, ih]
      rfl
    | unknown hid he => exact meet_of_unknown hid he
    | ontology hid he hk => exact meet_of_ontology hid he hk
  · rintro rfl
    exact depthFirst_meet

/-! ## The invariant -/

/-- A state of the walk: `met` and `waiting` hold nothing out of reach, nothing that was left behind
    is missing, and nothing was met twice. -/
structure Progress (m : Model) (root : ElementId) (met waiting : List ElementId) : Prop where
  nodup : met.Nodup
  sound : ∀ id, id ∈ met ∨ id ∈ waiting → Reached m root id
  start : ∀ id ∈ m.statements root, id ∈ met ∨ id ∈ waiting
  closed : ∀ id ∈ met, ∀ e, m.element? id = some e → ∀ next ∈ e.leads, next ∈ met ∨ next ∈ waiting

theorem Reached.lead {e : Element} {next : ElementId} (h : Reached m root id)
    (he : m.element? id = some e) (hn : next ∈ e.leads) : Reached m root next := by
  cases e with
  | reference kind member =>
    obtain rfl : member = some next := by simpa [Element.leads] using hn
    exact .member h he
  | relationEntity name source target =>
    rcases List.mem_append.mp hn with hs | ht
    · obtain rfl : source = some next := by simpa using hs
      exact .source h he
    · obtain rfl : target = some next := by simpa using ht
      exact .target h he
  | _ => cases hn

/-- What an id leads to.  The id of no element leads nowhere. -/
def leads (m : Model) (id : ElementId) : List ElementId :=
  (m.element? id).elim [] Element.leads

theorem leads_of_element? {e : Element} (he : m.element? id = some e) : m.leads id = e.leads := by
  rw [leads, he]
  rfl

theorem mem_leads_iff {next : ElementId} :
    next ∈ m.leads id ↔ ∃ e, m.element? id = some e ∧ next ∈ e.leads := by
  unfold leads
  cases m.element? id <;> simp

theorem progress_start : Progress m root [] (m.statements root) where
  nodup := List.nodup_nil
  sound := fun _ h => h.elim (fun h => nomatch h) Reached.statement
  start := fun _ h => Or.inr h
  closed := fun _ h => nomatch h

theorem Progress.again (h : Progress m root met (id :: waiting)) (hid : id ∈ met) :
    Progress m root met waiting := by
  have hmove : ∀ k, k ∈ met ∨ k ∈ id :: waiting → k ∈ met ∨ k ∈ waiting := by
    rintro k (hk | hk)
    · exact Or.inl hk
    · rcases List.mem_cons.mp hk with rfl | hk
      · exact Or.inl hid
      · exact Or.inr hk
  exact
    { nodup := h.nodup
      sound := fun k hk => h.sound k (hk.imp_right (List.mem_cons_of_mem id))
      start := fun k hk => hmove k (h.start k hk)
      closed := fun k hk e he next hn => hmove next (h.closed k hk e he next hn) }

/-- **Visiting one id keeps the invariant**: it is met, and what it leads to waits. -/
theorem Progress.first (h : Progress m root met (id :: waiting)) (hid : id ∉ met) :
    Progress m root (met ++ [id]) (m.leads id ++ waiting) := by
  have hreach : Reached m root id := h.sound id (Or.inr List.mem_cons_self)
  have hmove : ∀ k, k ∈ met ∨ k ∈ id :: waiting → k ∈ met ++ [id] ∨ k ∈ m.leads id ++ waiting := by
    rintro k (hk | hk)
    · exact Or.inl (List.mem_append_left _ hk)
    · rcases List.mem_cons.mp hk with rfl | hk
      · exact Or.inl (List.mem_append_right _ List.mem_cons_self)
      · exact Or.inr (List.mem_append_right _ hk)
  -- Of the elements met only `id` is new, and all that it leads to waits now.
  refine ⟨?_, ?_, fun k hk => hmove k (h.start k hk), ?_⟩
  · have := nodup_addNew id h.nodup
    rwa [addNew, if_neg hid] at this
  · rintro k (hk | hk)
    · rcases List.mem_append.mp hk with hk | hk
      · exact h.sound k (Or.inl hk)
      · exact List.mem_singleton.mp hk ▸ hreach
    · rcases List.mem_append.mp hk with hk | hk
      · obtain ⟨e, he, hk⟩ := mem_leads_iff.mp hk
        exact hreach.lead he hk
      · exact h.sound k (Or.inr (List.mem_cons_of_mem id hk))
  · intro k hk e he next hn
    rcases List.mem_append.mp hk with hk | hk
    · exact hmove next (h.closed k hk e he next hn)
    · obtain rfl := List.mem_singleton.mp hk
      exact Or.inr (List.mem_append_left _ (mem_leads_iff.mpr ⟨e, he, hn⟩))

/-- A whole walk keeps the invariant, and leaves nothing waiting. -/
theorem Progress.run {order : List ElementId} (h : Progress m root met waiting)
    (hrun : m.meet met waiting = .ok order) : Progress m root order [] := by
  fun_induction m.meet met waiting with
  | case1 met =>
    obtain rfl : met = order := Except.ok.inj hrun
    exact h
  | case2 met id rest hid ih => exact ih (h.again hid) hrun
  | case3 met id rest hid he => nomatch hrun
  | case4 met id rest hid header he => nomatch hrun
  | case5 met id rest hid e hk he ih =>
    have hfirst := h.first hid
    rw [leads_of_element? he] at hfirst
    exact ih hfirst hrun

/-- Where nothing waits, all that is in reach is met. -/
theorem Progress.mem_iff_reached {order : List ElementId} (h : Progress m root order []) :
    id ∈ order ↔ Reached m root id := by
  have hdone : ∀ k, k ∈ order ∨ k ∈ [] → k ∈ order := fun k hk => hk.resolve_right List.not_mem_nil
  -- What is met holds the statements and is closed under leads.
  refine ⟨fun hid => h.sound id (Or.inl hid), fun hid => ?_⟩
  induction hid with
  | statement hs => exact hdone _ (h.start _ hs)
  | member _ he ih => exact hdone _ (h.closed _ ih _ he _ (by simp [Element.leads]))
  | source _ he ih => exact hdone _ (h.closed _ ih _ he _ (by simp [Element.leads]))
  | target _ he ih => exact hdone _ (h.closed _ ih _ he _ (by simp [Element.leads]))

/-- **What is met is what is in reach**, each element once. -/
theorem mem_met_iff {order : List ElementId} (h : m.met root = .ok order) :
    order.Nodup ∧ ∀ id, id ∈ order ↔ Reached m root id :=
  have hend : Progress m root order [] := progress_start.run h
  ⟨hend.nodup, fun _ => hend.mem_iff_reached⟩

end OntologyView.Model

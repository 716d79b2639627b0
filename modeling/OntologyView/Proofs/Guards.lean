/-
  GUARDS: what keeps the analysis from running on does not change its answer.

  1. **Specification** — the runs without guards give what the guarded analysis answers (`Gives`).
     This says two things.  In EVERY model, with whatever fuel, a run that ends has that answer.  And
     in a ring-free model it ends.

  2. **Program** — `LinkedModel.analyzeFor`, the two phases over one draft.  On a ring of references it
     uses up whatever fuel it is given (`Model.ReferenceRing.includedFor_eq_none`,
     `LinkedModel.visitFor_of_ring`).

  3. **The crux** — there are four loops and recursions, and each has a measure of its own.
     * Inclusion goes from an element to what it stands on, which has less support.
     * Discovery follows the recursion of `DepthFirst`, which meets every element once.  It also
       visits the references again that it met before.  But then the members of these were met, too
       (`Settled`), so such a visit goes from member to member and shows nothing, and with every step
       it loses support (`LinkedModel.gives_visitFor_of_met`).
     * The stack of contents either shrinks, or an element is found and there is one less to find.
     * The walk up the superterms expands every term once.

     Only the first two ask for a model without rings to end.  The states that the phases go through
     are the drafts of `OntologyView.Proofs.Drafting`.  Resolution needs fuel only for the answers that
     it asks for, and goes on in the same way where these do (`Draft.extends_resolve`).
-/
import OntologyView.Proofs.Discovery
import OntologyView.Proofs.Drafting
import OntologyView.Proofs.RingFree
import OntologyView.Proofs.Runs
import OntologyView.Proofs.Superterms

namespace OntologyView

namespace Model

variable {m : Model} {known : ElementId → Bool} {id k : ElementId} {fuel : Nat}

/-! ## Inclusion -/

/-- **Where inclusion ends**, it has the answer of the rules. -/
theorem eq_isIncluded_of_includedFor {b : Bool} (h : m.includedFor known fuel id = some b) :
    b = m.isIncluded known id := by
  induction fuel generalizing id b with
  | zero => nomatch h
  | succ fuel ih =>
    have step : ∀ {o : Option ElementId} {b : Bool},
        o.elim (some false) (m.includedFor known fuel) = some b → b = o.any (m.isIncluded known) := by
      intro o b ho
      cases o with
      | none => exact (Option.some.inj ho).symm
      | some k => exact ih ho
    rw [includedFor] at h
    split at h
    · rename_i he
      rw [isIncluded, includedFrom_of_unknown he, ← Option.some.inj h]
    · rename_i super he
      obtain ⟨first, hfirst, hrest⟩ := Option.bind_eq_some_iff.mp h
      rw [isIncluded_specialization he, ← step hfirst]
      cases first with
      | false => exact (Option.some.inj hrest).symm
      | true => exact step hrest
    · rename_i kind member he
      rw [isIncluded_reference he]
      exact step h
    · rename_i e hspecialization hreference he
      rw [isIncluded, includedFrom_known List.not_mem_nil he (kind_ne_specialization hspecialization)
        (kind_ne_reference hreference), ← Option.some.inj h]

/-- **Inclusion ends**, no deeper than the support of the element. -/
theorem includedFor_eq (hm : m.RingFree) (hfuel : (m.support id).length < fuel) :
    m.includedFor known fuel id = some (m.isIncluded known id) := by
  induction fuel generalizing id with
  | zero => nomatch hfuel
  | succ fuel ih =>
    have step : ∀ o : Option ElementId, (∀ k, o = some k → k ∈ m.standsOn id) →
        o.elim (some false) (m.includedFor known fuel) = some (o.any (m.isIncluded known)) := by
      intro o ho
      cases o with
      | none => rfl
      | some k =>
        have hlt := hm.length_support_lt (ho k rfl)
        exact ih (by omega)
    rw [includedFor]
    split
    · rename_i he
      rw [isIncluded, includedFrom_of_unknown he]
    · rename_i super he
      have hsuper := step super fun k hk => mem_standsOn_super (hk ▸ he)
      have hsub := step (m.subterm? id) fun k hk => mem_standsOn_subterm he hk
      rw [hsuper, hsub, isIncluded_specialization he]
      cases super.any (m.isIncluded known) <;> rfl
    · rename_i kind member he
      rw [step member fun k hk => mem_standsOn_reference (hk ▸ he), isIncluded_reference he]
    · rename_i e hspecialization hreference he
      rw [isIncluded, includedFrom_known List.not_mem_nil he (kind_ne_specialization hspecialization)
        (kind_ne_reference hreference)]

/-- References that have each other for members.  One that is its own member is such a ring. -/
def ReferenceRing (m : Model) (ring : List ElementId) : Prop :=
  ∀ id ∈ ring, ∃ kind, ∃ k ∈ ring, m.element? id = some (.reference kind (some k))

/-- Inclusion of a reference in a ring uses up all fuel. -/
theorem ReferenceRing.includedFor_eq_none {ring : List ElementId} (h : m.ReferenceRing ring)
    (hid : id ∈ ring) (fuel : Nat) : m.includedFor known fuel id = none := by
  induction fuel generalizing id with
  | zero => rfl
  | succ fuel ih =>
    obtain ⟨kind, k, hk, he⟩ := h id hid
    rw [includedFor, he]
    exact ih hk

/-! ## Discovery -/

/-- Of the elements met, those that are shown. -/
def shownAmong (m : Model) (met : List ElementId) : List ElementId :=
  met.filter (m.satisfies fun e => e.kind.isShown)

theorem mem_shownAmong {met : List ElementId} {e : Element} (he : m.element? id = some e) :
    id ∈ m.shownAmong met ↔ id ∈ met ∧ e.kind.isShown = true := by
  rw [shownAmong, List.mem_filter, satisfies, he, Option.any_some]

theorem not_mem_shownAmong {met : List ElementId} (hid : id ∉ met) : id ∉ m.shownAmong met :=
  fun h => hid (List.mem_filter.mp h).1

theorem isShown_of_not_mem {met : List ElementId} {e : Element} (hid : id ∈ met)
    (he : m.element? id = some e) (hn : id ∉ m.shownAmong met) : e.kind.isShown = false :=
  Bool.eq_false_iff.mpr fun h => hn ((mem_shownAmong he).mpr ⟨hid, h⟩)

theorem shownAmong_append {met : List ElementId} {e : Element} (he : m.element? id = some e) :
    m.shownAmong (met ++ [id]) =
      if e.kind.isShown then m.shownAmong met ++ [id] else m.shownAmong met := by
  have hsatisfies : m.satisfies (fun e => e.kind.isShown) id = e.kind.isShown := by
    rw [satisfies, he, Option.any_some]
  rw [shownAmong, List.filter_append, ← shownAmong]
  cases hshown : e.kind.isShown <;> simp [hsatisfies, hshown]

/-- Elements that are met can be met, and so was the member of each reference that was met, unless it
    is the next one to be visited. -/
structure Settled (m : Model) (met waiting : List ElementId) : Prop where
  meetable : ∀ id ∈ met, ∃ e, m.element? id = some e ∧ e.kind ≠ .ontology
  member : ∀ id ∈ met, ∀ kind k, m.element? id = some (.reference kind (some k)) →
    k ∈ met ∨ waiting.head? = some k

variable {met shown waiting rest : List ElementId}

theorem Settled.again (h : m.Settled met (id :: rest)) (hid : id ∈ met) (l : List ElementId) :
    m.Settled met l where
  meetable := h.meetable
  member := fun r hr kind k he => Or.inl <| (h.member r hr kind k he).elim (fun h => h) fun hk =>
    Option.some.inj hk ▸ hid

theorem Settled.first {e : Element} (h : m.Settled met (id :: rest))
    (he : m.element? id = some e) (hk : e.kind ≠ .ontology) :
    m.Settled (met ++ [id]) e.leads where
  meetable := by
    intro r hr
    rcases List.mem_append.mp hr with hr | hr
    · exact h.meetable r hr
    · exact ⟨e, List.mem_singleton.mp hr ▸ he, hk⟩
  member := by
    intro r hr kind k her
    rcases List.mem_append.mp hr with hr | hr
    · refine Or.inl ((h.member r hr kind k her).elim (List.mem_append_left _) fun hhead => ?_)
      exact List.mem_append_right _ (Option.some.inj hhead ▸ List.mem_singleton_self id)
    · -- The member of the new element is the one that it leads to.
      obtain rfl := List.mem_singleton.mp hr
      obtain rfl := Option.some.inj (he.symm.trans her)
      exact Or.inr rfl

theorem Settled.of_nil (h : m.Settled met []) (l : List ElementId) : m.Settled met l where
  meetable := h.meetable
  member := fun r hr kind k he => Or.inl ((h.member r hr kind k he).resolve_right nofun)

end Model

namespace LinkedModel

variable {lm : LinkedModel} {locals met rest : List ElementId} {id : ElementId} {e : Element}
  {fuel : Nat}

/-- The frame of what is shown among the elements met. -/
def frameOf (lm : LinkedModel) (locals met : List ElementId) : Frame :=
  ⟨lm, locals, lm.model.shownAmong met⟩

/-- The draft after discovery of the elements met. -/
def draftOf (lm : LinkedModel) (locals met : List ElementId) : Draft :=
  (lm.frameOf locals met).noted

theorem mem_shown_draftOf :
    id ∈ (lm.draftOf locals met).view.shown ↔ id ∈ lm.model.shownAmong met :=
  Frame.mem_shown_drawn (f := lm.frameOf locals met) fun _ hk => (List.mem_filter.mp hk).2

/-- An element that is not shown yet enters the draft. -/
theorem enter_draftOf (hid : id ∉ lm.model.shownAmong met) (he : lm.model.element? id = some e) :
    (lm.draftOf locals met).enter id e = lm.draftOf locals (met ++ [id]) := by
  rw [draftOf, Frame.enter_noted (f := lm.frameOf locals met) he hid, draftOf, frameOf, frameOf,
    Model.shownAmong_append he]
  split <;> rfl

theorem visitFor_of_shown (hid : id ∈ lm.model.shownAmong met) :
    (lm.draftOf locals met).visitFor (fuel + 1) id = pure (lm.draftOf locals met) := by
  rw [Draft.visitFor_discovery rfl, Draft.discover_of_shown (mem_shown_draftOf.mpr hid)]

theorem visitFor_of_unknown (hid : id ∉ lm.model.shownAmong met)
    (he : lm.model.element? id = none) :
    (lm.draftOf locals met).visitFor (fuel + 1) id = throw (.unknownElement id) := by
  rw [Draft.visitFor_discovery rfl, Draft.discover_of_unknown (mt mem_shown_draftOf.mp hid) he]

theorem visitFor_of_ontology (hid : id ∉ lm.model.shownAmong met)
    (he : lm.model.element? id = some e) (hk : e.kind = .ontology) :
    (lm.draftOf locals met).visitFor (fuel + 1) id =
      throw (.unhandledElement id .ontology .discovery (lm.model.range? id)) := by
  rw [Draft.visitFor_discovery rfl, Draft.discover_of_ontology (mt mem_shown_draftOf.mp hid) he hk,
    Draft.unhandled, hk]
  rfl

theorem visitFor_of_element (hid : id ∉ lm.model.shownAmong met)
    (he : lm.model.element? id = some e) (hk : e.kind ≠ .ontology) :
    (lm.draftOf locals met).visitFor (fuel + 1) id =
      e.leads.foldlM (Draft.visitFor fuel) (lm.draftOf locals (met ++ [id])) := by
  rw [Draft.visitFor_discovery rfl, Draft.discover_of_element (mt mem_shown_draftOf.mp hid) he hk,
    enter_draftOf hid he]

/-- A met element that is not shown leaves the draft as it is when it is visited again. -/
theorem draftOf_append_of_met (hid : id ∈ met) (hshown : id ∉ lm.model.shownAmong met)
    (he : lm.model.element? id = some e) :
    lm.draftOf locals (met ++ [id]) = lm.draftOf locals met := by
  rw [draftOf, draftOf, frameOf, frameOf, Model.shownAmong_append he,
    Model.isShown_of_not_mem hid he hshown, if_neg Bool.false_ne_true]

/-- A visit to a reference in a ring uses up all fuel, whatever was met before. -/
theorem visitFor_of_ring {ring : List ElementId} (h : lm.model.ReferenceRing ring) (hid : id ∈ ring)
    (fuel : Nat) : (lm.draftOf locals met).visitFor fuel id = ExceptT.mk none := by
  induction fuel generalizing id with
  | zero => rfl
  | succ fuel ih =>
    obtain ⟨kind, k, hk, he⟩ := h id hid
    have hnew : id ∉ lm.model.shownAmong met := fun h =>
      nomatch ((Model.mem_shownAmong he).mp h).2
    have hsame : lm.draftOf locals (met ++ [id]) = lm.draftOf locals met := by
      rw [draftOf, draftOf, frameOf, frameOf, Model.shownAmong_append he]
      rfl
    rw [visitFor_of_element hnew he nofun, hsame]
    show [k].foldlM (Draft.visitFor fuel) (lm.draftOf locals met) = _
    rw [List.foldlM_cons, ih hk]
    rfl

/-- Visiting a met element again leads nowhere, or to the member of a reference, which was met, too. -/
theorem visitFor_of_met (h : lm.model.Settled met []) (hid : id ∈ met) :
    (∀ fuel, (lm.draftOf locals met).visitFor (fuel + 1) id = pure (lm.draftOf locals met)) ∨
      ∃ k ∈ met, k ∈ lm.model.standsOn id ∧ ∀ fuel,
        (lm.draftOf locals met).visitFor (fuel + 1) id =
          (lm.draftOf locals met).visitFor fuel k := by
  by_cases hshown : id ∈ lm.model.shownAmong met
  · exact Or.inl fun fuel => visitFor_of_shown hshown
  · obtain ⟨e, he, hk⟩ := h.meetable id hid
    have hvisit : ∀ fuel, (lm.draftOf locals met).visitFor (fuel + 1) id =
        e.leads.foldlM (Draft.visitFor fuel) (lm.draftOf locals met) := by
      intro fuel
      rw [visitFor_of_element hshown he hk, draftOf_append_of_met hid hshown he]
    cases e with
    | reference kind member =>
      cases member with
      | none => exact Or.inl hvisit
      | some k =>
        have hmember : k ∈ met := (h.member id hid kind k he).resolve_right nofun
        refine Or.inr ⟨k, hmember, Model.mem_standsOn_reference he, fun fuel => ?_⟩
        rw [hvisit]
        exact bind_pure _
    | relationEntity name source target => nomatch Model.isShown_of_not_mem hid he hshown
    | _ => exact Or.inl hvisit

/-- **Visiting a met element again** shows nothing new. -/
theorem gives_visitFor_of_met (h : lm.model.Settled met []) (hid : id ∈ met) :
    Gives lm.model.RingFree (fun fuel => ((lm.draftOf locals met).visitFor fuel id).run)
      (.ok (lm.draftOf locals met)) where
  only := by
    intro fuel outcome hrun
    induction fuel generalizing id with
    | zero => nomatch hrun
    | succ fuel ih =>
      rcases visitFor_of_met h hid with hdone | ⟨k, hk, -, hvisit⟩
      · rw [hdone] at hrun
        exact (Option.some.inj hrun).symm
      · rw [hvisit] at hrun
        exact ih hk hrun
  ends := by
    intro hm
    refine ⟨(lm.model.support id).length + 1, fun fuel hfuel => ?_⟩
    show (lm.draftOf locals met).visitFor fuel id = pure (lm.draftOf locals met)
    induction fuel generalizing id with
    | zero => nomatch hfuel
    | succ fuel ih =>
      rcases visitFor_of_met h hid with hdone | ⟨k, hk, hstands, hvisit⟩
      · exact hdone fuel
      · have hlt := hm.length_support_lt hstands
        rw [hvisit]
        exact ih hk (by omega)

/-- **Discovery goes as the walk that remembers all that it met**, which settles its references. -/
theorem gives_foldlM_visitFor {waiting : List ElementId}
    {outcome : Except ViewError (List ElementId)}
    (h : lm.model.DepthFirst met waiting outcome) (hs : lm.model.Settled met waiting) :
    Gives lm.model.RingFree
        (fun fuel => (waiting.foldlM (Draft.visitFor fuel) (lm.draftOf locals met)).run)
        (outcome.map (lm.draftOf locals)) ∧
      ∀ order, outcome = .ok order → lm.model.Settled order [] := by
  induction h with
  | done => exact ⟨.of_forall fun _ => rfl, fun order ho => Except.ok.inj ho ▸ hs⟩
  | @again met rest id outcome hid _ ih =>
    obtain ⟨hrest, hsettled⟩ := ih (hs.again hid rest)
    have hagain : Gives lm.model.RingFree
        (fun fuel => ((lm.draftOf locals met).visitFor fuel id).run) (.ok (lm.draftOf locals met)) :=
      gives_visitFor_of_met (hs.again hid []) hid
    exact ⟨hagain.bind (fun fuel d => rest.foldlM (Draft.visitFor fuel) d) hrest, hsettled⟩
  | @first met below rest id e outcome hid he hk _ _ ihbelow ihrest =>
    obtain ⟨hbelow, hsettled⟩ := ihbelow (hs.first he hk)
    obtain ⟨hrest, hsettled'⟩ := ihrest ((hsettled below rfl).of_nil rest)
    have hfirst : Gives lm.model.RingFree
        (fun fuel => ((lm.draftOf locals met).visitFor fuel id).run)
        (.ok (lm.draftOf locals below)) :=
      hbelow.succ rfl fun _ => visitFor_of_element (Model.not_mem_shownAmong hid) he hk
    exact ⟨hfirst.bind (fun fuel d => rest.foldlM (Draft.visitFor fuel) d) hrest, hsettled'⟩
  | @failsBelow met rest id e err hid he hk _ ih =>
    obtain ⟨hbelow, -⟩ := ih (hs.first he hk)
    have hfirst : Gives lm.model.RingFree
        (fun fuel => ((lm.draftOf locals met).visitFor fuel id).run) (.error err) :=
      hbelow.succ rfl fun _ => visitFor_of_element (Model.not_mem_shownAmong hid) he hk
    exact ⟨hfirst.throw_bind fun fuel d => rest.foldlM (Draft.visitFor fuel) d, nofun⟩
  | @unknown met rest id hid he =>
    have hfirst : Gives lm.model.RingFree
        (fun fuel => ((lm.draftOf locals met).visitFor fuel id).run)
        (.error (.unknownElement id)) :=
      .of_succ rfl fun _ => visitFor_of_unknown (Model.not_mem_shownAmong hid) he
    exact ⟨hfirst.throw_bind fun fuel d => rest.foldlM (Draft.visitFor fuel) d, nofun⟩
  | @ontology met rest id e hid he hk =>
    have hfirst : Gives lm.model.RingFree
        (fun fuel => ((lm.draftOf locals met).visitFor fuel id).run)
        (.error (.unhandledElement id .ontology .discovery (lm.model.range? id))) :=
      .of_succ rfl fun _ => visitFor_of_ontology (Model.not_mem_shownAmong hid) he hk
    exact ⟨hfirst.throw_bind fun fuel d => rest.foldlM (Draft.visitFor fuel) d, nofun⟩

end LinkedModel

namespace Model

variable {m : Model} {id root : ElementId} {found stack : List ElementId}

/-! ## Contents -/

/-- A state of the walk: all of it is content of `root`, and what was found has its children found or
    on the stack. -/
structure Stacked (m : Model) (root : ElementId) (found stack : List ElementId) : Prop where
  sound : ∀ id, id ∈ found ∨ id ∈ stack → Exploration.Reaches m.children root id
  start : ∀ id ∈ m.children root, id ∈ found ∨ id ∈ stack
  closed : ∀ id ∈ found, ∀ child ∈ m.children id, child ∈ found ∨ child ∈ stack

theorem Stacked.again (h : m.Stacked root found (id :: stack)) (hid : id ∈ found) :
    m.Stacked root found stack := by
  have hmove : ∀ k, k ∈ found ∨ k ∈ id :: stack → k ∈ found ∨ k ∈ stack := by
    rintro k (hk | hk)
    · exact Or.inl hk
    · exact (List.mem_cons.mp hk).imp_left fun (e : k = id) => e ▸ hid
  exact
    { sound := fun k hk => h.sound k (hk.imp_right (List.mem_cons_of_mem id))
      start := fun k hk => hmove k (h.start k hk)
      closed := fun k hk child hchild => hmove child (h.closed k hk child hchild) }

/-- **Popping a new element keeps the invariant**: it is found, and what it owns is pushed. -/
theorem Stacked.first (h : m.Stacked root found (id :: stack)) :
    m.Stacked root (found ++ [id]) ((m.children id).reverse ++ stack) := by
  have hreach : Exploration.Reaches m.children root id := h.sound id (Or.inr List.mem_cons_self)
  have hmove : ∀ k, k ∈ found ∨ k ∈ id :: stack →
      k ∈ found ++ [id] ∨ k ∈ (m.children id).reverse ++ stack := by
    simp only [List.mem_append, List.mem_cons, List.mem_reverse, List.not_mem_nil, or_false]
    rintro k (hk | hk | hk)
    · exact Or.inl (Or.inl hk)
    · exact Or.inl (Or.inr hk)
    · exact Or.inr (Or.inr hk)
  refine ⟨fun k hk => ?_, fun k hk => hmove k (h.start k hk), fun k hk child hchild => ?_⟩
  · simp only [List.mem_append, List.mem_singleton, List.mem_reverse] at hk
    rcases hk with (hk | rfl) | hk | hk
    · exact h.sound k (Or.inl hk)
    · exact hreach
    · exact hreach.trans (.of_step hk)
    · exact h.sound k (Or.inr (List.mem_cons_of_mem id hk))
  · rcases List.mem_append.mp hk with hk | hk
    · exact hmove child (h.closed k hk child hchild)
    · obtain rfl := List.mem_singleton.mp hk
      exact Or.inr (List.mem_append_left _ (List.mem_reverse.mpr hchild))

/-- With nothing on the stack, all content is found. -/
theorem Stacked.mem_iff (h : m.Stacked root found []) :
    id ∈ found ↔ Exploration.Reaches m.children root id := by
  have hdone : ∀ k, k ∈ found ∨ k ∈ [] → k ∈ found := fun k hk => hk.resolve_right List.not_mem_nil
  refine ⟨fun hid => h.sound id (Or.inl hid), fun hid => ?_⟩
  induction hid with
  | single hchild => exact hdone _ (h.start _ hchild)
  | tail _ hchild ih => exact hdone _ (h.closed _ ih _ hchild)

/-- **The stack is emptied**, whatever rings the children form: a turn of the loop pops an element
    that was found before, or finds one more of those that are owned. -/
theorem Stacked.gives_contentsFor {found : List ElementId} :
    {stack : List ElementId} → m.Stacked root found stack →
      ∃ l, Gives True (fun fuel => m.contentsFor fuel found stack) l ∧ m.Stacked root l []
  | [], h => ⟨found, .of_forall fun fuel => by cases fuel <;> rfl, h⟩
  | id :: stack, h => by
    by_cases hid : id ∈ found
    · obtain ⟨l, hgives, hl⟩ := (h.again hid).gives_contentsFor
      refine ⟨l, hgives.succ rfl fun fuel => ?_, hl⟩
      rw [contentsFor, if_pos hid]
    · obtain ⟨l, hgives, hl⟩ := h.first.gives_contentsFor
      refine ⟨l, hgives.succ rfl fun fuel => ?_, hl⟩
      rw [contentsFor, if_neg hid]
termination_by stack => (unseen m.ownedIds found, stack.length)
decreasing_by
  · exact Prod.Lex.right _ (Nat.lt_succ_self _)
  · refine Prod.Lex.left _ _ ?_
    have howned : id ∈ m.ownedIds :=
      (h.sound id (Or.inr List.mem_cons_self)).mem_of_step fun _ _ => mem_ownedIds_of_mem_children
    have heq : unseen m.ownedIds (found ++ [id]) = unseen m.ownedIds (id :: found) :=
      unseen_congr fun k => by simp [or_comm]
    rw [heq]
    exact unseen_lt howned hid

/-- The walk for local elements ends with those that are local. -/
theorem gives_localElementsFor (m : Model) (root : ElementId) (locality : Locality) :
    ∃ l, Gives True (fun fuel => m.localElementsFor fuel root locality) l ∧
      ∀ id, id ∈ l ↔ id ∈ m.localElements root locality := by
  cases locality with
  | topLevelStatements => exact ⟨m.statements root, .of_forall fun _ => rfl, fun _ => Iff.rfl⟩
  | ownedContent =>
    by_cases hk : m.kind? root = some .ontology
    · have hstatements : m.statements root = m.children root :=
        if_pos (isSome_ontology?_iff.mpr hk)
      have hstart : m.Stacked root [] (m.statements root).reverse := by
        rw [hstatements]
        exact
          { sound := fun id hid => .of_step (List.mem_reverse.mp (hid.resolve_left List.not_mem_nil))
            start := fun id hid => Or.inr (List.mem_reverse.mpr hid)
            closed := nofun }
      obtain ⟨l, hgives, hl⟩ := hstart.gives_contentsFor
      refine ⟨l, hgives, fun id => ?_⟩
      rw [hl.mem_iff, mem_ownedContent_iff, and_iff_right hk]
    · -- Nothing but an ontology has statements, so the stack is empty at once.
      have hempty : m.statements root = [] :=
        if_neg fun h => hk (isSome_ontology?_iff.mp h)
      refine ⟨[], .of_forall fun fuel => ?_, fun id => ?_⟩
      · rw [localElementsFor, hempty]
        cases fuel <;> rfl
      · rw [mem_ownedContent_iff]
        exact ⟨nofun, fun h => absurd h.1 hk⟩

end Model

/-! ## Resolution -/

/-- Answers some of which are missing, and the others are the same. -/
structure Answers.Within (a a' : Answers) : Prop where
  included : ∀ id b, a.included id = some b → a'.included id = some b
  superterms : ∀ term l, a.superterms term = some l → a'.superterms term = some l

namespace Answers.Within

variable {a a' : Answers} {b : Bool}

theorem any (h : a.Within a') {id : Option ElementId} (hb : a.any id = some b) :
    a'.any id = some b := by
  cases id with
  | none => exact hb
  | some id => exact h.included id b hb

theorem all (h : a.Within a') {ids : List ElementId} (hb : a.all ids = some b) :
    a'.all ids = some b := by
  induction ids with
  | nil => exact hb
  | cons id rest ih =>
    obtain ⟨first, hfirst, hrest⟩ := Option.bind_eq_some_iff.mp hb
    refine Option.bind_eq_some_iff.mpr ⟨first, h.included id first hfirst, ?_⟩
    cases first with
    | false => exact hrest
    | true => exact ih hrest

end Answers.Within

namespace Draft

variable {a a' : Answers}

theorem extends_attributeProperties (h : a.Within a') (d : Draft) (id : ElementId) :
    Extends (d.attributeProperties id a') (d.attributeProperties id a) := by
  refine (Extends.lift (h.superterms id)).bind fun parents => .foldlM (fun d parent => ?_) parents d
  exact (Extends.lift (h.included parent)).bind fun _ => .refl _

theorem extends_retains (h : a.Within a') (d : Draft) (id : ElementId) :
    Extends (d.retains id a') (d.retains id a) := by
  unfold retains
  cases d.model.element? id with
  | none => exact .refl _
  | some e =>
    cases e with
    | key => exact .lift fun _ => h.all
    | specialization | propertyRestriction | relation => exact .lift fun _ => h.any
    | relationRestriction demand relation =>
      refine (Extends.lift fun _ => h.any).bind fun included => ?_
      cases included with
      | false => exact .refl _
      | true =>
        cases demand with
        | cardinality => exact .refl _
        | range | target => exact .lift fun _ => h.any
    | _ => exact .refl _

theorem extends_retainsIncident (h : a.Within a') (d : Draft) (id : ElementId) :
    Extends (d.retainsIncident id a') (d.retainsIncident id a) := by
  unfold retainsIncident
  split
  · exact .lift (h.included id)
  · exact extends_retains h d id

theorem extends_selectT {α ε : Type} {keep keep' : α → ExceptT ε Option Bool}
    (h : ∀ a, Extends (keep' a) (keep a)) (l : List α) :
    Extends (selectT keep' l) (selectT keep l) := by
  induction l with
  | nil => exact .refl _
  | cons a rest ih => exact (h a).bind fun _ => ih.bind fun _ => .refl _

theorem extends_keepAxioms (h : a.Within a') (d : Draft) (id : ElementId) :
    Extends (d.keepAxioms id a') (d.keepAxioms id a) :=
  (extends_selectT (extends_retains h d) _).bind fun _ => .refl _

theorem extends_keepIncident (h : a.Within a') (d : Draft) (id : ElementId) :
    Extends (d.keepIncident id a') (d.keepIncident id a) :=
  (extends_selectT (extends_retainsIncident h d) _).bind fun _ => .refl _

/-- **Resolution goes on** in the same way if less is missing of the answers. -/
theorem extends_resolve (h : a.Within a') (d : Draft) (id : ElementId) :
    Extends (d.resolve id a') (d.resolve id a) := by
  have hsettle : ∀ e, Extends (d.settle id a' e) (d.settle id a e) := by
    intro e
    cases e with
    | aspect | concept =>
      exact (extends_attributeProperties h d id).bind fun d => extends_keepAxioms h d id
    | relationEntity =>
      exact (extends_attributeProperties h d id).bind fun d =>
        (extends_keepAxioms h d id).bind fun d => extends_keepIncident h d id
    | struct => exact extends_attributeProperties h d id
    | _ => exact .refl _
  unfold resolve
  split
  · exact .refl _
  · split
    · exact .refl _
    · exact (hsettle _).bind fun _ => .refl _

end Draft

namespace Frame

variable {f : Frame} {id : ElementId} {done waiting : List ElementId}

/-- What resolution is answered with some fuel is right. -/
theorem answersFor_within (f : Frame) (fuel : Nat) : (f.answersFor fuel).Within f.answers where
  included := fun _ _ hb => congrArg some (Model.eq_isIncluded_of_includedFor hb).symm
  superterms := by
    intro term l hl
    obtain ⟨x, hx, rfl⟩ := Option.map_eq_some_iff.mp hl
    rw [Exploration.eq_explore_of_exploreFor _
      (fun _ => f.linked.mem_supertermIds_of_reaches) hx]
    rfl

/-- With enough fuel all is answered. -/
theorem ends_answersFor (f : Frame) (hm : f.model.RingFree) : Ends f.answersFor f.answers := by
  refine ⟨f.model.foundations.length + 1 + (f.linked.model.supertermIds.length + 2),
    fun fuel hfuel => ?_⟩
  have hincluded : (f.answersFor fuel).included = f.answers.included := by
    funext id
    have hsupport := f.model.length_support_le id
    exact Model.includedFor_eq hm (by omega)
  have hsuperterms : (f.answersFor fuel).superterms = f.answers.superterms := by
    funext term
    exact LinkedModel.exploreFor_directSuperterms (by omega) term true
  calc f.answersFor fuel
      = ⟨(f.answersFor fuel).included, (f.answersFor fuel).superterms⟩ := rfl
    _ = f.answers := by rw [hincluded, hsuperterms]

/-- Whatever is resolved by now, the same elements are shown. -/
theorem Proper.answersFor_draft (hf : f.Proper) (done : List ElementId) (fuel : Nat) :
    (f.draft done).frame.answersFor fuel = f.answersFor fuel := by
  have hknown : (fun k => (f.draft done).frame.isLocal k || k ∈ (f.draft done).frame.shown) =
      fun k => f.isLocal k || k ∈ f.shown := by
    funext k
    have hshown : k ∈ (f.draft done).frame.shown ↔ k ∈ f.shown := hf.mem_shown_drawn
    rw [decide_eq_decide.mpr hshown]
    rfl
  rw [answersFor, hknown]
  rfl

/-- A queued element is resolved with the answers that the rules give. -/
theorem Proper.gives_visitFor (hf : f.Proper) (hid : id ∈ f.shownOf ElementKind.isClassifier)
    (hnew : id ∉ done) :
    Gives f.model.RingFree (fun fuel => ((f.draft done).visitFor fuel id).run)
      (.ok (f.draft (done ++ [id]))) where
  only := by
    intro fuel outcome hrun
    cases fuel with
    | zero => nomatch hrun
    | succ fuel =>
      rw [Draft.visitFor_resolution rfl, hf.answersFor_draft] at hrun
      have hanswered := Draft.extends_resolve (f.answersFor_within fuel) _ id outcome hrun
      rw [hf.resolve_draft hid hnew] at hanswered
      exact (Option.some.inj hanswered).symm
  ends := by
    intro hm
    obtain ⟨enough, hanswers⟩ := f.ends_answersFor hm
    refine ⟨enough + 1, fun fuel hfuel => ?_⟩
    obtain ⟨fuel, rfl⟩ : ∃ n, fuel = n + 1 := ⟨fuel - 1, by omega⟩
    show (f.draft done).visitFor (fuel + 1) id = pure (f.draft (done ++ [id]))
    rw [Draft.visitFor_resolution rfl, hf.answersFor_draft, hanswers fuel (by omega),
      hf.resolve_draft hid hnew]

/-- **The queue is resolved** from its front to its end. -/
theorem Proper.gives_foldlM_visitFor (hf : f.Proper)
    (hqueue : done ++ waiting = f.shownOf ElementKind.isClassifier) :
    Gives f.model.RingFree (fun fuel => (waiting.foldlM (Draft.visitFor fuel) (f.draft done)).run)
      (.ok (f.draft (f.shownOf ElementKind.isClassifier))) := by
  induction waiting generalizing done with
  | nil =>
    rw [List.append_nil] at hqueue
    rw [hqueue]
    exact .of_forall fun _ => rfl
  | cons id rest ih =>
    have hnodup : (done ++ id :: rest).Nodup := hqueue ▸ hf.nodup_shownOf
    have hnew : id ∉ done := fun h =>
      (List.nodup_append.mp hnodup).2.2 id h id List.mem_cons_self rfl
    have hid : id ∈ f.shownOf ElementKind.isClassifier :=
      hqueue ▸ List.mem_append_right done List.mem_cons_self
    have hrest : done ++ [id] ++ rest = f.shownOf ElementKind.isClassifier := by
      rw [List.append_assoc, List.singleton_append, hqueue]
    exact (hf.gives_visitFor hid hnew).bind (fun fuel d => rest.foldlM (Draft.visitFor fuel) d)
      (ih hrest)

end Frame

/-! ## The analysis -/

namespace LinkedModel

variable {lm : LinkedModel} {root : ElementId}

/-- Both phases, once the local elements are found, in whichever order. -/
theorem gives_runFor {header : Ontology} (he : lm.model.element? root = some (.ontology header))
    {locality : Locality} {locals : List ElementId}
    (hlocals : ∀ id, id ∈ locals ↔ id ∈ lm.model.localElements root locality) :
    Gives lm.model.RingFree (fun fuel => ((Draft.start lm locals).runFor fuel root).run)
      (lm.analyze root locality) := by
  have hstart : lm.model.Settled [] (lm.model.statements root) := ⟨nofun, nofun⟩
  have hdiscovery : Gives lm.model.RingFree (fun fuel =>
      ((lm.model.statements root).foldlM (Draft.visitFor fuel) (lm.draftOf locals [])).run)
      ((lm.model.meet [] (lm.model.statements root)).map (lm.draftOf locals)) :=
    (gives_foldlM_visitFor Model.depthFirst_meet hstart).1
  rw [analyze_of_ontology he, Model.met]
  cases hmet : lm.model.meet [] (lm.model.statements root) with
  | error err =>
    rw [hmet] at hdiscovery
    exact hdiscovery.throw_bind _
  | ok order =>
    rw [hmet] at hdiscovery
    have hproper : (lm.frameOf locals order).Proper :=
      ⟨(Model.mem_met_iff hmet).1.filter _, fun _ hid => (List.mem_filter.mp hid).2⟩
    have hresolution := hproper.gives_foldlM_visitFor (List.nil_append _)
    rw [Frame.draft_nil] at hresolution
    have hview : (lm.frameOf locals order).drawn = (lm.frame root locality order).drawn :=
      (Frame.agrees_of_locals hlocals).drawn_eq
    refine hdiscovery.bind (fun fuel d => do
      let resolved ← d.queue.foldlM (Draft.visitFor fuel) { d with phase := .resolution }
      return resolved.view) ?_
    have hend := hresolution.bind (fun _ d => (pure d.view : ExceptT ViewError Option View))
      (.of_forall fun _ => rfl)
    rw [Frame.view_draft, hview] at hend
    exact hend

/-- **The guards change no answer.**  What a run without them ends with is what the guarded analysis
    answers, and it ends in ring-free models. -/
theorem gives_analyzeFor (lm : LinkedModel) (root : ElementId) (locality : Locality) :
    Gives lm.model.RingFree (fun fuel => (lm.analyzeFor fuel root locality).run)
      (lm.analyze root locality) := by
  unfold analyzeFor
  cases he : lm.model.element? root with
  | none =>
    refine .of_forall fun fuel => ?_
    rw [analyze_of_unknown he]
    rfl
  | some e =>
    by_cases hk : e.kind = .ontology
    · cases e with
      | ontology header =>
        obtain ⟨locals, hlocals, hmem⟩ := lm.model.gives_localElementsFor root locality
        exact (hlocals.mono fun _ => trivial).lift.bind
          (fun fuel locals => (Draft.start lm locals).runFor fuel root) (gives_runFor he hmem)
      | _ => cases hk
    · refine .of_forall fun fuel => ?_
      rw [analyze_of_other he hk]
      cases e with
      | ontology header => exact absurd rfl hk
      | _ => rfl

end LinkedModel

end OntologyView

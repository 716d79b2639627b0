/-
  RUNS: what can be said of a computation that takes fuel.

  A run answers `none` if its fuel is used up, and else with a value or an error.  Four things are
  said of runs in this library.

  * `Yields` — WHATEVER it ends with is right.  Nothing is said of a run that does not end.
  * `Ends` — it ends, if it has enough fuel, and more fuel changes nothing.
  * `Gives` — there is one thing only that it may end with, however much fuel it has, and under some
    condition it ends.
  * `Extends` — it ends wherever another run does, with the same outcome.

  Each of them follows the recursion of the program, with laws for a value, for what runs one after
  the other, and for a loop.
-/
namespace OntologyView

/-! ## Whatever a run ends with -/

/-- Whatever a run ends with: a value with `P`, or an error with `E`. -/
structure Yields {ε α : Type} (x : ExceptT ε Option α) (P : α → Prop) (E : ε → Prop) : Prop where
  value : ∀ a, x.run = some (.ok a) → P a
  error : ∀ err, x.run = some (.error err) → E err

namespace Yields

variable {ε α β : Type} {x : ExceptT ε Option α} {P Q : α → Prop} {E : ε → Prop}

theorem pure {a : α} (h : P a) : Yields (Pure.pure a : ExceptT ε Option α) P E where
  value := by
    intro b hb
    obtain rfl : a = b := Except.ok.inj (Option.some.inj hb)
    exact h
  error := nofun

theorem throw {err : ε} (h : E err) :
    Yields (MonadExcept.throw err : ExceptT ε Option α) P E where
  value := nofun
  error := by
    intro err' herr
    obtain rfl : err = err' := Except.error.inj (Option.some.inj herr)
    exact h

/-- A run without fuel ends with nothing. -/
theorem none : Yields (ExceptT.mk Option.none : ExceptT ε Option α) P E :=
  ⟨nofun, nofun⟩

/-- What is only asked for and cannot fail. -/
theorem lift {o : Option α} (h : ∀ a, o = some a → P a) :
    Yields (liftM o : ExceptT ε Option α) P E := by
  cases o with
  | none => exact none
  | some a => exact pure (h a rfl)

theorem mono (h : Yields x P E) (hP : ∀ a, P a → Q a) : Yields x Q E :=
  ⟨fun a ha => hP a (h.value a ha), h.error⟩

/-- What runs second may rely on what the first one yields. -/
theorem bind {f : α → ExceptT ε Option β} {R : β → Prop} (h : Yields x P E)
    (hf : ∀ a, P a → Yields (f a) R E) : Yields (x >>= f) R E := by
  cases hx : x.run with
  | none =>
    have hbind : x >>= f = ExceptT.mk Option.none := by
      show Option.bind x.run _ = _
      rw [hx]
      rfl
    exact hbind ▸ none
  | some outcome =>
    cases outcome with
    | ok a =>
      have hbind : x >>= f = f a := by
        show Option.bind x.run _ = _
        rw [hx]
        rfl
      exact hbind ▸ hf a (h.value a hx)
    | error err =>
      have hbind : x >>= f = MonadExcept.throw err := by
        show Option.bind x.run _ = _
        rw [hx]
        rfl
      exact hbind ▸ throw (h.error err hx)

/-- What runs second does not mind what it was that was asked for. -/
theorem lift_bind {o : Option α} {f : α → ExceptT ε Option β} {R : β → Prop}
    (hf : ∀ a, Yields (f a) R E) : Yields (liftM o >>= f) R E :=
  (lift (P := fun _ => True) fun _ _ => trivial).bind fun a _ => hf a

/-- **A loop keeps an invariant** that each turn of it keeps.  The invariant speaks of what is left to
    be done, too. -/
theorem foldlM {f : β → α → ExceptT ε Option β} (I : List α → β → Prop)
    (hf : ∀ a rest b, I (a :: rest) b → Yields (f b a) (I rest) E) :
    ∀ {l : List α} {b : β}, I l b → Yields (l.foldlM f b) (I []) E
  | [], _, h => pure h
  | a :: rest, b, h => by
    rw [List.foldlM_cons]
    exact (hf a rest b h).bind fun _ hb => foldlM I hf hb

end Yields

/-! ## Enough fuel -/

/-- Some amount of fuel is enough for an answer, and more gives the same. -/
def Ends {β : Type} (run : Nat → β) (answer : β) : Prop :=
  ∃ enough, ∀ fuel, enough ≤ fuel → run fuel = answer

namespace Ends

section Any

variable {β : Type} {run run' : Nat → β} {answer : β}

theorem of_forall (h : ∀ fuel, run fuel = answer) : Ends run answer :=
  ⟨0, fun fuel _ => h fuel⟩

/-- One level of recursion, or one turn of a loop, costs one. -/
theorem succ (h : Ends run' answer) (hrun : ∀ fuel, run (fuel + 1) = run' fuel) :
    Ends run answer := by
  obtain ⟨enough, h⟩ := h
  refine ⟨enough + 1, fun fuel hfuel => ?_⟩
  obtain ⟨fuel, rfl⟩ : ∃ n, fuel = n + 1 := ⟨fuel - 1, by omega⟩
  rw [hrun, h fuel (by omega)]

theorem map {γ : Type} (g : β → γ) (h : Ends run answer) :
    Ends (fun fuel => g (run fuel)) (g answer) := by
  obtain ⟨enough, h⟩ := h
  exact ⟨enough, fun fuel hfuel => congrArg g (h fuel hfuel)⟩

end Any

section Bind

variable {ε α β : Type} {run : Nat → ExceptT ε Option α} {a : α} {err : ε}
  {answer : ExceptT ε Option β}

/-- What runs one after the other ends if both do. -/
theorem bind (next : Nat → α → ExceptT ε Option β) (h : Ends run (pure a))
    (h' : Ends (next · a) answer) : Ends (fun fuel => run fuel >>= next fuel) answer := by
  obtain ⟨enough, h⟩ := h
  obtain ⟨enough', h'⟩ := h'
  refine ⟨max enough enough', fun fuel hfuel => ?_⟩
  show run fuel >>= next fuel = answer
  rw [h fuel (by omega), pure_bind]
  exact h' fuel (by omega)

/-- What comes after an error does not run. -/
theorem throw_bind (next : Nat → α → ExceptT ε Option β) (h : Ends run (throw err)) :
    Ends (fun fuel => run fuel >>= next fuel) (throw err) := by
  obtain ⟨enough, h⟩ := h
  refine ⟨enough, fun fuel hfuel => ?_⟩
  show run fuel >>= next fuel = throw err
  rw [h fuel hfuel]
  rfl

end Bind

end Ends

/-! ## One answer -/

/-- Runs that end with nothing but `answer`, and with enough fuel they do end, provided that `c`. -/
structure Gives {β : Type} (c : Prop) (run : Nat → Option β) (answer : β) : Prop where
  only : ∀ fuel b, run fuel = some b → b = answer
  ends : c → Ends run (some answer)

namespace Gives

section Any

variable {β : Type} {c : Prop} {run run' : Nat → Option β} {answer : β}

theorem of_forall (h : ∀ fuel, run fuel = some answer) : Gives c run answer where
  only := fun fuel _ hb => Option.some.inj (hb.symm.trans (h fuel))
  ends := fun _ => .of_forall h

theorem mono {c' : Prop} (h : Gives c run answer) (hc : c' → c) : Gives c' run answer :=
  ⟨h.only, fun hc' => h.ends (hc hc')⟩

theorem succ (h : Gives c run' answer) (hzero : run 0 = none)
    (hsucc : ∀ fuel, run (fuel + 1) = run' fuel) : Gives c run answer where
  only := by
    intro fuel b hb
    cases fuel with
    | zero => nomatch hzero.symm.trans hb
    | succ fuel => exact h.only fuel b ((hsucc fuel).symm.trans hb)
  ends := fun hc => (h.ends hc).succ hsucc

theorem of_succ (hzero : run 0 = none) (hsucc : ∀ fuel, run (fuel + 1) = some answer) :
    Gives c run answer := by
  have hconstant : Gives c (fun _ => some answer) answer := of_forall fun _ => rfl
  exact hconstant.succ hzero hsucc

end Any

section Bind

variable {ε α β : Type} {c : Prop} {run : Nat → ExceptT ε Option α} {a : α} {err : ε}
  {answer : Except ε β}

/-- What is only asked for and cannot fail. -/
theorem lift {run : Nat → Option α} (h : Gives c run a) :
    Gives c (fun fuel => (liftM (run fuel) : ExceptT ε Option α).run) (.ok a) where
  only := by
    intro fuel outcome hrun
    cases hfuel : run fuel with
    | none =>
      rw [hfuel] at hrun
      nomatch hrun
    | some b =>
      rw [hfuel] at hrun
      rw [← Option.some.inj hrun, h.only fuel b hfuel]
  ends := fun hc => (h.ends hc).map fun o => (liftM o : ExceptT ε Option α).run

theorem bind (next : Nat → α → ExceptT ε Option β) (h : Gives c (fun fuel => (run fuel).run) (.ok a))
    (h' : Gives c (fun fuel => (next fuel a).run) answer) :
    Gives c (fun fuel => (run fuel >>= next fuel).run) answer where
  only := by
    intro fuel outcome hrun
    have hrun : Option.bind (run fuel).run (ExceptT.bindCont (next fuel)) = some outcome := hrun
    obtain ⟨first, hfirst, hrest⟩ := Option.bind_eq_some_iff.mp hrun
    obtain rfl := h.only fuel first hfirst
    exact h'.only fuel outcome hrest
  ends := fun hc => (h.ends hc).bind next (h'.ends hc)

theorem throw_bind (next : Nat → α → ExceptT ε Option β)
    (h : Gives c (fun fuel => (run fuel).run) (.error err)) :
    Gives c (fun fuel => (run fuel >>= next fuel).run) (.error err) where
  only := by
    intro fuel outcome hrun
    have hrun : Option.bind (run fuel).run (ExceptT.bindCont (next fuel)) = some outcome := hrun
    obtain ⟨first, hfirst, hrest⟩ := Option.bind_eq_some_iff.mp hrun
    obtain rfl := h.only fuel first hfirst
    exact (Option.some.inj hrest).symm
  ends := fun hc => (h.ends hc).throw_bind next

end Bind

end Gives

/-! ## Runs that go on -/

/-- One run ends wherever another one does, and with the same outcome. -/
def Extends {ε α : Type} (y x : ExceptT ε Option α) : Prop :=
  ∀ outcome, x.run = some outcome → y.run = some outcome

namespace Extends

variable {ε α β : Type} {x y : ExceptT ε Option α}

theorem refl (x : ExceptT ε Option α) : Extends x x :=
  fun _ h => h

theorem lift {o o' : Option α} (h : ∀ a, o = some a → o' = some a) :
    Extends (liftM o' : ExceptT ε Option α) (liftM o) := by
  cases o with
  | none => exact nofun
  | some a =>
    rw [h a rfl]
    exact refl _

theorem bind {f g : α → ExceptT ε Option β} (h : Extends y x) (hfg : ∀ a, Extends (g a) (f a)) :
    Extends (y >>= g) (x >>= f) := by
  intro outcome hrun
  have hrun : Option.bind x.run (ExceptT.bindCont f) = some outcome := hrun
  obtain ⟨first, hx, hrest⟩ := Option.bind_eq_some_iff.mp hrun
  show Option.bind y.run (ExceptT.bindCont g) = some outcome
  rw [h first hx, Option.bind_some]
  cases first with
  | ok a => exact hfg a outcome hrest
  | error err => exact hrest

theorem foldlM {f g : β → α → ExceptT ε Option β} (h : ∀ b a, Extends (g b a) (f b a)) :
    ∀ (l : List α) (b : β), Extends (l.foldlM g b) (l.foldlM f b)
  | [], _ => refl _
  | a :: rest, b => by
    rw [List.foldlM_cons, List.foldlM_cons]
    exact (h b a).bind fun b' => foldlM h rest b'

end Extends

end OntologyView

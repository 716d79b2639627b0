/-
  SOURCE RANGES: where an element stood in its text.

  A range runs from one byte offset to another and may be empty.  It never runs backwards: that is
  part of the type, and `SourceRange.ofBounds` is the one place where two offsets from outside are
  checked against it.
-/
namespace OntologyView

/-- The bytes from `start` up to, but not including, `stop`. -/
structure SourceRange where
  start : Nat
  stop : Nat
  start_le_stop : start ≤ stop
deriving DecidableEq, Repr

/-- Why two offsets bound no range. -/
inductive RangeError where
  /-- The range would start after its end. -/
  | backwards
deriving DecidableEq, Repr

/-- The wording of a range error. -/
def RangeError.message : RangeError → String
  | .backwards => "assertion failed: start.raw <= end.raw"

/-- The range between two offsets. -/
def SourceRange.ofBounds (start stop : Nat) : Except RangeError SourceRange :=
  if h : start ≤ stop then .ok ⟨start, stop, h⟩ else .error .backwards

/-- The written form, as in `4..9`. -/
def SourceRange.text (r : SourceRange) : String :=
  toString r.start ++ ".." ++ toString r.stop

theorem SourceRange.ofBounds_eq_ok_iff {start stop : Nat} {r : SourceRange} :
    SourceRange.ofBounds start stop = .ok r ↔ r.start = start ∧ r.stop = stop := by
  obtain ⟨a, b, hab⟩ := r
  by_cases h : start ≤ stop
  · simp [SourceRange.ofBounds, h, eq_comm]
  · simp only [SourceRange.ofBounds, h, dif_neg, not_false_iff]
    exact ⟨fun e => (nomatch e), fun ⟨ha, hb⟩ => absurd (ha ▸ hb ▸ hab) h⟩

example : (SourceRange.ofBounds 9 4).isOk = false := by decide
example : (SourceRange.mk 4 9 (by decide)).text = "4..9" := by decide +kernel

end OntologyView

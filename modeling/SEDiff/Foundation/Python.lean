import Mathlib.Data.Finset.Basic

/-!
# What a Python function can raise

A function that can raise returns an `Except PyErr`; `pyAssert` is the `assert`
statement.
-/

namespace SEDiff.Foundation

universe u v

/-- The built-in exceptions a modelled function can raise. -/
inductive PyErr where
  /-- A failed `assert`. -/
  | assertionError
  /-- An operation on a value of the wrong type, such as `len` of one that has no length. -/
  | typeError
  /-- A value of the right type that does not fit, such as too few parts to unpack. -/
  | valueError
  /-- A list index out of range. -/
  | indexError
  /-- A missing dictionary key. -/
  | keyError
  /-- A missing attribute, such as any attribute of `None`. -/
  | attributeError
  deriving DecidableEq, Repr

/-- `assert(b)`. -/
def pyAssert (b : Prop) [Decidable b] : Except PyErr Unit :=
  if b then .ok () else .error .assertionError

@[simp] theorem pyAssert_of_true {b : Prop} [Decidable b] (h : b) : pyAssert b = .ok () := if_pos h

/-- A computation that returns went through its first part. -/
theorem bind_eq_ok {ε : Type u} {α β : Type v} {m : Except ε α} {k : α → Except ε β} {b : β} :
    m >>= k = .ok b ↔ ∃ a, m = .ok a ∧ k a = .ok b := by
  cases m with
  | error e => simp [bind, Except.bind]
  | ok a => simp [bind, Except.bind]

/-- A result that is changed was a result. -/
theorem map_eq_ok {ε : Type u} {α β : Type v} {m : Except ε α} {f : α → β} {b : β} :
    m.map f = .ok b ↔ ∃ a, m = .ok a ∧ f a = b := by
  cases m with
  | error e => simp [Except.map]
  | ok a => simp [Except.map]

@[simp] theorem ok_bind {ε : Type u} {α β : Type v} (a : α) (k : α → Except ε β) :
    (Except.ok a : Except ε α) >>= k = k a := rfl

end SEDiff.Foundation

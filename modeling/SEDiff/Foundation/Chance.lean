import Mathlib.Data.Nat.Notation

/-!
# Random choices

Computations in C that draw random numbers, and what holds of them whatever is drawn.

## What is proved

* `Always.bind`, `Always.mono`, `Always.draw` — the rules for what always holds: no draw leads to a failure, and every
  result has the property.
-/

namespace SEDiff.Foundation

/-- What a C program can do wrong. -/
inductive CErr
  /-- An access outside of an object. -/
  | bounds
  /-- A value that was never written is used. -/
  | uninitialized
  /-- A division by zero. -/
  | division
  /-- An unsigned subtraction wraps around. -/
  | underflow
  deriving DecidableEq, Repr

/-- A computation that draws from a stream of numbers, and may fail. -/
abbrev Chance (α : Type) := StateT (ℕ → ℕ) (Except CErr) α

/-- The next number. -/
def draw : Chance ℕ := fun s => .ok (s 0, fun n => s (n + 1))

/-- A step that draws nothing. -/
def certain {α : Type} (m : Except CErr α) : Chance α := fun s => m.map fun a => (a, s)

/-- Unsigned subtraction. -/
def monus (m n : ℕ) : Chance ℕ := certain (if n ≤ m then .ok (m - n) else .error .underflow)

variable {α β : Type} {m : Chance α} {k : α → Chance β} {P Q : α → Prop} {R : β → Prop}

/-- Whatever is drawn, there is a result, and it satisfies `P`. -/
def Always (m : Chance α) (P : α → Prop) : Prop := ∀ s, ∃ a s', m s = .ok (a, s') ∧ P a

theorem Always.pure {a : α} (h : P a) : Always (pure a) P := fun s => ⟨a, s, rfl, h⟩

/-- **Sequences.** -/
theorem Always.bind (hm : Always m P) (hk : ∀ a, P a → Always (k a) R) : Always (m >>= k) R := by
  intro s
  obtain ⟨a, s₁, hrun, ha⟩ := hm s
  obtain ⟨b, s₂, hrest, hb⟩ := hk a ha s₁
  refine ⟨b, s₂, ?_, hb⟩
  show (m s >>= fun p => k p.1 p.2) = .ok (b, s₂)
  rw [hrun]
  exact hrest

theorem Always.mono (hm : Always m P) (h : ∀ a, P a → Q a) : Always m Q := by
  intro s
  obtain ⟨a, s', hrun, ha⟩ := hm s
  exact ⟨a, s', hrun, h a ha⟩

/-- Two properties of the same result. -/
theorem Always.and (h₁ : Always m P) (h₂ : Always m Q) : Always m fun a => P a ∧ Q a := by
  intro s
  obtain ⟨a, s', hrun, ha⟩ := h₁ s
  obtain ⟨b, t', hrun', hb⟩ := h₂ s
  obtain ⟨rfl, -⟩ := Prod.mk.inj (Except.ok.inj (hrun.symm.trans hrun'))
  exact ⟨a, s', hrun, ha, hb⟩

theorem Always.draw : Always draw fun _ => True := fun s => ⟨s 0, fun n => s (n + 1), rfl, trivial⟩

theorem Always.certain {m : Except CErr α} {a : α} (h : m = .ok a) (ha : P a) : Always (certain m) P := by
  intro s
  rw [h]
  exact ⟨a, s, rfl, ha⟩

theorem Always.monus {m n : ℕ} (h : n ≤ m) : Always (monus m n) (· = m - n) := .certain (if_pos h) rfl

/-- Both branches. -/
theorem Always.ite {c : Prop} [Decidable c] {m₁ m₂ : Chance α} (h₁ : c → Always m₁ P) (h₂ : ¬ c → Always m₂ P) :
    Always (if c then m₁ else m₂) P := by
  split
  · exact h₁ ‹c›
  · exact h₂ ‹¬ c›

end SEDiff.Foundation

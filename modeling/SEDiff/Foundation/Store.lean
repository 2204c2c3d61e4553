import Mathlib.Logic.Function.Basic
import Mathlib.Order.Nat

/-!
# Objects with identity

A store of mutable objects, as the heap of a language with reference semantics: an
object is reached through its reference, an assignment to a field changes what every
holder of the reference sees, and an allocation hands out a reference nobody holds.

## What is proved

* `obj_set_self`, `obj_set_of_ne` — an assignment changes one object and no other.
* `obj_alloc_of_lt`, `obj_alloc_next` — an allocation changes no allocated object.
* `Agrees` — two stores agree off a set of references; assignments and allocations
  compose through `Agrees.trans`.
-/

namespace SEDiff.Foundation

/-- The objects allocated so far, and the next reference to hand out. A reference is a
number. -/
structure Store (α : Type*) where
  /-- What each reference points at. -/
  obj : ℕ → α
  /-- The first reference not handed out. -/
  next : ℕ

namespace Store

variable {α : Type*}

/-- Overwrite the object at `p`. -/
def set (h : Store α) (p : ℕ) (v : α) : Store α := { h with obj := Function.update h.obj p v }

/-- Allocate an object holding `v`. -/
def alloc (h : Store α) (v : α) : Store α × ℕ :=
  ({ obj := Function.update h.obj h.next v, next := h.next + 1 }, h.next)

/-- A store that holds `vs`; what is not allocated reads as `d`. -/
def ofList (d : α) (vs : List α) : Store α := ⟨fun o => vs.getD o d, vs.length⟩

@[simp] theorem next_set (h : Store α) (p : ℕ) (v : α) : (h.set p v).next = h.next := rfl

@[simp] theorem obj_set_self (h : Store α) (p : ℕ) (v : α) : (h.set p v).obj p = v := by
  simp [set]

theorem obj_set_of_ne (h : Store α) {p q : ℕ} (v : α) (hq : q ≠ p) :
    (h.set p v).obj q = h.obj q := by
  simp [set, hq]

/-- Writing back what is there changes nothing. -/
theorem set_obj_self (h : Store α) (p : ℕ) : h.set p (h.obj p) = h := by
  simp [set]

@[simp] theorem next_alloc (h : Store α) (v : α) : (h.alloc v).1.next = h.next + 1 := rfl

@[simp] theorem ref_alloc (h : Store α) (v : α) : (h.alloc v).2 = h.next := rfl

@[simp] theorem obj_alloc_next (h : Store α) (v : α) : (h.alloc v).1.obj h.next = v := by
  simp [alloc]

theorem obj_alloc_of_ne (h : Store α) {q : ℕ} (v : α) (hq : q ≠ h.next) :
    (h.alloc v).1.obj q = h.obj q := by
  simp [alloc, hq]

theorem obj_alloc_of_lt (h : Store α) {q : ℕ} (v : α) (hq : q < h.next) :
    (h.alloc v).1.obj q = h.obj q :=
  obj_alloc_of_ne h v (Nat.ne_of_lt hq)

/-- `h'` comes after `h` and every object allocated in `h`, except those at `ps`, is as
it was. -/
structure Agrees (h h' : Store α) (ps : ℕ → Prop) : Prop where
  /-- References are never taken back. -/
  next_le : h.next ≤ h'.next
  /-- The objects not named are unchanged. -/
  obj_eq : ∀ o, o < h.next → ¬ ps o → h'.obj o = h.obj o

theorem Agrees.refl (h : Store α) (ps : ℕ → Prop) : Agrees h h ps := ⟨le_rfl, fun _ _ _ => rfl⟩

theorem Agrees.trans {h₁ h₂ h₃ : Store α} {ps qs : ℕ → Prop} (h₁₂ : Agrees h₁ h₂ ps)
    (h₂₃ : Agrees h₂ h₃ qs) (hsub : ∀ o, o < h₁.next → qs o → ps o) : Agrees h₁ h₃ ps :=
  ⟨h₁₂.next_le.trans h₂₃.next_le, fun o ho hp => by
    rw [h₂₃.obj_eq o (lt_of_lt_of_le ho h₁₂.next_le) (fun hq => hp (hsub o ho hq)),
      h₁₂.obj_eq o ho hp]⟩

theorem Agrees.mono {h h' : Store α} {ps qs : ℕ → Prop} (ha : Agrees h h' ps)
    (hsub : ∀ o, ps o → qs o) : Agrees h h' qs :=
  ⟨ha.next_le, fun o ho hq => ha.obj_eq o ho (fun hp => hq (hsub o hp))⟩

end Store

end SEDiff.Foundation

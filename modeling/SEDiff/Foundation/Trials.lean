import Mathlib.Data.List.Basic

/-!
# Trying variants

A program changes a state, tries it as it then is, changes it back, and so on in nested loops. After any attempt it may
have to give up.

## What is proved

* `Does.andThen`, `Does.upTo`, `Does.each` — the rules for what such a program tries, and for the state it ends with; if
  it gives up, then after a part of that.
-/

namespace SEDiff.Foundation

variable {σ β ι : Type}

/-- A state, and what has been tried. -/
structure Log (σ β : Type) where
  /-- The state. -/
  state : σ
  /-- What was tried, in order. -/
  tried : List β

/-- A program; if it gives up, what was tried is left. -/
abbrev Trial (σ β : Type) := Log σ β → Except (List β) (Log σ β)

namespace Trial

/-- Nothing. -/
def skip : Trial σ β := .ok

/-- The state is changed. -/
def modify (f : σ → σ) : Trial σ β := fun s => .ok ⟨f s.state, s.tried⟩

/-- The state is changed, depending on how much has been tried. -/
def observe (f : ℕ → σ → σ) : Trial σ β := fun s => .ok ⟨f s.tried.length s.state, s.tried⟩

/-- An attempt; the answer may be to give up. -/
def attempt (bail : ℕ → Bool) (b : σ → β) : Trial σ β := fun s =>
  if bail (s.tried.length + 1) then .error (s.tried ++ [b s.state]) else .ok ⟨s.state, s.tried ++ [b s.state]⟩

/-- One program after the other. -/
def andThen (m k : Trial σ β) : Trial σ β := fun s => (m s).bind k

/-- The state decides what is done. -/
def ask (m : σ → Trial σ β) : Trial σ β := fun s => m s.state s

/-- A part with variables of its own. -/
def within {τ : Type} (init : τ) (m : Trial τ β) : Trial σ β := fun s =>
  match m ⟨init, s.tried⟩ with
  | .ok r => .ok ⟨s.state, r.tried⟩
  | .error tried => .error tried

/-- A counter below `n`. -/
def upTo : ℕ → (ℕ → Trial σ β) → Trial σ β
  | 0, _ => skip
  | n + 1, body => (upTo n body).andThen (body n)

/-- The elements of a list. -/
def each (body : ι → Trial σ β) : List ι → Trial σ β
  | [] => skip
  | i :: rest => (body i).andThen (each body rest)

end Trial

open Trial

/-- The program leads from one log to another; if it gives up, it tried a part of the rest. -/
structure Does (m : Trial σ β) (a b : Log σ β) : Prop where
  /-- What was tried before is kept. -/
  keeps : a.tried <+: b.tried
  /-- The end, or what was tried until then. -/
  result : m a = .ok b ∨ ∃ tried, m a = .error tried ∧ a.tried <+: tried ∧ tried <+: b.tried

namespace Does

variable {m k : Trial σ β} {a b c : Log σ β} {s : σ} {tried : List β}

theorem skip : Does skip a a := ⟨List.prefix_refl _, .inl rfl⟩

theorem modify {f : σ → σ} : Does (modify f) ⟨s, tried⟩ ⟨f s, tried⟩ := ⟨List.prefix_refl _, .inl rfl⟩

theorem observe {f : ℕ → σ → σ} : Does (observe f) ⟨s, tried⟩ ⟨f tried.length s, tried⟩ :=
  ⟨List.prefix_refl _, .inl rfl⟩

theorem ask {m : σ → Trial σ β} (h : Does (m a.state) a b) : Does (ask m) a b := ⟨h.keeps, h.result⟩

theorem attempt {bail : ℕ → Bool} {f : σ → β} : Does (attempt bail f) ⟨s, tried⟩ ⟨s, tried ++ [f s]⟩ := by
  refine ⟨List.prefix_append _ _, ?_⟩
  rw [Trial.attempt]
  split
  · exact .inr ⟨_, rfl, List.prefix_append _ _, List.prefix_refl _⟩
  · exact .inl rfl

theorem within {τ : Type} {m : Trial τ β} {t t' : τ} {tried' : List β} (h : Does m ⟨t, tried⟩ ⟨t', tried'⟩) :
    Does (within t m) ⟨s, tried⟩ ⟨s, tried'⟩ := by
  refine ⟨h.keeps, ?_⟩
  rw [Trial.within]
  rcases h.result with hok | ⟨tried, herror, hbefore, hafter⟩
  · exact .inl (by rw [hok])
  · exact .inr ⟨tried, by rw [herror], hbefore, hafter⟩

/-- **Sequences.** -/
theorem andThen (hm : Does m a b) (hk : Does k b c) : Does (m.andThen k) a c := by
  refine ⟨hm.keeps.trans hk.keeps, ?_⟩
  rcases hm.result with hok | ⟨tried, herror, hbefore, hafter⟩
  · rw [Trial.andThen, hok]
    rcases hk.result with hok' | ⟨tried, herror, hbefore, hafter⟩
    · exact .inl hok'
    · exact .inr ⟨tried, herror, hm.keeps.trans hbefore, hafter⟩
  · rw [Trial.andThen, herror]
    exact .inr ⟨tried, rfl, hbefore, hafter.trans hk.keeps⟩

/-- **Counting.** -/
theorem upTo {n : ℕ} {body : ℕ → Trial σ β} {a : ℕ → Log σ β} (h : ∀ i < n, Does (body i) (a i) (a (i + 1))) :
    Does (upTo n body) (a 0) (a n) := by
  induction n with
  | zero => exact .skip
  | succ n ih => exact (ih fun i hi => h i (Nat.lt_succ_of_lt hi)).andThen (h n (Nat.lt_succ_self n))

/-- **Counting, with the state restored** each time. -/
theorem upTo_restores {n : ℕ} {body : ℕ → Trial σ β} {vs : ℕ → List β}
    (h : ∀ i < n, ∀ tried, Does (body i) ⟨s, tried⟩ ⟨s, tried ++ vs i⟩) :
    Does (Trial.upTo n body) ⟨s, tried⟩ ⟨s, tried ++ (List.range n).flatMap vs⟩ := by
  have hall : Does (Trial.upTo n body) ⟨s, tried ++ (List.range 0).flatMap vs⟩ ⟨s, tried ++ (List.range n).flatMap vs⟩ := by
    refine upTo (a := fun i => ⟨s, tried ++ (List.range i).flatMap vs⟩) fun i hi => ?_
    have hone := h i hi (tried ++ (List.range i).flatMap vs)
    rw [List.append_assoc] at hone
    rwa [List.range_succ, List.flatMap_append, List.flatMap_singleton]
  rwa [List.range_zero, List.flatMap_nil, List.append_nil] at hall

/-- **Counting, with an invariant.** -/
theorem upTo_inv {n : ℕ} {body : ℕ → Trial σ β} {vs : ℕ → List β} {I : ℕ → σ → Prop}
    (h : ∀ i < n, ∀ s tried, I i s → ∃ s', I (i + 1) s' ∧ Does (body i) ⟨s, tried⟩ ⟨s', tried ++ vs i⟩) (hs : I 0 s) :
    ∃ s', I n s' ∧ Does (Trial.upTo n body) ⟨s, tried⟩ ⟨s', tried ++ (List.range n).flatMap vs⟩ := by
  induction n with
  | zero =>
    rw [List.range_zero, List.flatMap_nil, List.append_nil]
    exact ⟨s, hs, .skip⟩
  | succ n ih =>
    obtain ⟨s₁, hs₁, hbefore⟩ := ih fun i hi => h i (Nat.lt_succ_of_lt hi)
    obtain ⟨s₂, hs₂, hlast⟩ := h n (Nat.lt_succ_self n) s₁ (tried ++ (List.range n).flatMap vs) hs₁
    rw [List.append_assoc] at hlast
    rw [List.range_succ, List.flatMap_append, List.flatMap_singleton]
    exact ⟨s₂, hs₂, hbefore.andThen hlast⟩

/-- **Lists**, where the state stays of one form. -/
theorem each_moves {υ : Type} {f : υ → σ} {l : List ι} {body : ι → Trial σ β} {vs : ι → List β}
    (h : ∀ i ∈ l, ∀ u tried, ∃ u', Does (body i) ⟨f u, tried⟩ ⟨f u', tried ++ vs i⟩) (u : υ) :
    ∃ u', Does (each body l) ⟨f u, tried⟩ ⟨f u', tried ++ l.flatMap vs⟩ := by
  induction l generalizing u tried with
  | nil =>
    rw [List.flatMap_nil, List.append_nil]
    exact ⟨u, .skip⟩
  | cons i l ih =>
    obtain ⟨u₁, hone⟩ := h i List.mem_cons_self u tried
    obtain ⟨u₂, hrest⟩ : ∃ u', Does (each body l) ⟨f u₁, tried ++ vs i⟩ ⟨f u', tried ++ vs i ++ l.flatMap vs⟩ :=
      ih (fun j hj => h j (List.mem_cons_of_mem i hj)) u₁
    rw [List.append_assoc] at hrest
    exact ⟨u₂, hone.andThen hrest⟩

/-- **Lists**, with the state restored. -/
theorem each_restores {l : List ι} {body : ι → Trial σ β} {vs : ι → List β}
    (h : ∀ i ∈ l, ∀ tried, Does (body i) ⟨s, tried⟩ ⟨s, tried ++ vs i⟩) :
    Does (each body l) ⟨s, tried⟩ ⟨s, tried ++ l.flatMap vs⟩ := by
  obtain ⟨-, hall⟩ := each_moves (f := fun _ : Unit => s) (fun i hi _ tried => ⟨(), h i hi tried⟩) ()
  exact hall

/-- If the program does not give up, it tried everything. -/
theorem ok (h : Does m a b) {c : Log σ β} (hrun : m a = .ok c) : c = b := by
  rcases h.result with hok | ⟨tried, herror, -⟩
  · exact Except.ok.inj (hrun.symm.trans hok)
  · cases hrun.symm.trans herror

end Does

/-- Some elements are left out. -/
theorem flatMap_if {p : ι → Bool} {f : ι → β} {l : List ι} :
    (l.flatMap fun v => if p v then [f v] else []) = (l.filter p).map f := by
  induction l with
  | nil => rfl
  | cons v l ih =>
    rw [List.flatMap_cons, ih, List.filter_cons]
    split <;> rfl

end SEDiff.Foundation

import SEDiff.Foundation.Schedule

/-!
# Recursive procedures

A procedure that calls itself, one call after the other, and changes a state. How often it calls itself, and on what, does
not depend on the state.

## What is proved

* `returns_of_acc` — it returns, or raises, when there is no endless chain of calls.
* `acc_of_returns` — when it never raises, it returns only then.
* `wellFounded_of_acyclic` — there is no endless chain between finitely many things none of which reaches itself.
-/

namespace SEDiff.Foundation.Recursion

variable {α τ σ ε : Type*}

/-! ### Procedures -/

/-- What a call does. -/
inductive Body (τ σ ε : Type*)
  /-- It returns at once. -/
  | leaf (f : σ → σ)
  /-- It raises. -/
  | fail (e : ε)
  /-- It calls itself, each time after a change of the state. -/
  | calls (cs : List ((σ → σ) × τ))

/-- One after the other, until one raises or does not return. -/
def each (f : α → σ → Option (Except ε σ)) : List α → σ → Option (Except ε σ)
  | [], s => some (.ok s)
  | a :: as, s =>
    match f a s with
    | some (.ok s) => each f as s
    | some (.error e) => some (.error e)
    | none => none

/-- The procedure, at most `depth` calls deep. -/
def run (body : τ → Body τ σ ε) : ℕ → τ → σ → Option (Except ε σ)
  | 0, _, _ => none
  | depth + 1, t, s =>
    match body t with
    | .leaf f => some (.ok (f s))
    | .fail e => some (.error e)
    | .calls cs => each (fun c s => run body depth c.2 (c.1 s)) cs s

/-- The call of `t` makes the call of `t'`. -/
def Child (body : τ → Body τ σ ε) (t' t : τ) : Prop := ∃ cs, body t = .calls cs ∧ ∃ c ∈ cs, c.2 = t'

/-! ### Returning -/

section

variable {f : α → σ → Option (Except ε σ)} {as : List α} {body : τ → Body τ σ ε}

theorem each_congr {g : α → σ → Option (Except ε σ)} (h : ∀ a ∈ as, ∀ s, f a s = g a s) (s : σ) :
    each f as s = each g as s := by
  induction as generalizing s with
  | nil => rfl
  | cons a as ih =>
    obtain ⟨ha, has⟩ := List.forall_mem_cons.mp h
    rw [each, each, ha s]
    cases g a s with
    | none => rfl
    | some r =>
      cases r with
      | error e => rfl
      | ok s' => exact ih has s'

theorem each_map {β : Type*} (k : β → α) (bs : List β) (s : σ) : each f (bs.map k) s = each (fun b => f (k b)) bs s := by
  induction bs generalizing s with
  | nil => rfl
  | cons b bs ih =>
    rw [List.map_cons, each, each]
    cases f (k b) s with
    | none => rfl
    | some r =>
      cases r with
      | error e => rfl
      | ok s' => exact ih s'

theorem each_singleton (a : α) (s : σ) : each f [a] s = f a s := by
  rw [each]
  cases f a s with
  | none => rfl
  | some r => cases r <;> rfl

/-- A depth that is enough for each is enough for all. -/
theorem exists_depth {Q : α → ℕ → Prop} (h : ∀ a ∈ as, ∃ n, ∀ m, n ≤ m → Q a m) : ∃ n, ∀ a ∈ as, ∀ m, n ≤ m → Q a m := by
  induction as with
  | nil => exact ⟨0, nofun⟩
  | cons a as ih =>
    obtain ⟨⟨k, hk⟩, has⟩ := List.forall_mem_cons.mp h
    obtain ⟨n, hn⟩ := ih has
    refine ⟨max n k, List.forall_mem_cons.mpr ⟨fun m hm => hk m ((le_max_right n k).trans hm), ?_⟩⟩
    exact fun a' ha' m hm => hn a' ha' m ((le_max_left n k).trans hm)

/-- When every call returns, so do all. -/
theorem each_returns (h : ∀ a ∈ as, ∀ s, ∃ r, f a s = some r) (s : σ) : ∃ r, each f as s = some r := by
  induction as generalizing s with
  | nil => exact ⟨_, rfl⟩
  | cons a as ih =>
    obtain ⟨ha, has⟩ := List.forall_mem_cons.mp h
    obtain ⟨r, hr⟩ := ha s
    rw [each, hr]
    cases r with
    | error e => exact ⟨_, rfl⟩
    | ok s' => exact ih has s'

/-- When all return and none raises, every call returned. -/
theorem returned_of_each (hok : ∀ a s r, f a s = some r → ∃ s', r = .ok s') {s : σ} {r : Except ε σ}
    (h : each f as s = some r) : (∃ s', r = .ok s') ∧ ∀ a ∈ as, ∃ s' r', f a s' = some r' := by
  induction as generalizing s with
  | nil => exact ⟨⟨s, (Option.some.inj h).symm⟩, nofun⟩
  | cons a as ih =>
    rw [each] at h
    cases ha : f a s with
    | none => rw [ha] at h; cases h
    | some ra =>
      obtain ⟨s', rfl⟩ := hok a s ra ha
      rw [ha] at h
      obtain ⟨hr, has⟩ := ih h
      exact ⟨hr, List.forall_mem_cons.mpr ⟨⟨s, _, ha⟩, has⟩⟩

/-- **Without an endless chain of calls**, the procedure returns or raises, whatever the state. -/
theorem returns_of_acc {t : τ} (h : Acc (Child body) t) : ∃ n, ∀ m, n ≤ m → ∀ s, ∃ r, run body m t s = some r := by
  induction h with
  | intro t _ ih =>
    cases hbody : body t with
    | leaf f =>
      refine ⟨1, fun m hm s => ?_⟩
      obtain ⟨m, rfl⟩ := Nat.exists_eq_add_of_le' hm
      exact ⟨.ok (f s), by rw [run, hbody]⟩
    | fail e =>
      refine ⟨1, fun m hm s => ?_⟩
      obtain ⟨m, rfl⟩ := Nat.exists_eq_add_of_le' hm
      exact ⟨.error e, by rw [run, hbody]⟩
    | calls cs =>
      -- one more than the deepest of the calls
      obtain ⟨n, hn⟩ := exists_depth fun c hc => ih c.2 ⟨cs, hbody, c, hc, rfl⟩
      refine ⟨n + 1, fun m hm s => ?_⟩
      obtain ⟨m, rfl⟩ := Nat.exists_eq_add_of_le' ((Nat.le_add_left 1 n).trans hm)
      rw [run, hbody]
      exact each_returns (fun c hc s => hn c hc m (Nat.le_of_add_le_add_right hm) (c.1 s)) s

/-- **A procedure that never raises** returns only without an endless chain of calls. -/
theorem acc_of_returns (hbody : ∀ t e, body t ≠ .fail e) {n : ℕ} {t : τ} {s : σ} {r : Except ε σ}
    (h : run body n t s = some r) : (∃ s', r = .ok s') ∧ Acc (Child body) t := by
  induction n generalizing t s r with
  | zero => cases h
  | succ n ih =>
    rw [run] at h
    cases ht : body t with
    | leaf f =>
      rw [ht] at h
      refine ⟨⟨f s, (Option.some.inj h).symm⟩, Acc.intro t ?_⟩
      rintro t' ⟨cs, hcs, -⟩
      cases ht.symm.trans hcs
    | fail e => exact absurd ht (hbody t e)
    | calls cs =>
      rw [ht] at h
      obtain ⟨hr, hall⟩ := returned_of_each (fun _ _ _ hc => (ih hc).1) h
      refine ⟨hr, Acc.intro t ?_⟩
      rintro t' ⟨cs', hcs', c, hc, rfl⟩
      obtain rfl := Body.calls.inj (ht.symm.trans hcs')
      obtain ⟨s', r', hreturns⟩ := hall c hc
      exact (ih hreturns).2

end

/-! ### Cycles -/

/-- **Finitely many things**, none of which reaches itself. -/
theorem wellFounded_of_acyclic {r : α → α → Prop} {xs : List α} (hxs : ∀ x y, r x y → y ∈ xs) (h : Acyclic r) :
    WellFounded fun y x => r x y := by
  let s : {x // x ∈ xs} → {x // x ∈ xs} → Prop := fun a b => Relation.TransGen r b.1 a.1
  have : IsTrans {x // x ∈ xs} s := ⟨fun _ _ _ hab hbc => hbc.trans hab⟩
  have : Std.Irrefl s := ⟨fun a => h a.1⟩
  have : Finite {x // x ∈ xs} := List.finite_toSet xs
  have hwf : WellFounded s := Finite.wellFounded_of_trans_of_irrefl s
  have hmem (a : {x // x ∈ xs}) : Acc (fun y x => r x y) a.1 := by
    induction a using hwf.induction with
    | _ a ih => exact Acc.intro a.1 fun y hy => ih ⟨y, hxs _ _ hy⟩ (.single hy)
  exact ⟨fun x => Acc.intro x fun y hy => hmem ⟨y, hxs _ _ hy⟩⟩

/-- What is in no endless chain does not reach itself. -/
theorem not_transGen_of_acc {r : α → α → Prop} {x : α} (h : Acc (fun y x => r x y) x) : ¬ Relation.TransGen r x x := by
  induction h with
  | intro x _ ih =>
    intro hcycle
    obtain ⟨y, hxy, hyx⟩ := Relation.TransGen.head'_iff.mp hcycle
    exact ih y hxy (Relation.TransGen.tail' hyx hxy)

end SEDiff.Foundation.Recursion

import Mathlib.Data.List.Basic
import SEDiff.Foundation.Python

/-!
# Runs of a machine

A machine takes one step for each event of a list, and may fail.

## What is proved

* `Each.inv` — what the steps keep holds at the end of a run.
* `each_iff` — two conditions on the steps are the same over a run when they are at every state that
  satisfies the invariant.
* `run_inv_some`, `run_inv` — an invariant that speaks about the events so far; the second one is for a machine whose
  failures are exceptions.
-/

namespace SEDiff.Foundation

variable {σ ε : Type*} {step : σ → ε → Option σ}

/-- Every event of the run satisfies `P` at the state before it. -/
def Each (step : σ → ε → Option σ) (P : σ → ε → Prop) : σ → List ε → Prop
  | _, [] => True
  | s, ev :: evs =>
    P s ev ∧
      match step s ev with
      | some s' => Each step P s' evs
      | none => True

theorem each_cons_some {P : σ → ε → Prop} {s s' : σ} {ev : ε} (hstep : step s ev = some s') (evs : List ε) :
    Each step P s (ev :: evs) ↔ P s ev ∧ Each step P s' evs := by
  rw [Each, hstep]

theorem each_cons_none {P : σ → ε → Prop} {s : σ} {ev : ε} (hstep : step s ev = none) (evs : List ε) :
    Each step P s (ev :: evs) ↔ P s ev := by
  rw [Each, hstep, and_true]

theorem each_singleton {P : σ → ε → Prop} {s : σ} {ev : ε} : Each step P s [ev] ↔ P s ev := by
  cases hstep : step s ev with
  | none => exact each_cons_none hstep []
  | some s' =>
    rw [each_cons_some hstep]
    exact and_iff_left trivial

/-- An invariant of the steps that satisfy `P` holds at the end of a run of them. -/
theorem Each.inv {P : σ → ε → Prop} {I : σ → Prop}
    (hkeep : ∀ s ev s', I s → P s ev → step s ev = some s' → I s') {s s' : σ} {evs : List ε} (hs : I s)
    (hP : Each step P s evs) (hrun : evs.foldlM step s = some s') : I s' := by
  induction evs generalizing s with
  | nil =>
    cases hrun
    exact hs
  | cons ev evs ih =>
    rw [List.foldlM_cons] at hrun
    cases hstep : step s ev with
    | none =>
      rw [hstep] at hrun
      cases hrun
    | some s₁ =>
      rw [hstep] at hrun
      obtain ⟨hev, hrest⟩ := (each_cons_some hstep evs).mp hP
      exact ih (hkeep s ev s₁ hs hev hstep) hrest hrun

/-- Two conditions agree over a run: they agree at the states of the invariant, and the second one
keeps it. -/
theorem each_iff {V P Q : σ → ε → Prop} {I : σ → Prop}
    (hiff : ∀ s ev, I s → V s ev → (P s ev ↔ Q s ev))
    (hkeep : ∀ s ev s', I s → V s ev → Q s ev → step s ev = some s' → I s') {s : σ} {evs : List ε} (hs : I s)
    (hV : Each step V s evs) : Each step P s evs ↔ Each step Q s evs := by
  induction evs generalizing s with
  | nil => exact Iff.rfl
  | cons ev evs ih =>
    cases hstep : step s ev with
    | none =>
      rw [each_cons_none hstep] at hV
      rw [each_cons_none hstep, each_cons_none hstep]
      exact hiff s ev hs hV
    | some s' =>
      obtain ⟨hv, hV⟩ := (each_cons_some hstep evs).mp hV
      rw [each_cons_some hstep, each_cons_some hstep, hiff s ev hs hv]
      exact and_congr_right fun hq => ih (hkeep s ev s' hs hv hq hstep) hV

/-- One event more. -/
theorem run_concat_some {s s' : σ} {evs : List ε} {ev : ε} :
    (evs ++ [ev]).foldlM step s = some s' ↔ ∃ s₁, evs.foldlM step s = some s₁ ∧ step s₁ ev = some s' := by
  rw [List.foldlM_append, Option.bind_eq_bind, Option.bind_eq_some_iff]
  simp only [List.foldlM_cons, List.foldlM_nil, Option.bind_eq_bind, Option.pure_def, Option.bind_fun_some]

/-- An invariant of the events so far and the state holds at the end of a run. -/
theorem run_inv_some {s : σ} {I : List ε → σ → Prop} (hinit : I [] s)
    (hstep : ∀ pre ev s₁ s₂, pre.foldlM step s = some s₁ → I pre s₁ → step s₁ ev = some s₂ → I (pre ++ [ev]) s₂)
    {evs : List ε} {s' : σ} (hrun : evs.foldlM step s = some s') : I evs s' := by
  induction evs using List.reverseRecOn generalizing s' with
  | nil =>
    cases hrun
    exact hinit
  | append_singleton pre ev ih =>
    obtain ⟨s₁, hpre, hev⟩ := run_concat_some.mp hrun
    exact hstep pre ev s₁ s' hpre (ih hpre) hev

/-! ### Machines that raise -/

section Except

universe u v

variable {σ δ : Type v} {ε : Type u} {step : σ → ε → Except δ σ}

/-- One event more. -/
theorem run_concat {s s' : σ} {evs : List ε} {ev : ε} :
    (evs ++ [ev]).foldlM step s = .ok s' ↔ ∃ s₁, evs.foldlM step s = .ok s₁ ∧ step s₁ ev = .ok s' := by
  rw [List.foldlM_append, bind_eq_ok]
  simp only [List.foldlM_cons, List.foldlM_nil, bind_pure]

/-- A run gets through its first part. -/
theorem run_append {s s' : σ} {evs evs' : List ε} :
    (evs ++ evs').foldlM step s = .ok s' ↔ ∃ s₁, evs.foldlM step s = .ok s₁ ∧ evs'.foldlM step s₁ = .ok s' := by
  rw [List.foldlM_append, bind_eq_ok]

/-- Where a run raises. -/
theorem run_error {s : σ} {evs : List ε} {error : δ} (h : evs.foldlM step s = .error error) :
    ∃ pre ev post s₁, evs = pre ++ ev :: post ∧ pre.foldlM step s = .ok s₁ ∧ step s₁ ev = .error error := by
  induction evs generalizing s with
  | nil => cases h
  | cons ev evs ih =>
    rw [List.foldlM_cons] at h
    cases hstep : step s ev with
    | error e =>
      rw [hstep] at h
      cases h
      exact ⟨[], ev, evs, s, rfl, rfl, hstep⟩
    | ok s' =>
      rw [hstep] at h
      obtain ⟨pre, ev', post, s₁, rfl, hpre, hev'⟩ := ih h
      refine ⟨ev :: pre, ev', post, s₁, rfl, ?_, hev'⟩
      rw [List.foldlM_cons, hstep]
      exact hpre

/-- An invariant of the events so far and the state holds at the end of a run. -/
theorem run_inv {s : σ} {I : List ε → σ → Prop} (hinit : I [] s) {evs : List ε}
    (hstep : ∀ pre ev post s₁ s₂, evs = pre ++ ev :: post → pre.foldlM step s = .ok s₁ → I pre s₁ →
      step s₁ ev = .ok s₂ → I (pre ++ [ev]) s₂)
    {s' : σ} (hrun : evs.foldlM step s = .ok s') : I evs s' := by
  -- by induction from the end: the last event is the one that is not in the prefix
  induction evs using List.reverseRecOn generalizing s' with
  | nil =>
    cases hrun
    exact hinit
  | append_singleton pre ev ih =>
    obtain ⟨s₁, hpre, hev⟩ := run_concat.mp hrun
    have hI : I pre s₁ := ih (fun pre' ev' post s₁ s₂ heq => hstep pre' ev' (post ++ [ev]) s₁ s₂ (by simp [heq])) hpre
    exact hstep pre ev [] s₁ s' rfl hpre hI hev

end Except

end SEDiff.Foundation

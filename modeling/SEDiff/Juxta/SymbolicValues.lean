import Mathlib.Tactic.IntervalCases
import SEDiff.Juxta.GraphOrder

/-!
# Symbolic values

`substitute` records what it returns when every variable of the expression has a value, whatever these
values mention.

## What is proved

* `substitute_vars` — the variables of an expression without copies are those of the values.
* `Resolve.SourceInv.step` — a step that is safe keeps the values in terms of the sources.
* `symbolicValue_sources` — the symbolic values of a run of safe steps mention only the sources.
* `variable2RValue_lists_iff` — every value in the table is a list until a cycle is broken at a variable
  that has no expression.
-/

namespace SEDiff.Juxta

open Foundation Term

/-! ### Evaluating an expression -/

section

variable {table : Table}

/-- A call of `substitute` that returns has found no value that is not in a list. -/
theorem listed_of_ok {os : List (Path × Var)} {u u' : Unfolding} (hint : Intact u.expr os)
    (hu' : os.foldlM (unfoldVar table) u = .ok u') : ∀ o ∈ os, Listed table o.2 := by
  induction os generalizing u with
  | nil => exact fun o ho => absurd ho List.not_mem_nil
  | cons o os ih =>
    obtain ⟨u₁, hu₁, hu'⟩ := bind_eq_ok.mp hu'
    have hlist : Listed table o.2 := by
      intro t ht
      have hat : nodeAt u.expr o.1 = .var o.2 := by
        rw [nodeAt, hint.1 o List.mem_cons_self]
        rfl
      have hget : table.get? (nodeAt u.expr o.1).str = some (.bare t) := by
        rw [hat]
        exact ht
      rw [unfoldVar, hget] at hu₁
      cases hu₁
    obtain ⟨val, vals, -, u₂, hu₂, hrep, -⟩ := substitute_step (hint.1 o List.mem_cons_self) hlist
    obtain rfl : u₂ = u₁ := Except.ok.inj (hu₂.symm.trans hu₁)
    intro o' ho'
    cases List.mem_cons.mp ho' with
    | inl h => exact h ▸ hlist
    | inr h => exact ih (hint.step hrep) hu' o' h

theorem listed_of_substitute {expr : Term} {u : Unfolding} (hu : substitute table expr = .ok u) :
    ∀ v ∈ expr.visible, Listed table v := by
  intro v hv
  obtain ⟨o, ho, rfl⟩ := List.mem_map.mp (((occs_spec expr).2.2 v).mpr hv)
  exact listed_of_ok (u := ⟨expr, [], false⟩) (intact_occs expr) hu o ho

/-- What the variables of a call that returns keep, one after the other. -/
theorem substitute_inv {P : Unfolding → List (Path × Var) → Prop} {expr : Term} {u : Unfolding}
    (hu : substitute table expr = .ok u) (hstart : P ⟨expr, [], false⟩ expr.occs)
    (hstep : ∀ u o os val vals u', o.2 ∈ expr.visible → node o.1 u.expr = some (.var o.2) →
      rvalues table o.2 = val :: vals → Replaced o val vals u u' →
      (u'.hasUnresolved = true ↔ u.hasUnresolved = true ∨ ¬ Resolved table o.2) → P u (o :: os) → P u' os) :
    P u [] := by
  have hocc : ∀ o ∈ expr.occs, o.2 ∈ expr.visible := fun o ho =>
    ((occs_spec expr).2.2 o.2).mp (List.mem_map_of_mem ho)
  have hlist := listed_of_substitute hu
  obtain ⟨u₁, hu₁, -, hP⟩ := @foldlM_unfoldVar table
    (fun u os => (∀ o ∈ os, o.2 ∈ expr.visible) ∧ P u os) (fun u o os hint hP u' hu' => by
      obtain ⟨hos, hP⟩ := hP
      have hov := hos o List.mem_cons_self
      obtain ⟨val, vals, hvals, u₁, hu₁, hrep, hun⟩ := substitute_step (hint.1 o List.mem_cons_self) (hlist o.2 hov)
      obtain rfl : u₁ = u' := Except.ok.inj (hu₁.symm.trans hu')
      exact ⟨fun o' ho' => hos o' (List.mem_cons_of_mem _ ho'),
        hstep u o os val vals u₁ hov (hint.1 o List.mem_cons_self) hvals hrep hun hP⟩)
    expr.occs ⟨expr, [], false⟩ (intact_occs expr) (fun o ho => hlist o.2 (hocc o ho)) ⟨hocc, hstart⟩
  obtain rfl : u₁ = u := Except.ok.inj (hu₁.symm.trans hu)
  exact hP

/-- `hasUnresolved`: some variable has no value. -/
theorem hasUnresolved_iff {expr : Term} {u : Unfolding} (hu : substitute table expr = .ok u) :
    u.hasUnresolved = true ↔ ∃ v ∈ expr.visible, ¬ Resolved table v := by
  have hinv := substitute_inv (P := fun u os => u.hasUnresolved = true ∨ (∃ o ∈ os, ¬ Resolved table o.2) ↔
    ∃ v ∈ expr.visible, ¬ Resolved table v) hu ?_ ?_
  · simpa using hinv
  · constructor
    · rintro (h | ⟨o, ho, hr⟩)
      · exact absurd h Bool.false_ne_true
      · exact ⟨o.2, ((occs_spec expr).2.2 o.2).mp (List.mem_map_of_mem ho), hr⟩
    · rintro ⟨v, hv, hr⟩
      obtain ⟨o, ho, rfl⟩ := List.mem_map.mp (((occs_spec expr).2.2 v).mpr hv)
      exact .inr ⟨o, ho, hr⟩
  · intro u o os val vals u' _ _ _ _ hun hP
    rw [hun, ← hP]
    simp only [List.mem_cons, exists_eq_or_imp]
    tauto

/-- Without copies there were none before, and the variable has one value. -/
theorem Replaced.copies_eq_nil {o : Path × Var} {val : Term} {vals : List Term} {u u' : Unfolding}
    (h : Replaced o val vals u u') (hcopies : u'.copies = []) : u.copies = [] ∧ vals = [] := by
  have hlen := h.copies.length_eq
  rw [hcopies, List.length_append, List.length_map, List.length_nil] at hlen
  refine ⟨List.length_eq_zero_iff.mp (by omega), ?_⟩
  cases vals with
  | nil => rfl
  | cons b vals =>
    rw [List.flatMap_cons, List.length_append, List.length_map, Unfolding.result, List.length_cons] at hlen
    omega

/-- **The variables of the result**: when there are no copies, each is a variable of a value. -/
theorem substitute_vars {Q : Var → Prop} {expr : Term} {u : Unfolding} (hu : substitute table expr = .ok u)
    (hidden : expr.hidden = [])
    (hvals : ∀ v ∈ expr.visible, ∀ a, rvalues table v = [a] → ∀ x ∈ a.vars, Q x) (hcopies : u.copies = []) :
    ∀ x ∈ u.expr.vars, Q x := by
  have hinv := substitute_inv (P := fun u os => u.copies = [] →
    (∀ x ∈ u.expr.visible, x ∈ os.map Prod.snd ∨ Q x) ∧ ∀ x ∈ u.expr.hidden, Q x) hu ?_ ?_
  · obtain ⟨hvis, hhid⟩ := hinv hcopies
    intro x hx
    cases mem_vars_iff.mp hx with
    | inl hx => exact (hvis x hx).resolve_left List.not_mem_nil
    | inr hx => exact hhid x hx
  · refine fun _ => ⟨fun x hx => .inl (((occs_spec expr).2.2 x).mpr hx), fun x hx => ?_⟩
    rw [hidden] at hx
    exact absurd hx List.not_mem_nil
  · intro u o os val vals u' hov hnode hvals' hrep _ hP hcopies'
    obtain ⟨hcopies, rfl⟩ := hrep.copies_eq_nil hcopies'
    obtain ⟨hvis, hhid⟩ := hP hcopies
    have hval := hvals o.2 hov val hvals'
    rw [hrep.single hnode]
    refine ⟨fun x hx => ?_, fun x hx => ?_⟩
    · rcases mem_visible_substitute hx with ⟨hx, hne⟩ | hx
      · refine (hvis x hx).imp_left fun hm => ?_
        rw [List.map_cons, List.mem_cons] at hm
        exact hm.resolve_left hne
      · exact .inr (hval x (mem_vars_iff.mpr (.inl hx)))
    · rcases mem_hidden_substitute hx with hx | hx
      · exact hhid x hx
      · exact hval x (mem_vars_iff.mpr (.inr hx))

end

/-! ### The steps -/

/-- The variable of `tmp`. -/
def tmpVar : Var := ⟨"tmp".toList, ['A'], false⟩

/-- The variables that stand for the sources. -/
def IsPlaceholder (sources : ℕ) (x : Var) : Prop := ∃ i < sources, x = SE.placeholder i

/-- What `substitute` takes for granted of an expression: no variable in the terms of a `let`; and if
all variables have values, one value each, in which there is no `tmp`. -/
structure RegularExpr (table : Table) (e : Term) : Prop where
  /-- Nothing is hidden. -/
  hidden : e.hidden = []
  /-- One value each. -/
  single : (∀ v ∈ e.visible, Resolved table v) →
    ∀ v ∈ e.visible, ∃ a, table.get? v.name = some (.list [a]) ∧ tmpVar ∉ a.vars

namespace Resolve

/-- The expression that is evaluated next, if there is one, is regular. -/
def Safe (c : Resolve) : Prop :=
  ∀ var e exprs rest, c.phase = .eval var (e :: exprs) rest → RegularExpr c.se.variable2RValue e

/-- What the values are in terms of. -/
structure SourceInv (sources : ℕ) (c : Resolve) : Prop where
  /-- The symbolic values mention only sources. -/
  recorded : ∀ t ∈ c.se.symbolicValue, ∀ x ∈ t.vars, IsPlaceholder sources x
  /-- The value of a variable that has one mentions only sources and `tmp`. -/
  values : ∀ k a, c.se.variable2RValue.get? k = some (.list [a]) → ∀ x ∈ a.vars, IsPlaceholder sources x ∨ x = tmpVar

theorem sourceInv_begin {se : SE} (h : se.Prepared) : SourceInv se.sources.length (begin se) := by
  refine ⟨fun t ht => ?_, fun k a hget x hx => ?_⟩
  · exact absurd (h.symbolicValue ▸ ht : t ∈ []) List.not_mem_nil
  · obtain ⟨-, i, hi, hr⟩ := h.values k _ hget
    obtain rfl : a = .var (SE.placeholder i) := by simpa using hr
    exact .inl ⟨i, hi, by simpa [vars] using hx⟩

variable {sources : ℕ} {c c' : Resolve}

/-- The values that `substitute` puts for a variable. -/
theorem SourceInv.rvalues (h : SourceInv sources c) {v : Var} {a : Term}
    (ha : rvalues c.se.variable2RValue v = [a]) : ∀ x ∈ a.vars, IsPlaceholder sources x ∨ x = tmpVar := by
  have htmp : a = tmp → ∀ x ∈ a.vars, IsPlaceholder sources x ∨ x = tmpVar := by
    rintro rfl x hx
    exact .inr (by simpa [tmp, tmpVar, vars] using hx)
  unfold Juxta.rvalues at ha
  split at ha
  next val vals hget => exact h.values v.name a (hget.trans (by rw [ha]))
  next => exact htmp (List.singleton_inj.mp ha).symm

/-- **One evaluation**: the results, when they are recorded, and the only one, when there is one. -/
theorem SourceInv.substitute (h : SourceInv sources c) {e : Term} {u : Unfolding}
    (hreg : RegularExpr c.se.variable2RValue e) (hu : Juxta.substitute c.se.variable2RValue e = .ok u) :
    (u.hasUnresolved = false → ∀ t ∈ u.result, ∀ x ∈ t.vars, IsPlaceholder sources x) ∧
      (u.copies = [] → ∀ x ∈ u.expr.vars, IsPlaceholder sources x ∨ x = tmpVar) := by
  refine ⟨fun hres => ?_, substitute_vars hu hreg.hidden fun v _ a ha => h.rvalues ha⟩
  have hall : ∀ v ∈ e.visible, Resolved c.se.variable2RValue v := by
    by_contra hne
    push Not at hne
    exact Bool.eq_false_iff.mp hres ((hasUnresolved_iff hu).mpr hne)
  have hsingle := hreg.single hall
  have hone : ∀ v ∈ e.visible, ∃ a, Juxta.rvalues c.se.variable2RValue v = [a] ∧
      ∀ x ∈ a.vars, IsPlaceholder sources x := by
    intro v hv
    obtain ⟨a, hget, htmp⟩ := hsingle v hv
    refine ⟨a, by rw [Juxta.rvalues, hget], fun x hx => ?_⟩
    exact (h.values v.name a hget x hx).resolve_right fun heq => htmp (heq ▸ hx)
  obtain ⟨u', hu', hresult, -⟩ := substitute_single (listed_of_substitute hu) fun v hv => by
    obtain ⟨a, ha, -⟩ := hone v hv
    rw [ha]
    rfl
  obtain rfl : u' = u := Except.ok.inj (hu'.symm.trans hu)
  have hcopies : u'.copies = [] := (List.cons.inj hresult).2
  intro t ht
  rw [Unfolding.result, hcopies, List.mem_singleton] at ht
  subst ht
  refine substitute_vars hu hreg.hidden (fun v hv a ha => ?_) hcopies
  obtain ⟨b, hb, hvars⟩ := hone v hv
  obtain rfl : b = a := List.singleton_inj.mp (hb.symm.trans ha)
  exact hvars

/-- A table in which no variable gets a single value. -/
theorem SourceInv.of_table (h : SourceInv sources c) (hrecorded : c'.se.symbolicValue = c.se.symbolicValue)
    (hvalues : ∀ k a, c'.se.variable2RValue.get? k = some (.list [a]) →
      c.se.variable2RValue.get? k = some (.list [a])) : SourceInv sources c' :=
  ⟨hrecorded ▸ h.recorded, fun k a hget => h.values k a (hvalues k a hget)⟩

theorem get?_put_of_list {table : Table} {var k : Str} {r : RValue} {a : Term} (hr : r ≠ .list [a])
    (hget : (table.put var r).get? k = some (.list [a])) : table.get? k = some (.list [a]) := by
  by_cases hk : k = var
  · subst hk
    exact absurd (Option.some_inj.mp ((Dict.get?_put_self _ _ _).symm.trans hget)) hr
  · exact (Dict.get?_put_of_ne _ _ hk).symm.trans hget

theorem get?_ensureRValue {s : SE} {var k : Str} {a : Term}
    (hget : (s.ensureRValue var).variable2RValue.get? k = some (.list [a])) :
    s.variable2RValue.get? k = some (.list [a]) := by
  unfold SE.ensureRValue at hget
  split at hget
  · exact get?_put_of_list (by simp) hget
  · exact hget

theorem symbolicValue_ensureRValue (s : SE) (var : Str) :
    (s.ensureRValue var).symbolicValue = s.symbolicValue := by
  unfold SE.ensureRValue
  split <;> rfl

/-- **A safe step** keeps the values in terms of the sources. -/
theorem SourceInv.step (h : SourceInv sources c) (hsafe : Safe c) (hstep : StepTo c c') : SourceInv sources c' := by
  cases hstep with
  | skip _ _ => exact h.of_table rfl fun _ _ hget => hget
  | visit hphase hdone hready =>
    unfold visit
    split
    · exact h.of_table (symbolicValue_ensureRValue _ _) fun _ _ hget => get?_ensureRValue hget
    · exact h.of_table rfl fun _ _ hget => hget
  | @evaluate var e exprs rest u se hphase hu hse =>
    obtain ⟨hrecorded, honly⟩ := h.substitute (hsafe var e exprs rest hphase) hu
    unfold SE.record at hse
    split at hse
    next vals hvals =>
      cases hse
      refine ⟨fun t ht => ?_, fun k a hget => ?_⟩
      · dsimp only at ht
        split at ht
        next hun => exact h.recorded t ht
        next hun =>
          cases List.mem_append.mp ht with
          | inl ht => exact h.recorded t ht
          | inr ht => exact hrecorded (Bool.eq_false_iff.mpr hun) t ht
      · by_cases hk : k = var
        · subst hk
          have heq : vals ++ u.result = [a] :=
            RValue.list.inj (Option.some_inj.mp ((Dict.get?_put_self _ _ _).symm.trans hget))
          cases vals with
          | nil =>
            obtain ⟨rfl, hcopies⟩ := List.cons.inj heq
            exact honly hcopies
          | cons b vals => exact absurd (List.cons.inj heq).2 (by simp [Unfolding.result])
        · exact h.values k a ((Dict.get?_put_of_ne _ _ hk).symm.trans hget)
    next => cases hse
    next => cases hse
  | evaluated _ => exact h.of_table rfl fun _ _ hget => hget
  | again _ => exact h.of_table rfl fun _ _ hget => hget
  | finish _ _ => exact h.of_table rfl fun _ _ hget => hget
  | fallback hphase hvar hdone =>
    unfold fallback
    refine h.of_table ?_ fun k a hget => ?_
    · dsimp only
      split
      · exact symbolicValue_ensureRValue _ _
      · rfl
    · dsimp only at hget
      split at hget
      · exact get?_ensureRValue hget
      · exact get?_put_of_list (by simp) hget
  | finished _ => exact h

/-- A run of safe steps. -/
theorem SourceInv.run {n : ℕ} (h : SourceInv sources c) (hrun : run n c = .ok c')
    (hsafe : ∀ m < n, ∀ d, run m c = .ok d → Safe d) : SourceInv sources c' := by
  induction n generalizing c with
  | zero =>
    cases hrun
    exact h
  | succ n ih =>
    obtain ⟨c₁, hstep, hrun⟩ := bind_eq_ok.mp hrun
    refine ih (h.step (hsafe 0 n.succ_pos c rfl) (step_to hstep)) hrun fun m hm d hd => ?_
    exact hsafe (m + 1) (Nat.succ_lt_succ hm) d (bind_eq_ok.mpr ⟨c₁, hstep, hd⟩)

end Resolve

/-! ### A script -/

open Resolve

/-- **The symbolic values of a script** mention only the placeholders of its sources, in a run whose
evaluations are of regular expressions. -/
theorem symbolicValue_sources {script : List Term} {c₀ c : Resolve} {n : ℕ} (hstart : start script = .ok c₀)
    (hrun : run n c₀ = .ok c) (hsafe : ∀ m < n, ∀ d, run m c₀ = .ok d → Resolve.Safe d) :
    ∀ t ∈ c.se.symbolicValue, ∀ x ∈ t.vars, IsPlaceholder c₀.se.sources.length x := by
  obtain ⟨se, hse, hbegin⟩ := bind_eq_ok.mp hstart
  cases hbegin
  exact (((sourceInv_begin (SE.prepared hse)).run hrun hsafe)).recorded

/-- `(= y (f x_POST_))`. -/
theorem symbolicValue_sources_call :
    ∃ c₀ c, start [opTerm ['='] [.var (intVar ['y']), opTerm ['f'] [.var (intVar "x_POST_".toList)]]] = .ok c₀ ∧
      run 8 c₀ = .ok c ∧ c.se.symbolicValue ≠ [] ∧
      ∀ t ∈ c.se.symbolicValue, ∀ x ∈ t.vars, IsPlaceholder c₀.se.sources.length x := by
  refine ⟨_, _, rfl, rfl, List.cons_ne_nil _ _, ?_⟩
  refine @symbolicValue_sources [opTerm ['='] [.var (intVar ['y']), opTerm ['f'] [.var (intVar "x_POST_".toList)]]]
    _ _ 8 rfl rfl fun m hm d hd var e exprs rest hphase => ?_
  by_cases hm2 : m = 2
  · -- the third step evaluates the call, whose argument is the source
    subst hm2
    obtain rfl := Except.ok.inj (hd : Except.ok _ = Except.ok d)
    cases hphase
    refine ⟨rfl, fun _ v hv => ?_⟩
    obtain rfl : v = intVar "x_POST_".toList := List.mem_singleton.mp hv
    exact ⟨.var (SE.placeholder 0), rfl, by decide⟩
  · interval_cases m
    all_goals first
      | exact absurd rfl hm2
      | obtain rfl := Except.ok.inj (hd : Except.ok _ = Except.ok d)
        exact nomatch hphase

/-- `(= y (f x))` and `(= z (g y))`: the value of `y` has `tmp` in it, and that of `z` is recorded. -/
theorem not_symbolicValue_sources : ¬ ∀ (script : List Term) (c₀ c : Resolve) (n : ℕ), start script = .ok c₀ →
    run n c₀ = .ok c → c.phase = .finished →
      ∀ t ∈ c.se.symbolicValue, ∀ x ∈ t.vars, IsPlaceholder c₀.se.sources.length x := by
  intro h
  have htmp := h [opTerm ['='] [.var (intVar ['y']), opTerm ['f'] [.var (intVar ['x'])]],
    opTerm ['='] [.var (intVar ['z']), opTerm ['g'] [.var (intVar ['y'])]]] _ _ 12 rfl rfl rfl _ (.head _) tmpVar
    (.head _)
  obtain ⟨i, hi, -⟩ := htmp
  exact absurd hi (Nat.not_lt_zero i)

/-! ### Lists -/

namespace Resolve

/-- Every value in the table is a list, so that `substitute` returns. -/
structure Lists (c : Resolve) : Prop where
  /-- No value is a bare variable. -/
  list : ∀ k r, c.se.variable2RValue.get? k = some r → ∃ vals, r = .list vals
  /-- Every expression can be evaluated. -/
  returns : ∀ e, ∃ u, Juxta.substitute c.se.variable2RValue e = .ok u

/-- The next step breaks a cycle at a variable that has no expression. -/
def BreaksUndefined (c : Resolve) : Prop :=
  c.phase = .scan [] false ∧
    ∃ var, c.se.graph.keys.find? (· ∉ c.doneVariables) = some var ∧ c.se.variable2Expr.get? var = none

variable {c c' : Resolve}

/-- Where every value is a list, `substitute` returns. -/
theorem lists_of_list (h : ∀ k r, c.se.variable2RValue.get? k = some r → ∃ vals, r = .list vals) : Lists c := by
  refine ⟨h, fun e => ?_⟩
  obtain ⟨u, hu, -⟩ := @substitute_hidden c.se.variable2RValue e fun v _ t ht => by
    obtain ⟨vals, hvals⟩ := h v.name _ ht
    exact nomatch hvals
  exact ⟨u, hu⟩

theorem lists_begin {se : SE} (h : se.Prepared) : Lists (begin se) := by
  refine lists_of_list fun k r hr => ?_
  obtain ⟨-, i, -, hr⟩ := h.values k r hr
  exact ⟨_, hr⟩

/-- One more list in the table. -/
theorem Lists.put (h : Lists c) {k var : Str} {vals : List Term} {r : RValue}
    (hr : Dict.get? (c.se.variable2RValue.put var (.list vals)) k = some r) : ∃ vals, r = .list vals := by
  by_cases hk : k = var
  · subst hk
    exact ⟨vals, (Option.some_inj.mp ((Dict.get?_put_self _ _ _).symm.trans hr)).symm⟩
  · exact h.list k r ((Dict.get?_put_of_ne _ _ hk).symm.trans hr)

theorem Lists.ensureRValue (h : Lists c) {k var : Str} {r : RValue}
    (hr : (c.se.ensureRValue var).variable2RValue.get? k = some r) : ∃ vals, r = .list vals := by
  unfold SE.ensureRValue at hr
  split at hr
  · exact h.put hr
  · exact h.list k r hr

/-- The step that breaks a cycle. -/
theorem step_fallback (hphase : c.phase = .scan [] false) {var : Str}
    (hfind : c.se.graph.keys.find? (· ∉ c.doneVariables) = some var) : c.step = .ok (c.fallback var) := by
  rw [Resolve.step, hphase]
  dsimp only
  rw [hfind]

/-- A step keeps the lists, unless it breaks a cycle at a variable without expressions. -/
theorem Lists.step (h : Lists c) (hbreaks : ¬ BreaksUndefined c) (hstep : c.step = .ok c') : Lists c' := by
  refine lists_of_list fun k r hr => ?_
  cases step_to hstep with
  | skip _ _ => exact h.list k r hr
  | visit hphase hdone hready =>
    unfold visit at hr
    split at hr
    · exact h.ensureRValue hr
    · exact h.list k r hr
  | @evaluate var e exprs rest u se hphase hu hse =>
    unfold SE.record at hse
    split at hse
    · cases hse
      exact h.put hr
    · cases hse
    · cases hse
  | evaluated _ => exact h.list k r hr
  | again _ => exact h.list k r hr
  | finish _ _ => exact h.list k r hr
  | @fallback var hphase hvar hdone =>
    obtain ⟨var', hfind⟩ : ∃ var', c.se.graph.keys.find? (· ∉ c.doneVariables) = some var' := by
      rw [← Option.isSome_iff_exists, List.find?_isSome]
      exact ⟨var, hvar, decide_eq_true hdone⟩
    have heq : c.fallback var' = c.fallback var := Except.ok.inj ((step_fallback hphase hfind).symm.trans hstep)
    rw [← heq, Resolve.fallback, if_pos fun hnone => hbreaks ⟨hphase, var', hfind, hnone⟩] at hr
    exact h.ensureRValue hr
  | finished _ => exact h.list k r hr

/-- Breaking a cycle at a variable without expressions leaves a bare variable. -/
theorem BreaksUndefined.not_lists (h : BreaksUndefined c) : ∃ c', c.step = .ok c' ∧ ¬ Lists c' := by
  obtain ⟨hphase, var, hfind, hnone⟩ := h
  refine ⟨_, step_fallback hphase hfind, fun hlists => ?_⟩
  have hget : (c.fallback var).se.variable2RValue.get? var = some (.bare (.var ⟨var, ['A'], false⟩)) := by
    rw [Resolve.fallback, if_neg (not_not.mpr hnone)]
    exact Dict.get?_put_self _ _ _
  obtain ⟨vals, hvals⟩ := hlists.list var _ hget
  exact nomatch hvals

end Resolve

/-- **Every value is a list**, and `substitute` returns, in exactly the runs that break no cycle at a
variable that has no expression. -/
theorem variable2RValue_lists_iff {vars : List Var} {equalOperations : List Term} {se : SE}
    (hprepare : SE.prepare vars equalOperations = .ok se) (n : ℕ) :
    (∀ m ≤ n, ∀ d, run m (begin se) = .ok d → Lists d) ↔
      ∀ m < n, ∀ d, run m (begin se) = .ok d → ¬ BreaksUndefined d := by
  have hsucc : ∀ {m : ℕ} {d d' : Resolve}, run m (begin se) = .ok d → d.step = .ok d' →
      run (m + 1) (begin se) = .ok d' := fun hd hd' => by
    rw [run_add, hd, ok_bind]
    exact bind_eq_ok.mpr ⟨_, hd', rfl⟩
  constructor
  · intro h m hm d hd hbreaks
    obtain ⟨d', hd', hnot⟩ := hbreaks.not_lists
    exact hnot (h (m + 1) hm d' (hsucc hd hd'))
  · intro h m
    induction m with
    | zero =>
      intro _ d hd
      cases hd
      exact lists_begin (SE.prepared hprepare)
    | succ m ih =>
      intro hm d' hd'
      rw [run_add] at hd'
      obtain ⟨d, hd, hd'⟩ := bind_eq_ok.mp hd'
      obtain ⟨d₁, hd₁, hd'⟩ := bind_eq_ok.mp hd'
      cases hd'
      exact (ih (Nat.le_of_succ_le hm) d hd).step (h m hm d hd) hd₁

/-- `(= y (h x))` and `(= x (g y s_POST_))`: the cycle is broken at `x`, which has an expression, and the run comes to its
end. -/
theorem variable2RValue_lists_cycle :
    ∃ se, SE.prepare [intVar ['y'], intVar ['x'], intVar "s_POST_".toList]
        [opTerm ['='] [.var (intVar ['y']), opTerm ['h'] [.var (intVar ['x'])]],
          opTerm ['='] [.var (intVar ['x']), opTerm ['g'] [.var (intVar ['y']), .var (intVar "s_POST_".toList)]]] = .ok se ∧
      (∃ d, run 14 (begin se) = .ok d ∧ d.phase = .finished) ∧ ∀ m ≤ 14, ∀ d, run m (begin se) = .ok d → Lists d := by
  refine ⟨_, rfl, ⟨_, rfl, rfl⟩, (@variable2RValue_lists_iff [intVar ['y'], intVar ['x'], intVar "s_POST_".toList]
    [opTerm ['='] [.var (intVar ['y']), opTerm ['h'] [.var (intVar ['x'])]],
      opTerm ['='] [.var (intVar ['x']), opTerm ['g'] [.var (intVar ['y']), .var (intVar "s_POST_".toList)]]] _ rfl 14).mpr ?_⟩
  rintro m hm d hd ⟨hphase, var, hfind, hnone⟩
  interval_cases m <;> cases hd <;> cases hphase
  · -- every variable has been seen in vain: `x` is taken
    obtain rfl := Option.some.inj (show some _ = some var from hfind)
    exact absurd hnone (by decide)
  · -- every variable is done
    cases hfind

/-- `(= y (h x))` and `(= (f y) (g x))`: the cycle is broken at `x`, and `y` is evaluated after it. -/
theorem not_variable2RValue_lists : ¬ ∀ (vars : List Var) (equalOperations : List Term) (se : SE),
    SE.prepare vars equalOperations = .ok se → ∀ n c, run n (begin se) = .ok c → Lists c := by
  intro h
  have hlists := h [intVar ['y'], intVar ['x']]
    [opTerm ['='] [.var (intVar ['y']), opTerm ['h'] [.var (intVar ['x'])]],
      opTerm ['='] [opTerm ['f'] [.var (intVar ['y'])], opTerm ['g'] [.var (intVar ['x'])]]] _ rfl 3 _ rfl
  obtain ⟨vals, hvals⟩ := hlists.list ['x'] _ rfl
  exact nomatch hvals

end SEDiff.Juxta

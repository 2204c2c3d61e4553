import SEDiff.Foundation.Schedule
import SEDiff.Juxta.DataFlow

/-!
# The order in which variables are resolved

## What is proved

* `SE.prepared` — the graph has an edge from every variable that `find_all_var` finds in an expression
  of a variable to that variable.
* `Resolve.step_takes` — `resolveGraph` schedules the variables by the edges of the graph.
* `Resolve.halts` — it terminates, when `substitute` returns.
* `resolveGraph_order` — it computes an order that respects the dependencies.
-/

namespace SEDiff.Juxta

open Foundation

/-! ### The graph -/

namespace Graph

theorem mem_keys_ensure {g : Graph} {k k' : Str} : k' ∈ (ensure g k).keys ↔ k' ∈ g.keys ∨ k' = k := by
  unfold ensure
  by_cases h : g.get? k = none
  · rw [if_pos h, Dict.mem_keys_put]
  · rw [if_neg h]
    exact ⟨.inl, fun hk => hk.elim id fun heq => heq ▸ Dict.get?_ne_none.mp h⟩

theorem node_put_self (g : Graph) (k : Str) (n : GNode) : node (g.put k n) k = n := by
  rw [node, Dict.get?_put_self]
  rfl

theorem node_put_of_ne (g : Graph) {k k' : Str} (n : GNode) (h : k' ≠ k) : node (g.put k n) k' = node g k' := by
  rw [node, node, Dict.get?_put_of_ne g n h]

/-- A fresh node has no edges. -/
theorem node_ensure (g : Graph) (k k' : Str) : node (ensure g k) k' = node g k' := by
  unfold ensure
  by_cases h : g.get? k = none
  · rw [if_pos h]
    by_cases hk : k' = k
    · subst hk
      rw [node_put_self, node, h]
      rfl
    · rw [node_put_of_ne g _ hk]
  · rw [if_neg h]

theorem mem_insertNew {xs : List Str} {x y : Str} : y ∈ insertNew xs x ↔ y ∈ xs ∨ y = x := by
  unfold insertNew
  by_cases h : x ∈ xs
  · rw [if_pos h]
    exact ⟨.inl, fun hy => hy.elim id fun heq => heq ▸ h⟩
  · rw [if_neg h, List.mem_append, List.mem_singleton]

/-- The variables after an edge. -/
theorem mem_keys_link {g : Graph} {v0 v1 k : Str} :
    k ∈ (link g v0 v1).keys ↔ k ∈ g.keys ∨ k = v0 ∨ k = v1 := by
  rw [link, Dict.mem_keys_put, Dict.mem_keys_put, mem_keys_ensure, mem_keys_ensure]
  tauto

/-- The edges after an edge. -/
theorem mem_ine_link {g : Graph} {v0 v1 k x : Str} :
    x ∈ (node (link g v0 v1) k).ine ↔ x ∈ (node g k).ine ∨ (k = v1 ∧ x = v0) := by
  have hput : ∀ (g : Graph) (k' : Str), (node (g.put v0 { node g v0 with out := insertNew (node g v0).out v1 }) k').ine =
      (node g k').ine := by
    intro g k'
    by_cases h : k' = v0
    · subst h
      rw [node_put_self]
    · rw [node_put_of_ne g _ h]
  rw [link]
  by_cases h : k = v1
  · subst h
    rw [node_put_self, mem_insertNew, hput, node_ensure, node_ensure]
    tauto
  · rw [node_put_of_ne _ _ h, hput, node_ensure, node_ensure]
    tauto

/-- The variables that flow into `k`. -/
def inputs (g : Graph) (k : Str) : List Str := (node g k).ine

/-- Every variable that flows into another one is in the graph. -/
def Closed (g : Graph) : Prop := ∀ k, ∀ x ∈ inputs g k, x ∈ g.keys

theorem Closed.link {g : Graph} (h : Closed g) (v0 v1 : Str) : Closed (link g v0 v1) := by
  intro k x hx
  rw [mem_keys_link]
  rcases mem_ine_link.mp hx with hx | ⟨rfl, rfl⟩
  · exact .inl (h k x hx)
  · exact .inr (.inl rfl)

/-- A graph with more edges. -/
structure Extends (g g' : Graph) : Prop where
  /-- Edges stay. -/
  inputs : ∀ k, inputs g k ⊆ inputs g' k
  /-- It stays closed. -/
  closed : Closed g → Closed g'

theorem Extends.refl (g : Graph) : Extends g g := ⟨fun _ _ h => h, id⟩

theorem Extends.trans {g₁ g₂ g₃ : Graph} (h₁₂ : Extends g₁ g₂) (h₂₃ : Extends g₂ g₃) : Extends g₁ g₃ :=
  ⟨fun k => List.Subset.trans (h₁₂.inputs k) (h₂₃.inputs k), fun h => h₂₃.closed (h₁₂.closed h)⟩

/-- A loop that adds edges: what each turn establishes stays. -/
theorem extends_foldl {β : Type} {f : Graph → β → Graph} {P : β → Graph → Prop}
    (hstep : ∀ g e, Extends g (f g e) ∧ P e (f g e)) (hkeep : ∀ e g g', Extends g g' → P e g → P e g')
    (es : List β) (g : Graph) : Extends g (es.foldl f g) ∧ ∀ e ∈ es, P e (es.foldl f g) := by
  induction es generalizing g with
  | nil => exact ⟨.refl g, fun e he => absurd he List.not_mem_nil⟩
  | cons e es ih =>
    obtain ⟨hext, hes⟩ := ih (f g e)
    refine ⟨(hstep g e).1.trans hext, fun e' he' => ?_⟩
    cases List.mem_cons.mp he' with
    | inl h =>
      subst h
      exact hkeep e' _ _ hext (hstep g e').2
    | inr h => exact hes e' h

/-- One edge. -/
theorem extends_link (g : Graph) (v0 v1 : Str) : Extends g (link g v0 v1) ∧ v0 ∈ inputs (link g v0 v1) v1 :=
  ⟨⟨fun _ _ h => mem_ine_link.mpr (.inl h), fun h => h.link v0 v1⟩, mem_ine_link.mpr (.inr ⟨rfl, rfl⟩)⟩

/-- The edges of a pair: from each of its first to each of its second variables. -/
def linkAll (g : Graph) (p : List Var × List Var) : Graph :=
  p.1.foldl (fun g v0 => p.2.foldl (fun g v1 => link g v0.name v1.name) g) g

theorem extends_linkAll (g : Graph) (p : List Var × List Var) :
    Extends g (linkAll g p) ∧ ∀ x ∈ p.1, ∀ y ∈ p.2, x.name ∈ inputs (linkAll g p) y.name := by
  have hinner : ∀ (v0 : Var) (g : Graph), Extends g (p.2.foldl (fun g v1 => link g v0.name v1.name) g) ∧
      ∀ y ∈ p.2, v0.name ∈ inputs (p.2.foldl (fun g v1 => link g v0.name v1.name) g) y.name := fun v0 =>
    extends_foldl (P := fun y g => v0.name ∈ inputs g y.name) (fun g v1 => extends_link g v0.name v1.name)
      (fun y _ _ hext h => hext.inputs y.name h) p.2
  exact extends_foldl (P := fun x g => ∀ y ∈ p.2, x.name ∈ inputs g y.name) (fun g v0 => hinner v0 g)
    (fun x _ _ hext h y hy => hext.inputs y.name (h y hy)) p.1 g

/-- `createGraph` adds the edges of all pairs. -/
theorem extends_pairs (g : Graph) (pairs : List (List Var × List Var)) :
    Extends g (pairs.foldl linkAll g) ∧
      ∀ p ∈ pairs, ∀ x ∈ p.1, ∀ y ∈ p.2, x.name ∈ inputs (pairs.foldl linkAll g) y.name :=
  extends_foldl (P := fun p g => ∀ x ∈ p.1, ∀ y ∈ p.2, x.name ∈ inputs g y.name) extends_linkAll
    (fun _ _ _ hext h x hx y hy => hext.inputs y.name (h x hx y hy)) pairs g

end Graph

/-! ### The expressions -/

namespace SE

/-- The names of the sources. -/
def sourceNames (s : SE) : List Str := s.sources.map fun v => (Term.var v).str

/-- What `sortOperands` keeps. -/
structure Sorted (s : SE) : Prop where
  /-- Every expression of a variable that is not a source has a pair: its variables flow into that
  variable. -/
  paired : ∀ k es, s.variable2Expr.get? k = some es → ∀ e ∈ es, k ∈ s.sourceNames ∨
    ∃ p ∈ s.partialOrderPairs, (∀ x ∈ e.visible, x ∈ p.1) ∧ ∃ y ∈ p.2, y.name = k
  /-- Only sources have values: one placeholder each. -/
  values : ∀ k r, s.variable2RValue.get? k = some r →
    k ∈ s.sourceNames ∧ ∃ i < s.sources.length, r = .list [.var (placeholder i)]
  /-- The graph comes later. -/
  graph : s.graph = []
  /-- So do the symbolic values. -/
  symbolicValue : s.symbolicValue = []

theorem mem_operandVars {t : Term} {x : Var} : x ∈ operandVars t ↔ x ∈ t.visible := t.occs_spec.2.2 x

/-- One more source. -/
theorem Sorted.addSource {s : SE} (h : s.Sorted) (var : Var) : (s.addSource var).Sorted := by
  have hnames : (s.addSource var).sourceNames = s.sourceNames ++ [var.name] := List.map_append
  have hlength : (s.addSource var).sources.length = s.sources.length + 1 := List.length_append
  refine ⟨fun k es hget e he => ?_, fun k r hget => ?_, h.graph, h.symbolicValue⟩
  · rw [hnames]
    by_cases hk : k = var.name
    · exact .inl (by rw [hk]; simp)
    · refine (h.paired k es ((Dict.get?_put_of_ne _ _ hk).symm.trans hget) e he).imp_left fun hs => ?_
      exact List.mem_append_left _ hs
  · rw [hnames, hlength]
    by_cases hk : k = var.name
    · subst hk
      obtain rfl : RValue.list [.var (placeholder s.sources.length)] = r :=
        Option.some_inj.mp ((Dict.get?_put_self _ _ _).symm.trans hget)
      exact ⟨by simp, s.sources.length, Nat.lt_succ_self _, rfl⟩
    · obtain ⟨hs, i, hi, hr⟩ := h.values k r ((Dict.get?_put_of_ne _ _ hk).symm.trans hget)
      exact ⟨List.mem_append_left _ hs, i, Nat.lt_succ_of_lt hi, hr⟩

theorem sorted_addSources (vars : List Var) : (addSources vars).Sorted := by
  have hinit : init.Sorted := ⟨fun _ _ h => (nomatch h), fun _ _ h => (nomatch h), rfl, rfl⟩
  refine List.foldlRecOn vars _ hinit fun s h var _ => ?_
  by_cases hpost : "_POST_".toList <:+: (Term.var var).str
  · rw [if_pos hpost]
    exact h.addSource var
  · rw [if_neg hpost]
    exact h

/-- One more pair. -/
theorem Sorted.addPair {s : SE} (h : s.Sorted) (a b : List Var) : (s.addPair a b).Sorted :=
  ⟨fun k es hget e he => (h.paired k es hget e he).imp_right fun ⟨p, hp, hx⟩ => ⟨p, List.mem_append_left _ hp, hx⟩,
    h.values, h.graph, h.symbolicValue⟩

/-- One more expression, with its pair. -/
theorem Sorted.addExpr {s : SE} (h : s.Sorted) {k : Str} {e : Term} {a b : List Var}
    (ha : ∀ x ∈ e.visible, x ∈ a) (hb : ∃ y ∈ b, y.name = k) : ((s.addExpr k e).addPair a b).Sorted := by
  refine ⟨fun k' es hget e' he' => ?_, h.values, h.graph, h.symbolicValue⟩
  by_cases hk : k' = k
  · subst hk
    obtain rfl : (s.variable2Expr.get? k').getD [] ++ [e] = es :=
      Option.some_inj.mp ((Dict.get?_put_self _ _ _).symm.trans hget)
    cases List.mem_append.mp he' with
    | inl hm =>
      cases hes : s.variable2Expr.get? k' with
      | none =>
        rw [hes] at hm
        exact absurd hm List.not_mem_nil
      | some es' =>
        rw [hes] at hm
        exact (h.addPair a b).paired k' es' hes e' hm
    | inr hm =>
      obtain rfl := List.mem_singleton.mp hm
      exact .inr ⟨(a, b), List.mem_append_right _ List.mem_cons_self, ha, hb⟩
  · exact (h.addPair a b).paired k' es ((Dict.get?_put_of_ne _ _ hk).symm.trans hget) e' he'

theorem Sorted.sortEquality {s : SE} (h : s.Sorted) (operand0 operand1 : Term) :
    (s.sortEquality operand0 operand1).Sorted := by
  have hv : ∀ t : Term, ∀ x ∈ t.visible, x ∈ operandVars t := fun t x hx => mem_operandVars.mpr hx
  have hvar : ∀ v : Var, ∃ y ∈ operandVars (.var v), y.name = v.name := fun v =>
    ⟨v, mem_operandVars.mpr (by simp [Term.visible]), rfl⟩
  unfold SE.sortEquality
  cases operand0 with
  | var a =>
    cases operand1 with
    | var b =>
      dsimp only
      by_cases ha : a ∈ s.sources
      · rw [if_pos ha]
        exact h.addExpr (hv _) (hvar b)
      · rw [if_neg ha]
        exact h.addExpr (hv _) (hvar a)
    | const c => exact h.addExpr (hv _) (hvar a)
    | app hd ty ls ts => exact h.addExpr (hv _) (hvar a)
  | const c =>
    cases operand1 with
    | var b => exact h.addExpr (hv _) (hvar b)
    | const d => exact h.addPair _ _
    | app hd ty ls ts => exact h.addPair _ _
  | app hd ty ls ts =>
    cases operand1 with
    | var b => exact h.addExpr (hv _) (hvar b)
    | const d => exact h.addPair _ _
    | app hd' ty' ls' ts' => exact h.addPair _ _

theorem Sorted.sortOperands {s s' : SE} (h : s.Sorted) {command : Term} (hs' : s.sortOperands command = .ok s') :
    s'.Sorted := by
  unfold SE.sortOperands at hs'
  split at hs'
  · split at hs'
    · split at hs'
      · cases hs'
        exact h.sortEquality _ _
      · cases hs'
    · cases hs'
      exact h
  · cases hs'
    exact h

/-- What `resolveGraph` starts from. -/
structure Prepared (s : SE) : Prop where
  /-- The variables of an expression of a variable that is not a source flow into that variable. -/
  inputs : ∀ k es, s.variable2Expr.get? k = some es → ∀ e ∈ es, k ∉ s.sourceNames →
    ∀ x ∈ e.visible, x.name ∈ Graph.inputs s.graph k
  /-- Only sources have values: one placeholder each. -/
  values : ∀ k r, s.variable2RValue.get? k = some r →
    k ∈ s.sourceNames ∧ ∃ i < s.sources.length, r = .list [.var (placeholder i)]
  /-- Every variable that flows into another one is in the graph. -/
  closed : Graph.Closed s.graph
  /-- There are no symbolic values yet. -/
  symbolicValue : s.symbolicValue = []

/-- **What preparing the graph gives**. -/
theorem prepared {vars : List Var} {equalOperations : List Term} {s : SE}
    (h : prepare vars equalOperations = .ok s) : s.Prepared := by
  obtain ⟨t, ht, hs⟩ := bind_eq_ok.mp h
  have hsorted : t.Sorted := by
    have hloop : ∀ (es : List Term) (s : SE), s.Sorted → es.foldlM SE.sortOperands s = .ok t → t.Sorted := by
      intro es
      induction es with
      | nil =>
        intro s hs ht
        cases ht
        exact hs
      | cons e es ih =>
        intro s hs ht
        obtain ⟨s₁, hs₁, ht⟩ := bind_eq_ok.mp ht
        exact ih s₁ (hs.sortOperands hs₁) ht
    exact hloop equalOperations (addSources vars) (sorted_addSources vars) ht
  obtain rfl : t.createGraph = s := Except.ok.inj hs
  obtain ⟨hext, hpairs⟩ := Graph.extends_pairs t.graph t.partialOrderPairs
  refine ⟨fun k es hget e he hk x hx => ?_, hsorted.values, hext.closed ?_, hsorted.symbolicValue⟩
  · obtain ⟨p, hp, ha, y, hy, rfl⟩ := (hsorted.paired k es hget e he).resolve_left hk
    exact hpairs p hp x (ha x hx) y hy
  · rw [hsorted.graph]
    exact fun k x hx => nomatch hx

end SE

/-! ### Evaluating an expression -/

namespace SE

/-- The variable has a list of values. -/
def HasList (s : SE) (var : Str) : Prop := ∃ vals, s.variable2RValue.get? var = some (.list vals)

theorem record_of_list {s : SE} {var : Str} {vals : List Term}
    (h : s.variable2RValue.get? var = some (.list vals)) (u : Unfolding) : s.record var u = .ok { s with
      variable2RValue := s.variable2RValue.put var (.list (vals ++ u.result))
      symbolicValue := if u.hasUnresolved then s.symbolicValue else s.symbolicValue ++ u.result } := by
  rw [record, h]

theorem record_spec {s : SE} {var : Str} (h : s.HasList var) (u : Unfolding) :
    ∃ s', s.record var u = .ok s' ∧ s'.graph = s.graph ∧ s'.variable2Expr = s.variable2Expr ∧
      s'.sources = s.sources ∧ s'.HasList var ∧
      ∀ k, s'.variable2RValue.get? k ≠ none → s.variable2RValue.get? k ≠ none := by
  obtain ⟨vals, hvals⟩ := h
  refine ⟨_, record_of_list hvals u, rfl, rfl, rfl, ⟨_, Dict.get?_put_self _ _ _⟩, fun k hk => ?_⟩
  by_cases hkv : k = var
  · rw [hkv, hvals]
    exact Option.some_ne_none _
  · exact (Dict.get?_put_of_ne _ _ hkv).symm.trans_ne hk

theorem ensureRValue_spec {s : SE} {var : Str} (h : s.variable2RValue.get? var = none) :
    (s.ensureRValue var).HasList var ∧ (s.ensureRValue var).graph = s.graph ∧
      (s.ensureRValue var).variable2Expr = s.variable2Expr ∧ (s.ensureRValue var).sources = s.sources ∧
      ∀ k, (s.ensureRValue var).variable2RValue.get? k ≠ none → s.variable2RValue.get? k ≠ none ∨ k = var := by
  rw [ensureRValue, if_pos h]
  refine ⟨⟨[], Dict.get?_put_self _ _ _⟩, rfl, rfl, rfl, fun k hk => ?_⟩
  by_cases hkv : k = var
  · exact .inr hkv
  · exact .inl ((Dict.get?_put_of_ne _ _ hkv).symm.trans_ne hk)

end SE

/-! ### The steps of `resolveGraph` -/

namespace Resolve

/-- What a step does. -/
inductive StepTo (c : Resolve) : Resolve → Prop
  /-- A variable that is done, or waits for another one. -/
  | skip {var : Str} {rest : List Str} {found : Bool} (hphase : c.phase = .scan (var :: rest) found)
      (h : var ∈ c.doneVariables ∨ ¬ Graph.inputs c.se.graph var ⊆ c.doneVariables) :
      StepTo c { c with phase := .scan rest found }
  /-- A variable whose inputs are done. -/
  | visit {var : Str} {rest : List Str} {found : Bool} (hphase : c.phase = .scan (var :: rest) found)
      (hdone : var ∉ c.doneVariables) (h : Graph.inputs c.se.graph var ⊆ c.doneVariables) :
      StepTo c (c.visit var rest)
  /-- One expression of a variable. -/
  | evaluate {var : Str} {e : Term} {exprs : List Term} {rest : List Str} {u : Unfolding} {se : SE}
      (hphase : c.phase = .eval var (e :: exprs) rest) (hu : substitute c.se.variable2RValue e = .ok u)
      (hse : c.se.record var u = .ok se) : StepTo c { c with se := se, phase := .eval var exprs rest }
  /-- No more expressions. -/
  | evaluated {var : Str} {rest : List Str} (hphase : c.phase = .eval var [] rest) :
      StepTo c { c with phase := .scan rest true }
  /-- The `while` goes on. -/
  | again (hphase : c.phase = .scan [] true) : StepTo c { c with phase := .scan c.se.graph.keys false }
  /-- All variables are done. -/
  | finish (hphase : c.phase = .scan [] false) (h : ∀ k ∈ c.se.graph.keys, k ∈ c.doneVariables) :
      StepTo c { c with se := { c.se with sortedVariables := c.doneVariables }, phase := .finished }
  /-- Some variable is not. -/
  | fallback {var : Str} (hphase : c.phase = .scan [] false) (hvar : var ∈ c.se.graph.keys)
      (hdone : var ∉ c.doneVariables) : StepTo c (c.fallback var)
  /-- Nothing is left to do. -/
  | finished (hphase : c.phase = .finished) : StepTo c c

theorem step_to {c c' : Resolve} (h : c.step = .ok c') : StepTo c c' := by
  unfold step at h
  split at h
  next var rest found hphase =>
    by_cases hdone : var ∈ c.doneVariables
    · rw [if_pos hdone] at h
      cases h
      exact .skip hphase (.inl hdone)
    · rw [if_neg hdone] at h
      by_cases hready : (Graph.node c.se.graph var).ine ⊆ c.doneVariables
      · rw [if_pos hready] at h
        cases h
        exact .visit hphase hdone hready
      · rw [if_neg hready] at h
        cases h
        exact .skip hphase (.inr hready)
  next var e exprs rest hphase =>
    obtain ⟨u, hu, h⟩ := bind_eq_ok.mp h
    obtain ⟨se, hse, h⟩ := bind_eq_ok.mp h
    cases h
    exact .evaluate hphase hu hse
  next var rest hphase =>
    cases h
    exact .evaluated hphase
  next hphase =>
    cases h
    exact .again hphase
  next hphase =>
    split at h
    next hnone =>
      cases h
      refine .finish hphase fun k hk => ?_
      have hk' := List.find?_eq_none.mp hnone k hk
      rwa [decide_eq_true_eq, not_not] at hk'
    next var hsome =>
      cases h
      have hdone := List.find?_some hsome
      rw [decide_eq_true_eq] at hdone
      exact .fallback hphase (List.mem_of_find?_eq_some hsome) hdone
  next hphase =>
    cases h
    exact .finished hphase

end Resolve

/-! ### `resolveGraph` -/

namespace Resolve

/-- Where `resolveGraph` is, for the keys of the graph. -/
def PhaseInv (se : SE) (c : Resolve) : Prop :=
  match c.phase with
  | .scan rest found => ∃ pre, se.graph.keys = pre ++ rest ∧
      (found = false → ∀ k ∈ pre, k ∉ c.doneVariables → ¬ Graph.inputs se.graph k ⊆ c.doneVariables)
  | .eval var exprs rest => (∃ pre, se.graph.keys = pre ++ rest) ∧ c.se.HasList var ∧ var ∉ se.sourceNames ∧
      (∃ es, se.variable2Expr.get? var = some es ∧ exprs ⊆ es) ∧
      ∃ before, c.doneVariables = before ++ [var] ∧ Graph.inputs se.graph var ⊆ before
  | .finished => (∀ k ∈ se.graph.keys, k ∈ c.doneVariables) ∧ c.se.sortedVariables = c.doneVariables

/-- What holds at every step, for what `resolveGraph` started from. -/
structure Inv (se : SE) (c : Resolve) : Prop where
  /-- The graph stays as it is. -/
  graph : c.se.graph = se.graph
  /-- So do the expressions. -/
  exprs : c.se.variable2Expr = se.variable2Expr
  /-- Only variables that are done have values. -/
  values : ∀ k, c.se.variable2RValue.get? k ≠ none → k ∈ c.doneVariables
  /-- The sources come first and then variables of the graph, each once. -/
  scheduled : Scheduled se.graph.keys se.sourceNames c.doneVariables
  /-- Where it is. -/
  phase : PhaseInv se c

theorem inv_begin {se : SE} (h : se.Prepared) : Inv se (begin se) :=
  ⟨rfl, rfl, fun k hk => (h.values k _ (Option.some_get (Option.isSome_iff_ne_none.mpr hk)).symm).1,
    Scheduled.refl _ _, [], rfl, fun _ _ hk => absurd hk List.not_mem_nil⟩

variable {se : SE} {c c' : Resolve}

theorem Inv.sources_subset (h : Inv se c) : se.sourceNames ⊆ c.doneVariables := h.scheduled.subset

/-- At the end of a `for` that found nothing, no variable can be taken in order. -/
theorem Inv.stuck (h : Inv se c) (hphase : c.phase = .scan [] false) {var : Str} (hvar : var ∈ se.graph.keys)
    (hdone : var ∉ c.doneVariables) : Stuck (Graph.inputs se.graph) se.graph.keys c.doneVariables := by
  have hinv := h.phase
  rw [PhaseInv, hphase] at hinv
  obtain ⟨pre, hpre, hwaits⟩ := hinv
  refine ⟨⟨var, hvar, hdone⟩, fun k hk => hwaits rfl k ?_⟩
  rwa [hpre, List.append_nil] at hk

/-- How many steps `resolveGraph` takes at most until the next variable, in a graph with `n` keys. -/
def rank (n : ℕ) : Phase → ℕ
  | .scan rest true => rest.length + n + 2
  | .scan rest false => rest.length + 1
  | .eval _ exprs rest => exprs.length + rest.length + n + 3
  | .finished => 0

/-- **`resolveGraph` schedules the variables**: a step takes one more, or comes nearer to it. -/
theorem step_takes (h : Inv se c) (hstep : StepTo c c') :
    (c'.doneVariables = c.doneVariables ∧
      (c.phase ≠ .finished → rank se.graph.keys.length c'.phase < rank se.graph.keys.length c.phase)) ∨
      Takes (Graph.inputs se.graph) se.graph.keys c.doneVariables c'.doneVariables := by
  cases hstep with
  | @skip var rest found hphase _ =>
    refine .inl ⟨rfl, fun _ => ?_⟩
    rw [hphase]
    cases found with
    | true =>
      simp only [rank, List.length_cons]
      omega
    | false => exact Nat.lt_succ_self _
  | @visit var rest found hphase hdone hready =>
    have hvar : var ∈ se.graph.keys := by
      have hinv := h.phase
      rw [PhaseInv, hphase] at hinv
      obtain ⟨pre, hpre, -⟩ := hinv
      rw [hpre]
      exact List.mem_append_right _ List.mem_cons_self
    have heq : (c.visit var rest).doneVariables = c.doneVariables ++ [var] := by
      unfold visit
      split <;> rfl
    rw [h.graph] at hready
    rw [heq]
    exact .inr (.ready hvar hdone hready)
  | evaluate hphase _ _ =>
    refine .inl ⟨rfl, fun _ => ?_⟩
    rw [hphase]
    simp only [rank, List.length_cons]
    omega
  | evaluated hphase =>
    refine .inl ⟨rfl, fun _ => ?_⟩
    rw [hphase]
    simp only [rank, List.length_nil]
    omega
  | again hphase =>
    refine .inl ⟨rfl, fun _ => ?_⟩
    rw [hphase, h.graph]
    simp only [rank, List.length_nil]
    omega
  | finish hphase _ =>
    refine .inl ⟨rfl, fun _ => ?_⟩
    rw [hphase]
    exact Nat.succ_pos _
  | fallback hphase hvar hdone =>
    rw [h.graph] at hvar
    exact .inr (.stuck hvar hdone (h.stuck hphase hvar hdone))
  | finished hphase => exact .inl ⟨rfl, fun hne => absurd hphase hne⟩

/-- The variables taken stay a schedule. -/
theorem Inv.scheduled_step (h : Inv se c) (hstep : StepTo c c') :
    Scheduled se.graph.keys se.sourceNames c'.doneVariables := by
  cases step_takes h hstep with
  | inl heq =>
    rw [heq.1]
    exact h.scheduled
  | inr htakes => exact h.scheduled.takes htakes

/-- The invariant after one more variable, without the place. -/
theorem Inv.taken (h : Inv se c) {var : Str} {s : SE} (hgraph : s.graph = c.se.graph)
    (hexprs : s.variable2Expr = c.se.variable2Expr)
    (hvalues : ∀ k, s.variable2RValue.get? k ≠ none → c.se.variable2RValue.get? k ≠ none ∨ k = var) {phase : Phase}
    (hscheduled : Scheduled se.graph.keys se.sourceNames (c.doneVariables ++ [var]))
    (hphase : PhaseInv se ⟨s, c.doneVariables ++ [var], phase⟩) : Inv se ⟨s, c.doneVariables ++ [var], phase⟩ := by
  refine ⟨hgraph.trans h.graph, hexprs.trans h.exprs, fun k hk => ?_, hscheduled, hphase⟩
  cases hvalues k hk with
  | inl hk => exact List.mem_append_left _ (h.values k hk)
  | inr hk => exact List.mem_append_right _ (List.mem_singleton.mpr hk)

/-- Visiting a variable keeps the invariant. -/
theorem Inv.visit (h : Inv se c) {var : Str} {rest : List Str} {found : Bool}
    (hphase : c.phase = .scan (var :: rest) found) (hdone : var ∉ c.doneVariables)
    (hready : Graph.inputs c.se.graph var ⊆ c.doneVariables) : Inv se (c.visit var rest) := by
  have hscheduled := h.scheduled_step (.visit hphase hdone hready)
  have hrest : ∃ pre, se.graph.keys = pre ++ rest := by
    have hinv := h.phase
    rw [PhaseInv, hphase] at hinv
    obtain ⟨pre, hpre, -⟩ := hinv
    exact ⟨pre ++ [var], by rw [hpre, List.append_assoc]; rfl⟩
  have hnone : c.se.variable2RValue.get? var = none := by
    by_contra hne
    exact hdone (h.values var hne)
  unfold Resolve.visit at hscheduled ⊢
  cases hexprs : c.se.variable2Expr.get? var with
  | none =>
    rw [hexprs] at hscheduled
    obtain ⟨pre, hpre⟩ := hrest
    exact h.taken rfl rfl (fun k hk => .inl hk) hscheduled ⟨pre, hpre, fun hf => nomatch hf⟩
  | some es =>
    rw [hexprs] at hscheduled
    obtain ⟨hlist, hgraph, hexprs', -, hvalues⟩ := SE.ensureRValue_spec hnone
    refine h.taken hgraph hexprs' hvalues hscheduled ⟨hrest, hlist, fun hsource => ?_, ?_, ?_⟩
    · exact hdone (h.sources_subset hsource)
    · exact ⟨es, h.exprs ▸ hexprs, List.Subset.refl es⟩
    · exact ⟨c.doneVariables, rfl, h.graph ▸ hready⟩

/-- The fallback keeps the invariant. -/
theorem Inv.fallback (h : Inv se c) {var : Str} (hphase : c.phase = .scan [] false)
    (hvar : var ∈ c.se.graph.keys) (hdone : var ∉ c.doneVariables) : Inv se (c.fallback var) := by
  have hscheduled := h.scheduled_step (.fallback hphase hvar hdone)
  have hnone : c.se.variable2RValue.get? var = none := by
    by_contra hne
    exact hdone (h.values var hne)
  have hscan : ∀ s : SE, PhaseInv se ⟨s, c.doneVariables ++ [var], .scan c.se.graph.keys false⟩ := fun s =>
    ⟨[], by rw [h.graph]; rfl, fun _ _ hk => absurd hk List.not_mem_nil⟩
  unfold Resolve.fallback at hscheduled ⊢
  by_cases hexprs : c.se.variable2Expr.get? var ≠ none
  · rw [if_pos hexprs] at hscheduled ⊢
    obtain ⟨-, hgraph, hexprs', -, hvalues⟩ := SE.ensureRValue_spec hnone
    exact h.taken hgraph hexprs' hvalues hscheduled (hscan _)
  · rw [if_neg hexprs] at hscheduled ⊢
    refine h.taken (s := { c.se with
      variable2RValue := c.se.variable2RValue.put var (.bare (.var ⟨var, ['A'], false⟩)) }) rfl rfl
      (fun k hk => ?_) hscheduled (hscan _)
    by_cases hkv : k = var
    · exact .inr hkv
    · exact .inl ((Dict.get?_put_of_ne _ _ hkv).symm.trans_ne hk)

/-- **Every step keeps the invariant**. -/
theorem Inv.step (h : Inv se c) (hstep : StepTo c c') : Inv se c' := by
  have hinv := h.phase
  cases hstep with
  | @skip var rest found hphase hskip =>
    rw [PhaseInv, hphase] at hinv
    obtain ⟨pre, hpre, hwaits⟩ := hinv
    refine ⟨h.graph, h.exprs, h.values, h.scheduled, pre ++ [var], by rw [hpre, List.append_assoc]; rfl, ?_⟩
    intro hf k hk hdone
    cases List.mem_append.mp hk with
    | inl hm => exact hwaits hf k hm hdone
    | inr hm =>
      obtain rfl := List.mem_singleton.mp hm
      exact h.graph ▸ hskip.resolve_left hdone
  | visit hphase hdone hready => exact h.visit hphase hdone hready
  | @evaluate var e exprs rest u s hphase hu hs =>
    rw [PhaseInv, hphase] at hinv
    obtain ⟨hrest, hlist, hsource, ⟨es, hes, hsub⟩, hbefore⟩ := hinv
    obtain ⟨s', hs', hgraph, hexprs, -, hlist', hvalues⟩ := SE.record_spec hlist u
    obtain rfl : s' = s := Except.ok.inj (hs'.symm.trans hs)
    refine ⟨hgraph.trans h.graph, hexprs.trans h.exprs, fun k hk => h.values k (hvalues k hk), h.scheduled, ?_⟩
    exact ⟨hrest, hlist', hsource, ⟨es, hes, fun e he => hsub (List.mem_cons_of_mem _ he)⟩, hbefore⟩
  | evaluated hphase =>
    rw [PhaseInv, hphase] at hinv
    obtain ⟨⟨pre, hpre⟩, -⟩ := hinv
    exact ⟨h.graph, h.exprs, h.values, h.scheduled, pre, hpre, fun hf => nomatch hf⟩
  | again hphase =>
    exact ⟨h.graph, h.exprs, h.values, h.scheduled, [], by rw [h.graph]; rfl,
      fun _ _ hk => absurd hk List.not_mem_nil⟩
  | finish hphase hall => exact ⟨h.graph, h.exprs, h.values, h.scheduled, h.graph ▸ hall, rfl⟩
  | fallback hphase hvar hdone => exact h.fallback hphase hvar hdone
  | finished _ => exact h

/-! ### Runs -/

/-- Every call of `substitute` that a run from `c` makes returns. -/
def Returns (c : Resolve) : Prop :=
  ∀ n c', run n c = .ok c' → ∀ var e exprs rest, c'.phase = .eval var (e :: exprs) rest →
    ∃ u, substitute c'.se.variable2RValue e = .ok u

theorem run_inv {n : ℕ} (h : Inv se c) (hrun : run n c = .ok c') : Inv se c' := by
  induction n generalizing c with
  | zero =>
    cases hrun
    exact h
  | succ n ih =>
    obtain ⟨c₁, hstep, hrun⟩ := bind_eq_ok.mp hrun
    exact ih (h.step (step_to hstep)) hrun

/-- When `substitute` returns there is a next step. -/
theorem Inv.exists_step (h : Inv se c) (hret : Returns c) : ∃ c', c.step = .ok c' := by
  have hinv := h.phase
  unfold Resolve.step
  split
  next var rest found hphase => split_ifs <;> exact ⟨_, rfl⟩
  next var e exprs rest hphase =>
    rw [PhaseInv, hphase] at hinv
    obtain ⟨u, hu⟩ := hret 0 c rfl var e exprs rest hphase
    obtain ⟨s, hs, -⟩ := SE.record_spec hinv.2.1 u
    exact ⟨_, bind_eq_ok.mpr ⟨u, hu, bind_eq_ok.mpr ⟨s, hs, rfl⟩⟩⟩
  next => exact ⟨_, rfl⟩
  next => exact ⟨_, rfl⟩
  next => split <;> exact ⟨_, rfl⟩
  next => exact ⟨_, rfl⟩

/-- **Termination**: when `substitute` returns, `resolveGraph` does. -/
theorem halts {c : Resolve} (h : Inv se c) (hret : Returns c) :
    ∃ n c', run n c = .ok c' ∧ c'.phase = .finished := by
  by_cases hphase : c.phase = .finished
  · exact ⟨0, c, rfl, hphase⟩
  · obtain ⟨c₁, hc₁⟩ := h.exists_step hret
    have hret₁ : Returns c₁ := fun n c' hrun => hret (n + 1) c' (bind_eq_ok.mpr ⟨c₁, hc₁, hrun⟩)
    have htakes := step_takes h (step_to hc₁)
    obtain ⟨n, c', hrun, hfin⟩ := halts (h.step (step_to hc₁)) hret₁
    exact ⟨n + 1, c', bind_eq_ok.mpr ⟨c₁, hc₁, hrun⟩, hfin⟩
termination_by (keysLeft se.graph.keys c.doneVariables, rank se.graph.keys.length c.phase)
decreasing_by
  cases htakes with
  | inl heq =>
    rw [heq.1]
    exact Prod.Lex.right _ (heq.2 hphase)
  | inr htakes => exact Prod.Lex.left _ _ htakes.keysLeft_lt

theorem run_add (m n : ℕ) (c : Resolve) : run (m + n) c = run m c >>= run n := by
  induction m generalizing c with
  | zero => rw [Nat.zero_add]; rfl
  | succ m ih =>
    rw [Nat.succ_add]
    change c.step >>= run (m + n) = (c.step >>= run m) >>= run n
    cases c.step with
    | error e => rfl
    | ok c₁ => exact ih c₁

theorem run_finished {n : ℕ} (hphase : c.phase = .finished) : run n c = .ok c := by
  have hstep : c.step = .ok c := by rw [step, hphase]
  induction n with
  | zero => rfl
  | succ n ih => rw [run, hstep, ok_bind, ih]

/-- In a run that finishes, every call of `substitute` has returned. -/
theorem returns_of_finished {n : ℕ} (hrun : run n c = .ok c') (hphase : c'.phase = .finished) : Returns c := by
  intro m d hd var e exprs rest heval
  rcases Nat.lt_or_ge m n with hmn | hmn
  · obtain ⟨k, rfl⟩ := Nat.exists_eq_add_of_lt hmn
    rw [Nat.add_assoc, run_add, hd, ok_bind] at hrun
    obtain ⟨d', hd', -⟩ := bind_eq_ok.mp hrun
    rw [step, heval] at hd'
    obtain ⟨u, hu, -⟩ := bind_eq_ok.mp hd'
    exact ⟨u, hu⟩
  · obtain ⟨k, rfl⟩ := Nat.exists_eq_add_of_le hmn
    rw [run_add, hrun, ok_bind, run_finished hphase] at hd
    cases hd
    exact nomatch hphase.symm.trans heval

end Resolve

/-! ### The order -/

open Resolve

/-- What an expression of `var` hides in the terms of a `let` is in the graph: a source, or a variable
that flows into `var`. -/
def Linked (se : SE) (var : Str) (e : Term) : Prop :=
  ∀ x ∈ e.hidden, x.name ∈ se.sourceNames ∨ x.name ∈ Graph.inputs se.graph var

/-- **The order of `resolveGraph`**: when `substitute` returns it terminates, with every variable of the
graph that is not a source once in the order; the variables of an expression are done before it is
evaluated, if the graph has those in the terms of a `let`; and there is no fallback without a cycle. -/
theorem resolveGraph_order {vars : List Var} {equalOperations : List Term} {se : SE}
    (hprepare : SE.prepare vars equalOperations = .ok se) (hret : Resolve.Returns (begin se)) :
    (∃ n c, run n (begin se) = .ok c ∧ c.phase = .finished ∧
      ∀ k ∈ se.graph.keys, k ∉ se.sourceNames → c.se.sortedVariables.count k = 1) ∧
    ∀ n c, run n (begin se) = .ok c →
      (∀ var e exprs rest, c.phase = .eval var (e :: exprs) rest → Linked se var e →
        ∃ before, c.doneVariables = before ++ [var] ∧ ∀ x ∈ e.vars, x.name ∈ before) ∧
      (Acyclic (Depends (Graph.inputs se.graph) se.sourceNames) →
        ¬ (c.phase = .scan [] false ∧ ∃ k ∈ se.graph.keys, k ∉ c.doneVariables)) := by
  have hprepared := SE.prepared hprepare
  have hbegin := inv_begin hprepared
  refine ⟨?_, fun n c hrun => ⟨fun var e exprs rest hphase hlinked => ?_, fun hacyclic hstuck => ?_⟩⟩
  · obtain ⟨n, c, hrun, hphase⟩ := halts hbegin hret
    have hinv := run_inv hbegin hrun
    have hfin := hinv.phase
    rw [PhaseInv, hphase] at hfin
    refine ⟨n, c, hrun, hphase, fun k hk hsource => ?_⟩
    rw [hfin.2]
    exact hinv.scheduled.count_eq_one (hfin.1 k hk) hsource
  · have hinv := run_inv hbegin hrun
    have heval := hinv.phase
    rw [PhaseInv, hphase] at heval
    obtain ⟨-, -, hsource, ⟨es, hes, hsub⟩, before, hbefore, hinputs⟩ := heval
    refine ⟨before, hbefore, fun x hx => ?_⟩
    have hsources : se.sourceNames ⊆ before := fun y hy => by
      have hmem := hinv.sources_subset hy
      rw [hbefore, List.mem_append, List.mem_singleton] at hmem
      exact hmem.resolve_right fun heq => hsource (heq ▸ hy)
    cases Term.mem_vars_iff.mp hx with
    | inl hx => exact hinputs (hprepared.inputs var es hes e (hsub List.mem_cons_self) hsource x hx)
    | inr hx => exact (hlinked x hx).elim (fun h => hsources h) fun h => hinputs h
  · have hinv := run_inv hbegin hrun
    obtain ⟨hphase, k, hk, hdone⟩ := hstuck
    exact (hinv.stuck hphase hk hdone).not_acyclic hprepared.closed hinv.sources_subset hacyclic

/-- A graph in which only sources flow into other variables. -/
theorem Graph.acyclic_of_sources {g : Graph} {sources : List Str} (h : ∀ e ∈ g, e.2.ine ⊆ sources) :
    Acyclic (Depends (Graph.inputs g) sources) := by
  intro x hx
  obtain ⟨y, -, hy, hsource, -⟩ := Relation.TransGen.tail'_iff.mp hx
  rw [Graph.inputs, Graph.node] at hy
  cases hget : g.get? x with
  | none =>
    rw [hget] at hy
    exact nomatch hy
  | some n =>
    rw [hget] at hy
    exact hsource (h (x, n) (Dict.mem_of_get? hget) hy)

/-- A variable of type `Int`. -/
def intVar (name : Str) : Var := ⟨name, "Int".toList, false⟩

/-- An operator applied to terms. -/
def opTerm (op : Str) (subterms : List Term) : Term := .app (.op op) none [] subterms

/-- `(= y (+ x_POST_ 1))`. -/
theorem resolveGraph_order_source :
    ∃ se, SE.prepare [intVar ['y'], intVar "x_POST_".toList] [opTerm ['='] [.var (intVar ['y']),
        opTerm ['+'] [.var (intVar "x_POST_".toList), .const (intVar ['1'])]]] = .ok se ∧
      (∃ n c, run n (begin se) = .ok c ∧ c.phase = .finished ∧
        ∀ k ∈ se.graph.keys, k ∉ se.sourceNames → c.se.sortedVariables.count k = 1) ∧
      (∃ c, run 2 (begin se) = .ok c ∧ ∃ before, c.doneVariables = before ++ [['y']] ∧
        "x_POST_".toList ∈ before) ∧
      ∀ n c, run n (begin se) = .ok c →
        ¬ (c.phase = .scan [] false ∧ ∃ k ∈ se.graph.keys, k ∉ c.doneVariables) := by
  obtain ⟨hdone, hsteps⟩ := @resolveGraph_order [intVar ['y'], intVar "x_POST_".toList]
    [opTerm ['='] [.var (intVar ['y']), opTerm ['+'] [.var (intVar "x_POST_".toList), .const (intVar ['1'])]]] _
    rfl (returns_of_finished (n := 8) rfl rfl)
  refine ⟨_, rfl, hdone, ⟨_, rfl, ?_⟩, fun n c hrun => (hsteps n c hrun).2 (Graph.acyclic_of_sources (by decide))⟩
  obtain ⟨before, hbefore, hvars⟩ := (hsteps 2 _ rfl).1 ['y'] _ [] [] rfl fun x hx => nomatch hx
  exact ⟨before, hbefore, hvars (intVar "x_POST_".toList) (.head _)⟩

/-- `(let ((w x)) (+ w 1))`. -/
def hidingLet : Term :=
  .app (.letBinding [['w']]) none [.var (intVar ['x'])] [opTerm ['+'] [.var (intVar ['w']), .const (intVar ['1'])]]

/-- `(= v (let ((w x)) (+ w 1)))` and `(= x (+ z 1))`: `v` is evaluated before `x`. -/
theorem not_resolveGraph_order : ¬ ∀ (vars : List Var) (equalOperations : List Term) (se : SE),
    SE.prepare vars equalOperations = .ok se → Resolve.Returns (begin se) → ∀ n c, run n (begin se) = .ok c →
      ∀ var e exprs rest, c.phase = .eval var (e :: exprs) rest →
        ∀ x ∈ e.vars, x.name ∈ se.sourceNames ∨ x.name ∈ c.doneVariables := by
  intro h
  have hx := h [intVar ['v'], intVar ['w'], intVar ['x'], intVar ['z']]
    [opTerm ['='] [.var (intVar ['v']), hidingLet],
      opTerm ['='] [.var (intVar ['x']), opTerm ['+'] [.var (intVar ['z']), .const (intVar ['1'])]]]
    _ rfl (returns_of_finished (n := 14) rfl rfl) 2 _ rfl ['v'] hidingLet [] [['z'], ['x']] rfl (intVar ['x'])
    (.head _)
  revert hx
  decide

end SEDiff.Juxta

import Mathlib.Algebra.Group.Nat.Defs
import SEDiff.Foundation.Dict
import SEDiff.Foundation.Python
import SEDiff.Juxta.Variables

/-!
# Symbolic substitution

`SE.substitute` of `code.py` replaces the variables of an expression by their values, one variable
after the other. The variable it replaces is a node of the expression itself, so it turns into its
first value as soon as that is put in.

## What is proved

* `substitute_single` — with one value each the variables are substituted in turn.
* `substitute_several` — a variable with several values stays in a copy.
* `substitute_enumerates` — so all instances are enumerated for plain expressions, and only for them
  when no value mentions a variable that is hidden or has several values.
-/

namespace SEDiff.Juxta

open Foundation Term

/-- What `variable2RValue` maps a variable to. -/
inductive RValue
  /-- A list of terms. -/
  | list (vals : List Term)
  /-- The variable itself, which the cycle-breaking fallback leaves there. -/
  | bare (v : Term)

/-- `variable2RValue`. -/
abbrev Table := Dict Str RValue

/-- `self.tmp`. -/
def tmp : Term := .var ⟨"tmp".toList, ['A'], false⟩

/-- The expressions while the variables are replaced. -/
structure Unfolding where
  /-- The first one: the argument of `substitute`, whose nodes are the variables to replace. -/
  expr : Term
  /-- The others. -/
  copies : List Term
  /-- `hasUnresolved`. -/
  hasUnresolved : Bool

/-- `result`. -/
def Unfolding.result (u : Unfolding) : List Term := u.expr :: u.copies

/-- The node at `p`, as it is now. -/
def nodeAt (expr : Term) (p : Path) : Term := (node p expr).getD expr

/-- `e.substitute(v, val)` in one of the others, for the node `v` at `p` of the expression: when all of
`e` equals `v`, then `find_all` gives `v` and not `e`. -/
def replaceIn (p : Path) (u : Unfolding) (e : Term × Term) : Unfolding :=
  let v := nodeAt u.expr p
  if e.1.eq v then { u with expr := setNode e.2 p u.expr, copies := u.copies ++ [e.1] }
  else { u with copies := u.copies ++ [Term.substitute v e.2 e.1] }

/-- Replace the node at `p`, in the expression by `val` and then in others by their own values. -/
def replaceNode (u : Unfolding) (p : Path) (val : Term) (others : List (Term × Term)) : Unfolding :=
  others.foldl (replaceIn p) { u with expr := Term.substitute (nodeAt u.expr p) val u.expr, copies := [] }

/-- One variable of `substitute`. -/
def unfoldVar (variable2RValue : Table) (u : Unfolding) (v : Path × Var) : Except PyErr Unfolding :=
  match variable2RValue.get? (nodeAt u.expr v.1).str with
  | some (.bare _) => .error .typeError
  | some (.list (val :: vals)) =>
    .ok (replaceNode u v.1 val
      (u.copies.map (·, val) ++ vals.flatMap fun val => u.result.map (·, val)))
  | some (.list []) | none =>
    .ok { replaceNode u v.1 tmp (u.copies.map (·, tmp)) with hasUnresolved := true }

/-- `substitute`. -/
def substitute (variable2RValue : Table) (expr : Term) : Except PyErr Unfolding :=
  expr.occs.foldlM (unfoldVar variable2RValue) ⟨expr, [], false⟩

/-! ### One variable -/

/-- The values of a variable: those of the table, or `tmp`. -/
def rvalues (variable2RValue : Table) (v : Var) : List Term :=
  match variable2RValue.get? v.name with
  | some (.list (val :: vals)) => val :: vals
  | _ => [tmp]

/-- The variable has a value in the table. -/
def Resolved (variable2RValue : Table) (v : Var) : Prop :=
  ∃ val vals, variable2RValue.get? v.name = some (.list (val :: vals))

/-- The variable has no value that is not in a list. -/
def Listed (variable2RValue : Table) (v : Var) : Prop := ∀ t, variable2RValue.get? v.name ≠ some (.bare t)

variable {table : Table}

/-- What one of the others turns into, when a variable has the values `vals`: it is left as it is, or
the node that is put for the variable at that time is replaced in it. -/
def Kept (vals : List Term) (e : Term × Term) (e' : Term) : Prop :=
  e' = e.1 ∨ ∃ a ∈ vals, e' = Term.substitute a e.2 e.1

/-- What replacing the variable `v` with the values `val :: vals` does. -/
structure Replaced (v : Path × Var) (val : Term) (vals : List Term) (u u' : Unfolding) : Prop where
  /-- Every occurrence of `v` has the first value, and its node one of the values. -/
  expr : ∃ b ∈ val :: vals, u'.expr = setNode b v.1 (Term.substitute (.var v.2) val u.expr)
  /-- The others. -/
  copies : List.Forall₂ (Kept (val :: vals))
    (u.copies.map (·, val) ++ vals.flatMap fun b => u.result.map (·, b)) u'.copies

/-- Replacing the node in the others, where it is one of the values from the start. -/
theorem foldl_replaceIn {p : Path} {vals : List Term} {t : Term} (ht : node p t ≠ none)
    (others : List (Term × Term)) (hothers : ∀ e ∈ others, e.2 ∈ vals) (u : Unfolding)
    (hu : ∃ b ∈ vals, u.expr = setNode b p t) :
    (others.foldl (replaceIn p) u).hasUnresolved = u.hasUnresolved ∧
    (∃ b ∈ vals, (others.foldl (replaceIn p) u).expr = setNode b p t) ∧
      ∃ copies, (others.foldl (replaceIn p) u).copies = u.copies ++ copies ∧
        List.Forall₂ (Kept vals) others copies := by
  induction others generalizing u with
  | nil => exact ⟨rfl, hu, [], (List.append_nil _).symm, .nil⟩
  | cons e others ih =>
    obtain ⟨b, hb, hexpr⟩ := hu
    have hat : nodeAt u.expr p = b := by
      rw [nodeAt, hexpr, node_setNode ht]
      rfl
    have hstep : ∃ e', Kept vals e e' ∧ (replaceIn p u e).copies = u.copies ++ [e'] ∧
        (replaceIn p u e).hasUnresolved = u.hasUnresolved ∧
        ∃ b ∈ vals, (replaceIn p u e).expr = setNode b p t := by
      unfold replaceIn
      rw [hat]
      by_cases heq : e.1.eq b
      · rw [if_pos heq]
        exact ⟨e.1, .inl rfl, rfl, rfl, e.2, hothers e List.mem_cons_self, by rw [hexpr, setNode_setNode]⟩
      · rw [if_neg heq]
        exact ⟨_, .inr ⟨b, hb, rfl⟩, rfl, rfl, b, hb, hexpr⟩
    obtain ⟨e', hkept, hcopies, hun, hstep⟩ := hstep
    obtain ⟨hun', hexpr', copies, hcopies', hall⟩ :=
      ih (fun e he => hothers e (List.mem_cons_of_mem _ he)) (replaceIn p u e) hstep
    refine ⟨hun'.trans hun, hexpr', e' :: copies, ?_, .cons hkept hall⟩
    rw [List.foldl_cons, hcopies', hcopies, List.append_assoc]
    rfl

/-- Replacing a node that holds a variable. -/
theorem replaceNode_replaced {u : Unfolding} {o : Path × Var} (hnode : node o.1 u.expr = some (.var o.2))
    (val : Term) (vals : List Term) :
    let u' := replaceNode u o.1 val (u.copies.map (·, val) ++ vals.flatMap fun b => u.result.map (·, b))
    Replaced o val vals u u' ∧ u'.hasUnresolved = u.hasUnresolved := by
  have hat : nodeAt u.expr o.1 = .var o.2 := by
    rw [nodeAt, hnode]
    rfl
  have hval : node o.1 (Term.substitute (.var o.2) val u.expr) = some val := by
    rw [node_substitute hnode, if_pos rfl]
  intro u'
  obtain ⟨hun, hexpr, copies, hcopies, hall⟩ := @foldl_replaceIn o.1 (val :: vals) _
    (hval ▸ Option.some_ne_none val) (u.copies.map (·, val) ++ vals.flatMap fun b => u.result.map (·, b))
    (fun e he => by
      rcases List.mem_append.mp he with he | he
      · obtain ⟨e, -, rfl⟩ := List.mem_map.mp he
        exact List.mem_cons_self
      · obtain ⟨b, hb, he⟩ := List.mem_flatMap.mp he
        obtain ⟨e, -, rfl⟩ := List.mem_map.mp he
        exact List.mem_cons_of_mem _ hb)
    { u with expr := Term.substitute (nodeAt u.expr o.1) val u.expr, copies := [] }
    ⟨val, List.mem_cons_self, by rw [hat, setNode_of_node hval]⟩
  refine ⟨⟨hexpr, ?_⟩, hun⟩
  rw [List.nil_append] at hcopies
  exact hcopies ▸ hall

/-- **Replacing one variable** that is at its node: all its occurrences have its first value afterwards.
In the copies it is that value, not the variable, which is replaced, and where a copy is that value it is
the node itself that takes the next one. -/
theorem substitute_step {u : Unfolding} {o : Path × Var} (hnode : node o.1 u.expr = some (.var o.2))
    (hlist : Listed table o.2) :
    ∃ val vals, rvalues table o.2 = val :: vals ∧
      ∃ u', unfoldVar table u o = .ok u' ∧ Replaced o val vals u u' ∧
        (u'.hasUnresolved = true ↔ u.hasUnresolved = true ∨ ¬ Resolved table o.2) := by
  have hat : nodeAt u.expr o.1 = .var o.2 := by rw [nodeAt, hnode]; rfl
  have hstr : (Term.var o.2).str = o.2.name := rfl
  have hunresolved := replaceNode_replaced hnode tmp []
  rw [List.flatMap_nil, List.append_nil] at hunresolved
  unfold unfoldVar rvalues Resolved
  rw [hat, hstr]
  cases hget : table.get? o.2.name with
  | none => exact ⟨tmp, [], rfl, _, rfl, ⟨hunresolved.1.expr, by simpa using hunresolved.1.copies⟩, by simp⟩
  | some r =>
    cases r with
    | bare t => exact absurd hget (hlist t)
    | list vals =>
      cases vals with
      | nil => exact ⟨tmp, [], rfl, _, rfl, ⟨hunresolved.1.expr, by simpa using hunresolved.1.copies⟩, by simp⟩
      | cons val vals =>
        obtain ⟨hrep, hun⟩ := replaceNode_replaced hnode val vals
        exact ⟨val, vals, rfl, _, rfl, hrep, by simp [hun]⟩

/-- What one of the others turns into. -/
theorem Replaced.exists_copy {u u' : Unfolding} {o : Path × Var} {val : Term} {vals : List Term}
    (h : Replaced o val vals u u') :
    ∀ e ∈ u.copies.map (·, val) ++ vals.flatMap (fun b => u.result.map (·, b)),
      ∃ e' ∈ u'.copies, Kept (val :: vals) e e' := by
  intro e he
  obtain ⟨i, hi, rfl⟩ := List.getElem_of_mem he
  have hi' := h.copies.length_eq ▸ hi
  exact ⟨u'.copies[i], List.getElem_mem hi', h.copies.get hi hi'⟩

/-- With one value, the node has it as well. -/
theorem Replaced.single {u u' : Unfolding} {o : Path × Var} {val : Term} (h : Replaced o val [] u u')
    (hnode : node o.1 u.expr = some (.var o.2)) : u'.expr = Term.substitute (.var o.2) val u.expr := by
  obtain ⟨b, hb, hexpr⟩ := h.expr
  obtain rfl := List.mem_singleton.mp hb
  rw [hexpr, setNode_of_node]
  rw [node_substitute hnode, if_pos rfl]

/-- The variables still to replace are at their nodes. -/
def Intact (expr : Term) (os : List (Path × Var)) : Prop :=
  (∀ o ∈ os, node o.1 expr = some (.var o.2)) ∧ (os.map Prod.snd).Nodup

theorem Intact.step {u u' : Unfolding} {o : Path × Var} {os : List (Path × Var)} (h : Intact u.expr (o :: os))
    {val : Term} {vals : List Term} (hrep : Replaced o val vals u u') : Intact u'.expr os := by
  obtain ⟨hnodes, hnodup⟩ := h
  obtain ⟨b, -, hexpr⟩ := hrep.expr
  rw [List.map_cons, List.nodup_cons] at hnodup
  refine ⟨fun o' ho' => ?_, hnodup.2⟩
  rw [hexpr]
  exact node_setNode_substitute (hnodes o List.mem_cons_self) (hnodes o' (List.mem_cons_of_mem _ ho'))
    (fun heq => hnodup.1 (heq ▸ List.mem_map_of_mem ho')) val b

theorem intact_occs (expr : Term) : Intact expr expr.occs := ⟨(occs_spec expr).1, (occs_spec expr).2.1⟩

/-- Induction over the variables: `P` is kept by replacing one variable after the other. -/
theorem foldlM_unfoldVar {P : Unfolding → List (Path × Var) → Prop}
    (hstep : ∀ u o os, Intact u.expr (o :: os) → P u (o :: os) →
      ∀ u', unfoldVar table u o = .ok u' → P u' os) :
    ∀ (os : List (Path × Var)) (u : Unfolding), Intact u.expr os → (∀ o ∈ os, Listed table o.2) → P u os →
      ∃ u', os.foldlM (unfoldVar table) u = .ok u' ∧ P u' [] := by
  intro os
  induction os with
  | nil => exact fun u _ _ hP => ⟨u, rfl, hP⟩
  | cons o os ih =>
    intro u hint hlist hP
    obtain ⟨val, vals, -, u₁, hu₁, hrep, -⟩ :=
      substitute_step (hint.1 o List.mem_cons_self) (hlist o List.mem_cons_self)
    obtain ⟨u', hu', hP'⟩ := ih u₁ (hint.step hrep)
      (fun o' ho' => hlist o' (List.mem_cons_of_mem _ ho')) (hstep u o os hint hP u₁ hu₁)
    refine ⟨u', ?_, hP'⟩
    rw [List.foldlM_cons, hu₁]
    exact hu'

/-! ### One value each -/

/-- Substituting the variables in turn, each by its first value. -/
def sequential (val : Var → Term) (vs : List Var) (t : Term) : Term :=
  vs.foldl (fun t v => Term.substitute (.var v) (val v) t) t

theorem sequential_cons (val : Var → Term) (v : Var) (vs : List Var) (t : Term) :
    sequential val (v :: vs) t = sequential val vs (Term.substitute (.var v) (val v) t) := rfl

theorem sequential_append (val : Var → Term) (vs ws : List Var) (t : Term) :
    sequential val (vs ++ ws) t = sequential val ws (sequential val vs t) := List.foldl_append

/-- Substituting in turn in an instance. -/
theorem sequential_inst (val : Var → Term) (vs : List Var) {t : Term} (hidden : t.hidden = [])
    (σ : Var → Term) : sequential val vs (t.inst σ) = t.inst fun x => sequential val vs (σ x) := by
  induction vs generalizing σ with
  | nil => rfl
  | cons v vs ih =>
    rw [sequential_cons, substitute_inst σ v (val v) hidden, ih]
    rfl

/-- Variables that are not visible are not substituted. -/
theorem sequential_of_not_visible {val : Var → Term} {vs : List Var} {t : Term}
    (h : ∀ v ∈ vs, v ∉ t.visible) : sequential val vs t = t := by
  induction vs with
  | nil => rfl
  | cons v vs ih =>
    rw [sequential_cons, substitute_of_not_visible (h v List.mem_cons_self)]
    exact ih fun w hw => h w (List.mem_cons_of_mem _ hw)

/-- The first value of a variable. -/
def firstValue (variable2RValue : Table) (v : Var) : Term := (rvalues variable2RValue v).headD tmp

/-- Every variable of the expression has at most one value. -/
def Single (variable2RValue : Table) (expr : Term) : Prop :=
  ∀ v ∈ expr.visible, (rvalues variable2RValue v).length = 1

/-- **One value each**: a single expression, in which the variables are substituted in turn. -/
theorem substitute_single {expr : Term} (hlist : ∀ v ∈ expr.visible, Listed table v)
    (hsingle : Single table expr) :
    ∃ u, substitute table expr = .ok u ∧ u.result =
        [sequential (firstValue table) (expr.occs.map Prod.snd) expr] ∧
      (u.hasUnresolved = true ↔ ∃ v ∈ expr.visible, ¬ Resolved table v) := by
  have hocc : ∀ o ∈ expr.occs, o.2 ∈ expr.visible := fun o ho =>
    ((occs_spec expr).2.2 o.2).mp (List.mem_map_of_mem ho)
  let P : Unfolding → List (Path × Var) → Prop := fun u os =>
    (∀ o ∈ os, o.2 ∈ expr.visible) ∧ u.copies = [] ∧
    sequential (firstValue table) (os.map Prod.snd) u.expr =
      sequential (firstValue table) (expr.occs.map Prod.snd) expr ∧
    (u.hasUnresolved = true ∨ (∃ o ∈ os, ¬ Resolved table o.2) ↔ ∃ v ∈ expr.visible, ¬ Resolved table v)
  have hstart : P ⟨expr, [], false⟩ expr.occs := by
    refine ⟨hocc, rfl, rfl, ?_⟩
    constructor
    · rintro (h | ⟨o, ho, hr⟩)
      · exact absurd h Bool.false_ne_true
      · exact ⟨o.2, hocc o ho, hr⟩
    · rintro ⟨v, hv, hr⟩
      obtain ⟨o, ho, rfl⟩ := List.mem_map.mp (((occs_spec expr).2.2 v).mpr hv)
      exact .inr ⟨o, ho, hr⟩
  obtain ⟨u, hu, -, hcopies, hexpr, hun⟩ := foldlM_unfoldVar (P := P) (fun u o os hint hP u' hu' => by
    obtain ⟨hos, hcopies, hexpr, hun⟩ := hP
    have hov := hos o List.mem_cons_self
    obtain ⟨val, vals, hvals, u₁, hu₁, hrep, hun₁⟩ :=
      substitute_step (hint.1 o List.mem_cons_self) (hlist o.2 hov)
    obtain rfl : u₁ = u' := Except.ok.inj (hu₁.symm.trans hu')
    have hone := hsingle o.2 hov
    rw [hvals, List.length_cons, Nat.add_eq_right, List.length_eq_zero_iff] at hone
    subst hone
    have hfirst : firstValue table o.2 = val := by rw [firstValue, hvals]; rfl
    refine ⟨fun o' ho' => hos o' (List.mem_cons_of_mem _ ho'), ?_, ?_, ?_⟩
    · have hnone := hrep.copies
      rw [hcopies] at hnone
      exact List.forall₂_nil_left_iff.mp hnone
    · rw [← hexpr, hrep.single (hint.1 o List.mem_cons_self), List.map_cons, sequential_cons, hfirst]
    · rw [hun₁, ← hun]
      simp only [List.mem_cons, exists_eq_or_imp]
      tauto) expr.occs ⟨expr, [], false⟩ (intact_occs expr) (fun o ho => hlist o.2 (hocc o ho)) hstart
  refine ⟨u, hu, ?_, ?_⟩
  · rw [Unfolding.result, hcopies, ← hexpr]
    rfl
  · rw [← hun]
    simp

/-! ### Several values -/

/-- What is hidden in the expression stays in it. -/
theorem substitute_hidden {expr : Term} (hlist : ∀ v ∈ expr.visible, Listed table v) :
    ∃ u, substitute table expr = .ok u ∧ ∀ x ∈ expr.hidden, x ∈ u.expr.hidden := by
  have hocc : ∀ o ∈ expr.occs, o.2 ∈ expr.visible := fun o ho =>
    ((occs_spec expr).2.2 o.2).mp (List.mem_map_of_mem ho)
  let P : Unfolding → List (Path × Var) → Prop := fun u os =>
    (∀ o ∈ os, o.2 ∈ expr.visible) ∧ ∀ x ∈ expr.hidden, x ∈ u.expr.hidden
  obtain ⟨u, hu, -, hhid⟩ := foldlM_unfoldVar (P := P) (fun u o os hint hP u' hu' => by
    obtain ⟨hos, hhid⟩ := hP
    obtain ⟨val, vals, -, u₁, hu₁, hrep, -⟩ :=
      substitute_step (hint.1 o List.mem_cons_self) (hlist o.2 (hos o List.mem_cons_self))
    obtain rfl : u₁ = u' := Except.ok.inj (hu₁.symm.trans hu')
    obtain ⟨b, -, hexpr⟩ := hrep.expr
    refine ⟨fun o' ho' => hos o' (List.mem_cons_of_mem _ ho'), fun x hx => ?_⟩
    rw [hexpr]
    exact hidden_subset_setNode_substitute (hint.1 o List.mem_cons_self) val b x (hhid x hx))
    expr.occs ⟨expr, [], false⟩ (intact_occs expr) (fun o ho => hlist o.2 (hocc o ho)) ⟨hocc, fun _ hx => hx⟩
  exact ⟨u, hu, hhid⟩

/-- **Several values**: a variable with more than one value stays in a copy, when no value mentions it. -/
theorem substitute_several {expr : Term} (hlist : ∀ v ∈ expr.visible, Listed table v) {x : Var}
    (hx : x ∈ expr.visible) (hseveral : 2 ≤ (rvalues table x).length)
    (hfree : ∀ v ∈ expr.visible, ∀ a ∈ rvalues table v, x ∉ a.visible) :
    ∃ u, substitute table expr = .ok u ∧ ∃ e ∈ u.copies, x ∈ e.visible := by
  have hocc : ∀ o ∈ expr.occs, o.2 ∈ expr.visible := fun o ho =>
    ((occs_spec expr).2.2 o.2).mp (List.mem_map_of_mem ho)
  let P : Unfolding → List (Path × Var) → Prop := fun u os =>
    (∀ o ∈ os, o.2 ∈ expr.visible) ∧ (x ∈ os.map Prod.snd ∨ ∃ e ∈ u.copies, x ∈ e.visible)
  have hstart : P ⟨expr, [], false⟩ expr.occs := ⟨hocc, .inl (((occs_spec expr).2.2 x).mpr hx)⟩
  obtain ⟨u, hu, -, hdone⟩ := foldlM_unfoldVar (P := P) (fun u o os hint hP u' hu' => by
    obtain ⟨hos, hP⟩ := hP
    have hov := hos o List.mem_cons_self
    obtain ⟨val, vals, hvals, u₁, hu₁, hrep, -⟩ :=
      substitute_step (hint.1 o List.mem_cons_self) (hlist o.2 hov)
    obtain rfl : u₁ = u' := Except.ok.inj (hu₁.symm.trans hu')
    refine ⟨fun o' ho' => hos o' (List.mem_cons_of_mem _ ho'), ?_⟩
    -- what is replaced in the copies is a value, so they keep `x`
    have hkeeps : ∀ e ∈ u.copies.map (·, val) ++ vals.flatMap (fun b => u.result.map (·, b)), x ∈ e.1.visible →
        ∃ e' ∈ u₁.copies, x ∈ e'.visible := by
      intro e he hxe
      obtain ⟨e', he', hkept⟩ := hrep.exists_copy e he
      refine ⟨e', he', ?_⟩
      rcases hkept with rfl | ⟨a, ha, rfl⟩
      · exact hxe
      · exact mem_visible_substitute_of_not_mem (hfree o.2 hov a (hvals ▸ ha)) e.2 hxe
    rcases hP with hm | ⟨e, he, hxe⟩
    · rw [List.map_cons, List.mem_cons] at hm
      cases hm with
      | inr hm => exact .inl hm
      | inl hxo =>
        subst hxo
        cases vals with
        | nil =>
          rw [hvals] at hseveral
          exact absurd hseveral (by simp)
        | cons b vals =>
          refine .inr (hkeeps (u.expr, b) ?_ (visible_of_node (hint.1 o List.mem_cons_self)))
          rw [List.flatMap_cons, Unfolding.result, List.map_cons]
          simp
    · exact .inr (hkeeps (e, val) (List.mem_append_left _ (List.mem_map_of_mem he)) hxe)) expr.occs
    ⟨expr, [], false⟩ (intact_occs expr)
    (fun o ho => hlist o.2 (hocc o ho)) hstart
  exact ⟨u, hu, hdone.resolve_left List.not_mem_nil⟩

/-! ### All instances -/

/-- The ways to choose one value for each variable. -/
def assignments (vals : Var → List Term) : List Var → List (Var → Term)
  | [] => [.var]
  | v :: vs => (vals v).flatMap fun a => (assignments vals vs).map fun σ => Function.update σ v a

theorem length_assignments (vals : Var → List Term) (vs : List Var) :
    (assignments vals vs).length = (vs.map fun v => (vals v).length).prod := by
  induction vs with
  | nil => rfl
  | cons v vs ih =>
    rw [assignments, List.length_flatMap, List.map_cons, List.prod_cons, ← ih]
    simp

/-- An assignment chooses values. -/
theorem mem_of_mem_assignments {vals : Var → List Term} {vs : List Var} {σ : Var → Term}
    (h : σ ∈ assignments vals vs) : ∀ v ∈ vs, σ v ∈ vals v := by
  induction vs generalizing σ with
  | nil => exact fun v hv => absurd hv List.not_mem_nil
  | cons w vs ih =>
    rw [assignments, List.mem_flatMap] at h
    obtain ⟨a, ha, h⟩ := h
    obtain ⟨τ, hτ, rfl⟩ := List.mem_map.mp h
    intro v hv
    by_cases hvw : v = w
    · rw [hvw, Function.update_self]
      exact ha
    · rw [Function.update_of_ne hvw]
      exact ih hτ v ((List.mem_cons.mp hv).resolve_left hvw)

/-- With one value each there is one assignment. -/
theorem assignments_single {vals : Var → List Term} {val : Var → Term} {vs : List Var}
    (h : ∀ v ∈ vs, vals v = [val v]) : ∃ σ, assignments vals vs = [σ] ∧ ∀ v ∈ vs, σ v = val v := by
  induction vs with
  | nil => exact ⟨.var, rfl, fun v hv => absurd hv List.not_mem_nil⟩
  | cons w vs ih =>
    obtain ⟨σ, hσ, hval⟩ := ih fun v hv => h v (List.mem_cons_of_mem _ hv)
    refine ⟨Function.update σ w (val w), ?_, fun v hv => ?_⟩
    · rw [assignments, h w List.mem_cons_self, hσ]
      rfl
    · by_cases hvw : v = w
      · rw [hvw, Function.update_self]
      · rw [Function.update_of_ne hvw]
        exact hval v ((List.mem_cons.mp hv).resolve_left hvw)

/-- **All instances**: one expression for each choice of a value for every variable of `expr`, in
which every occurrence of the variable has that value. -/
structure Enumerates (vals : Var → List Term) (expr : Term) (result : List Term) : Prop where
  /-- The expressions, up to order. -/
  instances : result.Perm ((assignments vals expr.vars.dedup).map fun σ => expr.inst σ)
  /-- How many there are. -/
  count : result.length = (expr.vars.dedup.map fun v => (vals v).length).prod

/-- The values are those that the variables have when they are substituted in turn. -/
def Settled (val : Var → Term) (vs : List Var) : Prop :=
  ∀ pre v post, vs = pre ++ v :: post → sequential val post (val v) = val v

/-- **When `substitute` enumerates all instances**: nothing is hidden in a `let`, no variable has two
values, and no value is changed by the variables after its own. -/
structure Plain (variable2RValue : Table) (expr : Term) : Prop where
  /-- No variable occurs in the terms of a `let`. -/
  hidden : expr.hidden = []
  /-- Every variable has at most one value. -/
  single : Single variable2RValue expr
  /-- The values stay. -/
  settled : Settled (firstValue variable2RValue) (expr.occs.map Prod.snd)

/-- A table of lists. -/
def lists (values : Dict Str (List Term)) : Table := values.map fun e => (e.1, .list e.2)

theorem get?_lists (values : Dict Str (List Term)) (k : Str) :
    (lists values).get? k = (values.get? k).map .list := by
  induction values with
  | nil => rfl
  | cons e values ih =>
    rw [lists, List.map_cons, Dict.get?, Dict.get?]
    by_cases h : e.1 = k
    · rw [if_pos h, if_pos h]
      rfl
    · rw [if_neg h, if_neg h]
      exact ih

theorem listed_lists (values : Dict Str (List Term)) (v : Var) : Listed (lists values) v := by
  intro t ht
  rw [get?_lists, Option.map_eq_some_iff] at ht
  obtain ⟨l, -, hl⟩ := ht
  exact nomatch hl

theorem rvalues_eq_firstValue {v : Var} (h : (rvalues table v).length = 1) :
    rvalues table v = [firstValue table v] := by
  obtain ⟨a, ha⟩ := List.length_eq_one_iff.mp h
  rw [firstValue, ha]
  rfl

/-- Substituting in turn in a variable. -/
theorem sequential_var {val : Var → Term} {pre post : List Var} {v : Var}
    (hnodup : (pre ++ v :: post).Nodup) : sequential val (pre ++ v :: post) (.var v) = sequential val post (val v) := by
  have hpre : ∀ w ∈ pre, w ∉ (Term.var v).visible := by
    intro w hw hv
    obtain rfl : w = v := by simpa [visible] using hv
    exact (List.nodup_append.mp hnodup).2.2 w hw w List.mem_cons_self rfl
  rw [sequential_append, sequential_of_not_visible hpre, sequential_cons, substitute_var_var, if_pos rfl]

/-- With one value each and nothing hidden, the result is the instance exactly when the values stay. -/
theorem sequential_eq_inst_iff (val : Var → Term) {expr : Term} (hidden : expr.hidden = []) :
    sequential val (expr.occs.map Prod.snd) expr = expr.inst val ↔ Settled val (expr.occs.map Prod.snd) := by
  have hseq := sequential_inst val (expr.occs.map Prod.snd) hidden .var
  rw [inst_var] at hseq
  obtain ⟨-, hnodup, hvis⟩ := occs_spec expr
  rw [hseq]
  constructor
  · intro h pre v post hvs
    have hv : v ∈ expr.vars := mem_vars_iff.mpr (.inl ((hvis v).mp (hvs ▸ by simp)))
    have hval := inst_inj h v hv
    rw [hvs] at hval hnodup
    rwa [sequential_var hnodup] at hval
  · intro h
    refine inst_congr fun v hv => ?_
    have hv : v ∈ expr.visible := (mem_vars_iff.mp hv).resolve_right (by rw [hidden]; exact List.not_mem_nil)
    obtain ⟨pre, post, hvs⟩ := List.append_of_mem ((hvis v).mpr hv)
    have hval := h pre v post hvs
    rw [hvs] at hnodup ⊢
    rwa [sequential_var hnodup]

/-- With one value each, and nothing hidden. -/
theorem enumerates_iff_of_single {values : Dict Str (List Term)} {expr : Term} (hidden : expr.hidden = [])
    (hsingle : Single (lists values) expr) :
    ∃ u, substitute (lists values) expr = .ok u ∧ (Enumerates (rvalues (lists values)) expr u.result ↔
      Settled (firstValue (lists values)) (expr.occs.map Prod.snd)) := by
  obtain ⟨u, hu, hresult, -⟩ := substitute_single (fun v _ => listed_lists values v) hsingle
  have hvals : ∀ v ∈ expr.vars.dedup, rvalues (lists values) v = [firstValue (lists values) v] := by
    intro v hv
    have hv := (mem_vars_iff.mp (List.mem_dedup.mp hv)).resolve_right (by rw [hidden]; exact List.not_mem_nil)
    exact rvalues_eq_firstValue (hsingle v hv)
  obtain ⟨σ, hσ, hval⟩ := assignments_single hvals
  have hinst : expr.inst σ = expr.inst (firstValue (lists values)) :=
    inst_congr fun v hv => hval v (List.mem_dedup.mpr hv)
  refine ⟨u, hu, ?_⟩
  rw [← sequential_eq_inst_iff _ hidden, hresult]
  constructor
  · intro h
    have hperm := h.instances
    rw [hσ, List.map_singleton, hinst] at hperm
    exact List.singleton_inj.mp (List.perm_singleton.mp hperm)
  · intro h
    have hinst' : [sequential (firstValue (lists values)) (expr.occs.map Prod.snd) expr] =
        (assignments (rvalues (lists values)) expr.vars.dedup).map fun σ => expr.inst σ := by
      rw [hσ, List.map_singleton, hinst, h]
    refine ⟨hinst' ▸ List.Perm.refl _, ?_⟩
    rw [hinst', List.length_map, length_assignments]

/-- The variables of an enumerated expression come from values. -/
theorem Enumerates.mem_vars {vals : Var → List Term} {expr : Term} {result : List Term}
    (h : Enumerates vals expr result) {e : Term} (he : e ∈ result) {x : Var} (hx : x ∈ e.vars) :
    ∃ v ∈ expr.vars, ∃ a ∈ vals v, x ∈ a.vars := by
  obtain ⟨σ, hσ, rfl⟩ := List.mem_map.mp (h.instances.mem_iff.mp he)
  obtain ⟨v, hv, hx⟩ := mem_vars_inst hx
  exact ⟨v, hv, σ v, mem_of_mem_assignments hσ v (List.mem_dedup.mpr hv), hx⟩

/-- **Symbolic substitution enumerates all instances** of an expression that is plain; and only then,
when no value mentions a variable that is hidden in the expression or has several values. -/
theorem substitute_enumerates (values : Dict Str (List Term)) (expr : Term) :
    ∃ u, substitute (lists values) expr = .ok u ∧
      (Plain (lists values) expr → Enumerates (rvalues (lists values)) expr u.result) ∧
      ((∀ x ∈ expr.vars, x ∈ expr.hidden ∨ 2 ≤ (rvalues (lists values) x).length →
          ∀ v ∈ expr.vars, ∀ a ∈ rvalues (lists values) v, x ∉ a.vars) →
        Enumerates (rvalues (lists values)) expr u.result → Plain (lists values) expr) := by
  obtain ⟨u, hu, hhid⟩ := @substitute_hidden (lists values) expr fun v _ => listed_lists values v
  refine ⟨u, hu, fun hplain => ?_, fun hfree henum => ?_⟩
  · obtain ⟨u', hu', hiff⟩ := enumerates_iff_of_single hplain.hidden hplain.single
    obtain rfl : u = u' := Except.ok.inj (hu.symm.trans hu')
    exact hiff.mpr hplain.settled
  · have hidden : expr.hidden = [] := by
      refine List.eq_nil_iff_forall_not_mem.mpr fun x hx => ?_
      have hxe : x ∈ u.expr.vars := mem_vars_iff.mpr (.inr (hhid x hx))
      obtain ⟨v, hv, a, ha, hxa⟩ := henum.mem_vars (by rw [Unfolding.result]; exact List.mem_cons_self) hxe
      exact hfree x (mem_vars_iff.mpr (.inr hx)) (.inl hx) v hv a ha hxa
    have hsingle : Single (lists values) expr := by
      intro x hx
      have hpos : 0 < (rvalues (lists values) x).length := by
        unfold rvalues
        split <;> simp
      by_contra hne
      have hxv : x ∈ expr.vars := mem_vars_iff.mpr (.inl hx)
      have hfree' := hfree x hxv (.inr (by omega))
      obtain ⟨u', hu', e, he, hxe⟩ := substitute_several (fun v _ => listed_lists values v) hx (by omega)
        fun v hv a ha hxa => hfree' v (mem_vars_iff.mpr (.inl hv)) a ha (mem_vars_iff.mpr (.inl hxa))
      obtain rfl : u = u' := Except.ok.inj (hu.symm.trans hu')
      obtain ⟨v, hv, a, ha, hxa⟩ := henum.mem_vars (by rw [Unfolding.result]; exact List.mem_cons_of_mem _ he)
        (mem_vars_iff.mpr (.inl hxe))
      exact hfree' v hv a ha hxa
    obtain ⟨u', hu', hiff⟩ := enumerates_iff_of_single hidden hsingle
    obtain rfl : u = u' := Except.ok.inj (hu.symm.trans hu')
    exact ⟨hidden, hsingle, hiff.mp henum⟩

/-- The variable `x` with the values `1` and `2`: the second copy keeps `x`. -/
theorem substitute_not_enumerates : ¬ ∀ (values : Dict Str (List Term)) (expr : Term),
    ∃ u, substitute (lists values) expr = .ok u ∧ Enumerates (rvalues (lists values)) expr u.result := by
  intro hall
  let x : Var := ⟨['x'], ['I', 'n', 't'], false⟩
  let values : Dict Str (List Term) :=
    [(['x'], [.const ⟨['1'], ['I', 'n', 't'], false⟩, .const ⟨['2'], ['I', 'n', 't'], false⟩])]
  obtain ⟨u, hu, henum⟩ := hall values (.var x)
  have hfree : ∀ a ∈ rvalues (lists values) x, x ∉ a.vars := by
    intro a ha
    have ha : a = .const ⟨['1'], ['I', 'n', 't'], false⟩ ∨ a = .const ⟨['2'], ['I', 'n', 't'], false⟩ := by
      simpa [rvalues, lists, values, x, Dict.get?] using ha
    rcases ha with rfl | rfl <;> simp [vars]
  obtain ⟨u', hu', e, he, hxe⟩ := @substitute_several (lists values) (.var x)
    (fun v _ => listed_lists values v) x (by simp [visible]) (by decide) fun v hv a ha hxa => by
      obtain rfl : v = x := by simpa [visible] using hv
      exact hfree a ha (mem_vars_iff.mpr (.inl hxa))
  obtain rfl : u = u' := Except.ok.inj (hu.symm.trans hu')
  obtain ⟨v, hv, a, ha, hxa⟩ := henum.mem_vars (by rw [Unfolding.result]; exact List.mem_cons_of_mem _ he)
    (mem_vars_iff.mpr (.inl hxe))
  obtain rfl : v = x := by simpa [vars] using hv
  exact hfree a ha hxa

end SEDiff.Juxta

import SEDiff.Juxta.Ast
import Mathlib.Data.List.Nodup

/-!
# The variables of a term

The variables that `find_all_var` finds are those outside the terms of a `let`.

## What is proved

* `Term.occs_spec` — `find_all_var` finds each visible variable once, at a node that holds it.
* `Term.node_substitute` — what substituting one variable does to the nodes of the others.
* `Term.node_setNode_substitute` — and setting the node of that variable afterwards.
* `Term.substitute_inst` — substituting in an instance substitutes in its values.
-/

namespace SEDiff.Juxta

open Foundation

namespace Term

mutual

/-- The occurrences outside the terms of a `let`. -/
def visible : Term → List Var
  | .var v => [v]
  | .const _ => []
  | .app _ _ _ ts => visibles ts

/-- `visible` of a list of terms. -/
def visibles : List Term → List Var
  | [] => []
  | t :: ts => visible t ++ visibles ts

end

mutual

/-- All occurrences. -/
def vars : Term → List Var
  | .var v => [v]
  | .const _ => []
  | .app _ _ ls ts => varss ls ++ varss ts

/-- `vars` of a list of terms. -/
def varss : List Term → List Var
  | [] => []
  | t :: ts => vars t ++ varss ts

end

mutual

/-- The occurrences inside the terms of a `let`. -/
def hidden : Term → List Var
  | .var _ => []
  | .const _ => []
  | .app _ _ ls ts => varss ls ++ hiddens ts

/-- `hidden` of a list of terms. -/
def hiddens : List Term → List Var
  | [] => []
  | t :: ts => hidden t ++ hiddens ts

end

mutual

/-- The instance of a term in which every variable has its value, at any depth. -/
def inst (σ : Var → Term) : Term → Term
  | .var v => σ v
  | .const c => .const c
  | .app h ty ls ts => .app h ty (insts σ ls) (insts σ ts)

/-- `inst` of a list of terms. -/
def insts (σ : Var → Term) : List Term → List Term
  | [] => []
  | t :: ts => inst σ t :: insts σ ts

end

theorem visibles_eq (ts : List Term) : visibles ts = ts.flatMap visible := by
  induction ts with
  | nil => rfl
  | cons t ts ih => rw [visibles, ih, List.flatMap_cons]

theorem varss_eq (ts : List Term) : varss ts = ts.flatMap vars := by
  induction ts with
  | nil => rfl
  | cons t ts ih => rw [varss, ih, List.flatMap_cons]

theorem hiddens_eq (ts : List Term) : hiddens ts = ts.flatMap hidden := by
  induction ts with
  | nil => rfl
  | cons t ts ih => rw [hiddens, ih, List.flatMap_cons]

theorem insts_eq (σ : Var → Term) (ts : List Term) : insts σ ts = ts.map (inst σ) := by
  induction ts with
  | nil => rfl
  | cons t ts ih => rw [insts, ih, List.map_cons]

theorem substitutes_eq (e repl : Term) (ts : List Term) :
    substitutes e repl ts = ts.map (substitute e repl) := by
  induction ts with
  | nil => rfl
  | cons t ts ih => rw [substitutes, ih, List.map_cons]

theorem mem_vars_iff {t : Term} {x : Var} : x ∈ t.vars ↔ x ∈ t.visible ∨ x ∈ t.hidden := by
  induction t using induction with
  | var v => simp [vars, visible, hidden]
  | const c => simp [vars, visible, hidden]
  | app h ty ls ts ihl iht =>
    simp only [vars, visible, hidden, varss_eq, visibles_eq, hiddens_eq, List.mem_append, List.mem_flatMap]
    constructor
    · rintro (hl | ⟨t, ht, hx⟩)
      · exact .inr (.inl hl)
      · cases (iht t ht).mp hx with
        | inl hx => exact .inl ⟨t, ht, hx⟩
        | inr hx => exact .inr (.inr ⟨t, ht, hx⟩)
    · rintro (⟨t, ht, hx⟩ | hl | ⟨t, ht, hx⟩)
      · exact .inr ⟨t, ht, (iht t ht).mpr (.inl hx)⟩
      · exact .inl hl
      · exact .inr ⟨t, ht, (iht t ht).mpr (.inr hx)⟩

/-! ### Equality -/

@[simp] theorem eq_var_iff {t : Term} {v : Var} : t.eq (.var v) = true ↔ t = .var v := by
  cases t with
  | var w => simp [eq]
  | const c => simp [eq]
  | app h ty ls ts => simp [eq]

/-- Equal terms have the same visible variables. -/
theorem visible_eq_of_eq {t s : Term} (h : t.eq s = true) : t.visible = s.visible := by
  induction t using induction generalizing s with
  | var v =>
    cases s with
    | var w =>
      have hvw : v = w := by simpa [eq] using h
      rw [hvw]
    | const c => exact absurd h (by simp [eq])
    | app h' ty' ls' ts' => exact absurd h (by simp [eq])
  | const c =>
    cases s with
    | var w => exact absurd h (by simp [eq])
    | const d => rfl
    | app h' ty' ls' ts' => exact absurd h (by simp [eq])
  | app hd ty ls ts _ ih =>
    cases s with
    | var w => exact absurd h (by simp [eq])
    | const d => exact absurd h (by simp [eq])
    | app h' ty' ls' ts' =>
      have heqs : eqs ts ts' = true := by
        rw [eq, Bool.and_eq_true] at h
        exact h.2
      clear h
      rw [visible, visible]
      induction ts generalizing ts' with
      | nil =>
        cases ts' with
        | nil => rfl
        | cons t' ts' => exact absurd heqs (by simp [eqs])
      | cons t ts iht =>
        cases ts' with
        | nil => exact absurd heqs (by simp [eqs])
        | cons t' ts' =>
          rw [eqs, Bool.and_eq_true] at heqs
          rw [visibles, visibles, ih t List.mem_cons_self heqs.1,
            iht (fun u hu => ih u (List.mem_cons_of_mem _ hu)) ts' heqs.2]

/-! ### Substitution -/

/-- Substituting a variable. -/
@[simp] theorem substitute_var_var (v w : Var) (a : Term) :
    substitute (.var v) a (.var w) = if w = v then a else .var w := by
  rw [substitute]
  by_cases h : w = v
  · rw [if_pos (eq_var_iff.mpr (by rw [h])), if_pos h]
  · rw [if_neg fun heq => h (Term.var.inj (eq_var_iff.mp heq)), if_neg h]

@[simp] theorem substitute_var_const (v c : Var) (a : Term) : substitute (.var v) a (.const c) = .const c := by
  rw [substitute, if_neg (by simp [eq])]

@[simp] theorem substitute_var_app (v : Var) (a : Term) (h : Head) (ty : Option Str) (ls ts : List Term) :
    substitute (.var v) a (.app h ty ls ts) = .app h ty ls (ts.map (substitute (.var v) a)) := by
  rw [substitute, if_neg (by simp [eq]), substitutes_eq]

/-- A variable that is not visible is not substituted. -/
theorem substitute_of_not_visible {v : Var} {t : Term} (h : v ∉ t.visible) (a : Term) :
    substitute (.var v) a t = t := by
  induction t using induction with
  | var w => rw [substitute_var_var, if_neg fun heq => h (by simp [visible, heq])]
  | const c => rw [substitute_var_const]
  | app hd ty ls ts _ ih =>
    rw [visible, visibles_eq, List.mem_flatMap] at h
    have hts : ts.map (substitute (.var v) a) = ts.map id :=
      List.map_congr_left fun t ht => ih t ht fun hv => h ⟨t, ht, hv⟩
    rw [substitute_var_app, hts, List.map_id]

/-- The visible variables after a substitution. -/
theorem mem_visible_substitute {v x : Var} {t a : Term} (hx : x ∈ (substitute (.var v) a t).visible) :
    (x ∈ t.visible ∧ x ≠ v) ∨ x ∈ a.visible := by
  induction t using induction with
  | var w =>
    rw [substitute_var_var] at hx
    by_cases h : w = v
    · rw [if_pos h] at hx
      exact .inr hx
    · rw [if_neg h] at hx
      obtain rfl : x = w := by simpa [visible] using hx
      exact .inl ⟨by simp [visible], h⟩
  | const c => rw [substitute_var_const] at hx; exact absurd hx (by simp [visible])
  | app hd ty ls ts _ ih =>
    rw [substitute_var_app, visible, visibles_eq, List.flatMap_map, List.mem_flatMap] at hx
    obtain ⟨t, ht, hx⟩ := hx
    cases ih t ht hx with
    | inl h =>
      refine .inl ⟨?_, h.2⟩
      rw [visible, visibles_eq]
      exact List.mem_flatMap.mpr ⟨t, ht, h.1⟩
    | inr h => exact .inr h

/-- The hidden variables after a substitution. -/
theorem mem_hidden_substitute {v x : Var} {t a : Term} (hx : x ∈ (substitute (.var v) a t).hidden) :
    x ∈ t.hidden ∨ x ∈ a.hidden := by
  induction t using induction with
  | var w =>
    rw [substitute_var_var] at hx
    by_cases h : w = v
    · rw [if_pos h] at hx
      exact .inr hx
    · rw [if_neg h] at hx
      exact absurd hx (by simp [hidden])
  | const c => rw [substitute_var_const] at hx; exact absurd hx (by simp [hidden])
  | app hd ty ls ts _ ih =>
    rw [substitute_var_app, hidden, hiddens_eq, List.mem_append, List.flatMap_map, List.mem_flatMap] at hx
    rw [hidden, hiddens_eq, List.mem_append, List.mem_flatMap]
    rcases hx with hl | ⟨t, ht, hx⟩
    · exact .inl (.inl hl)
    · cases ih t ht hx with
      | inl h => exact .inl (.inr ⟨t, ht, h⟩)
      | inr h => exact .inr h

/-- What is hidden stays hidden. -/
theorem hidden_subset_substitute (v : Var) (t a : Term) :
    ∀ x ∈ t.hidden, x ∈ (substitute (.var v) a t).hidden := by
  induction t using induction with
  | var w => exact fun x hx => absurd hx (by simp [hidden])
  | const c => exact fun x hx => absurd hx (by simp [hidden])
  | app hd ty ls ts _ ih =>
    intro x hx
    rw [hidden, hiddens_eq, List.mem_append, List.mem_flatMap] at hx
    rw [substitute_var_app, hidden, hiddens_eq, List.mem_append, List.flatMap_map, List.mem_flatMap]
    rcases hx with hl | ⟨t, ht, hx⟩
    · exact .inl hl
    · exact .inr ⟨t, ht, ih t ht x hx⟩

/-- A variable that the pattern does not mention stays visible. -/
theorem mem_visible_substitute_of_not_mem {x : Var} {e : Term} (he : x ∉ e.visible) (repl : Term) {t : Term}
    (hx : x ∈ t.visible) : x ∈ (substitute e repl t).visible := by
  induction t using induction with
  | var w =>
    rw [substitute, if_neg fun heq => he (visible_eq_of_eq heq ▸ hx)]
    exact hx
  | const c => exact absurd hx (by simp [visible])
  | app hd ty ls ts _ ih =>
    rw [substitute, if_neg fun heq => he (visible_eq_of_eq heq ▸ hx), visible, visibles_eq, substitutes_eq,
      List.flatMap_map, List.mem_flatMap]
    rw [visible, visibles_eq, List.mem_flatMap] at hx
    obtain ⟨t, ht, hx⟩ := hx
    exact ⟨t, ht, ih t ht hx⟩

/-! ### Nodes -/

theorem node_app_cons (h : Head) (ty : Option Str) (ls ts : List Term) (i : ℕ) (p : Path) :
    node (i :: p) (.app h ty ls ts) = (ts[i]?).bind (node p) := rfl

/-- The nodes of variables after a substitution. -/
theorem node_substitute {p : Path} {t : Term} {x : Var} (h : node p t = some (.var x)) (v : Var) (a : Term) :
    node p (substitute (.var v) a t) = some (if x = v then a else .var x) := by
  induction p generalizing t with
  | nil =>
    obtain rfl : t = .var x := Option.some_inj.mp h
    rw [substitute_var_var]
    rfl
  | cons i p ih =>
    cases t with
    | var w => exact nomatch h
    | const c => exact nomatch h
    | app hd ty ls ts =>
      rw [node_app_cons, Option.bind_eq_some_iff] at h
      obtain ⟨t, ht, hp⟩ := h
      rw [substitute_var_app, node_app_cons, List.getElem?_map, ht]
      exact ih hp

/-- Set a node that there is. -/
theorem node_setNode {p : Path} {t : Term} (h : node p t ≠ none) (b : Term) :
    node p (setNode b p t) = some b := by
  induction p generalizing t with
  | nil => rfl
  | cons i p ih =>
    cases t with
    | var w => exact absurd rfl h
    | const c => exact absurd rfl h
    | app hd ty ls ts =>
      rw [node_app_cons] at h
      rw [setNode, node_app_cons, List.getElem?_modify_eq]
      cases hti : ts[i]? with
      | none => exact absurd (by rw [hti]; rfl) h
      | some t =>
        rw [hti] at h
        exact ih h

theorem setNode_setNode (b c : Term) (p : Path) (t : Term) : setNode c p (setNode b p t) = setNode c p t := by
  induction p generalizing t with
  | nil => rfl
  | cons i p ih =>
    cases t with
    | var w => rfl
    | const d => rfl
    | app hd ty ls ts =>
      rw [setNode, setNode, setNode, List.modify_modify_eq]
      congr 2
      exact funext ih

/-- Setting a node to what it is. -/
theorem setNode_of_node {p : Path} {t b : Term} (h : node p t = some b) : setNode b p t = t := by
  induction p generalizing t with
  | nil => exact (Option.some_inj.mp h).symm
  | cons i p ih =>
    cases t with
    | var w => rfl
    | const d => rfl
    | app hd ty ls ts =>
      rw [node_app_cons, Option.bind_eq_some_iff] at h
      obtain ⟨t, ht, hp⟩ := h
      rw [setNode]
      congr 1
      refine List.ext_getElem? fun j => ?_
      by_cases hij : i = j
      · subst hij
        rw [List.getElem?_modify_eq, ht, Option.map_eq_map, Option.map_some, ih hp]
      · rw [List.getElem?_modify_ne _ _ hij]

/-- The nodes of the other variables, after a variable is substituted and its node at `p` set. -/
theorem node_setNode_substitute {p q : Path} {t : Term} {v w : Var} (hp : node p t = some (.var v))
    (hq : node q t = some (.var w)) (hne : w ≠ v) (a b : Term) :
    node q (setNode b p (substitute (.var v) a t)) = some (.var w) := by
  induction p generalizing q t with
  | nil =>
    obtain rfl : t = .var v := Option.some_inj.mp hp
    cases q with
    | nil => exact absurd (Term.var.inj (Option.some_inj.mp hq)).symm hne
    | cons j q => exact nomatch hq
  | cons i p ih =>
    cases t with
    | var x => exact nomatch hp
    | const c => exact nomatch hp
    | app hd ty ls ts =>
      cases q with
      | nil => exact nomatch hq
      | cons j q =>
        rw [node_app_cons, Option.bind_eq_some_iff] at hp hq
        obtain ⟨t, ht, hp⟩ := hp
        obtain ⟨s, hs, hq⟩ := hq
        rw [substitute_var_app, setNode, node_app_cons]
        by_cases hij : i = j
        · subst hij
          obtain rfl : t = s := Option.some_inj.mp (ht.symm.trans hs)
          rw [List.getElem?_modify_eq, List.getElem?_map, ht]
          exact ih hp hq
        · rw [List.getElem?_modify_ne _ _ hij, List.getElem?_map, hs]
          exact (node_substitute hq v a).trans (by rw [if_neg hne])

/-- What is hidden stays hidden, after a variable is substituted and its node at `p` set. -/
theorem hidden_subset_setNode_substitute {p : Path} {t : Term} {v : Var} (hp : node p t = some (.var v))
    (a b : Term) : ∀ x ∈ t.hidden, x ∈ (setNode b p (substitute (.var v) a t)).hidden := by
  induction p generalizing t with
  | nil =>
    obtain rfl : t = .var v := Option.some_inj.mp hp
    exact fun x hx => absurd hx List.not_mem_nil
  | cons i p ih =>
    cases t with
    | var x => exact nomatch hp
    | const c => exact nomatch hp
    | app hd ty ls ts =>
      rw [node_app_cons, Option.bind_eq_some_iff] at hp
      obtain ⟨t, ht, hp⟩ := hp
      intro x hx
      rw [hidden, hiddens_eq, List.mem_append, List.mem_flatMap] at hx
      rw [substitute_var_app, setNode, hidden, hiddens_eq, List.mem_append, List.mem_flatMap]
      rcases hx with hl | ⟨s, hs, hx⟩
      · exact .inl hl
      · obtain ⟨j, hj⟩ := List.mem_iff_getElem?.mp hs
        by_cases hij : i = j
        · subst hij
          obtain rfl : t = s := Option.some_inj.mp (ht.symm.trans hj)
          refine .inr ⟨_, List.mem_of_getElem? (i := i) ?_, ih hp x hx⟩
          rw [List.getElem?_modify_eq, List.getElem?_map, ht]
          rfl
        · refine .inr ⟨_, List.mem_of_getElem? (i := j) ?_, hidden_subset_substitute v s a x hx⟩
          rw [List.getElem?_modify_ne _ _ hij, List.getElem?_map, hj]
          rfl

/-! ### `find_all_var` -/

/-- The nodes found so far. -/
structure Found (found : List (Path × Var)) (t : Term) (path : Path) (found' : List (Path × Var)) : Prop where
  /-- Nothing is lost. -/
  old : ∀ o ∈ found, o ∈ found'
  /-- The new ones are nodes of `t`. -/
  new : ∀ o ∈ found', o ∈ found ∨ ∃ p, o.1 = path ++ p ∧ node p t = some (.var o.2)
  /-- Every variable is found. -/
  all : ∀ x ∈ t.visible, x ∈ found'.map Prod.snd
  /-- No variable is found twice. -/
  nodup : (found.map Prod.snd).Nodup → (found'.map Prod.snd).Nodup
  /-- Only the variables of `t` are added. -/
  only : ∀ o ∈ found', o ∈ found ∨ o.2 ∈ t.visible

theorem find_all_var_found (t : Term) (path : Path) (found : List (Path × Var)) :
    Found found t path (find_all_var path t found) := by
  induction t using induction generalizing path found with
  | var v =>
    rw [find_all_var]
    by_cases hv : v ∈ found.map Prod.snd
    · rw [if_pos hv]
      exact ⟨fun _ h => h, fun _ h => .inl h, fun x hx => by
        obtain rfl : x = v := by simpa [visible] using hx
        exact hv, id, fun _ h => .inl h⟩
    · rw [if_neg hv]
      refine ⟨fun _ h => List.mem_append_left _ h, fun o ho => ?_, fun x hx => ?_, fun hn => ?_, fun o ho => ?_⟩
      · cases List.mem_append.mp ho with
        | inl h => exact .inl h
        | inr h =>
          obtain rfl := List.mem_singleton.mp h
          exact .inr ⟨[], (List.append_nil _).symm, rfl⟩
      · obtain rfl : x = v := by simpa [visible] using hx
        simp
      · rw [List.map_append]
        exact List.nodup_append.mpr ⟨hn, by simp, fun a ha b hb => by
          obtain rfl : b = v := by simpa using hb
          exact fun h => hv (h ▸ ha)⟩
      · cases List.mem_append.mp ho with
        | inl h => exact .inl h
        | inr h =>
          obtain rfl := List.mem_singleton.mp h
          exact .inr (by simp [visible])
  | const c => exact ⟨fun _ h => h, fun _ h => .inl h, fun x hx => absurd hx (by simp [visible]), id,
      fun _ h => .inl h⟩
  | app hd ty ls ts _ ih =>
    -- the subterms before number `k` are done
    have hloop : ∀ (rest : List Term) (k : ℕ), ts.drop k = rest → ∀ found,
        (∀ o ∈ found, o ∈ find_all_vars path k rest found) ∧
        (∀ o ∈ find_all_vars path k rest found, o ∈ found ∨
          (o.2 ∈ visibles rest ∧ ∃ p, o.1 = path ++ p ∧ node p (.app hd ty ls ts) = some (.var o.2))) ∧
        (∀ x ∈ visibles rest, x ∈ (find_all_vars path k rest found).map Prod.snd) ∧
        ((found.map Prod.snd).Nodup → ((find_all_vars path k rest found).map Prod.snd).Nodup) := by
      intro rest
      induction rest with
      | nil => exact fun k _ found => ⟨fun _ h => h, fun _ h => .inl h, fun x hx => absurd hx List.not_mem_nil, id⟩
      | cons t rest ihrest =>
        intro k hk found
        have htk : ts[k]? = some t := by
          rw [← List.head?_drop, hk]
          rfl
        have hdrop : ts.drop (k + 1) = rest := by
          rw [← List.tail_drop, hk]
          rfl
        have ht := ih t (List.mem_of_getElem? htk) (path ++ [k]) found
        obtain ⟨h1, h2, h3, h4⟩ := ihrest (k + 1) hdrop (find_all_var (path ++ [k]) t found)
        rw [find_all_vars, visibles]
        refine ⟨fun o ho => h1 o (ht.old o ho), fun o ho => ?_, fun x hx => ?_, fun hn => h4 (ht.nodup hn)⟩
        · cases h2 o ho with
          | inl h =>
            cases ht.new o h with
            | inl h => exact .inl h
            | inr hp =>
              cases ht.only o h with
              | inl h => exact .inl h
              | inr hvis =>
                obtain ⟨p, hpath, hnode⟩ := hp
                refine .inr ⟨List.mem_append_left _ hvis, k :: p, ?_, ?_⟩
                · rw [hpath, List.append_assoc]
                  rfl
                · rw [node_app_cons, htk]
                  exact hnode
          | inr h => exact .inr ⟨List.mem_append_right _ h.1, h.2⟩
        · cases List.mem_append.mp hx with
          | inl hx =>
            obtain ⟨o, ho, rfl⟩ := List.mem_map.mp (ht.all x hx)
            exact List.mem_map_of_mem (h1 o ho)
          | inr hx => exact h3 x hx
    obtain ⟨h1, h2, h3, h4⟩ := hloop ts 0 rfl found
    refine ⟨h1, fun o ho => ?_, h3, h4, fun o ho => ?_⟩
    · exact (h2 o ho).imp_right And.right
    · exact (h2 o ho).imp_right And.left

/-- **`find_all_var`** finds every visible variable once, at a node that holds it. -/
theorem occs_spec (t : Term) :
    (∀ o ∈ t.occs, node o.1 t = some (.var o.2)) ∧ (t.occs.map Prod.snd).Nodup ∧
      ∀ x, x ∈ t.occs.map Prod.snd ↔ x ∈ t.visible := by
  obtain ⟨-, hnew, hall, hnodup, honly⟩ := find_all_var_found t [] []
  refine ⟨fun o ho => ?_, hnodup List.nodup_nil, fun x => ⟨fun hx => ?_, hall x⟩⟩
  · obtain ⟨p, hp, hnode⟩ := (hnew o ho).resolve_left List.not_mem_nil
    rw [hp]
    exact hnode
  · obtain ⟨o, ho, rfl⟩ := List.mem_map.mp hx
    exact (honly o ho).resolve_left List.not_mem_nil

/-! ### Instances -/

/-- Instances depend on the variables of the term. -/
theorem inst_congr {σ τ : Var → Term} {t : Term} (h : ∀ x ∈ t.vars, σ x = τ x) : t.inst σ = t.inst τ := by
  induction t using induction with
  | var v => exact h v (by simp [vars])
  | const c => rfl
  | app hd ty ls ts ihl iht =>
    simp only [vars, varss_eq, List.mem_append, List.mem_flatMap] at h
    rw [inst, inst, insts_eq, insts_eq, insts_eq, insts_eq]
    have hl : ls.map (inst σ) = ls.map (inst τ) :=
      List.map_congr_left fun t ht => ihl t ht fun x hx => h x (.inl ⟨t, ht, hx⟩)
    have ht : ts.map (inst σ) = ts.map (inst τ) :=
      List.map_congr_left fun t ht => iht t ht fun x hx => h x (.inr ⟨t, ht, hx⟩)
    rw [hl, ht]

/-- A term is its instance under the variables themselves. -/
theorem inst_var (t : Term) : t.inst .var = t := by
  induction t using induction with
  | var v => rfl
  | const c => rfl
  | app hd ty ls ts ihl iht =>
    have hl : ls.map (inst .var) = ls.map id := List.map_congr_left ihl
    have ht : ts.map (inst .var) = ts.map id := List.map_congr_left iht
    rw [inst, insts_eq, insts_eq, hl, ht, List.map_id, List.map_id]

/-- The variables of an instance come from the values. -/
theorem mem_vars_inst {σ : Var → Term} {t : Term} {x : Var} (hx : x ∈ (t.inst σ).vars) :
    ∃ v ∈ t.vars, x ∈ (σ v).vars := by
  induction t using induction with
  | var v => exact ⟨v, by simp [vars], hx⟩
  | const c => exact absurd hx (by simp [inst, vars])
  | app hd ty ls ts ihl iht =>
    simp only [inst, vars, insts_eq, varss_eq, List.flatMap_map, List.mem_append, List.mem_flatMap] at hx ⊢
    rcases hx with ⟨t, ht, hx⟩ | ⟨t, ht, hx⟩
    · obtain ⟨v, hv, hx⟩ := ihl t ht hx
      exact ⟨v, .inl ⟨t, ht, hv⟩, hx⟩
    · obtain ⟨v, hv, hx⟩ := iht t ht hx
      exact ⟨v, .inr ⟨t, ht, hv⟩, hx⟩

/-- Instances that are equal have equal values. -/
theorem inst_inj {σ τ : Var → Term} {t : Term} (h : t.inst σ = t.inst τ) : ∀ x ∈ t.vars, σ x = τ x := by
  induction t using induction with
  | var v =>
    intro x hx
    obtain rfl : x = v := by simpa [vars] using hx
    exact h
  | const c => exact fun x hx => absurd hx (by simp [vars])
  | app hd ty ls ts ihl iht =>
    rw [inst, inst, insts_eq, insts_eq, insts_eq, insts_eq] at h
    obtain ⟨-, -, hl, ht⟩ := Term.app.inj h
    intro x hx
    simp only [vars, varss_eq, List.mem_append, List.mem_flatMap] at hx
    rcases hx with ⟨t, hm, hx⟩ | ⟨t, hm, hx⟩
    · exact ihl t hm (List.map_inj_left.mp hl t hm) x hx
    · exact iht t hm (List.map_inj_left.mp ht t hm) x hx

/-- **Substituting in an instance** substitutes in its values. -/
theorem substitute_inst (σ : Var → Term) (v : Var) (a : Term) {t : Term} (hidden : t.hidden = []) :
    substitute (.var v) a (t.inst σ) = t.inst fun x => substitute (.var v) a (σ x) := by
  induction t using induction with
  | var w => rfl
  | const c => rw [inst, inst, substitute_var_const]
  | app hd ty ls ts _ ih =>
    rw [Term.hidden, List.append_eq_nil_iff, varss_eq, hiddens_eq, List.flatMap_eq_nil_iff,
      List.flatMap_eq_nil_iff] at hidden
    obtain ⟨hl, ht⟩ := hidden
    have hlets : ls.map (inst σ) = ls.map (inst fun x => substitute (.var v) a (σ x)) := by
      refine List.map_congr_left fun t hm => inst_congr fun x hx => ?_
      rw [hl t hm] at hx
      exact absurd hx List.not_mem_nil
    have hsubs : (ts.map (inst σ)).map (substitute (.var v) a) =
        ts.map (inst fun x => substitute (.var v) a (σ x)) := by
      rw [List.map_map]
      exact List.map_congr_left fun t hm => ih t hm (ht t hm)
    rw [inst, inst, insts_eq, insts_eq, insts_eq, insts_eq, substitute_var_app, hlets, hsubs]

/-- A node that holds a variable makes it visible. -/
theorem visible_of_node {p : Path} {t : Term} {x : Var} (h : node p t = some (.var x)) : x ∈ t.visible := by
  induction p generalizing t with
  | nil =>
    obtain rfl : t = .var x := Option.some_inj.mp h
    simp [visible]
  | cons i p ih =>
    cases t with
    | var w => exact nomatch h
    | const c => exact nomatch h
    | app hd ty ls ts =>
      rw [node_app_cons, Option.bind_eq_some_iff] at h
      obtain ⟨t, ht, hp⟩ := h
      rw [visible, visibles_eq]
      exact List.mem_flatMap_of_mem (List.mem_of_getElem? ht) (ih hp)

end Term

end SEDiff.Juxta

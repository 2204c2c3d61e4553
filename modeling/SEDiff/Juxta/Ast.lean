import SEDiff.Foundation.Text

/-!
# Terms

`Term` of `parsing/Ast.py`. A `let` keeps the terms it binds apart from its subterms, and neither
`==` nor `find_all_var` nor `find_all` looks at them.
-/

namespace SEDiff.Juxta

open Foundation

/-- The name of a variable or a constant. -/
structure Var where
  /-- Its name. -/
  name : Str
  /-- Its type. -/
  type : Str
  /-- It is an indexed identifier. -/
  is_indexed_id : Bool := false
  deriving DecidableEq, Repr

/-- What a term applies to its subterms. -/
inductive Head
  /-- An operator. -/
  | op (op : Str)
  /-- A quantifier over variables with these names and types. -/
  | quantifier (quantifier : Str) (names types : List Str)
  /-- A label: its keyword and its value. -/
  | label (keyword value : Str)
  /-- `let`, with the names it binds. -/
  | letBinding (var_binders : List Str)
  deriving DecidableEq, Repr

/-- `Term`. -/
inductive Term
  /-- A variable. -/
  | var (v : Var)
  /-- A constant. -/
  | const (c : Var)
  /-- Any other term. -/
  | app (head : Head) (type : Option Str) (let_terms subterms : List Term)
  deriving Repr

/-- Heads that `__eq__` does not tell apart: the names that a `let` binds are not compared. -/
def Head.same : Head → Head → Bool
  | .letBinding _, .letBinding _ => true
  | h, h' => h = h'

namespace Term

/-- Induction over the subterms and the terms of a `let`. -/
@[elab_as_elim]
theorem induction {motive : Term → Prop} (var : ∀ v, motive (.var v)) (const : ∀ c, motive (.const c))
    (app : ∀ head type let_terms subterms, (∀ t ∈ let_terms, motive t) → (∀ t ∈ subterms, motive t) →
      motive (.app head type let_terms subterms)) : ∀ t, motive t
  | .var v => var v
  | .const c => const c
  | .app head type let_terms subterms =>
    app head type let_terms subterms (fun t _ => induction var const app t)
      fun t _ => induction var const app t

mutual

/-- `__eq__`. -/
def eq : Term → Term → Bool
  | .var v, .var w => v = w
  | .const c, .const d => c = d
  | .app h ty _ ts, .app h' ty' _ ts' => h.same h' && ty = ty' && eqs ts ts'
  | _, _ => false

/-- `==` of lists of terms. -/
def eqs : List Term → List Term → Bool
  | [], [] => true
  | t :: ts, t' :: ts' => eq t t' && eqs ts ts'
  | _, _ => false

end

mutual

/-- `__str__`. -/
def str : Term → Str
  | .var v => v.name
  | .const c => c.name
  | .app head _ let_terms subterms =>
    let subs := strs subterms
    match head with
    | .op op => "(".toList ++ op ++ " ".toList ++ [' '].intercalate subs ++ ")".toList
    | .quantifier q names types =>
      let vars := List.zipWith (fun n ty => "(".toList ++ n ++ " ".toList ++ ty ++ ")".toList) names types
      "(".toList ++ q ++ " (".toList ++ [' '].intercalate vars ++ ") ".toList ++ [' '].intercalate subs ++
        ")".toList
    | .label keyword value =>
      "(! ".toList ++ [' '].intercalate subs ++ " ".toList ++ keyword ++ " ".toList ++ value ++ ")".toList
    | .letBinding names =>
      "(let (".toList ++
        (List.zipWith (fun n s => "(".toList ++ n ++ " ".toList ++ s ++ ")".toList) names
          (strs let_terms)).flatten ++ ")".toList ++ subs.flatMap (' ' :: ·) ++ ")".toList

/-- `__str__` of each term. -/
def strs : List Term → List Str
  | [] => []
  | t :: ts => str t :: strs ts

end

mutual

/-- `substitute`: every occurrence that `find_all` finds of `e` is made a copy of `repl`. -/
def substitute (e repl : Term) : Term → Term
  | .var v => if eq (.var v) e then repl else .var v
  | .const c => if eq (.const c) e then repl else .const c
  | .app h ty ls ts => if eq (.app h ty ls ts) e then repl else .app h ty ls (substitutes e repl ts)

/-- `substitute` in each term. -/
def substitutes (e repl : Term) : List Term → List Term
  | [] => []
  | t :: ts => substitute e repl t :: substitutes e repl ts

end

/-- A node of a term: which subterm to take at each level. -/
abbrev Path := List ℕ

/-- The node at a path. -/
def node : Path → Term → Option Term
  | [], t => some t
  | i :: p, .app _ _ _ ts => (ts[i]?).bind (node p)
  | _ :: _, _ => none

/-- The term with its node at a path made a copy of `repl`. -/
def setNode (repl : Term) : Path → Term → Term
  | [], _ => repl
  | i :: p, .app h ty ls ts => .app h ty ls (ts.modify i (setNode repl p))
  | _ :: _, t => t

mutual

/-- `find_all_var`: the first node of each variable, below the node at `path`. -/
def find_all_var (path : Path) : Term → List (Path × Var) → List (Path × Var)
  | .var v, occs => if v ∈ occs.map Prod.snd then occs else occs ++ [(path, v)]
  | .const _, occs => occs
  | .app _ _ _ ts, occs => find_all_vars path 0 ts occs

/-- `find_all_var` in the subterms from number `i` on. -/
def find_all_vars (path : Path) (i : ℕ) : List Term → List (Path × Var) → List (Path × Var)
  | [], occs => occs
  | t :: ts, occs => find_all_vars path (i + 1) ts (find_all_var (path ++ [i]) t occs)

end

/-- The variables of a term, each at its first node. -/
def occs (t : Term) : List (Path × Var) := find_all_var [] t []

end Term

end SEDiff.Juxta

import SEDiff.Juxta.Substitute

/-!
# The data flow graph

`SE` of `code.py`: the equalities of a script give the variables their expressions, and a graph of
which variable flows into which. `resolveGraph` goes over the variables, each when all the variables
that flow into it are done, and evaluates its expressions.

`resolveGraph` is given by its steps: the `for` over the variables, the `for` over the expressions of
one variable inside it, and the `while` around them.
-/

namespace SEDiff.Juxta

open Foundation

/-- `Node`. -/
structure GNode where
  /-- "data flow out". -/
  out : List Str
  /-- "data flow in". -/
  ine : List Str

/-- "a data flow graph". -/
abbrev Graph := Dict Str GNode

/-- The node of a variable. -/
def Graph.node (g : Graph) (k : Str) : GNode := (g.get? k).getD ⟨[], []⟩

/-- `graph[k] = Node()` when it is not there. -/
def Graph.ensure (g : Graph) (k : Str) : Graph := if g.get? k = none then g.put k ⟨[], []⟩ else g

/-- `xs.append(x)` when it is not there. -/
def insertNew (xs : List Str) (x : Str) : List Str := if x ∈ xs then xs else xs ++ [x]

/-- An edge from `v0` to `v1`. -/
def Graph.link (g : Graph) (v0 v1 : Str) : Graph :=
  let g := Graph.ensure (Graph.ensure g v0) v1
  let g : Graph := g.put v0 { Graph.node g v0 with out := insertNew (Graph.node g v0).out v1 }
  g.put v1 { Graph.node g v1 with ine := insertNew (Graph.node g v1).ine v0 }

/-- What `SE` knows. -/
structure SE where
  /-- The variables with `_POST_` in their names. -/
  sources : List Var
  /-- Which variables flow into which. -/
  partialOrderPairs : List (List Var × List Var)
  /-- The values found. -/
  symbolicValue : List Term
  /-- "a data flow graph". -/
  graph : Graph
  /-- "sort the variables along with the data flow". -/
  sortedVariables : List Str
  /-- "map a variable name to its possible R values". -/
  variable2RValue : Table
  /-- The expressions of a variable. -/
  variable2Expr : Dict Str (List Term)

namespace SE

/-- `SE(glob)`. -/
def init : SE := ⟨[], [], [], [], [], [], []⟩

/-- The argument `$A0`, `$A1`, ... -/
def placeholder (count : ℕ) : Var := ⟨['$', 'A'] ++ Nat.toDigits 10 count, ['A'], false⟩

/-- A source, in the first loop of `start`. -/
def addSource (s : SE) (var : Var) : SE :=
  { s with
    sources := s.sources ++ [var]
    variable2Expr := s.variable2Expr.put var.name [.var var]
    variable2RValue := s.variable2RValue.put var.name (.list [.var (placeholder s.sources.length)]) }

/-- The first loop of `start`: `_POST_` variables are the sources. -/
def addSources (vars : List Var) : SE :=
  vars.foldl (fun s var => if "_POST_".toList <:+: (Term.var var).str then s.addSource var else s) init

/-- `variable2Expr[k].append(e)`. -/
def addExpr (s : SE) (k : Str) (e : Term) : SE :=
  { s with variable2Expr := s.variable2Expr.put k ((s.variable2Expr.get? k).getD [] ++ [e]) }

/-- `partialOrderPairs.append((a, b))`. -/
def addPair (s : SE) (a b : List Var) : SE := { s with partialOrderPairs := s.partialOrderPairs ++ [(a, b)] }

/-- The variables of an operand. -/
def operandVars (t : Term) : List Var := t.occs.map Prod.snd

/-- `sortOperands`, for the operands of an equality. -/
def sortEquality (s : SE) (operand0 operand1 : Term) : SE :=
  let first := operandVars operand0
  let second := operandVars operand1
  match operand0 with
  | .var a =>
    match operand1 with
    | .var b =>
      if a ∈ s.sources then (s.addExpr b.name operand0).addPair first second
      else (s.addExpr a.name operand1).addPair second first
    | _ => (s.addExpr a.name operand1).addPair second first
  | _ =>
    match operand1 with
    | .var b => (s.addExpr b.name operand0).addPair first second
    | _ => s.addPair first second

/-- `sortOperands`. -/
def sortOperands (s : SE) (command : Term) : Except PyErr SE :=
  match command with
  | .app (.op op) _ _ subterms =>
    if op = ['='] then
      match subterms with
      | operand0 :: operand1 :: _ => .ok (s.sortEquality operand0 operand1)
      | _ => .error .indexError
    else .ok s
  | _ => .ok s

/-- `createGraph`. -/
def createGraph (s : SE) : SE :=
  { s with
    graph := s.partialOrderPairs.foldl (fun g p =>
      p.1.foldl (fun g v0 => p.2.foldl (fun g v1 => Graph.link g v0.name v1.name) g) g) s.graph }

/-- `start`, up to `resolveGraph`, for these variables and equalities. -/
def prepare (vars : List Var) (equalOperations : List Term) : Except PyErr SE := do
  let s ← equalOperations.foldlM sortOperands (addSources vars)
  return s.createGraph

/-- `variable2RValue[var]` with the results of one evaluation. -/
def record (s : SE) (var : Str) (u : Unfolding) : Except PyErr SE :=
  match s.variable2RValue.get? var with
  | some (.list vals) => .ok { s with
      variable2RValue := s.variable2RValue.put var (.list (vals ++ u.result))
      symbolicValue := if u.hasUnresolved then s.symbolicValue else s.symbolicValue ++ u.result }
  | some (.bare _) => .error .typeError
  | none => .error .keyError

/-- `variable2RValue[var] = []` when it is not there. -/
def ensureRValue (s : SE) (var : Str) : SE :=
  if s.variable2RValue.get? var = none then
    { s with variable2RValue := s.variable2RValue.put var (.list []) }
  else s

end SE

mutual

/-- `find_all_equal`. -/
def find_all_equal : Term → List Term
  | .var _ => []
  | .const _ => []
  | .app h ty ls ts => find_all_equals ts ++ if h = .op ['='] then [.app h ty ls ts] else []

/-- `find_all_equal` in each term. -/
def find_all_equals : List Term → List Term
  | [] => []
  | t :: ts => find_all_equal t ++ find_all_equals ts

end

/-- Where `resolveGraph` is. -/
inductive Phase
  /-- At these variables of the `for`, with `found` so far. -/
  | scan (rest : List Str) (found : Bool)
  /-- At these expressions of `var`, with these variables to come. -/
  | eval (var : Str) (exprs : List Term) (rest : List Str)
  /-- Done. -/
  | finished

/-- The state of `resolveGraph`. -/
structure Resolve where
  /-- What `SE` knows. -/
  se : SE
  /-- `doneVariables`. -/
  doneVariables : List Str
  /-- Where it is. -/
  phase : Phase

namespace Resolve

/-- The start of `resolveGraph`. -/
def begin (se : SE) : Resolve := ⟨se, se.sources.map fun v => (Term.var v).str, .scan se.graph.keys false⟩

/-- A variable whose inputs are done. -/
def visit (c : Resolve) (var : Str) (rest : List Str) : Resolve :=
  match c.se.variable2Expr.get? var with
  | some exprs => ⟨c.se.ensureRValue var, c.doneVariables ++ [var], .eval var exprs rest⟩
  | none => ⟨c.se, c.doneVariables ++ [var], .scan rest true⟩

/-- The cycle-breaking fallback, for the first variable that is not done. -/
def fallback (c : Resolve) (var : Str) : Resolve :=
  let se :=
    if c.se.variable2Expr.get? var ≠ none then c.se.ensureRValue var
    else { c.se with variable2RValue := c.se.variable2RValue.put var (.bare (.var ⟨var, ['A'], false⟩)) }
  ⟨se, c.doneVariables ++ [var], .scan c.se.graph.keys false⟩

/-- The next step of `resolveGraph`. -/
def step (c : Resolve) : Except PyErr Resolve :=
  match c.phase with
  | .scan (var :: rest) found =>
    if var ∈ c.doneVariables then .ok { c with phase := .scan rest found }
    else if (Graph.node c.se.graph var).ine ⊆ c.doneVariables then .ok (c.visit var rest)
    else .ok { c with phase := .scan rest found }
  | .eval var (e :: exprs) rest => do
    let u ← substitute c.se.variable2RValue e
    let se ← c.se.record var u
    return { c with se := se, phase := .eval var exprs rest }
  | .eval _ [] rest => .ok { c with phase := .scan rest true }
  | .scan [] true => .ok { c with phase := .scan c.se.graph.keys false }
  | .scan [] false =>
    match c.se.graph.keys.find? (· ∉ c.doneVariables) with
    | none => .ok { c with se := { c.se with sortedVariables := c.doneVariables }, phase := .finished }
    | some var => .ok (c.fallback var)
  | .finished => .ok c

/-- `n` steps. -/
def run : ℕ → Resolve → Except PyErr Resolve
  | 0, c => .ok c
  | n + 1, c => c.step >>= run n

end Resolve

/-- `start`, up to the first step of `resolveGraph`, for the terms that the script asserts. -/
def start (script : List Term) : Except PyErr Resolve := do
  let vars := (script.foldl (fun occs t => Term.find_all_var [] t occs) []).map Prod.snd
  let se ← SE.prepare vars (script.flatMap find_all_equal)
  return .begin se

end SEDiff.Juxta

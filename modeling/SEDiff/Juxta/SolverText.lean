import SEDiff.Foundation.Dict
import SEDiff.Juxta.RangeTexts

/-!
# Conditions for the solver

`__parseCheckerCondition` and `__parseCondList` of `z3helper.py` print a condition as a constraint on its expression: each
range is printed as one comparison or as two, and all of them stand in one `Or`.

## What is proved

* `evalOr_comparisons` — what a constraint is worth where the expression has a value.
* `any_comparison_iff` — that is whether the value is in a range, unless a range has more than one value: then it is true.
* `constraint_iff` — the constraints of both functions denote the union of the ranges exactly at such values.
-/

namespace SEDiff.Juxta

open Foundation Str

/-! ### The source -/

/-- How a translation can end early. -/
inductive Stop
  /-- An exception. -/
  | raised (e : PyErr)
  /-- `sys.exit`. -/
  | exit
  /-- The ranges are another text than `eval` is modelled on. -/
  | unknown

/-- A translation that can end early. -/
def Stop.lift {α : Type*} : Except PyErr α → Except Stop α
  | .ok a => .ok a
  | .error e => .error (.raised e)

/-- `assert(b)`. -/
def Stop.check (b : Prop) [Decidable b] : Except Stop Unit := Stop.lift (pyAssert b)

namespace Z3Helper

/-- `ALLOWED_BIN_OP`. -/
def ALLOWED_BIN_OP : List Str := ["+", "-", "/", "*", "&", "|", "~"].map String.toList

/-- The variables of `breakExprIntoTokens`. -/
structure Tokens where
  /-- `tokens`. -/
  tokens : List Str
  /-- `nest`. -/
  nest : ℤ
  /-- `inExpr`. -/
  inExpr : Str

/-- The loop body of `breakExprIntoTokens`. -/
def break_char (t : Tokens) (c : Char) : Tokens :=
  let inExpr := t.inExpr ++ [c]
  let nest := if c = '(' then t.nest + 1 else if c = ')' then t.nest - 1 else t.nest
  if nest = 0 ∧ strip inExpr ≠ [] then
    let inExpr := strip inExpr
    let inExpr := if inExpr.head? = some '(' ∧ inExpr.getLast? = some ')' then inExpr.tail.dropLast else inExpr
    ⟨t.tokens ++ [strip inExpr], nest, []⟩
  else ⟨t.tokens, nest, inExpr⟩

/-- `breakExprIntoTokens`. -/
def breakExprIntoTokens (exprStr : Str) : List Str := (exprStr.foldl break_char ⟨[], 0, []⟩).tokens

/-- `getZ3Symbol`: "->" is replaced by "__". -/
def getZ3Symbol (expr : Str) : Str := "__".toList.intercalate (Str.split "->".toList expr)

/-- The loop body of `__parseExpr`: what is added to `z3expr`, and `unknownSymTable`. -/
def parseToken (token : Str) (unknownSymTable : Dict Str Str) : Except Stop (Str × Dict Str Str) :=
  if " # ".toList <:+: token then
    match token.splitOn '#' with
    | [kind, exp] =>
      let tokenExp := strip exp
      match strip kind with
      | [] => .error (.raised .indexError)
      | c :: _ =>
        if c = 'I' then .ok (tokenExp, unknownSymTable)
        else if c = 'S' then do
          let unknownSym := getZ3Symbol tokenExp
          Stop.check (∀ exp ∈ unknownSymTable.get? unknownSym, exp = tokenExp)
          return (unknownSym, unknownSymTable.put unknownSym tokenExp)
        else if c = 'E' then .error .exit
        else .ok ([], unknownSymTable)
    | _ => .error (.raised .assertionError)
  else do
    Stop.check (token ∈ ALLOWED_BIN_OP)
    return (' ' :: (token ++ [' ']), unknownSymTable)

/-- `__parseExpr`, from `z3expr` on. -/
def parseTokens : List Str → Str → Dict Str Str → Except Stop (Str × Dict Str Str)
  | [], z3expr, unknownSymTable => .ok (z3expr, unknownSymTable)
  | token :: tokens, z3expr, unknownSymTable => do
    let (s, unknownSymTable) ← parseToken token unknownSymTable
    parseTokens tokens (z3expr ++ s) unknownSymTable

/-- `__parseExpr`. -/
def parseExpr (exprStr : Str) (unknownSymTable : Dict Str Str) : Except Stop (Str × Dict Str Str) :=
  parseTokens (breakExprIntoTokens exprStr) [] unknownSymTable

/-- `"(%s) op %s" % (z3expr, value)`. -/
def comparison (z3expr op : Str) (value : ℤ) : Str := '(' :: (z3expr ++ ([')', ' '] ++ (op ++ ' ' :: ofInt value)))

/-- The comparisons of the ranges. -/
def comparisons (z3expr : Str) : List (List ℤ) → Except Stop (List Str)
  | [] => .ok []
  | [minValue, maxValue] :: z3range => do
    let rest ← comparisons z3expr z3range
    if minValue = maxValue then return comparison z3expr "==".toList minValue :: rest
    else return comparison z3expr ">=".toList minValue :: comparison z3expr "<=".toList maxValue :: rest
  | _ :: _ => .error (.raised .valueError)

/-- `"Or(" + ",".join(constraints) + ")"`. -/
def orText (constraints : List Str) : Str := "Or(".toList ++ (",".toList.intercalate constraints ++ ")".toList)

/-- What both functions do with a condition; there is no constraint when the expression is empty. -/
def constraint (cond : Str) (symTable : Dict Str Str) : Except Stop (Option Str × Dict Str Str) :=
  match cond.splitOn ':' with
  | [exprStr, rangeStr] => do
    let some z3range ← Stop.lift (parseRange rangeStr) | .error .unknown
    let (z3expr, symTable) ← parseExpr exprStr symTable
    if z3expr = [] then return (none, symTable)
    else return (some (orText (← comparisons z3expr z3range)), symTable)
  | _ => .error (.raised .assertionError)

/-- `__parseCheckerCondition`, which returns an empty list for an empty expression. -/
def parseCheckerCondition (checkerCondition : Str) (symTable : Dict Str Str) : Except Stop (Option Str × Dict Str Str) :=
  constraint checkerCondition symTable

/-- `__parseCondList`. -/
def parseCondList : List Str → Dict Str Str → Except Stop (Dict Str Str × List Str)
  | [], symTable => .ok (symTable, [])
  | cond :: condList, symTable => do
    let (z3str, symTable) ← constraint cond symTable
    let (symTable, z3constraints) ← parseCondList condList symTable
    return (symTable, z3str.toList ++ z3constraints)

end Z3Helper

open Z3Helper

/-! ### What a constraint is worth -/

/-- A string after what it starts with. -/
def after (start s : Str) : Option Str := if start <+: s then some (s.drop start.length) else none

/-- What a comparison is worth where the expression is `v`, and what follows it. -/
def evalComparison (z3expr : Str) (v : ℤ) (s : Str) : Option (Bool × Str) := do
  let s ← after ('(' :: (z3expr ++ [')', ' '])) s
  match s with
  | c :: '=' :: ' ' :: s => do
    let (value, s) ← evalInt s
    if c = '=' then return (decide (v = value), s)
    else if c = '>' then return (decide (value ≤ v), s)
    else if c = '<' then return (decide (v ≤ value), s)
    else none
  | _ => none

/-- What the rest of an `Or` is worth, with the number of comparisons it may have. -/
def evalDisjuncts (z3expr : Str) (v : ℤ) : ℕ → Str → Option Bool
  | 0, _ => none
  | n + 1, s => do
    let (b, s) ← evalComparison z3expr v s
    match s with
    | [')'] => some b
    | ',' :: s => return b || (← evalDisjuncts z3expr v n s)
    | _ => none

/-- What a constraint is worth over the integers where the expression is `v`. -/
def evalOr (z3expr : Str) (v : ℤ) (text : Str) : Option Bool := do
  let s ← after "Or(".toList text
  evalDisjuncts z3expr v s.length s

example : evalOr "x__i".toList 4 "Or((x__i) == 3,(x__i) >= 5,(x__i) <= 7)".toList = some true := by decide

/-- The comparisons that a range is printed as: the character before the equals sign, and the value. -/
def comparisonsOf (p : ℤ × ℤ) : List (Char × ℤ) := if p.1 = p.2 then [('=', p.1)] else [('>', p.1), ('<', p.2)]

/-- The text of a comparison. -/
def comparisonText (z3expr : Str) (c : Char × ℤ) : Str := comparison z3expr [c.1, '='] c.2

/-- Whether a comparison is true. -/
def comparisonHolds (v : ℤ) (c : Char × ℤ) : Bool :=
  if c.1 = '=' then decide (v = c.2) else if c.1 = '>' then decide (c.2 ≤ v) else decide (v ≤ c.2)

theorem comparisons_eq (z3expr : Str) (ps : List (ℤ × ℤ)) : comparisons z3expr (ps.map fun p => [p.1, p.2]) =
    .ok ((ps.flatMap comparisonsOf).map (comparisonText z3expr)) := by
  induction ps with
  | nil => rfl
  | cons p ps ih =>
    rw [List.map_cons, comparisons, ih, List.flatMap_cons, comparisonsOf]
    by_cases hp : p.1 = p.2 <;> simp [hp, comparisonText, pure, Except.pure]

theorem mem_comparisonsOf {p : ℤ × ℤ} {c : Char × ℤ} (hc : c ∈ comparisonsOf p) : c.1 ∈ ['=', '>', '<'] := by
  rw [comparisonsOf] at hc
  split_ifs at hc
  · rw [List.mem_singleton] at hc
    simp [hc]
  · obtain rfl | hc := List.mem_cons.mp hc
    · simp
    · rw [List.mem_singleton] at hc
      simp [hc]

theorem after_append (start s : Str) : after start (start ++ s) = some s := by
  rw [after, if_pos (List.prefix_append start s), List.drop_left]

/-- A comparison that is printed is worth what it says. -/
theorem evalComparison_text (z3expr : Str) (v : ℤ) {c : Char × ℤ} (hc : c.1 ∈ ['=', '>', '<']) {d : Char}
    (hd : d.isDigit = false) (s : Str) :
    evalComparison z3expr v (comparisonText z3expr c ++ d :: s) = some (comparisonHolds v c, d :: s) := by
  have hshape : comparisonText z3expr c ++ d :: s =
      ('(' :: (z3expr ++ [')', ' '])) ++ c.1 :: '=' :: ' ' :: (ofInt c.2 ++ d :: s) := by
    simp [comparisonText, comparison]
  have hint : evalInt (ofInt c.2 ++ d :: s) = some (c.2, d :: s) :=
    @evalInt_ofInt [] (fun _ h => absurd h List.not_mem_nil) c.2 d hd s
  have hcases : c.1 = '=' ∨ c.1 = '>' ∨ c.1 = '<' := by simpa using hc
  rw [hshape, evalComparison, after_append]
  obtain h | h | h := hcases <;> simp [h, hint, comparisonHolds]

/-- The comparisons of an `Or`. -/
theorem evalDisjuncts_texts (z3expr : Str) (v : ℤ) {cs : List (Char × ℤ)} (hne : cs ≠ [])
    (hcs : ∀ c ∈ cs, c.1 ∈ ['=', '>', '<']) {n : ℕ} (hn : cs.length ≤ n) :
    evalDisjuncts z3expr v n (",".toList.intercalate (cs.map (comparisonText z3expr)) ++ ")".toList) =
      some (cs.any (comparisonHolds v)) := by
  induction cs generalizing n with
  | nil => exact absurd rfl hne
  | cons c cs ih =>
    have hc := hcs c List.mem_cons_self
    obtain ⟨n, rfl⟩ := Nat.exists_eq_succ_of_ne_zero (Nat.ne_of_gt (Nat.lt_of_lt_of_le (Nat.succ_pos _) hn))
    cases cs with
    | nil =>
      have htext : ",".toList.intercalate ([c].map (comparisonText z3expr)) ++ ")".toList =
          comparisonText z3expr c ++ ')' :: [] := by simp
      rw [htext, evalDisjuncts, evalComparison_text z3expr v hc (by decide)]
      simp
    | cons c' cs =>
      have hrest := ih (List.cons_ne_nil _ _) (fun d hd => hcs d (List.mem_cons_of_mem _ hd)) (Nat.le_of_succ_le_succ hn)
      have htext : ",".toList.intercalate ((c :: c' :: cs).map (comparisonText z3expr)) ++ ")".toList =
          comparisonText z3expr c ++
            ',' :: (",".toList.intercalate ((c' :: cs).map (comparisonText z3expr)) ++ ")".toList) := by
        rw [List.map_cons, List.map_cons, List.intercalate_cons_cons]
        simp
      rw [htext, evalDisjuncts, evalComparison_text z3expr v hc (by decide)]
      simp only [Option.bind_eq_bind, Option.bind_some, hrest]
      rfl

theorem length_le_intercalate (z3expr : Str) (cs : List (Char × ℤ)) :
    cs.length ≤ (",".toList.intercalate (cs.map (comparisonText z3expr))).length := by
  induction cs with
  | nil => exact Nat.zero_le _
  | cons c cs ih =>
    cases cs with
    | nil =>
      rw [List.map_singleton, List.intercalate_singleton]
      exact Nat.succ_le_of_lt (Nat.succ_pos _)
    | cons c' cs =>
      rw [List.map_cons, List.map_cons, List.intercalate_cons_cons, ← List.map_cons]
      have hpos : 0 < (comparisonText z3expr c).length := Nat.succ_pos _
      simp only [List.length_append, List.length_cons] at ih ⊢
      omega

/-- **A constraint** is true where one of its comparisons is. -/
theorem evalOr_comparisons (z3expr : Str) (v : ℤ) {cs : List (Char × ℤ)} (hne : cs ≠ [])
    (hcs : ∀ c ∈ cs, c.1 ∈ ['=', '>', '<']) :
    evalOr z3expr v (orText (cs.map (comparisonText z3expr))) = some (cs.any (comparisonHolds v)) := by
  rw [evalOr, orText, after_append]
  refine evalDisjuncts_texts z3expr v hne hcs ((length_le_intercalate z3expr cs).trans ?_)
  simp

/-! ### What a constraint denotes -/

/-- A value is in one of the ranges. -/
def InRanges (ps : List (ℤ × ℤ)) (v : ℤ) : Prop := ∃ p ∈ ps, p.1 ≤ v ∧ v ≤ p.2

instance (ps : List (ℤ × ℤ)) (v : ℤ) : Decidable (InRanges ps v) := inferInstanceAs (Decidable (∃ p ∈ ps, _))

/-- Each range is one value. -/
def Points (ps : List (ℤ × ℤ)) : Prop := ∀ p ∈ ps, p.1 = p.2

/-- A point is printed as the comparison with it. -/
theorem any_comparisonsOf_point {p : ℤ × ℤ} (hp : p.1 = p.2) (v : ℤ) :
    (comparisonsOf p).any (comparisonHolds v) = decide (p.1 ≤ v ∧ v ≤ p.2) := by
  rw [comparisonsOf, if_pos hp]
  simp only [List.any_cons, List.any_nil, comparisonHolds, Bool.or_false, if_true, decide_eq_decide]
  omega

/-- A range of more values is printed as two comparisons, one of which is true of every value. -/
theorem any_comparisonsOf_range {p : ℤ × ℤ} (hp : p.1 < p.2) (v : ℤ) : (comparisonsOf p).any (comparisonHolds v) = true := by
  rw [comparisonsOf, if_neg hp.ne]
  simp [comparisonHolds]
  omega

/-- **Whether some comparison is true** is whether the value is in a range exactly when all ranges are points, or it is in
a range. -/
theorem any_comparison_iff {ps : List (ℤ × ℤ)} (hps : ∀ p ∈ ps, p.1 ≤ p.2) (v : ℤ) :
    (ps.flatMap comparisonsOf).any (comparisonHolds v) = decide (InRanges ps v) ↔ Points ps ∨ InRanges ps v := by
  have hany : (ps.flatMap comparisonsOf).any (comparisonHolds v) = true ↔
      ∃ p ∈ ps, (comparisonsOf p).any (comparisonHolds v) = true := by
    simp only [List.any_flatMap, List.any_eq_true]
  by_cases hpoints : Points ps
  · refine iff_of_true (Bool.eq_iff_iff.mpr ?_) (.inl hpoints)
    rw [hany, decide_eq_true_eq]
    refine exists_congr fun p => and_congr_right fun hp => ?_
    rw [any_comparisonsOf_point (hpoints p hp), decide_eq_true_eq]
  · rw [Points] at hpoints
    push Not at hpoints
    obtain ⟨p, hp, hne⟩ := hpoints
    have htrue : (ps.flatMap comparisonsOf).any (comparisonHolds v) = true :=
      hany.mpr ⟨p, hp, any_comparisonsOf_range (lt_of_le_of_ne (hps p hp) hne) v⟩
    have hnot : ¬ Points ps := fun h => hne (h p hp)
    rw [htrue, eq_comm, decide_eq_true_eq, or_iff_right hnot]

/-- A constraint is worth whether the value is in one of the ranges. -/
def Denotes (z3expr : Str) (ps : List (ℤ × ℤ)) (text : Str) (v : ℤ) : Prop :=
  evalOr z3expr v text = some (decide (InRanges ps v))

/-- A constraint denotes the ranges exactly at these values. -/
def DenotesAt (z3expr : Str) (ps : List (ℤ × ℤ)) (text : Str) : Prop :=
  ∀ v, Denotes z3expr ps text v ↔ Points ps ∨ InRanges ps v

/-- A condition that has ranges, and an expression without a colon. -/
structure Ranged (expr : Str) (ps : List (ℤ × ℤ)) : Prop where
  /-- The expression. -/
  expr : ':' ∉ expr
  /-- The ranges. -/
  ne_nil : ps ≠ []
  /-- Their ends. -/
  sane : ∀ p ∈ ps, p.1 ≤ p.2

/-- What is made of a condition that is printed. -/
theorem constraint_text {expr : Str} {ps : List (ℤ × ℤ)} (h : Ranged expr ps) (symTable : Dict Str Str) :
    constraint (condition_text expr ps) symTable = do
      let (z3expr, symTable) ← parseExpr (expr ++ [' ']) symTable
      if z3expr = [] then return (none, symTable)
      else return (some (orText ((ps.flatMap comparisonsOf).map (comparisonText z3expr))), symTable) := by
  have hcolon : ':' ∉ ' ' :: braced ps := by
    have hnot := notMem_ranges_text (c := ':') (by decide) (by decide) ps
    simp [braced, hnot]
  have hline : condition_text expr ps = (expr ++ [' ']) ++ ':' :: ' ' :: braced ps := by simp [condition_text]
  have hexpr : ':' ∉ expr ++ [' '] := by simp [h.expr]
  have hparse : parseRange (' ' :: braced ps) = .ok (some (ps.map fun p => [p.1, p.2])) := by
    rw [← parseRange_braced h.ne_nil, parseRange, parseRange, strip_cons_space _ (by decide)]
  rw [constraint, hline, List.splitOn_append_cons_self_of_not_mem hexpr, List.splitOn_eq_singleton hcolon]
  simp only [hparse, Stop.lift, ok_bind, comparisons_eq]

/-- The constraint that is printed denotes the ranges at these values. -/
theorem denotesAt_orText (z3expr : Str) {expr : Str} {ps : List (ℤ × ℤ)} (h : Ranged expr ps) :
    DenotesAt z3expr ps (orText ((ps.flatMap comparisonsOf).map (comparisonText z3expr))) := by
  intro v
  have hne : ps.flatMap comparisonsOf ≠ [] := by
    obtain ⟨p, ps', rfl⟩ := List.exists_cons_of_ne_nil h.ne_nil
    rw [List.flatMap_cons, comparisonsOf]
    split_ifs <;> simp
  have hcs : ∀ c ∈ ps.flatMap comparisonsOf, c.1 ∈ ['=', '>', '<'] := by
    intro c hc
    obtain ⟨p, -, hc⟩ := List.mem_flatMap.mp hc
    exact mem_comparisonsOf hc
  rw [Denotes, evalOr_comparisons z3expr v hne hcs, Option.some_inj]
  exact any_comparison_iff h.sane v

/-- An expression is translated to this one, whatever symbols there are. -/
def Translates (expr z3expr : Str) : Prop :=
  ∃ symTable symTable', parseExpr (expr ++ [' ']) symTable = .ok (z3expr, symTable')

/-- **The constraints** of both functions denote the union of the ranges exactly at the values in it, and at all values
when each range is one value. -/
theorem constraint_iff (expr : Str) (ps : List (ℤ × ℤ)) (h : Ranged expr ps) (conds : List (Str × List (ℤ × ℤ)))
    (hconds : ∀ c ∈ conds, Ranged c.1 c.2 ∧ ¬ Translates c.1 []) :
    (∀ symTable z3expr symTable', parseExpr (expr ++ [' ']) symTable = .ok (z3expr, symTable') → z3expr ≠ [] →
      ∃ text, parseCheckerCondition (condition_text expr ps) symTable = .ok (some text, symTable') ∧
        DenotesAt z3expr ps text) ∧
    ∀ symTable symTable' texts, parseCondList (conds.map fun c => condition_text c.1 c.2) symTable = .ok (symTable', texts) →
      List.Forall₂ (fun c text => ∃ z3expr, Translates c.1 z3expr ∧ DenotesAt z3expr c.2 text) conds texts := by
  constructor
  · intro symTable z3expr symTable' hparse hne
    refine ⟨_, ?_, denotesAt_orText z3expr h⟩
    rw [parseCheckerCondition, constraint_text h, hparse]
    exact if_neg hne
  · intro symTable symTable' texts hrun
    induction conds generalizing symTable texts with
    | nil =>
      rw [List.map_nil, parseCondList] at hrun
      cases hrun
      exact .nil
    | cons c conds ih =>
      obtain ⟨hc, hne⟩ := hconds c List.mem_cons_self
      rw [List.map_cons, parseCondList, constraint_text hc] at hrun
      obtain ⟨⟨z3str, symTable₁⟩, hfirst, hrun⟩ := bind_eq_ok.mp hrun
      obtain ⟨⟨z3expr, symTable₂⟩, hparse, hfirst⟩ := bind_eq_ok.mp hfirst
      have hexpr : z3expr ≠ [] := fun hnil => hne ⟨symTable, symTable₂, hnil ▸ hparse⟩
      dsimp only at hfirst
      rw [if_neg hexpr] at hfirst
      cases hfirst
      obtain ⟨⟨symTable₃, rest⟩, hrest, hrun⟩ := bind_eq_ok.mp hrun
      cases hrun
      exact .cons ⟨z3expr, ⟨symTable, symTable₁, hparse⟩, denotesAt_orText z3expr hc⟩
        (ih (fun d hd => hconds d (List.mem_cons_of_mem _ hd)) symTable₁ rest hrest)

/-- A symbol without an arrow is its own name. -/
theorem getZ3Symbol_of_not_infix {s : Str} (h : ¬ "->".toList <:+: s) : getZ3Symbol s = s := by
  rw [getZ3Symbol, split_of_not_infix h, List.intercalate_singleton]

/-- A symbol is translated to its name. -/
theorem parseExpr_symbol (symTable : Dict Str Str) : parseExpr ("(S64 # x)".toList ++ [' ']) symTable = do
    Stop.check (∀ exp ∈ symTable.get? "x".toList, exp = "x".toList)
    return ("x".toList, symTable.put "x".toList "x".toList) := by
  have htokens : breakExprIntoTokens ("(S64 # x)".toList ++ [' ']) = ["S64 # x".toList] := by decide
  have hparts : "S64 # x".toList.splitOn '#' = ["S64 ".toList, " x".toList] := by decide
  have hkind : strip "S64 ".toList = "S64".toList := by decide
  have hexp : strip " x".toList = "x".toList := by decide
  have hsymbol : getZ3Symbol "x".toList = "x".toList := getZ3Symbol_of_not_infix (by decide)
  rw [parseExpr, htokens, parseTokens, parseToken, if_pos (by decide), hparts]
  dsimp only
  rw [hkind, hexp, hsymbol]
  cases Stop.check (∀ exp ∈ symTable.get? "x".toList, exp = "x".toList) <;> rfl

/-- A range of a hundred and one values, and a point. -/
theorem constraint_iff_symbol :
    (∃ text, parseCheckerCondition (condition_text "(S64 # x)".toList [(0, 100)]) [] =
      .ok (some text, [("x".toList, "x".toList)]) ∧ DenotesAt "x".toList [(0, 100)] text) ∧
    ∀ symTable' texts, parseCondList [condition_text "(S64 # x)".toList [(0, 0)]] [] = .ok (symTable', texts) →
      List.Forall₂ (fun c text => ∃ z3expr, Translates c.1 z3expr ∧ DenotesAt z3expr c.2 text)
        [("(S64 # x)".toList, [(0, 0)])] texts := by
  have hboth := constraint_iff "(S64 # x)".toList [(0, 100)] ⟨by decide, by decide, by decide⟩
    [("(S64 # x)".toList, [(0, 0)])] fun c hc => by
      obtain rfl := List.mem_singleton.mp hc
      refine ⟨⟨by decide, by decide, by decide⟩, ?_⟩
      rintro ⟨symTable, symTable', h⟩
      rw [parseExpr_symbol] at h
      obtain ⟨-, -, h⟩ := bind_eq_ok.mp h
      cases h
  exact ⟨hboth.1 [] "x".toList [("x".toList, "x".toList)] (parseExpr_symbol []) (by decide), hboth.2 []⟩

/-- A value above the range. -/
theorem not_constraint : ¬ ∀ (expr : Str) (ps : List (ℤ × ℤ)) (z3expr : Str) (symTable symTable' : Dict Str Str) (v : ℤ),
    Ranged expr ps → parseExpr (expr ++ [' ']) symTable = .ok (z3expr, symTable') → z3expr ≠ [] →
      ∃ text, parseCheckerCondition (condition_text expr ps) symTable = .ok (some text, symTable') ∧
        Denotes z3expr ps text v := by
  intro h
  have hranged : Ranged "(S64 # x)".toList [(0, 100)] := ⟨by decide, by decide, by decide⟩
  obtain ⟨text, hrun, hdenotes⟩ := h "(S64 # x)".toList [(0, 100)] "x".toList [] [("x".toList, "x".toList)] 200
    hranged (parseExpr_symbol []) (by decide)
  rw [parseCheckerCondition, constraint_text hranged, parseExpr_symbol] at hrun
  cases hrun
  obtain hpoints | hin := (denotesAt_orText "x".toList hranged 200).mp hdenotes
  · exact absurd (hpoints (0, 100) List.mem_cons_self) (by decide)
  · exact absurd hin (by decide)

end SEDiff.Juxta

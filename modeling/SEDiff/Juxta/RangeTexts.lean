import SEDiff.Foundation.Double
import SEDiff.Foundation.Numerals
import SEDiff.Juxta.Path
import SEDiff.Juxta.Range

/-!
# Ranges as text

The ranges of a condition are a text, `{ [lb1, ub1], [lb2, ub2] }`, and there are three readers of it: `PathCond.get_ranges`
of `path.py` looks for brackets, `parseRange` of `z3helper.py` evaluates it as a list, and `__build` of `rsf.py` splits it.

## What is proved

* `get_ranges_text`, `parseRange_text`, `build_text` — what each reader makes of ranges that are printed.
* `readers_agree` — the three of them read the same ranges.
-/

namespace SEDiff.Juxta

open Foundation Str

/-! ### `get_ranges` -/

namespace PathCond

/-- What stands between two brackets; `find` gives -1 when there is no comma. -/
def get_range (rang_ : Str) : Except PyErr (ℤ × ℤ) :=
  let (lb_str, ub_str) := match partition ',' rang_ with
    | some (lb, rest) => (lb, rest.drop 1)
    | none => (rang_.dropLast, rang_.drop 1)
  match toInt lb_str, toInt ub_str with
  | some lb, some ub => .ok (lb, ub)
  | _, _ => .error .valueError

/-- `get_ranges`, of what follows the last bracket that was closed. -/
def get_ranges_from (ranges : Str) : Except PyErr (List (ℤ × ℤ)) :=
  match _hopen : partition '[' ranges with
  | none => .ok []
  | some (_, rest) =>
    match _hclose : partition ']' rest with
    | some (rang_, after) => do
      let r ← get_range rang_
      let rs ← get_ranges_from after
      return r :: rs
    -- `find` gives -1: the slice ends before the last character, from which the next search starts
    | none => do
      let r ← get_range rest.dropLast
      if rest.getLast? = some '[' then .error .valueError else return [r]
  termination_by ranges.length
  decreasing_by exact (length_of_partition _hclose).trans (length_of_partition _hopen)

/-- `get_ranges`. -/
def get_ranges (c : PathCond) : Except PyErr (List (ℤ × ℤ)) := get_ranges_from c.ranges

end PathCond

/-! ### `parseRange` -/

namespace Z3Helper

/-- Blanks are skipped. -/
def skip (s : Str) : Str := s.lstrip isSpace

/-- A minus sign, if there is one, and what follows. -/
def evalSign (s : Str) : Bool × Str :=
  match skip s with
  | [] => (false, [])
  | c :: s => if c = '-' then (true, skip s) else (false, c :: s)

/-- An integer literal: a zero before other digits would make it octal. -/
def evalInt (s : Str) : Option (ℤ × Str) :=
  let (neg, s) := evalSign s
  let digits := s.takeWhile Char.isDigit
  if digits = [] ∨ digits.head? = some '0' ∧ digits ≠ ['0'] then none
  else
    let n : ℤ := Nat.ofDigitChars 10 digits 0
    some (if neg then -n else n, s.dropWhile Char.isDigit)

/-- A list display after its opening bracket, with the number of items it may have. -/
def evalItems {α : Type*} (item : Str → Option (α × Str)) : ℕ → Str → Option (List α × Str)
  | 0, _ => none
  | n + 1, s =>
    if (skip s).head? = some ']' then some ([], (skip s).tail)
    else do
      let (a, s) ← item s
      match skip s with
      | [] => none
      | c :: s =>
        if c = ']' then some ([a], s)
        else if c = ',' then do
          let (as, s) ← evalItems item n s
          return (a :: as, s)
        else none

/-- A list display. -/
def evalList {α : Type*} (item : Str → Option (α × Str)) (s : Str) : Option (List α × Str) :=
  match skip s with
  | [] => none
  | c :: s => if c = '[' then evalItems item (s.length + 1) s else none

/-- `eval`, of lists of lists of integers; what else it can evaluate is not read here. -/
def eval (s : Str) : Option (List (List ℤ)) :=
  match evalList (evalList evalInt) s with
  | some (ranges, rest) => if skip rest = [] then some ranges else none
  | none => none

/-- `parseRange`, where `none` is what `eval` makes of other texts. -/
def parseRange (rangeStr : Str) : Except PyErr (Option (List (List ℤ))) :=
  let rangeStr := strip rangeStr
  match rangeStr.head?, rangeStr.getLast? with
  | some c, some d => do
    pyAssert (c = '{' ∧ d = '}')
    return eval ('[' :: (rangeStr.dropLast.tail ++ [']']))
  | _, _ => .error .indexError

end Z3Helper

/-! ### `__build` -/

/-- What `rsf.py` can raise; an endpoint that is not an integer is not modelled. -/
inductive Fault
  /-- An exception. -/
  | raised (e : PyErr)
  /-- The exception of a division by zero. -/
  | zeroDivision
  /-- Not an exception. -/
  | notInteger
  deriving DecidableEq

namespace Rsf

/-- What a call that can raise raises. -/
def lift {α : Type*} : Except PyErr α → Except Fault α
  | .ok a => .ok a
  | .error e => .error (.raised e)

/-- `S64_MIN`. -/
def S64_MIN : ℤ := -2 ^ 63

/-- `S64_MAX`. -/
def S64_MAX : ℤ := 2 ^ 63 - 1

/-- `RANGE_AREA`. -/
def RANGE_AREA : ℚ := 100

/-- `__new`. -/
def new (start stop : ℤ) (comments : Str) : Except Fault Range :=
  if stop - start + 1 = 0 then .error .zeroDivision
  else do
    let weight := RANGE_AREA / (stop - start + 1)
    lift (pyAssert (start ≤ stop))
    lift (pyAssert (0 ≤ weight))
    return ⟨start, stop, weight, {String.ofList comments}⟩

/-- A number as it is written, in exact arithmetic. -/
def written : Str.Num → Except Fault ℤ
  | .fin q => if q.den = 1 then .ok q.num else .error .notInteger
  | .inf _ => .error .notInteger
  | .nan => .error .notInteger

/-- A number as the interpreter holds it: the nearest double, or an infinity. -/
def double : Str.Num → Except Fault ℤ
  | .fin q => if Double.Finite (Double.round q) then written (.fin (Double.round q)) else .error .notInteger
  | .inf _ => .error .notInteger
  | .nan => .error .notInteger

/-- `float(s)` as an endpoint. -/
def float (number : Str.Num → Except Fault ℤ) (s : Str) : Except Fault ℤ :=
  match toFloat s with
  | none => .error (.raised .valueError)
  | some x => number x

/-- One part of a list of ranges. -/
def range (number : Str.Num → Except Fault ℤ) (r : Str) : Except Fault Range :=
  match (((strip r).lstrip (· = '[')).rstrip (· = ']')).splitOn ',' with
  | lb :: ub :: _ => do new (← float number (strip lb)) (← float number (strip ub)) r
  -- `se[1]`, after `se[0]` is read
  | [lb] => do
    let _ ← float number (strip lb)
    .error (.raised .indexError)
  | [] => .error (.raised .indexError)

/-- `__build`, where `number` is how numbers are held and `add` is `range_set.add`. -/
def build1 (number : Str.Num → Except Fault ℤ) {σ : Type} (add : σ → Range → Except PyErr σ) (range_set : σ) (rs_str : Str) :
    Except Fault σ :=
  let rs_str := strip rs_str
  match toFloat rs_str with
  -- "1, +1, -1, 0.5, .5"
  | some x => do
    let start ← number x
    lift (add range_set (← new start start rs_str))
  | none =>
    match rs_str with
    | [] => .error (.raised .indexError)
    | c :: _ =>
      if c = '[' then
        (Str.split "],".toList rs_str).foldlM (fun range_set r => do lift (add range_set (← range number r))) range_set
      -- "retval, foo($A1...)"
      else do lift (add range_set (← new S64_MIN S64_MAX rs_str))

end Rsf

/-! ### Ranges that are printed -/

/-- `[lb, ub]`. -/
def range_text (p : ℤ × ℤ) : Str := '[' :: (ofInt p.1 ++ ',' :: ' ' :: (ofInt p.2 ++ [']']))

/-- `[lb1, ub1], [lb2, ub2]`. -/
def ranges_text : List (ℤ × ℤ) → Str
  | [] => []
  | [p] => range_text p
  | p :: q :: ps => range_text p ++ ',' :: ' ' :: ranges_text (q :: ps)

/-- `{ [lb1, ub1], [lb2, ub2] }`. -/
def braced (ps : List (ℤ × ℤ)) : Str := '{' :: ' ' :: (ranges_text ps ++ [' ', '}'])

/-- `expr : { [lb1, ub1], [lb2, ub2] }`. -/
def condition_text (expr : Str) (ps : List (ℤ × ℤ)) : Str := expr ++ (" : ".toList ++ braced ps)

example : condition_text "(S64 # x)".toList [(-2, -1), (1, 40)] = "(S64 # x) : { [-2, -1], [1, 40] }".toList := by decide

/-- What ranges are printed with. -/
theorem notMem_ranges_text {c : Char} (hc : c ∉ "[], -".toList) (hdigit : c.isDigit = false) (ps : List (ℤ × ℤ)) :
    c ∉ ranges_text ps := by
  have hne : c ≠ '[' ∧ c ≠ ']' ∧ c ≠ ',' ∧ c ≠ ' ' ∧ c ≠ '-' := by simpa using hc
  have hint (n : ℤ) : c ∉ ofInt n := notMem_ofInt n hne.2.2.2.2 hdigit
  induction ps using ranges_text.induct with
  | case1 => exact List.not_mem_nil
  | case2 p => simp [ranges_text, range_text, hne, hint]
  | case3 p q ps ih => simp [ranges_text, range_text, hne, hint, ih]

/-- Printed ranges start with a bracket, and end with one. -/
theorem ranges_text_ends {ps : List (ℤ × ℤ)} (hps : ps ≠ []) :
    (∃ s, ranges_text ps = '[' :: s) ∧ ∃ s, ranges_text ps = s ++ [']'] := by
  induction ps using ranges_text.induct with
  | case1 => exact absurd rfl hps
  | case2 p => exact ⟨⟨_, rfl⟩, ⟨'[' :: (ofInt p.1 ++ ',' :: ' ' :: ofInt p.2), by simp [ranges_text, range_text]⟩⟩
  | case3 p q ps ih =>
    obtain ⟨-, t, ht⟩ := ih (List.cons_ne_nil _ _)
    refine ⟨⟨_, rfl⟩, ⟨range_text p ++ ',' :: ' ' :: t, ?_⟩⟩
    rw [ranges_text, ht]
    simp

theorem trimmed_ranges_text {ps : List (ℤ × ℤ)} (hps : ps ≠ []) : Trimmed (ranges_text ps) := by
  obtain ⟨⟨s, hs⟩, t, ht⟩ := ranges_text_ends hps
  constructor
  · rw [hs]
    intro c hc
    obtain rfl : '[' = c := by simpa using hc
    decide
  · rw [ht]
    intro c hc
    obtain rfl : ']' = c := by simpa using hc
    decide

theorem trimmed_braced (ps : List (ℤ × ℤ)) : Trimmed (braced ps) := by
  constructor
  · intro c hc
    obtain rfl : '{' = c := by simpa [braced] using hc
    decide
  · intro c hc
    have hlast : braced ps = '{' :: ' ' :: (ranges_text ps ++ [' ']) ++ ['}'] := by simp [braced]
    rw [hlast, List.getLast?_concat, Option.mem_some_iff] at hc
    exact hc ▸ by decide

/-- **A condition** is parsed to the text between its braces. -/
theorem init_condition_text (expr : Str) (ps : List (ℤ × ℤ)) :
    PathCond.init (condition_text expr ps) = .ok ⟨strip expr, ' ' :: (ranges_text ps ++ [' '])⟩ := by
  have hcolon : ':' ∉ ' ' :: braced ps := by
    have hnot := notMem_ranges_text (c := ':') (by decide) (by decide) ps
    simp [braced, hnot]
  have hrsplit : (condition_text expr ps).rsplit ":".toList = some (expr ++ [' '], ' ' :: braced ps) := by
    have hline : condition_text expr ps = (expr ++ [' ']) ++ (":".toList ++ ' ' :: braced ps) := by
      simp [condition_text]
    rw [hline]
    exact rsplit_append _ (by decide) (not_infix_of_notMem List.mem_cons_self hcolon)
  have hmem : ':' ∈ condition_text expr ps := by simp [condition_text]
  have hopen (s : Str) : lstrip ('{' :: ' ' :: s) (· = '{') = ' ' :: s := rfl
  have hclose : rstrip (' ' :: (ranges_text ps ++ [' ', '}'])) (· = '}') = ' ' :: (ranges_text ps ++ [' ']) := by
    have hshape : ' ' :: (ranges_text ps ++ [' ', '}']) = (' ' :: ranges_text ps) ++ ' ' :: ['}'] := by simp
    rw [hshape, rstrip_append_cons _ (by decide)]
    simp [rstrip]
  rw [PathCond.init, if_pos hmem, Juxta.split, hrsplit]
  simp only [ok_bind]
  rw [strip_cons_space _ (by decide), strip_of_trimmed (trimmed_braced ps), strip_append_space _ (by decide),
    strip_of_trimmed (trimmed_braced ps), braced, hopen, hclose, strip_strip]
  rfl

/-! ### What the readers make of them -/

/-- There is no further range. -/
theorem get_ranges_from_none {s : Str} (h : '[' ∉ s) : PathCond.get_ranges_from s = .ok [] := by
  rw [PathCond.get_ranges_from]
  split
  · rfl
  · simp_all [partition_of_notMem h]

/-- The first range, and the ones after it. -/
theorem get_ranges_from_cons {s a rest rang_ after : Str} (hopen : partition '[' s = some (a, rest))
    (hclose : partition ']' rest = some (rang_, after)) :
    PathCond.get_ranges_from s = do
      let r ← PathCond.get_range rang_
      let rs ← PathCond.get_ranges_from after
      return r :: rs := by
  rw [PathCond.get_ranges_from]
  split
  next hnone => exact absurd (hopen.symm.trans hnone) nofun
  next a' rest' hsome =>
    obtain ⟨rfl, rfl⟩ := Prod.mk.inj (Option.some.inj (hopen.symm.trans hsome))
    split
    next rang' after' hsome' =>
      obtain ⟨rfl, rfl⟩ := Prod.mk.inj (Option.some.inj (hclose.symm.trans hsome'))
      rfl
    next hnone => exact absurd (hclose.symm.trans hnone) nofun

/-- **`get_ranges`** reads ranges that are printed, whatever stands around them. -/
theorem get_ranges_from_text {before after : Str} (hbefore : '[' ∉ before) (hafter : '[' ∉ after) (ps : List (ℤ × ℤ)) :
    PathCond.get_ranges_from (before ++ (ranges_text ps ++ after)) = .ok ps := by
  have hrange (p : ℤ × ℤ) : PathCond.get_range (ofInt p.1 ++ ',' :: ' ' :: ofInt p.2) = .ok p := by
    rw [PathCond.get_range, partition_append_cons (notMem_ofInt p.1 (by decide) (by decide))]
    dsimp only
    rw [List.drop_one, List.tail_cons, toInt_ofInt (strip_of_trimmed (trimmed_ofInt p.1)),
      toInt_ofInt (strip_of_trimmed (trimmed_ofInt p.2))]
  have hclose (p : ℤ × ℤ) (s : Str) : partition ']' (ofInt p.1 ++ ',' :: ' ' :: (ofInt p.2 ++ ']' :: s)) =
      some (ofInt p.1 ++ ',' :: ' ' :: ofInt p.2, s) := by
    have hnot : ']' ∉ ofInt p.1 ++ ',' :: ' ' :: ofInt p.2 := by
      simp [notMem_ofInt p.1 (c := ']') (by decide) (by decide), notMem_ofInt p.2 (c := ']') (by decide) (by decide)]
    have hshape : ofInt p.1 ++ ',' :: ' ' :: (ofInt p.2 ++ ']' :: s) =
        (ofInt p.1 ++ ',' :: ' ' :: ofInt p.2) ++ ']' :: s := by simp
    rw [hshape, partition_append_cons hnot]
  induction ps using ranges_text.induct generalizing before with
  | case1 => exact get_ranges_from_none (by simp [ranges_text, hbefore, hafter])
  | case2 p =>
    have hshape : before ++ (ranges_text [p] ++ after) =
        before ++ '[' :: (ofInt p.1 ++ ',' :: ' ' :: (ofInt p.2 ++ ']' :: after)) := by simp [ranges_text, range_text]
    rw [hshape, get_ranges_from_cons (partition_append_cons hbefore _) (hclose p after), hrange, ok_bind,
      get_ranges_from_none hafter]
    rfl
  | case3 p q ps ih =>
    have hshape : before ++ (ranges_text (p :: q :: ps) ++ after) =
        before ++ '[' :: (ofInt p.1 ++ ',' :: ' ' :: (ofInt p.2 ++ ']' :: ([',', ' '] ++ (ranges_text (q :: ps) ++ after)))) := by
      simp [ranges_text, range_text]
    rw [hshape, get_ranges_from_cons (partition_append_cons hbefore _) (hclose p _), hrange, ok_bind, ih (by decide)]
    rfl

open Z3Helper

/-- The blank that precedes each item of a printed list. -/
theorem isSpace_blank : ∀ c ∈ [' '], isSpace c = true := List.forall_mem_singleton.mpr rfl

/-- Blanks before a character that is none are skipped. -/
theorem skip_append {ws : Str} (hws : ∀ c ∈ ws, isSpace c = true) {c : Char} (hc : isSpace c = false) (s : Str) :
    skip (ws ++ c :: s) = c :: s := by
  rw [skip, lstrip_append hws, lstrip_of_head]
  intro d hd
  obtain rfl : c = d := by simpa using hd
  exact hc

theorem skip_cons {c : Char} (hc : isSpace c = false) (s : Str) : skip (c :: s) = c :: s :=
  skip_append (fun _ h => absurd h List.not_mem_nil) hc s

/-- Digits before something else are a literal. -/
theorem evalInt_digits (n : ℕ) {c : Char} (hc : c.isDigit = false) (s : Str) :
    (Nat.toDigits 10 n ++ c :: s).takeWhile Char.isDigit = Nat.toDigits 10 n ∧
      (Nat.toDigits 10 n ++ c :: s).dropWhile Char.isDigit = c :: s ∧
        ¬ (Nat.toDigits 10 n = [] ∨ (Nat.toDigits 10 n).head? = some '0' ∧ Nat.toDigits 10 n ≠ ['0']) := by
  have hdigits : ∀ d ∈ Nat.toDigits 10 n, d.isDigit = true := fun d hd => isDigit_of_mem_toDigits hd
  have hnot : ¬ c.isDigit = true := by simp [hc]
  refine ⟨?_, ?_, ?_⟩
  · rw [List.takeWhile_append_of_pos hdigits, List.takeWhile_cons_of_neg hnot, List.append_nil]
  · rw [List.dropWhile_append_of_pos hdigits, List.dropWhile_cons_of_neg hnot]
  · rintro (hnil | ⟨hzero, hne⟩)
    · exact Nat.toDigits_ne_nil hnil
    · exact hne (eq_zero_of_toDigits_head hzero ▸ Nat.toDigits_zero 10)

/-- Blanks before digits are skipped. -/
theorem skip_digits {ws : Str} (hws : ∀ c ∈ ws, isSpace c = true) (n : ℕ) (s : Str) :
    skip (ws ++ (Nat.toDigits 10 n ++ s)) = Nat.toDigits 10 n ++ s := by
  obtain ⟨d, t, hd⟩ := List.exists_cons_of_ne_nil (@Nat.toDigits_ne_nil n 10)
  have hdigit : d.isDigit = true := isDigit_of_mem_toDigits (hd ▸ List.mem_cons_self)
  rw [hd, List.cons_append]
  exact skip_append hws (isSpace_of_isDigit hdigit) _

/-- An integer that is printed is an integer literal. -/
theorem evalInt_ofInt {ws : Str} (hws : ∀ c ∈ ws, isSpace c = true) (n : ℤ) {c : Char} (hc : c.isDigit = false) (s : Str) :
    evalInt (ws ++ (ofInt n ++ c :: s)) = some (n, c :: s) := by
  cases n with
  | ofNat n =>
    obtain ⟨htake, hdrop, hlit⟩ := evalInt_digits n hc s
    have hsign : evalSign (ws ++ (Nat.toDigits 10 n ++ c :: s)) = (false, Nat.toDigits 10 n ++ c :: s) := by
      rw [evalSign, skip_digits hws]
      cases hd : Nat.toDigits 10 n with
      | nil => exact absurd hd Nat.toDigits_ne_nil
      | cons d t =>
        have hdigit : d.isDigit = true := isDigit_of_mem_toDigits (hd ▸ List.mem_cons_self)
        refine if_neg ?_
        rintro rfl
        exact absurd hdigit (by decide)
    rw [evalInt, ofInt, hsign]
    dsimp only
    rw [htake, hdrop, if_neg hlit, Nat.ofDigitChars_ten_toDigits]
    rfl
  | negSucc n =>
    obtain ⟨htake, hdrop, hlit⟩ := evalInt_digits (n + 1) hc s
    have hminus : skip (ws ++ ('-' :: Nat.toDigits 10 (n + 1) ++ c :: s)) = '-' :: (Nat.toDigits 10 (n + 1) ++ c :: s) :=
      skip_append hws (by decide) _
    have hskip : skip (Nat.toDigits 10 (n + 1) ++ c :: s) = Nat.toDigits 10 (n + 1) ++ c :: s :=
      @skip_digits [] (fun _ h => absurd h List.not_mem_nil) (n + 1) (c :: s)
    rw [evalInt, ofInt, evalSign, hminus]
    dsimp only
    rw [if_pos rfl, hskip]
    dsimp only
    rw [htake, hdrop, if_neg hlit, Nat.ofDigitChars_ten_toDigits]
    rfl

/-- An item before a comma, and the ones after it. -/
theorem evalItems_comma {α : Type*} {item : Str → Option (α × Str)} {n : ℕ} {s t u v : Str} {a : α} {as : List α}
    (hs : (skip s).head? ≠ some ']') (hitem : item s = some (a, t)) (ht : skip t = ',' :: u)
    (hrest : evalItems item n u = some (as, v)) : evalItems item (n + 1) s = some (a :: as, v) := by
  rw [evalItems, if_neg hs, hitem]
  simp [ht, hrest]

/-- The last item. -/
theorem evalItems_last {α : Type*} {item : Str → Option (α × Str)} {n : ℕ} {s t u : Str} {a : α}
    (hs : (skip s).head? ≠ some ']') (hitem : item s = some (a, t)) (ht : skip t = ']' :: u) :
    evalItems item (n + 1) s = some ([a], u) := by
  rw [evalItems, if_neg hs, hitem]
  simp [ht]

/-- A range that is printed is a list of its two ends. -/
theorem evalList_range_text {ws : Str} (hws : ∀ c ∈ ws, isSpace c = true) (p : ℤ × ℤ) (s : Str) :
    evalList evalInt (ws ++ (range_text p ++ s)) = some ([p.1, p.2], s) := by
  have hnone : ∀ c ∈ ([] : Str), isSpace c = true := fun _ h => absurd h List.not_mem_nil
  have hhead (ws : Str) (hws : ∀ c ∈ ws, isSpace c = true) (n : ℤ) (t : Str) : (skip (ws ++ (ofInt n ++ t))).head? ≠ some ']' := by
    obtain ⟨d, u, hd⟩ := List.exists_cons_of_ne_nil (ofInt_ne_nil n)
    have hmem : d ∈ ofInt n := hd ▸ List.mem_cons_self
    rw [hd, List.cons_append, skip_append hws (isSpace_of_mem_ofInt hmem), List.head?_cons, ne_eq, Option.some_inj]
    rintro rfl
    exact notMem_ofInt n (by decide) (by decide) hmem
  have hshape : ws ++ (range_text p ++ s) = ws ++ '[' :: (ofInt p.1 ++ ',' :: ' ' :: (ofInt p.2 ++ ']' :: s)) := by
    simp [range_text]
  rw [hshape, evalList, skip_append hws (by decide)]
  dsimp only
  rw [if_pos rfl]
  refine evalItems_comma (hhead [] hnone p.1 _) (evalInt_ofInt hnone p.1 (by decide) _) (skip_cons (by decide) _) ?_
  rw [List.length_append, List.length_cons, Nat.add_succ]
  exact evalItems_last (hhead [' '] isSpace_blank p.2 _) (@evalInt_ofInt [' '] isSpace_blank p.2 _ (by decide) _)
    (skip_cons (by decide) _)

/-- Ranges that are printed are the items of a list. -/
theorem evalItems_ranges_text {ws : Str} (hws : ∀ c ∈ ws, isSpace c = true) {ps : List (ℤ × ℤ)} (hps : ps ≠ []) {n : ℕ}
    (hn : ps.length ≤ n) (s : Str) :
    evalItems (evalList evalInt) n (ws ++ (ranges_text ps ++ ' ' :: ']' :: s)) = some (ps.map fun p => [p.1, p.2], s) := by
  have hhead (ws : Str) (hws : ∀ c ∈ ws, isSpace c = true) (p : ℤ × ℤ) (t : Str) :
      (skip (ws ++ (range_text p ++ t))).head? ≠ some ']' := by
    rw [range_text, List.cons_append, skip_append hws (by decide), List.head?_cons]
    decide
  induction ps using ranges_text.induct generalizing ws n with
  | case1 => exact absurd rfl hps
  | case2 p =>
    obtain ⟨n, rfl⟩ := Nat.exists_eq_succ_of_ne_zero (Nat.ne_of_gt hn)
    exact evalItems_last (hhead ws hws p _) (evalList_range_text hws p _)
      (@skip_append [' '] isSpace_blank ']' (by decide) s)
  | case3 p q ps ih =>
    obtain ⟨n, rfl⟩ := Nat.exists_eq_succ_of_ne_zero (Nat.ne_of_gt (Nat.lt_of_lt_of_le (Nat.succ_pos _) hn))
    have hshape : ws ++ (ranges_text (p :: q :: ps) ++ ' ' :: ']' :: s) =
        ws ++ (range_text p ++ ',' :: ([' '] ++ (ranges_text (q :: ps) ++ ' ' :: ']' :: s))) := by simp [ranges_text]
    rw [hshape]
    exact evalItems_comma (hhead ws hws p _) (evalList_range_text hws p _) (skip_cons (by decide) _)
      (ih isSpace_blank (List.cons_ne_nil _ _) (Nat.le_of_succ_le_succ hn))

theorem length_ranges_text (ps : List (ℤ × ℤ)) : ps.length ≤ (ranges_text ps).length := by
  induction ps using ranges_text.induct with
  | case1 => exact Nat.zero_le _
  | case2 p => exact Nat.succ_le_of_lt (Nat.succ_pos _)
  | case3 p q ps ih =>
    rw [ranges_text, List.length_append, List.length_cons (a := p), List.length_cons (a := ',')]
    have hpos : 0 < (range_text p).length := Nat.succ_pos _
    simp only [List.length_cons] at ih ⊢
    omega

/-- **`parseRange`** reads ranges that are printed. -/
theorem parseRange_braced {ps : List (ℤ × ℤ)} (hps : ps ≠ []) :
    parseRange (braced ps) = .ok (some (ps.map fun p => [p.1, p.2])) := by
  have hshape : braced ps = '{' :: ' ' :: (ranges_text ps ++ [' ']) ++ ['}'] := by simp [braced]
  have hlast : (braced ps).getLast? = some '}' := by rw [hshape, List.getLast?_concat]
  have hinner : '[' :: ((braced ps).dropLast.tail ++ [']']) = '[' :: ([' '] ++ (ranges_text ps ++ ' ' :: ']' :: [])) := by
    rw [hshape, List.dropLast_concat]
    simp
  have heval : evalList (evalList evalInt) ('[' :: ([' '] ++ (ranges_text ps ++ ' ' :: ']' :: []))) =
      some (ps.map fun p => [p.1, p.2], []) := by
    rw [evalList, skip_cons (by decide)]
    dsimp only
    rw [if_pos rfl]
    refine evalItems_ranges_text isSpace_blank hps ?_ []
    have hlen := length_ranges_text ps
    simp only [List.length_append, List.length_cons]
    omega
  rw [parseRange, strip_of_trimmed (trimmed_braced ps), hlast, hinner, eval, heval]
  rfl

open Rsf

/-- What starts with a bracket is no number. -/
theorem toFloat_bracket {s : Str} (hs : Trimmed ('[' :: s)) : toFloat ('[' :: s) = none := by
  rw [toFloat, strip_of_trimmed hs, signed_cons, if_neg (by decide), if_neg (by decide), magnitude]
  have hlower : ('[' :: s).map Char.toLower = '[' :: s.map Char.toLower := rfl
  have hdecimals : decimals ('[' :: s) = none := by
    rw [decimals, List.takeWhile_cons_of_neg (by decide), List.dropWhile_cons_of_neg (by decide)]
    simp
  rw [hlower, if_neg ?_, if_neg ?_, hdecimals]
  · rfl
  · exact fun h => absurd (List.cons.inj h).1 (by decide)
  · rintro (h | h)
    · exact absurd (List.cons.inj h).1 (by decide)
    · exact absurd (List.cons.inj h).1 (by decide)

@[simp] theorem written_intCast (n : ℤ) : written (.fin n) = .ok n := by simp [written]

/-- An integer of 53 digits is held exactly. -/
theorem double_intCast {n : ℤ} (hlow : -2 ^ 53 ≤ n) (hhigh : n ≤ 2 ^ 53) : double (.fin n) = .ok n := by
  rw [double, Double.round_intCast hlow hhigh, if_pos (Double.finite_intCast hlow hhigh), written_intCast]

/-- An integer is an endpoint. -/
theorem float_ofInt {s : Str} {n : ℤ} (hs : strip s = ofInt n) : float written s = .ok n := by
  rw [float, toFloat_ofInt hs]
  exact written_intCast n

/-- A range of these ends, with the mass that each range has. -/
theorem new_eq {start stop : ℤ} (h : start ≤ stop) (comments : Str) :
    new start stop comments = .ok ⟨start, stop, RANGE_AREA / (stop - start + 1), {String.ofList comments}⟩ := by
  have hsize : stop - start + 1 ≠ 0 := by omega
  have hpos : (0 : ℚ) ≤ RANGE_AREA / (stop - start + 1) := by
    have hcast : (0 : ℚ) < stop - start + 1 := by exact_mod_cast (by omega : (0 : ℤ) < stop - start + 1)
    exact div_nonneg (by decide +kernel) hcast.le
  rw [new, if_neg hsize, pyAssert_of_true h]
  simp only [pyAssert_of_true hpos]
  rfl

/-- A range that is split off has lost its closing bracket, unless it is the last one. -/
theorem range_piece {ws close : Str} (hws : ∀ c ∈ ws, isSpace c = true) (hclose : close = [] ∨ close = [']'])
    {p : ℤ × ℤ} (hp : p.1 ≤ p.2) :
    Rsf.range written (ws ++ '[' :: (ofInt p.1 ++ ',' :: ' ' :: (ofInt p.2 ++ close))) =
      .ok ⟨p.1, p.2, RANGE_AREA / (p.2 - p.1 + 1),
        {String.ofList (ws ++ '[' :: (ofInt p.1 ++ ',' :: ' ' :: (ofInt p.2 ++ close)))}⟩ := by
  have hne (n : ℤ) (c : Char) (hc : c ∈ "[],".toList) : c ∉ ofInt n := by
    have hc' : c = '[' ∨ c = ']' ∨ c = ',' := by simpa using hc
    obtain rfl | rfl | rfl := hc' <;> exact notMem_ofInt n (by decide) (by decide)
  have hlast : ∀ c ∈ (ofInt p.2 ++ close).getLast?, isSpace c = false := by
    intro c hc
    obtain rfl | rfl := hclose
    · rw [List.append_nil] at hc
      exact (trimmed_ofInt p.2).last c hc
    · rw [List.getLast?_concat, Option.mem_some_iff] at hc
      exact hc ▸ by decide
  have hstrip : strip (ws ++ '[' :: (ofInt p.1 ++ ',' :: ' ' :: (ofInt p.2 ++ close))) =
      '[' :: (ofInt p.1 ++ ',' :: ' ' :: (ofInt p.2 ++ close)) := by
    rw [strip, lstrip_append hws, lstrip_of_head (by simp [isSpace]), rstrip_of_last]
    have hshape : '[' :: (ofInt p.1 ++ ',' :: ' ' :: (ofInt p.2 ++ close)) =
        ('[' :: (ofInt p.1 ++ [',', ' '])) ++ (ofInt p.2 ++ close) := by simp
    rw [hshape, List.getLast?_append_of_ne_nil _ (List.append_ne_nil_of_left_ne_nil (ofInt_ne_nil p.2) close)]
    exact hlast
  have hopen : lstrip ('[' :: (ofInt p.1 ++ ',' :: ' ' :: (ofInt p.2 ++ close))) (· = '[') =
      ofInt p.1 ++ ',' :: ' ' :: (ofInt p.2 ++ close) := by
    rw [lstrip, List.dropWhile_cons_of_pos (by decide)]
    refine lstrip_of_head fun c hc => ?_
    rw [List.head?_append_of_ne_nil _ (ofInt_ne_nil p.1)] at hc
    have hmem := List.mem_of_mem_head? hc
    simp only [decide_eq_false_iff_not]
    rintro rfl
    exact hne p.1 '[' (by decide) hmem
  have hshut : rstrip (ofInt p.1 ++ ',' :: ' ' :: (ofInt p.2 ++ close)) (· = ']') = ofInt p.1 ++ ',' :: ' ' :: ofInt p.2 := by
    have hshape : ofInt p.1 ++ ',' :: ' ' :: (ofInt p.2 ++ close) = (ofInt p.1 ++ ',' :: ' ' :: ofInt p.2) ++ close := by simp
    rw [hshape, rstrip_append (by obtain rfl | rfl := hclose <;> simp)]
    refine rstrip_of_last fun c hc => ?_
    have hends : ofInt p.1 ++ ',' :: ' ' :: ofInt p.2 = (ofInt p.1 ++ [',', ' ']) ++ ofInt p.2 := by simp
    rw [hends, List.getLast?_append_of_ne_nil _ (ofInt_ne_nil p.2)] at hc
    have hmem := List.mem_of_mem_getLast? hc
    simp only [decide_eq_false_iff_not]
    rintro rfl
    exact hne p.2 ']' (by decide) hmem
  have hsplit : (ofInt p.1 ++ ',' :: ' ' :: ofInt p.2).splitOn ',' = [ofInt p.1, ' ' :: ofInt p.2] := by
    have hblank : ',' ∉ ' ' :: ofInt p.2 := by simp [hne p.2 ',' (by decide)]
    rw [List.splitOn_append_cons_self_of_not_mem (hne p.1 ',' (by decide)), List.splitOn_eq_singleton hblank]
  have hlb : float written (strip (ofInt p.1)) = .ok p.1 := float_ofInt ((strip_strip _).trans (strip_of_trimmed (trimmed_ofInt p.1)))
  have hub : float written (strip (' ' :: ofInt p.2)) = .ok p.2 := float_ofInt ((strip_strip _).trans (strip_blank_cons (trimmed_ofInt p.2)))
  rw [Rsf.range, hstrip, hopen, hshut, hsplit]
  simp only [hlb, hub, ok_bind]
  exact new_eq hp _

/-- What `__build` adds of ranges that are printed. -/
theorem build_pieces {ws : Str} (hws : ∀ c ∈ ws, isSpace c = true) {ps : List (ℤ × ℤ)} (hne : ps ≠ [])
    (hps : ∀ p ∈ ps, p.1 ≤ p.2) : ∃ rs : List Range, rs.map (fun r => (r.start, r.stop)) = ps ∧
      (∀ r ∈ rs, r.weight = RANGE_AREA / (r.stop - r.start + 1)) ∧
      ∀ (σ : Type) (add : σ → Range → Except PyErr σ) (range_set : σ),
        (Str.split "],".toList (ws ++ ranges_text ps)).foldlM (fun range_set r => do lift (add range_set (← Rsf.range written r)))
          range_set = rs.foldlM (fun range_set r => lift (add range_set r)) range_set := by
  have hpiece {ws : Str} (hws : ∀ c ∈ ws, isSpace c = true) (p : ℤ × ℤ) :
      ']' ∉ ws ++ '[' :: (ofInt p.1 ++ ',' :: ' ' :: ofInt p.2) := by
    have hblank : ']' ∉ ws := fun h => absurd (hws _ h) (by decide)
    have hint (n : ℤ) : ']' ∉ ofInt n := notMem_ofInt n (by decide) (by decide)
    simp [hblank, hint]
  induction ps using ranges_text.induct generalizing ws with
  | case1 => exact absurd rfl hne
  | case2 p =>
    have hp := hps p List.mem_cons_self
    have hshape : ws ++ ranges_text [p] = (ws ++ '[' :: (ofInt p.1 ++ ',' :: ' ' :: ofInt p.2)) ++ [']'] := by
      simp [ranges_text, range_text]
    have hsplit : Str.split "],".toList (ws ++ ranges_text [p]) = [ws ++ range_text p] := by
      refine split_of_not_infix fun hin => ?_
      rw [hshape] at hin
      exact absurd (infix_of_append (hpiece hws p) hin).length_le (by decide)
    refine ⟨[⟨p.1, p.2, RANGE_AREA / (p.2 - p.1 + 1), {String.ofList (ws ++ range_text p)}⟩], rfl, by simp,
      fun σ add range_set => ?_⟩
    rw [hsplit, List.foldlM_cons, List.foldlM_cons, range_text, range_piece hws (.inr rfl) hp]
    rfl
  | case3 p q ps ih =>
    obtain ⟨rs, hends, hweights, hrun⟩ := @ih [' '] isSpace_blank (List.cons_ne_nil _ _)
      fun p' hp' => hps p' (List.mem_cons_of_mem _ hp')
    have hp := hps p List.mem_cons_self
    have hshape : ws ++ ranges_text (p :: q :: ps) = (ws ++ '[' :: (ofInt p.1 ++ ',' :: ' ' :: ofInt p.2)) ++
        (']' :: [','] ++ ([' '] ++ ranges_text (q :: ps))) := by simp [ranges_text, range_text]
    have hrange := @range_piece ws [] hws (.inl rfl) p hp
    rw [List.append_nil] at hrange
    refine ⟨⟨p.1, p.2, RANGE_AREA / (p.2 - p.1 + 1), {String.ofList (ws ++ '[' :: (ofInt p.1 ++ ',' :: ' ' :: ofInt p.2))}⟩ ::
      rs, ?_, ?_, fun σ add range_set => ?_⟩
    · rw [List.map_cons, hends]
    · intro r hr
      obtain rfl | hr := List.mem_cons.mp hr
      · rfl
      · exact hweights r hr
    · have hsplit := split_append (t := [',']) (hpiece hws p) ([' '] ++ ranges_text (q :: ps))
      rw [hshape]
      rw [show "],".toList = ']' :: [','] from rfl, hsplit, List.foldlM_cons, List.foldlM_cons, hrange]
      simp only [ok_bind]
      congr 1
      funext range_set'
      exact hrun σ add range_set'

/-- **`__build`** adds the ranges that are printed, in their order. -/
theorem build_text {ps : List (ℤ × ℤ)} (hne : ps ≠ []) (hps : ∀ p ∈ ps, p.1 ≤ p.2) :
    ∃ rs : List Range, rs.map (fun r => (r.start, r.stop)) = ps ∧
      (∀ r ∈ rs, r.weight = RANGE_AREA / (r.stop - r.start + 1)) ∧
      ∀ (σ : Type) (add : σ → Range → Except PyErr σ) (range_set : σ),
        build1 written add range_set (' ' :: (ranges_text ps ++ [' '])) =
          rs.foldlM (fun range_set r => lift (add range_set r)) range_set := by
  obtain ⟨rs, hends, hweights, hrun⟩ := @build_pieces [] (fun _ h => absurd h List.not_mem_nil) ps hne hps
  refine ⟨rs, hends, hweights, fun σ add range_set => ?_⟩
  have hstrip : strip (' ' :: (ranges_text ps ++ [' '])) = ranges_text ps := by
    rw [strip_cons_space _ (by decide), strip_append_blank (trimmed_ranges_text hne)]
  obtain ⟨⟨s, hs⟩, -⟩ := ranges_text_ends hne
  have htrim := trimmed_ranges_text hne
  rw [← hrun σ add range_set, build1, hstrip, List.nil_append]
  rw [hs] at htrim ⊢
  rw [toFloat_bracket htrim]
  exact if_pos rfl

/-- **The three readers** of the ranges of a condition read the same ranges. -/
theorem readers_agree (expr : Str) (ps : List (ℤ × ℤ)) (hne : ps ≠ []) (hps : ∀ p ∈ ps, p.1 ≤ p.2) :
    ∃ cond, PathCond.init (condition_text expr ps) = .ok cond ∧ cond.get_ranges = .ok ps ∧
      parseRange (braced ps) = .ok (some (ps.map fun p => [p.1, p.2])) ∧
      ∃ rs : List Range, rs.map (fun r => (r.start, r.stop)) = ps ∧
        ∀ (σ : Type) (add : σ → Range → Except PyErr σ) (range_set : σ),
          build1 written add range_set cond.ranges = rs.foldlM (fun range_set r => lift (add range_set r)) range_set := by
  obtain ⟨rs, hends, -, hrun⟩ := build_text hne hps
  have hranges := @get_ranges_from_text [' '] [' '] (by decide) (by decide) ps
  exact ⟨_, init_condition_text expr ps, hranges, parseRange_braced hne, rs, hends, hrun⟩

/-- Two ranges of a condition. -/
theorem readers_agree_two : ∃ cond,
    PathCond.init (condition_text "(S64 # x)".toList [(-2 ^ 63, -1), (1, 2 ^ 31 - 1)]) = .ok cond ∧
    cond.get_ranges = .ok [(-2 ^ 63, -1), (1, 2 ^ 31 - 1)] ∧
    parseRange (braced [(-2 ^ 63, -1), (1, 2 ^ 31 - 1)]) = .ok (some [[-2 ^ 63, -1], [1, 2 ^ 31 - 1]]) ∧
    ∃ rs : List Range, rs.map (fun r => (r.start, r.stop)) = [(-2 ^ 63, -1), (1, 2 ^ 31 - 1)] ∧
      ∀ (σ : Type) (add : σ → Range → Except PyErr σ) (range_set : σ),
        build1 written add range_set cond.ranges = rs.foldlM (fun range_set r => lift (add range_set r)) range_set :=
  readers_agree "(S64 # x)".toList [(-2 ^ 63, -1), (1, 2 ^ 31 - 1)] (by decide) (by decide)

end SEDiff.Juxta

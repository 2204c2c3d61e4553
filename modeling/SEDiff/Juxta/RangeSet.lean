import SEDiff.Juxta.Range
import Mathlib.Data.List.Sort

/-!
# Sets of ranges

The class `RangeSet` of `rsv.py`: a list of references to ranges. `add`, `union_assign` and
`intersection_assign` insert ranges one by one, each first cut against the stored ranges by
`__decompose_range` and then merged piece by piece by `__add_with2`; `distance` measures the
union area of two sets and records their differences.

The inserted range is not copied: the set keeps the object it was given, and the insertion
changes that object and the stored ones in place.
-/

namespace SEDiff.Juxta

open Foundation

namespace RangeSet

/-- A merge of two ranges in place: `union_assign` or `intersection_assign`. -/
abbrev Op := Store Range → ℕ → ℕ → Except PyErr (Store Range × List ℕ)

/-! ### Cutting the new range -/

/-- `__decompose_range2`: the first stored range that overlaps `new` in part cuts it. Returns
the pieces that need no further cutting and those that do. -/
def decompose_range2 (h : Store Range) (new : ℕ) :
    List ℕ → Except PyErr (Store Range × List ℕ × List ℕ)
  | [] => .ok (h, [new], [])
  | r :: rs =>
    let R := h.obj r
    let N := h.obj new
    let start := max R.start N.start
    let stop := min R.stop N.stop
    -- no overlap
    if start > stop then decompose_range2 h new rs
    -- completely overlap
    else if start = N.start ∧ stop = N.stop then .ok (h, [new], [])
    -- partially overlapped
    else do
      let (h, new1) := h.alloc { N with start := start, stop := stop }
      pyAssert (h.obj new1).check_sanity
      if start = N.start then
        return (h.set new { N with start := stop + 1 }, [new1], [new])
      else if stop = N.stop then
        return (h.set new { N with stop := start - 1 }, [new1], [new])
      else
        let (h, new2) := h.alloc { N with start := stop + 1 }
        return (h.set new { N with stop := start - 1 }, [new1], [new, new2])

/-- One round of `__decompose_range`: every piece still to be cut is cut once. -/
def decompose_round (rs : List ℕ) :
    Store Range → List ℕ → Except PyErr (Store Range × List ℕ × List ℕ)
  | h, [] => .ok (h, [], [])
  | h, tobe_new :: news => do
    let (h, d_news, w_news) ← decompose_range2 h tobe_new rs
    let (h, d_rest, w_rest) ← decompose_round rs h news
    return (h, d_news ++ d_rest, w_news ++ w_rest)

/-- The loop of `__decompose_range` with `n` rounds left. On `break` the pieces of the last
round are still in `will_be_decomposed_news`, and they are returned a second time. -/
def decompose_rounds (rs : List ℕ) :
    ℕ → Store Range → List ℕ → List ℕ → Except PyErr (Store Range × List ℕ)
  | 0, h, decomposed_news, will_be_decomposed_news =>
    .ok (h, decomposed_news ++ will_be_decomposed_news)
  | n + 1, h, decomposed_news, will_be_decomposed_news => do
    let (h, d_news, will_be_decomposed_news2) ← decompose_round rs h will_be_decomposed_news
    let decomposed_news := decomposed_news ++ d_news
    if will_be_decomposed_news2 = [] then
      return (h, decomposed_news ++ will_be_decomposed_news)
    else decompose_rounds rs n h decomposed_news will_be_decomposed_news2

/-- `__decompose_range`: "if it cannot be converged ..., give up" after 30 rounds. -/
def decompose_range (h : Store Range) (rs : List ℕ) (new : ℕ) :
    Except PyErr (Store Range × List ℕ) :=
  decompose_rounds rs 30 h [] [new]

/-! ### Inserting -/

/-- The loop of `__add_with2`: merge `new` with each stored range in turn, and keep every
resulting range but `new` itself. -/
def add_with2_loop (op : Op) (new : ℕ) :
    Store Range → List ℕ → List ℕ → Except PyErr (Store Range × List ℕ)
  | h, [], new_rs => .ok (h, new_rs ++ [new])
  | h, r :: rs, new_rs => do
    let (h, xs) ← op h new r
    add_with2_loop op new h rs (new_rs ++ xs.filter (· ≠ new))

/-- `__add_with2`. -/
def add_with2 (op : Op) (h : Store Range) (rs : List ℕ) (new : ℕ) :
    Except PyErr (Store Range × List ℕ) :=
  add_with2_loop op new h rs []

/-- `__add_with2` for each piece. -/
def add_pieces (op : Op) : Store Range → List ℕ → List ℕ → Except PyErr (Store Range × List ℕ)
  | h, rs, [] => .ok (h, rs)
  | h, rs, n :: ns => do
    let (h, rs) ← add_with2 op h rs n
    add_pieces op h rs ns

/-- `__add_with`. -/
def add_with (op : Op) (h : Store Range) (rs : List ℕ) (new : ℕ) :
    Except PyErr (Store Range × List ℕ) := do
  let (h, pieces) ← decompose_range h rs new
  add_pieces op h rs pieces

/-- `map(lambda x: self.__add_with(x, op), rhs.rs)`. -/
def add_all (op : Op) : Store Range → List ℕ → List ℕ → Except PyErr (Store Range × List ℕ)
  | h, rs, [] => .ok (h, rs)
  | h, rs, x :: xs => do
    let (h, rs) ← add_with op h rs x
    add_all op h rs xs

/-- `add`. -/
def add (h : Store Range) (rs : List ℕ) (new : ℕ) : Except PyErr (Store Range × List ℕ) :=
  add_with Range.intersection_assign h rs new

/-- `union_assign`. -/
def union_assign (h : Store Range) (rs rhs : List ℕ) : Except PyErr (Store Range × List ℕ) :=
  add_all Range.union_assign h rs rhs

/-- `intersection_assign`. -/
def intersection_assign (h : Store Range) (rs rhs : List ℕ) :
    Except PyErr (Store Range × List ℕ) :=
  add_all Range.intersection_assign h rs rhs

/-- `div_assign`: every range of the set, in place. -/
def div_assign (n : ℚ) : Store Range → List ℕ → Store Range
  | h, [] => h
  | h, r :: rs => div_assign n (h.set r ((h.obj r).div_assign n)) rs

end RangeSet

end SEDiff.Juxta

import SEDiff.Foundation.Dict
import SEDiff.Juxta.RangeSet

/-!
# Vectors of range sets

The class `RangeSetVector` of `rsv.py`, a dictionary from dimensions to range sets, and
`CondVector.add_path` of `ckcond.py`. The operations work on deep copies of both operands.
-/

namespace SEDiff.Juxta

open Foundation

/-- `self.rsv`: the ranges of the set in each dimension. -/
abbrev RangeSetVector := Dict String (List ℕ)

namespace RangeSetVector

/-- `copy.deepcopy` of a range set: a fresh copy of each of its ranges. -/
def deepcopy : Store Range → List ℕ → Store Range × List ℕ
  | h, [] => (h, [])
  | h, o :: os =>
    let (h, p) := h.alloc (h.obj o)
    let (h, ps) := deepcopy h os
    (h, p :: ps)

/-- `self.rsv.get(dim, RangeSet())`. -/
def get (v : RangeSetVector) (dim : String) : List ℕ := (v.get? dim).getD []

/-- `__get_dimensions`. -/
def get_dimensions (v rhs : RangeSetVector) : List String := (v.keys ++ rhs.keys).dedup

/-- The loop of `__op` over the dimensions. -/
def op_dims (op_assign : Store Range → List ℕ → List ℕ → Except PyErr (Store Range × List ℕ))
    (v rhs : RangeSetVector) : Store Range → List String → RangeSetVector →
      Except PyErr (Store Range × RangeSetVector)
  | h, [], new_rsv => .ok (h, new_rsv)
  | h, dim :: dims, new_rsv =>
    let (h, new_lrs) := deepcopy h (v.get dim)
    let (h, new_rrs) := deepcopy h (rhs.get dim)
    do
      let (h, new_lrs) ← op_assign h new_lrs new_rrs
      op_dims op_assign v rhs h dims (new_rsv.put dim new_lrs)

/-- `union`. -/
def union (h : Store Range) (v rhs : RangeSetVector) :
    Except PyErr (Store Range × RangeSetVector) :=
  op_dims RangeSet.union_assign v rhs h (v.get_dimensions rhs) []

/-- `CondVector.add_path`. -/
def add_path (h : Store Range) (v tcv : RangeSetVector) :
    Except PyErr (Store Range × RangeSetVector) :=
  v.union h tcv

/-- `add_path` for each path of a function. -/
def add_paths : Store Range → RangeSetVector → List RangeSetVector →
    Except PyErr (Store Range × RangeSetVector)
  | h, v, [] => .ok (h, v)
  | h, v, tcv :: tcvs => do
    let (h, v) ← add_path h v tcv
    add_paths h v tcvs

end RangeSetVector

end SEDiff.Juxta

import Mathlib.Algebra.Group.Nat.Defs
import Mathlib.Algebra.GroupWithZero.Nat
import Mathlib.Data.Char
import Mathlib.Data.List.Lex
import SEDiff.Juxta.Path

/-!
# The parser of `.fss` files

`Parser` of `parser.py`, and the chunks that `pickler.py` has a file parsed in.
-/

namespace SEDiff.Juxta

open Foundation

/-- The line that opens a section. -/
def opening : Str := "@@<<".toList

/-- The line that closes a section. -/
def closing : Str := "@@>>".toList

namespace Parser

/-- The loop of `_dual_open`, with the lookahead `ns`. -/
def dual (end_ : ℕ) : Str → ℕ → List Str → List (Str × Option Str)
  | p, _, [] => [(p, none)]
  | p, offset, n :: ns =>
    if offset + n.length ≥ end_ ∧ closing <+: p then [(p, none)]
    else (p, some n.strip) :: dual end_ n.strip (offset + n.length) ns

/-- `_dual_open`: "open with one lookahead". -/
def _dual_open (content : Str) (start end_ : ℕ) : List (Str × Option Str) :=
  match lines '\n' (content.drop start) with
  | [] => [([], none)]
  | p :: ns => dual end_ (Str.strip p) (start + p.length) ns

/-- `_split`. -/
def _split (line : Str) : Str × Str :=
  let key := line.takeWhile (· ≠ ':')
  (key.drop 1, Str.strip (line.drop (key.length + 1)))

/-- The lookahead ends an entry: end of line, newline or normal entry. -/
def ends : Option Str → Bool
  | none => true
  | some [] => true
  | some (c :: _) => c = '@'

/-- Where `_feeder` is. -/
structure Feeder where
  /-- Between `@@<<` and `@@>>`. -/
  state_enable : Bool
  /-- The key and the value so far of an entry with multiple lines. -/
  entry : Option (Str × Str)

/-- What `_feeder` yields for one line, in the loop it is in. -/
def feed (st : Feeder) (l : Str) (n : Option Str) : List (Str × Str) × Feeder :=
  match st.entry with
  | some (key, val) =>
    if ends n then ([(key, val ++ l)], { st with entry := none })
    else ([], { st with entry := some (key, val ++ l) })
  | none =>
    if l = [] then ([], st)
    else if opening <+: l then ([], { st with state_enable := true })
    else if closing <+: l then ([], { st with state_enable := false })
    else if !st.state_enable then ([], st)
    else if l.head? ≠ some '@' ∨ ':' ∉ l then ([], st)
    else if ends n then ([_split l], st)
    else ([], { st with entry := some (_split l) })

/-- `_feeder`: "split lines to key, value". -/
def _feeder : Feeder → List (Str × Option Str) → List (Str × Str)
  | st, [] => st.entry.toList
  | st, (l, n) :: fd => (feed st l n).1 ++ _feeder (feed st l n).2 fd

/-- The loop of `parse_file`. -/
def parse_entries : Option RetPath → List (Str × Str) → Except PyErr (List RetPath)
  | state_path, [] => .ok state_path.toList
  | state_path, (key, val) :: es =>
    if key = "LOCATION".toList then do
      let path ← RetPath.init.add_entry key val
      let paths ← parse_entries (some path) es
      return state_path.toList ++ paths
    else match state_path with
      | none => .error .attributeError
      | some path => do
        let path ← path.add_entry key val
        parse_entries (some path) es

/-- `parse_file`. -/
def parse_file (content : Str) (start end_ : ℕ) : Except PyErr (List RetPath) :=
  parse_entries none (_feeder ⟨false, none⟩ (_dual_open content start end_))

/-- `parse_file` with the default bounds. -/
def parse_whole (content : Str) : Except PyErr (List RetPath) := parse_file content 0 (2 ^ 64)

end Parser

namespace Pickler

/-- `MIN_UNIT_SIZE`. -/
def MIN_UNIT_SIZE : ℕ := 32 * 1024 * 1024

/-- A part of a file to parse. -/
structure PicklePlan where
  /-- The number of the file. -/
  id : ℕ
  /-- The number of the part. -/
  sub_id : ℕ
  /-- The file. -/
  fss : Str
  /-- Where the part starts. -/
  start : ℕ
  /-- Where it ends. -/
  end_ : ℕ

/-- `range(0, size+unit/2, unit)`. -/
def starts (size unit : ℕ) : List ℕ :=
  (List.range ((size + unit / 2 + unit - 1) / unit)).map (· * unit)

/-- The parts of one file. -/
def parts (id : ℕ) (fss : Str) (size unit : ℕ) : List PicklePlan :=
  (starts size unit).mapIdx fun sub_id start => ⟨id, sub_id, fss, start, start + unit⟩

/-- The paths of a file that is parsed in parts, one part after the other. -/
def parse_parts (content : Str) (plans : List PicklePlan) : Except PyErr (List RetPath) := do
  let paths ← plans.mapM fun plan => Parser.parse_file content plan.start plan.end_
  return paths.flatten

end Pickler

end SEDiff.Juxta

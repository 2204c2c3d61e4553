import SEDiff.Foundation.Text
import SEDiff.Foundation.Dict
import SEDiff.Foundation.Python

/-!
# Paths

`RetPath` of `path.py`: one path through a function, and the entries it is made of.
-/

namespace SEDiff.Juxta

open Foundation

/-- `_parse_typed_arg`. -/
def _parse_typed_arg (targ : Str) : Option Str × Str :=
  match targ.rfind ' ' with
  | none => (none, targ)
  | some 0 => (none, targ)
  | some end_type => (some (Str.strip (targ.take end_type)), Str.strip (targ.drop (end_type + 1)))

/-- The parenthesis that opens the last argument list, looked for below index `i`. -/
def beg_args (decl : Str) : ℕ → ℤ → Option ℕ
  | 0, _ => none
  | i + 1, depth =>
    let c := decl.getD i ' '
    let depth := if c = ')' then depth + 1 else if c = '(' then depth - 1 else depth
    if depth = 0 ∧ c = '(' then some i else beg_args decl i depth

/-- A function's name, the types of its arguments and the arguments. -/
structure Decl where
  /-- The name. -/
  func : Str
  /-- The types. -/
  types : List (Option Str)
  /-- The arguments. -/
  args : List Str
  deriving DecidableEq, Repr

/-- `_parse_func`. -/
def _parse_func (decl : Str) : Option Decl :=
  (beg_args decl decl.length 0).map fun beg =>
    let targs := ((decl.dropLast.drop (beg + 1)).splitOn ',').map fun arg => _parse_typed_arg (Str.strip arg)
    ⟨decl.take beg, targs.map Prod.fst, targs.map Prod.snd⟩

/-- `utils.split`: what is on both sides of the last `tok`. -/
def split (line tok : Str) : Except PyErr (Str × Str) :=
  match line.rsplit tok with
  | some (lhs, rhs) => .ok (lhs.strip, rhs.strip)
  | none => .error .valueError

/-- `LOG_CALL`. -/
structure PathCall where
  /-- The function. -/
  func : Str
  /-- The arguments. -/
  args : List Str
  /-- The location. -/
  loc : Str
  deriving DecidableEq, Repr

/-- `PathCall(line)`. -/
def PathCall.init (line : Str) : Except PyErr PathCall := do
  let (decl, loc) ← split line "@LOCATION:".toList
  match _parse_func decl with
  | some d => return ⟨d.func, d.args, loc⟩
  | none => return ⟨line, [], loc⟩

/-- `LOG_STORE`. -/
structure PathStore where
  /-- The location. -/
  loc : Str
  /-- What is assigned to. -/
  lhs : Option Str
  /-- The value. -/
  rhs : Str
  deriving DecidableEq, Repr

/-- Compound assignments, and the operators they stand for. -/
def compound : List (Str × Str) :=
  [("+=", " + "), ("-=", " - "), ("*=", " * "), ("/=", " / "), ("%=", " % "), ("&=", " & "), ("|=", " | "),
    ("<<=", " << "), (">>=", " >> ")].map fun p => (p.1.toList, p.2.toList)

/-- Both sides of an assignment. -/
def sides (line stmt : Str) : Except PyErr (Option Str × Str) :=
  if "++".toList <:+: stmt then
    let lhs := stmt.rstrip (· = '+')
    .ok (some lhs, lhs ++ "+ 1".toList)
  else if "--".toList <:+: stmt then
    let lhs := stmt.rstrip (· = '-')
    .ok (some lhs, lhs ++ "- 1".toList)
  else match compound.find? fun p => p.1 <:+: stmt with
    | some (tok, op) => do
      let (lhs, rhs) ← split stmt tok
      return (some lhs, rhs ++ op ++ lhs)
    | none =>
      if "=".toList <:+: stmt then do
        let (lhs, rhs) ← split stmt "=".toList
        return (some lhs, rhs)
      else .ok (none, line)

/-- `PathStore(line)`. -/
def PathStore.init (line : Str) : Except PyErr PathStore := do
  let (stmt, loc) ← split line "@LOCATION:".toList
  let (lhs, rhs) ← sides line stmt
  let loc := match loc.rfind ':' with
    | some i => loc.take i
    | none => loc.dropLast
  return ⟨loc, lhs, rhs⟩

/-- `CONDITION`. -/
structure PathCond where
  /-- The expression. -/
  expr : Str
  /-- Its ranges. -/
  ranges : Str
  deriving DecidableEq, Repr

/-- `PathCond(line)`. -/
def PathCond.init (line : Str) : Except PyErr PathCond :=
  if ':' ∈ line then do
    let (expr, ranges) ← split line ":".toList
    return ⟨expr.strip, (ranges.strip.lstrip (· = '{')).rstrip (· = '}')⟩
  else return ⟨"nil".toList, "nil".toList⟩

/-- What an entry is parsed to. -/
inductive Entry
  /-- `FUNCTION`. -/
  | func (f : Option Decl)
  /-- `CONDITION`. -/
  | cond (c : PathCond)
  /-- `LOG_CALL`. -/
  | call (c : PathCall)
  /-- `LOG_STORE`. -/
  | store (s : PathStore)
  /-- Any other value. -/
  | text (val : Str)
  deriving DecidableEq, Repr

/-- `_parse_entry`. -/
def _parse_entry (key val : Str) : Except PyErr Entry :=
  if key = "FUNCTION".toList then return .func (_parse_func val)
  else if key = "CONDITION".toList then return .cond (← PathCond.init val)
  else if key = "LOG_CALL".toList then return .call (← PathCall.init val)
  else if key = "LOG_STORE".toList then return .store (← PathStore.init val)
  else return .text val

/-- What a key of a path's index holds. -/
inductive Slot
  /-- The entry. -/
  | one (entry : Entry)
  /-- The entries so far. -/
  | many (entries : List Entry)
  deriving DecidableEq, Repr

/-- `LIST_TYPE`. -/
def LIST_TYPE : List Str := ["CONDITION".toList, "LOG_CALL".toList, "LOG_STORE".toList]

/-- "represent a single path upto return". -/
structure RetPath where
  /-- Entries by key. -/
  index : Dict Str Slot
  /-- Calls and stores in order. -/
  effects : List Entry
  deriving DecidableEq, Repr

namespace RetPath

/-- `RetPath()`. -/
def init : RetPath := ⟨[], []⟩

/-- `self.index[key].append(entry)`. -/
def append (index : Dict Str Slot) (key : Str) (entry : Entry) : Except PyErr (Dict Str Slot) :=
  match index.get? key with
  | none => .ok (index.put key (.many [entry]))
  | some (.many entries) => .ok (index.put key (.many (entries ++ [entry])))
  | some (.one _) => .error .attributeError

/-- `add_entry`. -/
def add_entry (p : RetPath) (key val : Str) : Except PyErr RetPath := do
  let entry ← _parse_entry key val
  let effects := if "LOG_".toList <+: key then p.effects ++ [entry] else p.effects
  if key ∈ LIST_TYPE then return ⟨← append p.index key entry, effects⟩
  else
    pyAssert (p.index.get? key = none)
    return ⟨p.index.put key (.one entry), effects⟩

end RetPath

end SEDiff.Juxta

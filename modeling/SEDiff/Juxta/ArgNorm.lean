import SEDiff.Foundation.Words
import SEDiff.Foundation.Numerals
import SEDiff.Juxta.Path

/-!
# The normalization of arguments

`ArgNormalizer` of `argnorm.py` writes the parameters of a function as `$A0`, `$A1`, … in the expressions of a path, and
every other word as `tmp`.

## What is proved

* `tokens_of_le`, `_tokenize_expr_eq` — an expression is a first token and the tokens of the rest.
* `_tokenize_expr_partition` — the tokens are the whole expression, and delimiters and expressions alternate.
* `_normalize_expr_eq` — every expression is replaced.
-/

namespace SEDiff.Juxta

open Foundation

/-! ### Tokens -/

/-- `DELIMITERS`. -/
def DELIMITERS : List Char :=
  ['+', '-', '*', '/', '%', '!', '~', '^', '|', '&', '(', ')', '{', '}', '[', ']', '<', '>', ' ', '.', ',', ':', '=',
    '#', '$', '@']

/-- `EXPR_PREFIX`. -/
def EXPR_PREFIX : List Str := ["(S64 #".toList, "(I #".toList, "(E #".toList]

/-- The length of the expression prefix, or zero. -/
def startLength (expr : Str) : ℕ := ((EXPR_PREFIX.find? fun start => start <+: expr).map List.length).getD 0

/-- Whether a character is a delimiter. -/
def isDelimiter (c : Char) : Bool := c ∈ DELIMITERS

/-- The length of the expression prefix and the delimiters after it. -/
def delimiters (expr : Str) : ℕ :=
  startLength expr + ((expr.drop (startLength expr)).takeWhile isDelimiter).length

/-- The loop of `_tokenize_expr`, at most `fuel` times. -/
def tokens : ℕ → Str → List (Str × Bool)
  | 0, _ => []
  | _ + 1, [] => []
  | fuel + 1, expr =>
    if 0 < delimiters expr then (expr.take (delimiters expr), false) :: tokens fuel (expr.drop (delimiters expr))
    else
      let p := (expr.takeWhile fun c => !isDelimiter c).length
      (expr.take p, true) :: tokens fuel (expr.drop p)

/-- `_tokenize_expr`: every token has a character. -/
def _tokenize_expr (expr : Str) : List (Str × Bool) := tokens expr.length expr

namespace ArgNormalizer

/-! ### The normalizer -/

/-- The loop body of `_normalize_expr`, from `nexpr` and `p_is_expr`. -/
def normalize_token (argmap : Dict Str Str) (s : Str × Bool) (token : Str × Bool) : Str × Bool :=
  let expr := if s.2 = false ∧ token.2 = true then (argmap.get? token.1).getD "tmp".toList else token.1
  (s.1 ++ expr, token.2)

/-- `_normalize_expr`. -/
def _normalize_expr (argmap : Dict Str Str) (expr : Str) : Str :=
  ((_tokenize_expr expr).foldl (normalize_token argmap) ([], false)).1

/-- `_normalize_store_rhs`. -/
def _normalize_store_rhs (argmap : Dict Str Str) (expr : Str) : Str :=
  (((_normalize_expr argmap expr).replace "S64 # ".toList []).replace "I # ".toList []).replace "E #".toList []

/-- `argmap`, where an argument without a type ends the loop, and the normalization. -/
def argmapFrom (argmap : Dict Str Str) (i : ℕ) : List (Option Str × Str) → Option (Dict Str Str)
  | [] => some argmap
  | (none, _) :: _ => none
  | (some _, arg) :: targs => argmapFrom (argmap.put arg ("$A".toList ++ Str.ofInt i)) (i + 1) targs

/-- `argmap`. -/
def argmap (func : Decl) : Option (Dict Str Str) := argmapFrom [] 0 (func.types.zip func.args)

/-- A call with its arguments normalized. -/
def normalize_call (argmap : Dict Str Str) : Entry → Entry
  | .call call => .call { call with args := call.args.map (_normalize_expr argmap) }
  | e => e

/-- A condition with its expression normalized. -/
def normalize_cond (argmap : Dict Str Str) : Entry → Entry
  | .cond cond => .cond { cond with expr := _normalize_expr argmap cond.expr }
  | e => e

/-- A store with both sides normalized: the left side, if it is there and not empty. -/
def normalize_store (argmap : Dict Str Str) : Entry → Entry
  | .store store => .store { store with
      lhs := store.lhs.map fun lhs => if lhs = [] then lhs else _normalize_expr argmap lhs,
      rhs := _normalize_store_rhs argmap store.rhs }
  | e => e

end ArgNormalizer

namespace RetPath

/-- `get_target`. -/
def get_target (p : RetPath) : Option Slot := p.index.get? "FUNCTION".toList

/-- `get_calls`. -/
def get_calls (p : RetPath) : Option Slot := p.index.get? "LOG_CALL".toList

/-- `get_conds`. -/
def get_conds (p : RetPath) : Option Slot := p.index.get? "CONDITION".toList

/-- `get_rtn`. -/
def get_rtn (p : RetPath) : Option Slot := p.index.get? "RETURN".toList

/-- `get_stores`. -/
def get_stores (p : RetPath) : Option Slot := p.index.get? "LOG_STORE".toList

/-- The path after the entries of a list are changed in place: the effects are the same objects. -/
def change (p : RetPath) (key : Str) (f : Entry → Entry) : RetPath :=
  match p.index.get? key with
  | some (.many entries) => ⟨p.index.put key (.many (entries.map f)), p.effects.map f⟩
  | _ => p

end RetPath

namespace ArgNormalizer

/-- `self.argmap[arg]`. -/
def mapped (argmap : Dict Str Str) (arg : Str) : Except PyErr Str :=
  match argmap.get? arg with
  | some name => .ok name
  | none => .error .keyError

/-- `_normalize_target`. -/
def _normalize_target (argmap : Dict Str Str) (func : Decl) (path : RetPath) : Except PyErr RetPath := do
  let args ← func.args.mapM (mapped argmap)
  return { path with index := path.index.put "FUNCTION".toList (.one (.func (some { func with args }))) }

/-- `_normalize_calls`. -/
def _normalize_calls (argmap : Dict Str Str) (path : RetPath) : RetPath :=
  path.change "LOG_CALL".toList (normalize_call argmap)

/-- `_normalize_conds`. -/
def _normalize_conds (argmap : Dict Str Str) (path : RetPath) : RetPath :=
  path.change "CONDITION".toList (normalize_cond argmap)

/-- `_normalize_rtn`: `None` is not an expression. -/
def _normalize_rtn (argmap : Dict Str Str) (path : RetPath) : Except PyErr RetPath :=
  match path.get_rtn with
  | some (.one (.text rtn)) =>
    .ok { path with index := path.index.put "RETURN".toList (.one (.text (_normalize_expr argmap rtn))) }
  | _ => .error .attributeError

/-- `_normalize_stores`. -/
def _normalize_stores (argmap : Dict Str Str) (path : RetPath) : RetPath :=
  path.change "LOG_STORE".toList (normalize_store argmap)

/-- `_normalize`. -/
def _normalize (argmap : Dict Str Str) (func : Decl) (path : RetPath) : Except PyErr RetPath := do
  let path ← _normalize_target argmap func path
  let path ← _normalize_rtn argmap (_normalize_conds argmap (_normalize_calls argmap path))
  return _normalize_stores argmap path

/-- `ArgNormalizer(path)`, and the path after it. -/
def init (path : RetPath) : Except PyErr RetPath :=
  match path.get_target with
  | some (.one (.func (some func))) =>
    match argmap func with
    | some argmap => _normalize argmap func path
    | none => .ok path
  | some (.one (.func none)) => .error .typeError
  | _ => .error .attributeError

end ArgNormalizer

/-! ### One token after the other -/

/-- An expression prefix starts with a delimiter. -/
theorem head_of_startLength {expr : Str} (h : 0 < startLength expr) : ∃ s, expr = '(' :: s := by
  rw [startLength] at h
  cases hfind : EXPR_PREFIX.find? fun start => start <+: expr with
  | none =>
    rw [hfind] at h
    exact absurd h (lt_irrefl 0)
  | some start =>
    have hmem : start ∈ EXPR_PREFIX := List.mem_of_find?_eq_some hfind
    have hpre : start <+: expr := by simpa using List.find?_some hfind
    have hstart : ∃ s, start = '(' :: s := by
      simp only [EXPR_PREFIX, List.mem_cons, List.not_mem_nil, or_false] at hmem
      obtain rfl | rfl | rfl := hmem <;> exact ⟨_, rfl⟩
    obtain ⟨s, rfl⟩ := hstart
    obtain ⟨t, rfl⟩ := hpre
    exact ⟨s ++ t, rfl⟩

/-- A token of delimiters starts with one. -/
theorem delimiters_pos_iff {c : Char} {s : Str} : 0 < delimiters (c :: s) ↔ isDelimiter c = true := by
  rw [delimiters]
  by_cases hstart : 0 < startLength (c :: s)
  · obtain ⟨t, ht⟩ := head_of_startLength hstart
    obtain ⟨rfl, -⟩ := List.cons.inj ht
    exact iff_of_true (Nat.add_pos_left hstart _) (by decide)
  · have hzero : startLength (c :: s) = 0 := Nat.eq_zero_of_not_pos hstart
    rw [hzero, List.drop_zero, Nat.zero_add]
    cases hc : isDelimiter c with
    | true => simp [List.takeWhile_cons_of_pos hc]
    | false => simp [List.takeWhile_cons_of_neg (by simp [hc] : ¬ isDelimiter c = true)]

/-- The number of characters of the first token, and whether it is an expression. -/
def firstToken (expr : Str) : ℕ × Bool :=
  if 0 < delimiters expr then (delimiters expr, false) else ((expr.takeWhile fun c => !isDelimiter c).length, true)

/-- Every token has a character. -/
theorem firstToken_pos {expr : Str} (hne : expr ≠ []) : 0 < (firstToken expr).1 := by
  obtain ⟨c, s, rfl⟩ := List.exists_cons_of_ne_nil hne
  rw [firstToken]
  split_ifs with hpos
  · exact hpos
  · have hc : (!isDelimiter c) = true := by simpa [delimiters_pos_iff] using hpos
    simp [List.takeWhile_cons_of_pos (p := fun c => !isDelimiter c) hc]

theorem tokens_succ (fuel : ℕ) {expr : Str} (hne : expr ≠ []) :
    tokens (fuel + 1) expr =
      (expr.take (firstToken expr).1, (firstToken expr).2) :: tokens fuel (expr.drop (firstToken expr).1) := by
  obtain ⟨c, s, rfl⟩ := List.exists_cons_of_ne_nil hne
  simp only [tokens, firstToken]
  split_ifs <;> rfl

/-- As many times as there are characters are enough. -/
theorem tokens_of_le {fuel : ℕ} {expr : Str} (hfuel : expr.length ≤ fuel) : tokens fuel expr = _tokenize_expr expr := by
  rw [_tokenize_expr]
  induction fuel using Nat.strongRecOn generalizing expr with
  | _ fuel ih =>
    by_cases hne : expr = []
    · subst hne
      cases fuel <;> rfl
    · have hlen : 0 < expr.length := List.length_pos_iff.mpr hne
      have hpos := firstToken_pos hne
      obtain ⟨m, hm⟩ := Nat.exists_eq_succ_of_ne_zero (Nat.pos_iff_ne_zero.mp hlen)
      obtain ⟨n, rfl⟩ : ∃ n, fuel = n + 1 := Nat.exists_eq_succ_of_ne_zero (by omega)
      have hdrop : (expr.drop (firstToken expr).1).length ≤ m := by
        rw [List.length_drop]
        omega
      rw [hm, tokens_succ n hne, tokens_succ m hne, ih n (Nat.lt_succ_self n) (hdrop.trans (by omega)),
        ih m (by omega) hdrop]

/-- **The first token**, and the others. -/
theorem _tokenize_expr_eq {expr : Str} (hne : expr ≠ []) : _tokenize_expr expr =
    (expr.take (firstToken expr).1, (firstToken expr).2) :: _tokenize_expr (expr.drop (firstToken expr).1) := by
  have hlen : 0 < expr.length := List.length_pos_iff.mpr hne
  have hpos := firstToken_pos hne
  obtain ⟨m, hm⟩ := Nat.exists_eq_succ_of_ne_zero (Nat.pos_iff_ne_zero.mp hlen)
  rw [_tokenize_expr, hm, tokens_succ m hne, tokens_of_le]
  rw [List.length_drop]
  omega

@[simp] theorem _tokenize_expr_nil : _tokenize_expr [] = [] := rfl

/-- What holds of the empty text, and of a text when it holds of what follows the first token. -/
theorem tokenize_induction {motive : Str → Prop} (nil : motive [])
    (token : ∀ expr, expr ≠ [] → motive (expr.drop (firstToken expr).1) → motive expr) (expr : Str) : motive expr := by
  induction hn : expr.length using Nat.strongRecOn generalizing expr with
  | _ n ih =>
    by_cases hne : expr = []
    · rw [hne]
      exact nil
    · have hpos := firstToken_pos hne
      have hlen : 0 < expr.length := List.length_pos_iff.mpr hne
      exact token expr hne (ih _ (by rw [List.length_drop]; omega) _ rfl)

/-! ### A partition -/

/-- The prefix of an expression is one of the three. -/
theorem take_startLength (expr : Str) :
    expr.take (startLength expr) = [] ∨ expr.take (startLength expr) ∈ EXPR_PREFIX := by
  rw [startLength]
  cases hfind : EXPR_PREFIX.find? fun start => start <+: expr with
  | none => exact .inl List.take_zero
  | some start =>
    have hpre : start <+: expr := by simpa using List.find?_some hfind
    rw [Option.map_some, Option.getD_some, ← List.prefix_iff_eq_take.mp hpre]
    exact .inr (List.mem_of_find?_eq_some hfind)

/-- The characters of the first token that come after the prefix. -/
theorem take_delimiters (expr : Str) : expr.take (delimiters expr) =
    expr.take (startLength expr) ++ (expr.drop (startLength expr)).takeWhile isDelimiter := by
  rw [delimiters, List.take_add]
  congr 1
  exact (List.prefix_iff_eq_take.mp (List.takeWhile_prefix _)).symm

/-- After a token of delimiters there is none. -/
theorem drop_delimiters (expr : Str) : expr.drop (delimiters expr) = (expr.drop (startLength expr)).dropWhile isDelimiter := by
  rw [delimiters, ← List.drop_drop]
  exact Words.drop_length_takeWhile _

/-- The kinds of tokens alternate. -/
theorem firstToken_drop {expr : Str} (hnil : expr.drop (firstToken expr).1 ≠ []) :
    (firstToken (expr.drop (firstToken expr).1)).2 = !(firstToken expr).2 := by
  obtain ⟨c, s, hcs⟩ := List.exists_cons_of_ne_nil hnil
  rw [hcs]
  by_cases hd : 0 < delimiters expr
  · have hdrop : (expr.drop (startLength expr)).dropWhile isDelimiter = c :: s := by
      rw [← drop_delimiters, ← hcs, firstToken, if_pos hd]
    have hhead := List.head?_dropWhile_not isDelimiter (expr.drop (startLength expr))
    rw [hdrop] at hhead
    have hc : isDelimiter c = false := by simpa using hhead
    rw [firstToken, firstToken, if_pos hd, if_neg (by rw [delimiters_pos_iff, hc]; decide)]
    rfl
  · have hdrop : expr.dropWhile (fun c => !isDelimiter c) = c :: s := by
      rw [← hcs, firstToken, if_neg hd]
      exact (Words.drop_length_takeWhile expr).symm
    have hhead := List.head?_dropWhile_not (fun c => !isDelimiter c) expr
    rw [hdrop] at hhead
    have hc : isDelimiter c = true := by simpa using hhead
    rw [firstToken, firstToken, if_neg hd, if_pos (delimiters_pos_iff.mpr hc)]
    rfl

/-- Tokens of delimiters and expressions strictly alternate. -/
theorem strictly_alternate (expr : Str) : (_tokenize_expr expr).IsChain fun t t' => t'.2 = !t.2 := by
  induction expr using tokenize_induction with
  | nil => exact List.IsChain.nil
  | token expr hne ih =>
    rw [_tokenize_expr_eq hne]
    by_cases hnil : expr.drop (firstToken expr).1 = []
    · rw [hnil]
      exact List.IsChain.singleton _
    · have hkind := firstToken_drop hnil
      rw [_tokenize_expr_eq hnil] at ih ⊢
      exact List.isChain_cons_cons.mpr ⟨hkind, ih⟩

/-- After an expression come delimiters. -/
theorem alternate (expr : Str) : (_tokenize_expr expr).IsChain fun t t' => t.2 = true → t'.2 = false :=
  (strictly_alternate expr).imp fun t t' h ht => by rw [h, ht]; rfl

/-- A token: an expression has no delimiter, and other tokens only delimiters, after a prefix perhaps. -/
def Token (t : Str × Bool) : Prop :=
  if t.2 then ∀ c ∈ t.1, c ∉ DELIMITERS
  else ∃ start rest, t.1 = start ++ rest ∧ (start = [] ∨ start ∈ EXPR_PREFIX) ∧ ∀ c ∈ rest, c ∈ DELIMITERS

theorem token_firstToken (expr : Str) : Token (expr.take (firstToken expr).1, (firstToken expr).2) := by
  rw [firstToken]
  split_ifs with hd
  · refine ⟨expr.take (startLength expr), (expr.drop (startLength expr)).takeWhile isDelimiter, take_delimiters expr,
      take_startLength expr, fun c hc => ?_⟩
    have hdel : isDelimiter c = true := List.mem_takeWhile_imp hc
    simpa [isDelimiter] using hdel
  · have htake : expr.take (expr.takeWhile fun c => !isDelimiter c).length = expr.takeWhile fun c => !isDelimiter c :=
      (List.prefix_iff_eq_take.mp (List.takeWhile_prefix _)).symm
    intro c hc
    simp only [htake] at hc
    have hdel : (!isDelimiter c) = true := List.mem_takeWhile_imp (p := fun c => !isDelimiter c) hc
    simpa [isDelimiter] using hdel

/-- **`_tokenize_expr` is a partition**: the loop ends, the tokens are the whole text, none is empty, and they alternate. -/
theorem _tokenize_expr_partition (expr : Str) :
    (∀ fuel, expr.length ≤ fuel → tokens fuel expr = _tokenize_expr expr) ∧
      (_tokenize_expr expr).flatMap Prod.fst = expr ∧ (∀ t ∈ _tokenize_expr expr, t.1 ≠ [] ∧ Token t) ∧
      (_tokenize_expr expr).IsChain fun t t' => t'.2 = !t.2 := by
  refine ⟨fun fuel hfuel => tokens_of_le hfuel, ?_, ?_, strictly_alternate expr⟩
  · induction expr using tokenize_induction with
    | nil => rfl
    | token expr hne ih => rw [_tokenize_expr_eq hne, List.flatMap_cons, ih, List.take_append_drop]
  · induction expr using tokenize_induction with
    | nil => simp
    | token expr hne ih =>
      rw [_tokenize_expr_eq hne]
      refine List.forall_mem_cons.mpr ⟨⟨fun hnil => ?_, token_firstToken expr⟩, ih⟩
      rcases List.take_eq_nil_iff.mp hnil with hzero | hempty
      · exact absurd hzero (firstToken_pos hne).ne'
      · exact hne hempty

namespace ArgNormalizer

/-- What a token is replaced by. -/
def replacement (argmap : Dict Str Str) (token : Str × Bool) : Str :=
  if token.2 then (argmap.get? token.1).getD "tmp".toList else token.1

/-- **Every expression is replaced**: `p_is_expr` is false there. -/
theorem _normalize_expr_eq (argmap : Dict Str Str) (expr : Str) :
    _normalize_expr argmap expr = (_tokenize_expr expr).flatMap (replacement argmap) := by
  have hfold (ts : List (Str × Bool)) (nexpr : Str) (p_is_expr : Bool)
      (hts : ts.IsChain fun t t' => t.2 = true → t'.2 = false)
      (hhead : p_is_expr = true → ∀ t ∈ ts.head?, t.2 = false) :
      (ts.foldl (normalize_token argmap) (nexpr, p_is_expr)).1 = nexpr ++ ts.flatMap (replacement argmap) := by
    induction ts generalizing nexpr p_is_expr with
    | nil => simp
    | cons t ts ih =>
      have htoken : normalize_token argmap (nexpr, p_is_expr) t = (nexpr ++ replacement argmap t, t.2) := by
        rw [normalize_token, replacement]
        cases p_is_expr with
        | false => simp
        | true => simp [hhead rfl t rfl]
      rw [List.foldl_cons, htoken, ih _ _ hts.tail, List.flatMap_cons, List.append_assoc]
      intro ht t' ht'
      obtain ⟨ts', rfl⟩ := List.head?_eq_some_iff.mp ht'
      exact (List.isChain_cons_cons.mp hts).1 ht
  rw [_normalize_expr, hfold _ [] false (alternate expr) nofun, List.nil_append]

end ArgNormalizer

end SEDiff.Juxta

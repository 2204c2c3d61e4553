import SEDiff.Juxta.NormalForms
import SEDiff.Juxta.PathBin

/-!
# Return values as keys

`PathBin` files a path by its return value, after its arguments are normalized. A number is a word that is no parameter,
so that the key is `tmp`, or `-tmp`, and not the number.

## What is proved

* `normalize_ofInt` — what a number is normalized to.
* `filed_under` — a path is filed under its normalized return value only.
* `not_filed_apart` — no two paths that return different numbers are filed under these.
-/

namespace SEDiff.Juxta

open Foundation ArgNormalizer

/-! ### The source -/

namespace RetPath

/-- `get_target().get_func_name()`. -/
def func_name (p : RetPath) : Option Str :=
  match p.get_target with
  | some (.one (.func f)) => f.map Decl.func
  | _ => none

/-- The return value. -/
def rtn (p : RetPath) : Option Str :=
  match p.get_rtn with
  | some (.one (.text t)) => some t
  | _ => none

end RetPath

namespace PathBin

/-- `__process_path`. -/
def process_logged (fn_dic : FnDic RetPath) (path : RetPath) : Except PyErr (FnDic RetPath) := do
  let path ← ArgNormalizer.init path
  return process_path RetPath.func_name RetPath.rtn fn_dic path

/-- The database of these paths. -/
def parse_logged (paths : List RetPath) : Except PyErr (FnDic RetPath) := paths.foldlM process_logged []

end PathBin

/-! ### Filed paths -/

/-- The path is filed under the return key `k` of the function. -/
def FiledUnder (db : FnDic RetPath) (fn : Str) (k : Option Str) (p : RetPath) : Prop :=
  ∃ d paths, db.get? (some fn) = some d ∧ d.get? k = some paths ∧ p ∈ paths

/-- The key is read as this number. -/
def KeyDenotes (k : Option Str) (n : ℤ) : Prop := ∃ t, k = some t ∧ t.toInt = some n

/-- The paths are filed under different keys, which denote the numbers. -/
def FiledApart (db : FnDic RetPath) (fn : Str) (p p' : RetPath) (n n' : ℤ) : Prop :=
  ∃ q q' k k', ArgNormalizer.init p = .ok q ∧ ArgNormalizer.init p' = .ok q' ∧ FiledUnder db fn k q ∧
    FiledUnder db fn k' q' ∧ k ≠ k' ∧ KeyDenotes k n ∧ KeyDenotes k' n'

/-- The database of the normalized paths. -/
theorem parse_logged_eq {paths : List RetPath} {db : FnDic RetPath} (h : PathBin.parse_logged paths = .ok db) :
    ∃ qs, List.Forall₂ (fun p q => ArgNormalizer.init p = .ok q) paths qs ∧
      db = PathBin.parse RetPath.func_name RetPath.rtn qs := by
  have hfold (paths : List RetPath) (start : FnDic RetPath) (h : paths.foldlM PathBin.process_logged start = .ok db) :
      ∃ qs, List.Forall₂ (fun p q => ArgNormalizer.init p = .ok q) paths qs ∧
        db = qs.foldl (PathBin.process_path RetPath.func_name RetPath.rtn) start := by
    induction paths generalizing start with
    | nil =>
      obtain rfl := Except.ok.inj h
      exact ⟨[], .nil, rfl⟩
    | cons p paths ih =>
      rw [List.foldlM_cons] at h
      obtain ⟨next, hstep, hrest⟩ := bind_eq_ok.mp h
      obtain ⟨q, hq, hnext⟩ := bind_eq_ok.mp hstep
      obtain rfl := Except.ok.inj hnext
      obtain ⟨qs, hqs, rfl⟩ := ih _ hrest
      exact ⟨q :: qs, .cons hq hqs, rfl⟩
  exact hfold paths [] h

/-- **A path is filed** under its normalized return value only. -/
theorem filed_under {paths : List RetPath} {db : FnDic RetPath} (h : PathBin.parse_logged paths = .ok db) {fn : Str}
    {k : Option Str} {q : RetPath} (hq : FiledUnder db fn k q) : q.rtn = k := by
  obtain ⟨qs, -, rfl⟩ := parse_logged_eq h
  obtain ⟨d, ps, hd, hps, hmem⟩ := hq
  have hfiled := (@parse_filed _ RetPath.func_name RetPath.rtn qs).2 (some fn)
  rw [hd] at hfiled
  have hperm := hfiled.2.2 k
  rw [hps] at hperm
  have hin := hperm.2.mem_iff.mp hmem
  simpa using (List.mem_filter.mp hin).2

/-! ### Numbers -/

/-- A word is one token. -/
theorem tokens_word {w : Str} (hne : w ≠ []) (hw : ∀ c ∈ w, isDelimiter c = false) : _tokenize_expr w = [(w, true)] := by
  obtain ⟨c, s, rfl⟩ := List.exists_cons_of_ne_nil hne
  have hzero : ¬ 0 < delimiters (c :: s) := by
    rw [delimiters_pos_iff, hw c List.mem_cons_self]
    exact Bool.false_ne_true
  have hall : (c :: s).takeWhile (fun c => !isDelimiter c) = c :: s :=
    List.takeWhile_eq_self_iff.mpr fun d hd => by rw [hw d hd]; rfl
  rw [_tokenize_expr_eq hne, firstToken, if_neg hzero, hall, List.take_length, List.drop_length, _tokenize_expr_nil]

/-- A minus sign is a token. -/
theorem tokens_minus {w : Str} (hne : w ≠ []) (hw : ∀ c ∈ w, isDelimiter c = false) :
    _tokenize_expr ('-' :: w) = [(['-'], false), (w, true)] := by
  obtain ⟨c, s, rfl⟩ := List.exists_cons_of_ne_nil hne
  have hstart : startLength ('-' :: c :: s) = 0 := by
    by_contra hpos
    obtain ⟨t, ht⟩ := head_of_startLength (Nat.pos_iff_ne_zero.mpr hpos)
    cases ht
  have hlen : delimiters ('-' :: c :: s) = 1 := by
    rw [delimiters, hstart, List.drop_zero, List.takeWhile_cons_of_pos (by decide),
      List.takeWhile_cons_of_neg (by rw [hw c List.mem_cons_self]; exact Bool.false_ne_true)]
    rfl
  rw [_tokenize_expr_eq (List.cons_ne_nil _ _), firstToken, hlen, if_pos Nat.one_pos]
  dsimp only
  rw [List.drop_one, List.tail_cons, tokens_word hne hw]
  rfl

/-- **What a number is normalized to**: a word that is no number, after its sign. -/
theorem normalize_ofInt (m : Dict Str Str) (n : ℤ) :
    ∃ sign w, _normalize_expr m (Str.ofInt n) = sign ++ (m.get? w).getD "tmp".toList := by
  have hdigits (k : ℕ) : ∀ c ∈ Nat.toDigits 10 k, isDelimiter c = false := by
    have hall : (DELIMITERS.all fun d => !d.isDigit) = true := by decide
    intro c hc
    rw [isDelimiter, decide_eq_false_iff_not]
    intro hmem
    have hnot := List.all_eq_true.mp hall c hmem
    rw [Str.isDigit_of_mem_toDigits hc] at hnot
    exact absurd hnot (by decide)
  cases n with
  | ofNat k =>
    refine ⟨[], Nat.toDigits 10 k, ?_⟩
    rw [_normalize_expr_eq, Str.ofInt, tokens_word Nat.toDigits_ne_nil (hdigits k)]
    simp [replacement]
  | negSucc k =>
    refine ⟨['-'], Nat.toDigits 10 (k + 1), ?_⟩
    rw [_normalize_expr_eq, Str.ofInt, tokens_minus Nat.toDigits_ne_nil (hdigits (k + 1))]
    simp [replacement]

/-- What a number is normalized to is not read as a number. -/
theorem toInt_normalize {m : Dict Str Str} (hm : ∀ w v, m.get? w = some v → 0 < v.count '$') (n : ℤ) :
    (_normalize_expr m (Str.ofInt n)).toInt = none := by
  obtain ⟨sign, w, heq⟩ := normalize_ofInt m n
  rw [heq]
  have hnone (c : Char) (hc : c ∈ sign ++ (m.get? w).getD "tmp".toList)
      (hnot : Str.isSpace c = false ∧ c ≠ '-' ∧ c ≠ '+' ∧ c.isDigit = false) :
      (sign ++ (m.get? w).getD "tmp".toList).toInt = none := by
    by_contra hsome
    obtain ⟨k, hk⟩ := Option.ne_none_iff_exists'.mp hsome
    obtain h | h | h | h := Str.of_mem_toInt hk hc
    · exact Bool.false_ne_true (hnot.1.symm.trans h)
    · exact hnot.2.1 h
    · exact hnot.2.2.1 h
    · exact Bool.false_ne_true (hnot.2.2.2.symm.trans h)
  cases hget : m.get? w with
  | none =>
    rw [hget] at hnone
    exact hnone 't' (List.mem_append_right _ (by simp)) (by decide)
  | some v =>
    rw [hget] at hnone
    exact hnone '$' (List.mem_append_right _ (List.count_pos_iff.mp (hm w v hget))) (by decide)

/-- **A path that returns a number** is not filed apart from any other path, as its key denotes no number. -/
theorem not_filed_apart {paths : List RetPath} {db : FnDic RetPath} (hdb : PathBin.parse_logged paths = .ok db)
    {p : RetPath} (hp : p.Logged) {d : Decl} (hd : p.get_target = some (.one (.func (some d))))
    (htyped : ∀ ty ∈ d.types, ty ≠ none) {n : ℤ} (hn : p.get_rtn = some (.one (.text (Str.ofInt n)))) (p' : RetPath)
    (n' : ℤ) : ¬ FiledApart db d.func p p' n n' := by
  rintro ⟨q, -, k, -, hq, -, hunder, -, -, ⟨t, rfl, ht⟩, -⟩
  obtain ⟨m, m', hm, -, hmaps⟩ := maps_argmap (ρ := id) (fun _ _ _ _ h => h) (length_types hp.parsed hd) htyped
  obtain ⟨q', hinit, -, -, -, hrtn⟩ := init_eq hd hm (fun a ha => (hmaps.mapped a).mpr ha) hn
  obtain rfl := Except.ok.inj (hq.symm.trans hinit)
  have hkey := filed_under hdb hunder
  rw [RetPath.rtn, hrtn] at hkey
  obtain rfl := Option.some.inj hkey
  rw [toInt_normalize hmaps.dollar] at ht
  cases ht

/-- A path of `f(int x)`. -/
def returnPath (rtn : Str) : RetPath :=
  ⟨[("FUNCTION".toList, .one (.func (some ⟨"f".toList, [some "int".toList], ["x".toList]⟩))),
    ("RETURN".toList, .one (.text rtn))], []⟩

theorem returnPath_logged (rtn : Str) : (returnPath rtn).Logged :=
  ⟨[("FUNCTION".toList, "f(int x)".toList), ("RETURN".toList, rtn)], rfl⟩

/-- The database of a path that returns -22 and one that returns -5. -/
def returnDic : FnDic RetPath :=
  [(some "f".toList, [(some "-tmp".toList, List.replicate 2
    ⟨[("FUNCTION".toList, .one (.func (some ⟨"f".toList, [some "int".toList], ["$A0".toList]⟩))),
      ("RETURN".toList, .one (.text "-tmp".toList))], []⟩)])]

theorem parse_returnDic :
    PathBin.parse_logged [returnPath (Str.ofInt (-22)), returnPath (Str.ofInt (-5))] = .ok returnDic := rfl

theorem not_filed_apart_errors :
    ¬ FiledApart returnDic "f".toList (returnPath (Str.ofInt (-22))) (returnPath (Str.ofInt (-5))) (-22) (-5) :=
  not_filed_apart parse_returnDic (returnPath_logged _) rfl (by decide) rfl _ _

/-- Two paths that return different errors are filed under one key. -/
theorem not_keys_apart : ¬ ∀ (paths : List RetPath) (db : FnDic RetPath), PathBin.parse_logged paths = .ok db →
    ∀ p ∈ paths, ∀ p' ∈ paths, p.Logged → p'.Logged → ∀ d : Decl, p.get_target = some (.one (.func (some d))) →
      p'.get_target = some (.one (.func (some d))) → (∀ ty ∈ d.types, ty ≠ none) → ∀ n n' : ℤ,
        p.get_rtn = some (.one (.text (Str.ofInt n))) → p'.get_rtn = some (.one (.text (Str.ofInt n'))) → n ≠ n' →
          FiledApart db d.func p p' n n' := by
  intro h
  obtain ⟨q, q', k, k', -, -, ⟨d, paths, hd, hk, -⟩, -, -, ⟨t, rfl, ht⟩, -⟩ := h _ _ parse_returnDic
    (returnPath (Str.ofInt (-22))) List.mem_cons_self (returnPath (Str.ofInt (-5)))
    (List.mem_cons_of_mem _ List.mem_cons_self) (returnPath_logged _) (returnPath_logged _) _ rfl rfl (by decide) (-22) (-5)
    rfl rfl (by decide)
  rw [returnDic, Dict.get?, if_pos rfl] at hd
  obtain rfl := Option.some.inj hd
  rw [Dict.get?] at hk
  split_ifs at hk with heq
  · obtain rfl := Option.some.inj heq
    exact absurd ht (by decide)
  · cases hk

end SEDiff.Juxta

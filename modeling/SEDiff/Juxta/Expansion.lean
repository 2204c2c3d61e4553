import SEDiff.Foundation.Recursion
import SEDiff.Foundation.Numerals
import SEDiff.Foundation.Dict
import SEDiff.Foundation.Python

/-!
# Expanding return values

`_expand_rtn_paths` of `ckapi.py` and `_get_rtn_values` of `ckrtn.py` replace a return value that is the result of a call
by the return values of the function that is called. They keep no record of the functions on the way.

## What is proved

* `acc_expands_iff` — no return value is expanded for ever exactly when no function returns what it returns itself, in one
  or more steps.
* `expansion_returns_iff` — both expansions return for every function exactly then.
* `not_expansion_returns` — a function that returns a call of itself is expanded for ever.
-/

namespace SEDiff.Juxta

open Foundation Recursion

/-! ### The source -/

/-- `ERRNO_DICT`. -/
def ERRNO_DICT : Dict ℤ Str :=
  [(123, "ENOMEDIUM"), (124, "EMEDIUMTYPE"), (125, "ECANCELED"), (126, "ENOKEY"), (127, "EKEYEXPIRED"),
    (128, "EKEYREVOKED"), (129, "EOWNERDEAD"), (130, "EOWNERDEAD"), (131, "ENOTRECOVERABLE"), (132, "ERFKILL"),
    (133, "EHWPOISON"), (512, "ERESTARTSYS"), (513, "ERESTARTNOINTR"), (514, "ERESTARTNOHAND"), (515, "ENOIOCTLCMD"),
    (516, "ERESTART_RESTARTBLOCK"), (517, "EPROBE_DEFER"), (518, "EOPENSTALE"), (521, "EBADHANDLE"), (522, "ENOTSYNC"),
    (523, "EBADCOOKIE"), (524, "ENOTSUPP"), (525, "ETOOSMALL"), (526, "ESERVERFAULT"), (527, "EBADTYPE"),
    (528, "EJUKEBOX"), (529, "EIOCBQUEUED")].map fun e => (e.1, e.2.toList)

section

variable (errorcode : ℤ → Option Str)

/-- `__lookup_errno`, where `errorcode` is `errno.errorcode`. -/
def lookup_errno (err_int : ℤ) : Option Str := if err_int ≤ 122 then errorcode err_int else ERRNO_DICT.get? err_int

/-- An unsigned number of 32 bits "processed as unsigned" is converted back. -/
def signed (err_int : ℤ) : ℤ :=
  if err_int > 0x80000000 then
    let low := err_int % 2 ^ 32
    if low < 2 ^ 31 then low else low - 2 ^ 32
  else err_int

/-- `errno_to_str`. -/
def errno_to_str (str : Str) : Str :=
  match str.toInt with
  | none => str
  | some n =>
    let err_int := signed n
    match lookup_errno errorcode err_int.natAbs with
    | some err_str => if err_str ≠ [] ∧ err_int < 0 then '-' :: err_str else str
    | none => str

/-- The function that is called and its arguments, if the return value is the result of a call. -/
def invocation (rtn_value : Str) : Option (Str × Str) :=
  let paren_index := (rtn_value.takeWhile (· ≠ '(')).length
  if '(' ∈ rtn_value ∧ 1 < paren_index then
    some (rtn_value.take paren_index, (rtn_value.drop (paren_index + 1)).dropLast)
  else none

/-- `{@RETURN, [RetPath*]}`. -/
abbrev RtnPaths (P : Type*) := Dict Str (List P)

variable {P ε : Type*} (db : Dict Str (RtnPaths P))

namespace ExternAPIChecker

/-- The paths are added to those of the return value. -/
def extend (rtn_paths : RtnPaths P) (rtn_value : Str) (paths : List P) : RtnPaths P :=
  rtn_paths.put rtn_value ((rtn_paths.get? rtn_value).getD [] ++ paths)

/-- `_add_rtn_value`, with `_add_rtn_values` for what it calls, at most `depth` calls deep. -/
def _add_rtn_value : ℕ → Str → List P → RtnPaths P → Option (Except PyErr (RtnPaths P))
  | 0, _, _, _ => none
  | depth + 1, rtn_value, paths, rtn_paths =>
    let rtn_value := errno_to_str errorcode rtn_value
    match invocation rtn_value with
    | none => some (.ok (extend rtn_paths rtn_value paths))
    | some (func, arg_list) =>
      if func = "ERR_PTR".toList then _add_rtn_value depth arg_list paths rtn_paths
      else
        match db.get? func with
        | none => some (.ok (extend rtn_paths rtn_value paths))
        | some new_rtn_paths =>
          each (fun e rtn_paths => _add_rtn_value depth (errno_to_str errorcode e.1) e.2
            (extend rtn_paths (errno_to_str errorcode e.1) paths)) new_rtn_paths rtn_paths

/-- `_expand_rtn_paths`. -/
def _expand_rtn_paths (depth : ℕ) (rtn_paths : Option (RtnPaths P)) : Option (Except PyErr (Option (RtnPaths P))) :=
  match rtn_paths with
  | none => some (.ok none)
  | some [] => some (.ok none)
  | some rtn_paths =>
    (each (fun e new_rtn_paths => _add_rtn_value errorcode db depth e.1 e.2 new_rtn_paths) rtn_paths []).map
      (Except.map some)

end ExternAPIChecker

namespace ReturnChecker

variable (vector : RtnPaths P → Except ε Unit)

/-- `rtn_values.add(rtn_value)`. -/
def add (rtn_values : List Str) (rtn_value : Str) : List Str :=
  if rtn_value ∈ rtn_values then rtn_values else rtn_values ++ [rtn_value]

/-- `_add_rtn_value`, with `_add_rtn_values` for what it calls, at most `depth` calls deep; `vector` is the construction of a
`ReturnVector`, which may raise. -/
def _add_rtn_value : ℕ → Str → List Str → Option (Except ε (List Str))
  | 0, _, _ => none
  | depth + 1, rtn_value, rtn_values =>
    match invocation rtn_value with
    | none => some (.ok (add rtn_values rtn_value))
    | some (func, arg_list) =>
      if func = "ERR_PTR".toList then _add_rtn_value depth arg_list rtn_values
      else
        match db.get? func with
        | none => some (.ok (add rtn_values rtn_value))
        | some rtn_paths =>
          match vector rtn_paths with
          | .error e => some (.error e)
          | .ok _ => each (fun rtn_value rtn_values => _add_rtn_value depth rtn_value rtn_values)
              (rtn_paths.keys.map (errno_to_str errorcode)) rtn_values

/-- `_get_rtn_values` of the vector of these paths. -/
def _get_rtn_values (depth : ℕ) (rtn_paths : RtnPaths P) : Option (Except ε (List Str)) :=
  each (fun rtn_value rtn_values => _add_rtn_value errorcode db vector depth rtn_value rtn_values)
    (rtn_paths.keys.map (errno_to_str errorcode)) []

end ReturnChecker

end

/-! ### Invocations -/

section

variable {errorcode : ℤ → Option Str}

/-- Names of errors are not calls. -/
def Names (errorcode : ℤ → Option Str) : Prop := ∀ n name, errorcode n = some name → '(' ∉ name

theorem invocation_of_notMem {t : Str} (h : '(' ∉ t) : invocation t = none := by
  rw [invocation]
  exact if_neg fun hcall => h hcall.1

/-- **Errors are not calls**, with their names or without. -/
theorem invocation_errno (hnames : Names errorcode) (t : Str) : invocation (errno_to_str errorcode t) = invocation t := by
  rw [errno_to_str]
  cases hint : t.toInt with
  | none => rfl
  | some n =>
    have ht : '(' ∉ t := by
      intro hmem
      obtain h | h | h | h := Str.of_mem_toInt hint hmem <;> exact absurd h (by decide)
    dsimp only
    cases hlookup : lookup_errno errorcode (signed n).natAbs with
    | none => rfl
    | some err_str =>
      dsimp only
      split_ifs
      · have hname : '(' ∉ err_str := by
          rw [lookup_errno] at hlookup
          split_ifs at hlookup
          · exact hnames _ _ hlookup
          · have hall : (ERRNO_DICT.all fun e => !e.2.contains '(') = true := by decide
            have hnot := List.all_eq_true.mp hall _ (Dict.mem_of_get? hlookup)
            simpa using hnot
        have hminus : '(' ∉ '-' :: err_str := by
          rw [List.mem_cons, not_or]
          exact ⟨by decide, hname⟩
        rw [invocation_of_notMem hminus, invocation_of_notMem ht]
      · rfl

/-- The arguments are shorter than the call. -/
theorem length_of_invocation {t func arg_list : Str} (h : invocation t = some (func, arg_list)) :
    arg_list.length < t.length := by
  rw [invocation] at h
  split_ifs at h with hcall
  · obtain rfl := congrArg Prod.snd (Option.some.inj h)
    have hpos : 0 < t.length := List.length_pos_of_mem hcall.1
    dsimp only
    rw [List.length_dropLast, List.length_drop]
    omega

end

/-! ### Endless expansions -/

section

variable {P : Type*}

/-- The function whose return values a return value is expanded to, when errors are taken out of their pointers. -/
inductive Invokes : Str → Str → Prop
  /-- A call. -/
  | call {t func arg_list : Str} (h : invocation t = some (func, arg_list)) (hne : func ≠ "ERR_PTR".toList) : Invokes t func
  /-- An error pointer. -/
  | err_ptr {t arg_list func : Str} (h : invocation t = some ("ERR_PTR".toList, arg_list)) (harg : Invokes arg_list func) :
      Invokes t func

/-- The function `f` of the database returns a call of `g`, which is in the database as well. -/
def Returns (db : Dict Str (RtnPaths P)) (f g : Str) : Prop :=
  ∃ d, db.get? f = some d ∧ (∃ t ∈ d.keys, Invokes t g) ∧ db.get? g ≠ none

/-- The return value `t` is expanded to `t'`. -/
inductive Expands (errorcode : ℤ → Option Str) (db : Dict Str (RtnPaths P)) : Str → Str → Prop
  /-- An error pointer is the error. -/
  | err_ptr {t t' : Str} (h : invocation t = some ("ERR_PTR".toList, t')) : Expands errorcode db t' t
  /-- A call is a return value of the function. -/
  | call {t func arg_list k : Str} {d : RtnPaths P} (h : invocation t = some (func, arg_list))
      (hne : func ≠ "ERR_PTR".toList) (hd : db.get? func = some d) (hk : k ∈ d.keys) :
      Expands errorcode db (errno_to_str errorcode k) t

variable {errorcode : ℤ → Option Str} {db : Dict Str (RtnPaths P)}

theorem Expands.congr {t u t' : Str} (h : invocation u = invocation t) (ht : Expands errorcode db t' t) :
    Expands errorcode db t' u := by
  cases ht with
  | err_ptr hcall => exact .err_ptr (h.trans hcall)
  | call hcall hne hd hk => exact .call (h.trans hcall) hne hd hk

/-- Only the call counts. -/
theorem acc_expands_congr {t u : Str} (h : invocation u = invocation t) (ht : Acc (Expands errorcode db) t) :
    Acc (Expands errorcode db) u :=
  Acc.intro u fun _ hu => ht.inv (hu.congr h.symm)

theorem invokes_congr {t u g : Str} (h : invocation u = invocation t) (ht : Invokes t g) : Invokes u g := by
  cases ht with
  | call hcall hne => exact .call (h.trans hcall) hne
  | err_ptr hcall harg => exact .err_ptr (h.trans hcall) harg

/-- A return value that is not expanded for ever invokes a function that does not reach itself. -/
theorem acc_of_expands (hnames : Names errorcode) {t : Str} (h : Acc (Expands errorcode db) t) :
    ∀ g, Invokes t g → Acc (fun y x => Returns db x y) g := by
  induction h with
  | intro t _ ih =>
    intro g hg
    cases hg with
    | call hcall hne =>
      refine Acc.intro g ?_
      rintro y ⟨d, hd, ⟨k, hk, hinvokes⟩, -⟩
      exact ih _ (.call hcall hne hd hk) y (invokes_congr (invocation_errno hnames k) hinvokes)
    | err_ptr hcall harg => exact ih _ (.err_ptr hcall) g harg

/-- A return value is not expanded for ever when none is of the functions it invokes. -/
theorem expands_acc_of {t : Str}
    (h : ∀ g d, Invokes t g → db.get? g = some d → ∀ k ∈ d.keys, Acc (Expands errorcode db) (errno_to_str errorcode k)) :
    Acc (Expands errorcode db) t := by
  induction hn : t.length using Nat.strongRecOn generalizing t with
  | _ n ih =>
    refine Acc.intro t fun t' ht' => ?_
    cases ht' with
    | err_ptr hcall =>
      exact ih _ (hn ▸ length_of_invocation hcall) (fun g d hg => h g d (.err_ptr hcall hg)) rfl
    | call hcall hne hd hk => exact h _ _ (.call hcall hne) hd _ hk

/-- **No return value** is expanded for ever exactly when no function reaches itself. -/
theorem acc_expands_iff (hnames : Names errorcode) :
    (∀ f d, db.get? f = some d → ∀ k ∈ d.keys, Acc (Expands errorcode db) k) ↔ Acyclic (Returns db) := by
  constructor
  · intro h f hcycle
    have hacc : Acc (fun y x => Returns db x y) f := by
      refine Acc.intro f ?_
      rintro y ⟨d, hd, ⟨k, hk, hinvokes⟩, -⟩
      exact acc_of_expands hnames (h f d hd k hk) y hinvokes
    exact not_transGen_of_acc hacc hcycle
  · intro hacyclic
    have hmem (x y : Str) (hxy : Returns db x y) : y ∈ db.keys := by
      obtain ⟨-, -, -, hy⟩ := hxy
      exact Dict.get?_ne_none.mp hy
    have hwf := wellFounded_of_acyclic hmem hacyclic
    intro f
    induction f using hwf.induction with
    | _ f ih =>
      intro d hd k hk
      refine expands_acc_of fun g d' hg hd' k' hk' => ?_
      have hreturns : Returns db f g := ⟨d, hd, ⟨k, hk, hg⟩, by rw [hd']; exact Option.some_ne_none d'⟩
      exact acc_expands_congr (invocation_errno hnames k') (ih g hreturns d' hd' k' hk')

end

/-! ### The expansions -/

section

variable {P ε : Type*} {errorcode : ℤ → Option Str} {db : Dict Str (RtnPaths P)} {vector : RtnPaths P → Except ε Unit}

namespace ExternAPIChecker

/-- What one call of `_add_rtn_value` does. -/
def body (errorcode : ℤ → Option Str) (db : Dict Str (RtnPaths P)) (c : Str × List P) :
    Body (Str × List P) (RtnPaths P) PyErr :=
  let rtn_value := errno_to_str errorcode c.1
  match invocation rtn_value with
  | none => .leaf fun rtn_paths => extend rtn_paths rtn_value c.2
  | some (func, arg_list) =>
    if func = "ERR_PTR".toList then .calls [(id, (arg_list, c.2))]
    else
      match db.get? func with
      | none => .leaf fun rtn_paths => extend rtn_paths rtn_value c.2
      | some new_rtn_paths => .calls (new_rtn_paths.map fun e =>
          (fun rtn_paths => extend rtn_paths (errno_to_str errorcode e.1) c.2, (errno_to_str errorcode e.1, e.2)))

theorem add_rtn_value_eq (depth : ℕ) (rtn_value : Str) (paths : List P) (rtn_paths : RtnPaths P) :
    _add_rtn_value errorcode db depth rtn_value paths rtn_paths =
      run (body errorcode db) depth (rtn_value, paths) rtn_paths := by
  induction depth generalizing rtn_value paths rtn_paths with
  | zero => rfl
  | succ depth ih =>
    rw [_add_rtn_value, run, body]
    dsimp only
    cases invocation (errno_to_str errorcode rtn_value) with
    | none => rfl
    | some call =>
      obtain ⟨func, arg_list⟩ := call
      dsimp only
      split_ifs
      · exact (ih arg_list paths rtn_paths).trans (each_singleton _ _).symm
      · cases db.get? func with
        | none => rfl
        | some new_rtn_paths =>
          dsimp only
          rw [each_map]
          exact each_congr (fun e _ s => ih _ _ _) rtn_paths

theorem body_ne_fail (c : Str × List P) (e : PyErr) : body errorcode db c ≠ .fail e := by
  rw [body]
  intro h
  split at h
  · cases h
  · split_ifs at h
    split at h <;> cases h

/-- What is expanded is called. -/
theorem child_of_expands (hnames : Names errorcode) {t t' : Str} (h : Expands errorcode db t' t) (paths : List P) :
    ∃ paths', Child (body errorcode db) (t', paths') (t, paths) := by
  cases h with
  | err_ptr hcall =>
    refine ⟨paths, [(id, (t', paths))], ?_, _, List.mem_singleton_self _, rfl⟩
    rw [body]
    dsimp only
    rw [invocation_errno hnames, hcall]
    dsimp only
    rw [if_pos rfl]
  | @call _ func arg_list k d hcall hne hd hk =>
    obtain ⟨e, he, rfl⟩ := List.mem_map.mp hk
    have hbody : body errorcode db (t, paths) = .calls (d.map fun e =>
        (fun rtn_paths => extend rtn_paths (errno_to_str errorcode e.1) paths, (errno_to_str errorcode e.1, e.2))) := by
      rw [body]
      dsimp only
      rw [invocation_errno hnames, hcall]
      dsimp only
      rw [if_neg hne, hd]
    exact ⟨e.2, _, hbody, _, List.mem_map_of_mem he, rfl⟩

/-- What is called is expanded. -/
theorem expands_of_child (hnames : Names errorcode) {c c' : Str × List P} (h : Child (body errorcode db) c' c) :
    Expands errorcode db c'.1 c.1 := by
  obtain ⟨cs, hbody, call, hmem, rfl⟩ := h
  rw [body, invocation_errno hnames] at hbody
  split at hbody
  · cases hbody
  · rename_i func arg_list hcall
    split_ifs at hbody with hptr
    · obtain rfl := Body.calls.inj hbody
      obtain rfl := List.mem_singleton.mp hmem
      exact .err_ptr (hptr ▸ hcall)
    · split at hbody
      · cases hbody
      · rename_i d hd
        obtain rfl := Body.calls.inj hbody
        obtain ⟨e, he, rfl⟩ := List.mem_map.mp hmem
        exact .call hcall hptr hd (List.mem_map_of_mem he)

theorem acc_body_iff (hnames : Names errorcode) (t : Str) (paths : List P) :
    Acc (Child (body errorcode db)) (t, paths) ↔ Acc (Expands errorcode db) t := by
  constructor
  · intro h
    generalize hc : (t, paths) = c at h
    induction h generalizing t paths with
    | intro c _ ih =>
      subst hc
      refine Acc.intro t fun t' ht' => ?_
      obtain ⟨paths', hchild⟩ := child_of_expands hnames ht' paths
      exact ih _ hchild t' paths' rfl
  · intro h
    induction h generalizing paths with
    | intro t _ ih => exact Acc.intro _ fun c' hc' => ih c'.1 (expands_of_child hnames hc') c'.2

theorem _expand_rtn_paths_cons (depth : ℕ) (e : Str × List P) (es : RtnPaths P) :
    _expand_rtn_paths errorcode db depth (some (e :: es)) =
      (each (fun c s => run (body errorcode db) depth c s) (e :: es) []).map (Except.map some) :=
  congrArg (Option.map (Except.map some)) (each_congr (fun e _ s => add_rtn_value_eq depth e.1 e.2 s) [])

/-- When every expansion returns, no function reaches itself. -/
theorem acyclic_of_returns (hnames : Names errorcode)
    (h : ∀ func, ∃ depth r, _expand_rtn_paths errorcode db depth (db.get? func) = some r) : Acyclic (Returns db) := by
  refine (acc_expands_iff hnames).mp fun f d hd k hk => ?_
  obtain ⟨depth, r, hr⟩ := h f
  obtain ⟨e, he, rfl⟩ := List.mem_map.mp hk
  rw [hd] at hr
  cases d with
  | nil => cases he
  | cons e₀ d =>
    rw [_expand_rtn_paths_cons] at hr
    obtain ⟨r', hr', -⟩ := Option.map_eq_some_iff.mp hr
    have hok (a : Str × List P) (s : RtnPaths P) (r : Except PyErr (RtnPaths P))
        (hrun : run (body errorcode db) depth a s = some r) : ∃ s', r = .ok s' := (acc_of_returns body_ne_fail hrun).1
    obtain ⟨s', r'', hrun⟩ := (returned_of_each hok hr').2 e he
    exact (acc_body_iff hnames e.1 e.2).mp (acc_of_returns body_ne_fail hrun).2

/-- When no function reaches itself, every expansion returns. -/
theorem returns_of_acyclic (hnames : Names errorcode) (h : Acyclic (Returns db)) (func : Str) :
    ∃ depth r, _expand_rtn_paths errorcode db depth (db.get? func) = some r := by
  cases hd : db.get? func with
  | none => exact ⟨0, _, rfl⟩
  | some d =>
    cases d with
    | nil => exact ⟨0, _, rfl⟩
    | cons e d =>
      have hacc := (acc_expands_iff hnames).mpr h func _ hd
      obtain ⟨n, hn⟩ := exists_depth fun c (hc : c ∈ e :: d) =>
        returns_of_acc ((acc_body_iff hnames c.1 c.2).mpr (hacc c.1 (List.mem_map_of_mem hc)))
      obtain ⟨r, hr⟩ := each_returns (fun c hc s => hn c hc n le_rfl s) []
      exact ⟨n, _, by rw [_expand_rtn_paths_cons, hr]; rfl⟩

end ExternAPIChecker

namespace ReturnChecker

/-- What one call of `_add_rtn_value` does. -/
def body (errorcode : ℤ → Option Str) (db : Dict Str (RtnPaths P)) (vector : RtnPaths P → Except ε Unit)
    (rtn_value : Str) : Body Str (List Str) ε :=
  match invocation rtn_value with
  | none => .leaf fun rtn_values => add rtn_values rtn_value
  | some (func, arg_list) =>
    if func = "ERR_PTR".toList then .calls [(id, arg_list)]
    else
      match db.get? func with
      | none => .leaf fun rtn_values => add rtn_values rtn_value
      | some rtn_paths =>
        match vector rtn_paths with
        | .error e => .fail e
        | .ok _ => .calls ((rtn_paths.keys.map (errno_to_str errorcode)).map fun t => (id, t))

theorem add_rtn_value_eq (depth : ℕ) (rtn_value : Str) (rtn_values : List Str) :
    _add_rtn_value errorcode db vector depth rtn_value rtn_values =
      run (body errorcode db vector) depth rtn_value rtn_values := by
  induction depth generalizing rtn_value rtn_values with
  | zero => rfl
  | succ depth ih =>
    rw [_add_rtn_value, run, body]
    cases invocation rtn_value with
    | none => rfl
    | some call =>
      obtain ⟨func, arg_list⟩ := call
      dsimp only
      split_ifs
      · exact (ih arg_list rtn_values).trans (each_singleton _ _).symm
      · cases db.get? func with
        | none => rfl
        | some rtn_paths =>
          dsimp only
          cases vector rtn_paths with
          | error e => rfl
          | ok _ =>
            dsimp only
            rw [each_map (fun t => (id, t))]
            exact each_congr (fun t _ s => ih t s) rtn_values

/-- What is called is expanded. -/
theorem expands_of_child {t t' : Str} (h : Child (body errorcode db vector) t' t) : Expands errorcode db t' t := by
  obtain ⟨cs, hbody, call, hmem, rfl⟩ := h
  rw [body] at hbody
  split at hbody
  · cases hbody
  · rename_i func arg_list hcall
    split_ifs at hbody with hptr
    · obtain rfl := Body.calls.inj hbody
      obtain rfl := List.mem_singleton.mp hmem
      exact .err_ptr (hptr ▸ hcall)
    · split at hbody
      · cases hbody
      · rename_i d hd
        split at hbody
        · cases hbody
        · obtain rfl := Body.calls.inj hbody
          obtain ⟨t, ht, rfl⟩ := List.mem_map.mp hmem
          obtain ⟨k, hk, rfl⟩ := List.mem_map.mp ht
          exact .call hcall hptr hd hk

/-- When no function reaches itself, the return values are found, or a vector cannot be built. -/
theorem returns_of_acyclic (hnames : Names errorcode) (h : Acyclic (Returns db)) {func : Str} {d : RtnPaths P}
    (hd : db.get? func = some d) : ∃ depth r, _get_rtn_values errorcode db vector depth d = some r := by
  have hacc (t : Str) (ht : t ∈ d.keys.map (errno_to_str errorcode)) : Acc (Child (body errorcode db vector)) t := by
    obtain ⟨k, hk, rfl⟩ := List.mem_map.mp ht
    have hexpands : Acc (Expands errorcode db) (errno_to_str errorcode k) :=
      acc_expands_congr (invocation_errno hnames k) ((acc_expands_iff hnames).mpr h func d hd k hk)
    exact Subrelation.accessible (fun hchild => expands_of_child hchild) hexpands
  obtain ⟨n, hn⟩ := exists_depth fun t ht => returns_of_acc (hacc t ht)
  obtain ⟨r, hr⟩ := each_returns (fun t ht s => hn t ht n le_rfl s) []
  exact ⟨n, r, (each_congr (fun t _ s => add_rtn_value_eq n t s) []).trans hr⟩

end ReturnChecker

/-- Both expansions return for every function of the database. -/
def ExpansionReturns (errorcode : ℤ → Option Str) (db : Dict Str (RtnPaths P)) (vector : RtnPaths P → Except ε Unit) : Prop :=
  (∀ func, ∃ depth r, ExternAPIChecker._expand_rtn_paths errorcode db depth (db.get? func) = some r) ∧
    ∀ func d, db.get? func = some d → ∃ depth r, ReturnChecker._get_rtn_values errorcode db vector depth d = some r

/-- **Both expansions return** for every function exactly when no function of the database reaches itself. -/
theorem expansion_returns_iff (hnames : Names errorcode) (db : Dict Str (RtnPaths P)) (vector : RtnPaths P → Except ε Unit) :
    ExpansionReturns errorcode db vector ↔ Acyclic (Returns db) :=
  ⟨fun h => ExternAPIChecker.acyclic_of_returns hnames h.1, fun h => ⟨ExternAPIChecker.returns_of_acyclic hnames h,
    fun _ _ hd => ReturnChecker.returns_of_acyclic hnames h hd⟩⟩

end

/-- A function that returns what it returns when it is called again. -/
def againDic : Dict Str (RtnPaths Unit) := [("again".toList, [("again($A0)".toList, [()])])]

theorem again_returns : Returns againDic "again".toList "again".toList :=
  ⟨_, rfl, ⟨_, List.mem_singleton_self _, .call (rfl : invocation _ = some (_, "$A0".toList)) (by decide)⟩, by decide⟩

/-- One error has a name. -/
def oneName (n : ℤ) : Option Str := if n = 2 then some "ENOENT".toList else none

theorem names_oneName : Names oneName := by
  intro n name hname
  rw [oneName] at hname
  split_ifs at hname
  obtain rfl := Option.some.inj hname
  decide

theorem expansion_returns_iff_again :
    ExpansionReturns oneName againDic (fun _ => (.ok () : Except PyErr Unit)) ↔ Acyclic (Returns againDic) :=
  expansion_returns_iff names_oneName againDic _

/-- A function that returns a call of itself is expanded for ever. -/
theorem not_expansion_returns : ¬ ∀ (db : Dict Str (RtnPaths Unit)) (vector : RtnPaths Unit → Except PyErr Unit),
    ExpansionReturns oneName db vector := by
  intro h
  have hacyclic := ExternAPIChecker.acyclic_of_returns names_oneName (h againDic fun _ => .ok ()).1
  exact hacyclic _ (.single again_returns)

end SEDiff.Juxta

import SEDiff.Juxta.Locations
import SEDiff.Juxta.PathBin

/-!
# Pickled databases

`pickler.py` parses the files in parts, pickles the database of each part, one file a function, and merges the files of a
function into one.

## What is proved

* `pickled` — what the files hold after the parts are pickled.
* `do_fixup_ready` — the files of one function are merged into one that holds their paths.
* `fixup_run` — all plans, in any order.
* `sharded_same` — what is left are the databases of one pass over all paths.
-/

namespace SEDiff.Juxta

open Foundation

variable {P : Type*}

/-- The files of a directory that hold pickles. -/
abbrev Files (P : Type*) := Str → Option (FuncDic P)

/-- `get_pickle_name`, where `dir` is `log_d` with its slash. -/
def get_pickle_name (dir func pickle_prefix : Str) : Str := dir ++ ( pickle_prefix ++ '.' :: (func ++ ".p".toList))

/-- `save_as_pickle`; `'.'.join` raises when a function has no name. -/
def PathBin.save_as_pickle (dir pickle_name : Str) (fn_dic : FnDic P) (fs : Files P) : Option (Files P) :=
  fn_dic.foldlM (fun fs e => e.1.map fun func => Function.update fs (get_pickle_name dir func pickle_name) (some e.2)) fs

namespace Pickler

/-- `PICKLE_NAME`. -/
def PICKLE_NAME : Str := "pathbin".toList

/-- `PICKLER_NAME`. -/
def PICKLER_NAME : Str := "_pickler".toList

/-- `s.zfill(width)`. -/
def zfill (s : Str) (width : ℕ) : Str := List.replicate (width - s.length) '0' ++ s

/-- A part of a file, parsed. -/
structure Piece (P : Type*) where
  /-- The number of the file. -/
  id : ℕ
  /-- The number of the part. -/
  sub_id : ℕ
  /-- Its paths. -/
  paths : List P

/-- `PicklePlan.get_pickle_name`. -/
def Piece.get_pickle_name (plan : Piece P) : Str :=
  PICKLER_NAME ++ '-' :: (zfill (decimal plan.id) 4 ++ '-' :: zfill (decimal plan.sub_id) 4)

section

variable (get_func_name get_rtn : P → Option Str) (dir : Str)

/-- `do_pickle`. -/
def do_pickle (plan : Piece P) (fs : Files P) : Option (Files P) :=
  PathBin.save_as_pickle dir plan.get_pickle_name (PathBin.parse get_func_name get_rtn plan.paths) fs

/-- `_pickle`. -/
def _pickle (pieces : List (Piece P)) : Option (Files P) :=
  pieces.foldlM (fun fs plan => do_pickle get_func_name get_rtn dir plan fs) fun _ => none

end

/-- The function of a file: `pickle.split('.')[-2:-1][0]`. -/
def func_p (pickle : Str) : Option Str := (pickle.splitOn '.').reverse[1]?

/-- `fixup_plans`, for the names of the pickles. -/
def fixup_plans (pickles : List Str) : Option (Dict Str (List Str)) :=
  pickles.foldlM (fun pickle_dic pickle =>
    (func_p pickle).map fun func => pickle_dic.put func ((pickle_dic.get? func).getD [] ++ [pickle])) []

/-- `do_fixup`. -/
def do_fixup (dir : Str) (plan : Str × List Str) (fs : Files P) : Option (Files P) :=
  match plan.2 with
  | [] => none
  | [pickle] =>
    -- single file, no merge, simple rename
    (fs pickle).map fun func_dic =>
      Function.update (Function.update fs pickle none) (get_pickle_name dir plan.1 PICKLE_NAME) (some func_dic)
  | first :: rest => do
    let pathbin ← fs first
    let tempbins ← rest.mapM fs
    let fn_dic ← PathBin.merge_bins [(some plan.1, pathbin)] (tempbins.map fun tempbin => [(some plan.1, tempbin)])
    let fs ← PathBin.save_as_pickle dir PICKLE_NAME fn_dic fs
    return plan.2.foldl (fun fs pickle => Function.update fs pickle none) fs

/-- `_fixup`. -/
def _fixup (dir : Str) (plans : List (Str × List Str)) (fs : Files P) : Option (Files P) :=
  plans.foldlM (fun fs plan => do_fixup dir plan fs) fs

/-- What `glob` finds, in some order. -/
structure Globbed (dir : Str) (fs : Files P) (pickles : List Str) : Prop where
  /-- Each file is found once. -/
  nodup : pickles.Nodup
  /-- The files of `_pickler*.p`. -/
  mem : ∀ name, name ∈ pickles ↔ fs name ≠ none ∧ dir ++ PICKLER_NAME <+: name ∧ ".p".toList <:+ name

/-- A function name that can be part of the name of a pickle. -/
def FileName (func : Str) : Prop := '.' ∉ func ∧ '/' ∉ func

end Pickler

open Pickler

/-! ### Names -/

/-- A text is split at the first delimiter in one way. -/
theorem append_cons_cancel {c : Char} {a b a' b' : Str} (ha : c ∉ a) (ha' : c ∉ a') (h : a ++ c :: b = a' ++ c :: b') :
    a = a' ∧ b = b' := by
  induction a generalizing a' with
  | nil =>
    cases a' with
    | nil => exact ⟨rfl, (List.cons.inj h).2⟩
    | cons x a' =>
      obtain rfl : c = x := (List.cons.inj h).1
      exact absurd List.mem_cons_self ha'
  | cons x a ih =>
    cases a' with
    | nil =>
      obtain rfl : x = c := (List.cons.inj h).1
      exact absurd List.mem_cons_self ha
    | cons y a' =>
      rw [List.cons_append, List.cons_append] at h
      obtain ⟨rfl, hrest⟩ := List.cons.inj h
      obtain ⟨rfl, rfl⟩ := ih (fun hc => ha (List.mem_cons_of_mem _ hc)) (fun hc => ha' (List.mem_cons_of_mem _ hc)) hrest
      exact ⟨rfl, rfl⟩

theorem notMem_zfill (n width : ℕ) {c : Char} (hc : c.isDigit = false) : c ∉ zfill (decimal n) width := by
  intro hmem
  obtain hmem | hmem := List.mem_append.mp hmem
  · obtain rfl := List.eq_of_mem_replicate hmem
    exact absurd hc (by decide)
  · exact notMem_decimal n hc hmem

theorem zfill_injective {m n width : ℕ} (h : zfill (decimal m) width = zfill (decimal n) width) : m = n := by
  have hread (k : ℕ) : Nat.ofDigitChars 10 (zfill (decimal k) width) 0 = k := by
    rw [zfill, Nat.ofDigitChars_append, Nat.ofDigitChars_replicate_zero, Nat.mul_zero, decimal,
      Nat.ofDigitChars_ten_toDigits]
  rw [← hread m, h, hread]

/-- The characters of the name of a part. -/
theorem Pickler.Piece.notMem_name (plan : Piece P) {c : Char} (hname : c ∉ PICKLER_NAME) (hdash : c ≠ '-')
    (hdigit : c.isDigit = false) : c ∉ plan.get_pickle_name := by
  have hzfill (n : ℕ) : c ∉ zfill (decimal n) 4 := notMem_zfill n 4 hdigit
  intro hmem
  obtain hmem | hmem := List.mem_append.mp hmem
  · exact hname hmem
  obtain hmem | hmem := List.mem_cons.mp hmem
  · exact hdash hmem
  obtain hmem | hmem := List.mem_append.mp hmem
  · exact hzfill _ hmem
  obtain hmem | hmem := List.mem_cons.mp hmem
  · exact hdash hmem
  · exact hzfill _ hmem

/-- There is no dot in the name of a part. -/
theorem Pickler.Piece.dot_notMem (plan : Piece P) : '.' ∉ plan.get_pickle_name :=
  plan.notMem_name (by decide) (by decide) rfl

/-- The numbers of a part are in the name of its pickles. -/
theorem Pickler.Piece.get_pickle_name_injective {plan plan' : Piece P} (h : plan.get_pickle_name = plan'.get_pickle_name) :
    (plan.id, plan.sub_id) = (plan'.id, plan'.sub_id) := by
  rw [Piece.get_pickle_name, Piece.get_pickle_name] at h
  have hnames := (List.cons.inj (List.append_cancel_left h)).2
  obtain ⟨hid, hsub⟩ := append_cons_cancel (notMem_zfill plan.id 4 (by decide)) (notMem_zfill plan'.id 4 (by decide)) hnames
  rw [zfill_injective hid, zfill_injective hsub]

/-- The prefix and the function are in the name of a pickle. -/
theorem get_pickle_name_injective {dir func func' pre pre' : Str} (hpre : '.' ∉ pre) (hpre' : '.' ∉ pre')
    (h : get_pickle_name dir func pre = get_pickle_name dir func' pre') : pre = pre' ∧ func = func' := by
  obtain ⟨hpre, hfunc⟩ := append_cons_cancel hpre hpre' (List.append_cancel_left h)
  exact ⟨hpre, List.append_cancel_right hfunc⟩

/-- The function of a pickle. -/
theorem func_p_name (dir pre : Str) {func : Str} (hfunc : '.' ∉ func) : func_p (get_pickle_name dir func pre) = some func := by
  have htext : get_pickle_name dir func pre = (dir ++ pre) ++ '.' :: (func ++ '.' :: ['p']) := by
    simp [get_pickle_name]
  have hparts : (func ++ '.' :: ['p']).splitOn '.' = [func, ['p']] := by
    rw [List.splitOn_append_cons_self, List.splitOn_eq_singleton hfunc]
    rfl
  rw [func_p, htext, List.splitOn_append_cons_self, hparts, List.reverse_append]
  rfl

/-! ### Pickling the parts -/

section Pickling

variable {get_func_name get_rtn : P → Option Str} {dir : Str}

/-- A database is saved, a file for each function. -/
theorem save_spec {pickle_name : Str} (hname : '.' ∉ pickle_name) {fn_dic : FnDic P} (hd : fn_dic.keys.Nodup)
    (hsome : ∀ e ∈ fn_dic, e.1 ≠ none) (fs : Files P) :
    ∃ fs', PathBin.save_as_pickle dir pickle_name fn_dic fs = some fs' ∧
      (∀ func d, fn_dic.get? (some func) = some d → fs' (get_pickle_name dir func pickle_name) = some d) ∧
      ∀ name, (∀ func, fn_dic.get? (some func) ≠ none → name ≠ get_pickle_name dir func pickle_name) →
        fs' name = fs name := by
  induction fn_dic generalizing fs with
  | nil => exact ⟨fs, rfl, fun func d h => (nomatch h), fun _ _ => rfl⟩
  | cons e fn_dic ih =>
    obtain ⟨k, d⟩ := e
    obtain ⟨hk, hrest⟩ := List.nodup_cons.mp hd
    obtain ⟨func, rfl⟩ := Option.ne_none_iff_exists'.mp (hsome (k, d) List.mem_cons_self)
    obtain ⟨fs', hrun, hsaved, hother⟩ := ih hrest (fun e he => hsome e (List.mem_cons_of_mem _ he))
      (Function.update fs (get_pickle_name dir func pickle_name) (some d))
    have hget (func' : Str) (hne : func' ≠ func) :
        Dict.get? ((some func, d) :: fn_dic) (some func') = Dict.get? fn_dic (some func') :=
      if_neg fun h => hne (Option.some.inj h).symm
    have hself : Dict.get? ((some func, d) :: fn_dic) (some func) = some d := if_pos rfl
    refine ⟨fs', hrun, fun func' d' h => ?_, fun name h => ?_⟩
    · by_cases hfunc : func' = func
      · subst hfunc
        rw [hself] at h
        obtain rfl := Option.some.inj h
        rw [hother, Function.update_self]
        intro func'' hin heq
        obtain rfl := (get_pickle_name_injective hname hname heq).2
        exact hin (Dict.get?_eq_none hk)
      · rw [hget func' hfunc] at h
        exact hsaved func' d' h
    · rw [hother name fun func' hin => ?_, Function.update_of_ne (h func (by rw [hself]; simp))]
      by_cases hfunc : func' = func
      · exact absurd (hfunc ▸ Dict.get?_eq_none hk) hin
      · exact h func' (by rwa [hget func' hfunc])

/-- A function is in a database exactly when it has a path. -/
theorem parse_get?_ne_none {ps : List P} {k : Option Str} :
    (PathBin.parse get_func_name get_rtn ps).get? k ≠ none ↔ ps.filter (fun p => get_func_name p = k) ≠ [] := by
  have hk := (@parse_filed P get_func_name get_rtn ps).2 k
  cases hget : (PathBin.parse get_func_name get_rtn ps).get? k with
  | none =>
    rw [hget] at hk
    exact iff_of_false (fun h => h rfl) fun h => h hk
  | some d =>
    rw [hget] at hk
    exact iff_of_true (by simp) hk.1

/-- The functions of paths that have names have names. -/
theorem parse_keys {ps : List P} (hps : ∀ p ∈ ps, get_func_name p ≠ none) :
    ∀ e ∈ PathBin.parse get_func_name get_rtn ps, e.1 ≠ none := by
  intro e he hnone
  have hget := Dict.get?_of_mem (@parse_filed P get_func_name get_rtn ps).1 he
  rw [hnone] at hget
  have hne : ps.filter (fun p => get_func_name p = none) ≠ [] := by
    rw [← @parse_get?_ne_none P get_func_name get_rtn, hget]
    simp
  obtain ⟨p, hp⟩ := List.exists_mem_of_ne_nil _ hne
  obtain ⟨hp, hname⟩ := List.mem_filter.mp hp
  exact hps p hp (by simpa using hname)

/-- **What the files hold** after the parts are pickled. -/
theorem pickled {pieces : List (Piece P)} (hids : (pieces.map fun piece => (piece.id, piece.sub_id)).Nodup)
    (hnames : ∀ piece ∈ pieces, ∀ p ∈ piece.paths, get_func_name p ≠ none) (fs : Files P) :
    ∃ fs', pieces.foldlM (fun fs plan => do_pickle get_func_name get_rtn dir plan fs) fs = some fs' ∧
      (∀ piece ∈ pieces, ∀ func d, (PathBin.parse get_func_name get_rtn piece.paths).get? (some func) = some d →
        fs' (get_pickle_name dir func piece.get_pickle_name) = some d) ∧
      ∀ name, (∀ piece ∈ pieces, ∀ func, (PathBin.parse get_func_name get_rtn piece.paths).get? (some func) ≠ none →
        name ≠ get_pickle_name dir func piece.get_pickle_name) → fs' name = fs name := by
  induction pieces generalizing fs with
  | nil => exact ⟨fs, rfl, fun piece h => absurd h List.not_mem_nil, fun _ _ => rfl⟩
  | cons piece pieces ih =>
    obtain ⟨hid, hids⟩ := List.nodup_cons.mp hids
    obtain ⟨fs₁, hrun₁, hsaved₁, hother₁⟩ := @save_spec P dir _ piece.dot_notMem _
      (@parse_filed P get_func_name get_rtn piece.paths).1 (parse_keys (hnames piece List.mem_cons_self)) fs
    obtain ⟨fs', hrun, hsaved, hother⟩ := ih hids (fun pc hpc => hnames pc (List.mem_cons_of_mem _ hpc)) fs₁
    refine ⟨fs', ?_, fun pc hpc func d h => ?_, fun name h => ?_⟩
    · rw [List.foldlM_cons, do_pickle, hrun₁]
      exact hrun
    · obtain rfl | hpc := List.mem_cons.mp hpc
      · rw [hother, hsaved₁ func d h]
        intro pc' hpc' func' _ heq
        have hpre := (get_pickle_name_injective pc.dot_notMem pc'.dot_notMem heq).1
        exact hid (List.mem_map.mpr ⟨pc', hpc', (Piece.get_pickle_name_injective hpre).symm⟩)
      · exact hsaved pc hpc func d h
    · rw [hother name fun pc hpc => h pc (List.mem_cons_of_mem _ hpc), hother₁ name (h piece List.mem_cons_self)]

end Pickling

/-! ### Fixing up -/

/-- A permutation of the values of a function is the values of a permutation. -/
theorem exists_of_perm_map {α β : Type*} {f : α → β} {l : List β} {m : List α} (h : l.Perm (m.map f)) :
    ∃ m' : List α, m'.Perm m ∧ l = m'.map f := by
  induction l generalizing m with
  | nil =>
    obtain rfl := List.map_eq_nil_iff.mp h.nil_eq.symm
    exact ⟨[], .nil, rfl⟩
  | cons a l ih =>
    obtain ⟨x, hx, rfl⟩ := List.mem_map.mp (h.mem_iff.mp List.mem_cons_self)
    obtain ⟨m₁, m₂, rfl⟩ := List.append_of_mem hx
    rw [List.map_append, List.map_cons] at h
    have hl := (List.perm_cons (f x)).mp (h.trans List.perm_middle)
    rw [← List.map_append] at hl
    obtain ⟨m', hm', rfl⟩ := ih hl
    exact ⟨x :: m', (hm'.cons x).trans List.perm_middle.symm, rfl⟩

/-- The pickles of each function are planned together. -/
theorem plans_spec {pickles : List Str} (hpickles : ∀ pickle ∈ pickles, func_p pickle ≠ none) :
    ∃ plans, fixup_plans pickles = some plans ∧
      FiledBy Eq (fun pickle => (func_p pickle).getD []) plans pickles := by
  have hfold (dic : Dict Str (List Str)) (done : List Str)
      (h : FiledBy Eq (fun pickle => (func_p pickle).getD []) dic done) :
      ∃ plans, pickles.foldlM (fun pickle_dic pickle =>
        (func_p pickle).map fun func => pickle_dic.put func ((pickle_dic.get? func).getD [] ++ [pickle])) dic = some plans ∧
        FiledBy Eq (fun pickle => (func_p pickle).getD []) plans (done ++ pickles) := by
    induction pickles generalizing dic done with
    | nil => exact ⟨dic, rfl, by rwa [List.append_nil]⟩
    | cons pickle pickles ih =>
      obtain ⟨func, hfunc⟩ := Option.ne_none_iff_exists'.mp (hpickles pickle List.mem_cons_self)
      have hone : FiledBy Eq (fun pickle => (func_p pickle).getD []) [(func, [pickle])] [pickle] :=
        FiledBy.singleton (by simp) (by simp [hfunc]) rfl
      have hmerge := FiledBy.merge (fun a b ps qs hab hcd => congrArg₂ (· ++ ·) hab hcd) h hone
      have hput : Dict.mergeWith (· ++ ·) dic [(func, [pickle])] = dic.put func ((dic.get? func).getD [] ++ [pickle]) := by
        rw [Dict.mergeWith, List.foldl_cons, List.foldl_nil, Dict.putWith]
        dsimp only
        cases dic.get? func <;> rfl
      obtain ⟨plans, hrun, hplans⟩ := ih (fun p hp => hpickles p (List.mem_cons_of_mem _ hp)) _ _ (hput ▸ hmerge)
      rw [List.append_assoc] at hplans
      refine ⟨plans, ?_, hplans⟩
      rw [List.foldlM_cons, hfunc]
      exact hrun
  exact hfold [] [] ⟨List.nodup_nil, fun _ => rfl⟩

section Fixup

variable {get_rtn : P → Option Str} {dir : Str}

/-- The files of a plan hold parts of these paths. -/
def Ready (get_rtn : P → Option Str) (fs : Files P) (files : List Str) (ps : List P) : Prop :=
  files ≠ [] ∧ ∃ pss, List.Forall₂ (fun file qs => ∃ d, fs file = some d ∧ FuncFiled get_rtn d qs) files pss ∧
    pss.flatten.Perm ps

theorem Ready.congr {fs fs' : Files P} {files : List Str} {ps : List P} (h : Ready get_rtn fs files ps)
    (hfiles : ∀ file ∈ files, fs' file = fs file) : Ready get_rtn fs' files ps := by
  obtain ⟨hnil, pss, hall, hperm⟩ := h
  refine ⟨hnil, pss, ?_, hperm⟩
  clear hnil hperm
  induction hall with
  | nil => exact .nil
  | @cons file qs files pss hfile _ ih =>
    obtain ⟨d, hread, hd⟩ := hfile
    exact .cons ⟨d, (hfiles file List.mem_cons_self).trans hread, hd⟩ (ih fun f hf => hfiles f (List.mem_cons_of_mem _ hf))

/-- The databases of one function. -/
theorem fold_singletons (k : Option Str) (d : FuncDic P) (ds : List (FuncDic P)) :
    (ds.map fun d' => [(k, d')]).foldl mergeDic [(k, d)] = [(k, ds.foldl (Dict.mergeWith (· ++ ·)) d)] := by
  induction ds generalizing d with
  | nil => rfl
  | cons d' ds ih =>
    have hstep : mergeDic [(k, d)] [(k, d')] = [(k, Dict.mergeWith (· ++ ·) d d')] := by
      simp [mergeDic, Dict.mergeWith, Dict.putWith, Dict.get?, Dict.put]
    rw [List.map_cons, List.foldl_cons, hstep, ih]
    rfl

/-- The files that are read, and the paths of their merge. -/
theorem ready_fold {fs : Files P} {files : List Str} {pss : List (List P)}
    (h : List.Forall₂ (fun file qs => ∃ d, fs file = some d ∧ FuncFiled get_rtn d qs) files pss) :
    ∃ ds, files.mapM fs = some ds ∧ (∀ d ∈ ds, d.keys.Nodup) ∧ ∀ d qs, FuncFiled get_rtn d qs →
      FuncFiled get_rtn (ds.foldl (Dict.mergeWith (· ++ ·)) d) (qs ++ pss.flatten) := by
  induction h with
  | nil => exact ⟨[], rfl, by simp, fun d qs hd => by rwa [List.flatten_nil, List.append_nil]⟩
  | @cons file qs files pss hfile _ ih =>
    obtain ⟨d, hread, hd⟩ := hfile
    obtain ⟨ds, hreads, hnodup, hfold⟩ := ih
    refine ⟨d :: ds, ?_, ?_, fun d' qs' hd' => ?_⟩
    · rw [List.mapM_cons, hread, hreads]
      rfl
    · exact List.forall_mem_cons.mpr ⟨hd.1, hnodup⟩
    · rw [List.foldl_cons, List.flatten_cons, ← List.append_assoc]
      exact hfold _ _ (hd'.merge hd)

/-- The files that are removed. -/
theorem remove_files (files : List Str) (fs : Files P) (name : Str) :
    files.foldl (fun fs pickle => Function.update fs pickle none) fs name = if name ∈ files then none else fs name := by
  induction files generalizing fs with
  | nil => rfl
  | cons file files ih =>
    rw [List.foldl_cons, ih]
    by_cases hname : name = file
    · subst hname
      rw [Function.update_self, if_pos List.mem_cons_self, ite_self]
    · rw [Function.update_of_ne hname]
      simp [hname]

/-- **The files of one function** are merged into one, and removed. -/
theorem do_fixup_ready {fs : Files P} {func : Str} {files : List Str} {ps : List P} (h : Ready get_rtn fs files ps)
    (hfiles : get_pickle_name dir func PICKLE_NAME ∉ files) :
    ∃ fs', do_fixup dir (func, files) fs = some fs' ∧
      (∃ d, fs' (get_pickle_name dir func PICKLE_NAME) = some d ∧ FuncFiled get_rtn d ps) ∧
      ∀ name, name ∉ files → name ≠ get_pickle_name dir func PICKLE_NAME → fs' name = fs name := by
  obtain ⟨hne, pss, hall, hperm⟩ := h
  cases hall with
  | nil => exact absurd rfl hne
  | @cons first qs rest pss hfirst hrest =>
    obtain ⟨d, hread, hd⟩ := hfirst
    cases hrest with
    | nil =>
      have hrun : do_fixup dir (func, [first]) fs = some (Function.update (Function.update fs first none)
          (get_pickle_name dir func PICKLE_NAME) (some d)) := by
        rw [do_fixup]
        dsimp only
        rw [hread]
        rfl
      refine ⟨_, hrun, ⟨d, Function.update_self _ _ _, ?_⟩, fun name hn hdst => ?_⟩
      · have hqs : [qs].flatten = qs := List.flatten_singleton
        exact hd.perm (hqs ▸ hperm)
      · have hne : name ≠ first := fun heq => hn (List.mem_singleton.mpr heq)
        rw [Function.update_of_ne hdst, Function.update_of_ne hne]
    | @cons second qs' rest pss hsecond hrest =>
      obtain ⟨ds, hreads, hnodup, hfold⟩ := ready_fold (.cons hsecond hrest)
      have hmerge : PathBin.merge_bins [(some func, d)] (ds.map fun tempbin => [(some func, tempbin)]) =
          some [(some func, ds.foldl (Dict.mergeWith (· ++ ·)) d)] := by
        rw [merge_bins_eq, fold_singletons]
        · exact ⟨List.nodup_singleton _, by simpa using hd.1⟩
        · intro db hdb
          obtain ⟨d', hd', rfl⟩ := List.mem_map.mp hdb
          exact ⟨List.nodup_singleton _, by simpa using hnodup d' hd'⟩
      obtain ⟨fs₁, hsave, hsaved, hother⟩ := @save_spec P dir PICKLE_NAME (by decide)
        [(some func, ds.foldl (Dict.mergeWith (· ++ ·)) d)] (List.nodup_singleton _) (by simp) fs
      have hrun : do_fixup dir (func, first :: second :: rest) fs =
          some ((first :: second :: rest).foldl (fun fs pickle => Function.update fs pickle none) fs₁) := by
        rw [do_fixup]
        dsimp only
        rw [hread, hreads]
        dsimp only [Option.bind_eq_bind, Option.bind_some]
        rw [hmerge]
        dsimp only [Option.bind_some]
        rw [hsave]
        rfl
      refine ⟨_, hrun, ?_, fun name hn hdst => ?_⟩
      · refine ⟨_, ?_, (hfold d qs hd).perm hperm⟩
        rw [remove_files, if_neg hfiles]
        exact hsaved func _ (if_pos rfl)
      · rw [remove_files, if_neg hn, hother name]
        intro func' hin
        by_cases hfunc : func' = func
        · rwa [hfunc]
        · refine absurd ?_ hin
          rw [Dict.get?, if_neg fun heq => hfunc (Option.some.inj heq).symm]
          rfl

/-- **All plans**, in any order. -/
theorem fixup_run {fs : Files P} {plans : List (Str × List Str)} {paths : Str → List P}
    (hready : ∀ plan ∈ plans, Ready get_rtn fs plan.2 (paths plan.1))
    (hkeys : (plans.map Prod.fst).Nodup) (hfunc : ∀ plan ∈ plans, ∀ file ∈ plan.2, func_p file = some plan.1)
    (hdst : ∀ plan ∈ plans, ∀ func, get_pickle_name dir func PICKLE_NAME ∉ plan.2) :
    ∃ fs', _fixup dir plans fs = some fs' ∧
      (∀ plan ∈ plans, ∃ d, fs' (get_pickle_name dir plan.1 PICKLE_NAME) = some d ∧ FuncFiled get_rtn d (paths plan.1)) ∧
      ∀ name, (∀ plan ∈ plans, name ∉ plan.2 ∧ name ≠ get_pickle_name dir plan.1 PICKLE_NAME) → fs' name = fs name := by
  induction plans generalizing fs with
  | nil => exact ⟨fs, rfl, fun plan h => absurd h List.not_mem_nil, fun _ _ => rfl⟩
  | cons plan plans ih =>
    obtain ⟨func, files⟩ := plan
    obtain ⟨hkey, hkeys⟩ := List.nodup_cons.mp hkeys
    obtain ⟨fs₁, hrun₁, ⟨d, hd, hfiled⟩, hother₁⟩ := do_fixup_ready (hready _ List.mem_cons_self)
      (hdst _ List.mem_cons_self func)
    have hne : ∀ plan ∈ plans, plan.1 ≠ func := fun plan hplan heq =>
      hkey (List.mem_map.mpr ⟨plan, hplan, heq⟩)
    -- the other plans keep their files
    have hkeep : ∀ plan ∈ plans, ∀ file ∈ plan.2, fs₁ file = fs file := by
      intro plan hplan file hfile
      refine hother₁ file (fun hmem => ?_) fun heq => ?_
      · have hself := hfunc _ List.mem_cons_self file hmem
        rw [hfunc plan (List.mem_cons_of_mem _ hplan) file hfile] at hself
        exact hne plan hplan (Option.some.inj hself)
      · exact hdst plan (List.mem_cons_of_mem _ hplan) func (heq ▸ hfile)
    have hready₁ : ∀ plan ∈ plans, Ready get_rtn fs₁ plan.2 (paths plan.1) := fun plan hplan =>
      (hready plan (List.mem_cons_of_mem _ hplan)).congr (hkeep plan hplan)
    obtain ⟨fs', hrun, hfixed, hother⟩ := ih hready₁ hkeys (fun plan hplan => hfunc plan (List.mem_cons_of_mem _ hplan))
      fun plan hplan => hdst plan (List.mem_cons_of_mem _ hplan)
    refine ⟨fs', ?_, fun plan hplan => ?_, fun name h => ?_⟩
    · rw [_fixup, List.foldlM_cons, hrun₁]
      exact hrun
    · obtain rfl | hplan := List.mem_cons.mp hplan
      · refine ⟨d, ?_, hfiled⟩
        rw [hother, hd]
        intro plan hplan
        refine ⟨hdst plan (List.mem_cons_of_mem _ hplan) func, fun heq => ?_⟩
        exact hne plan hplan (get_pickle_name_injective (by decide) (by decide) heq).2.symm
      · exact hfixed plan hplan
    · rw [hother name fun plan hplan => h plan (List.mem_cons_of_mem _ hplan)]
      obtain ⟨hfile, hname⟩ := h _ List.mem_cons_self
      exact hother₁ name hfile hname

end Fixup

/-! ### One pass -/

section Sharded

variable {get_func_name get_rtn : P → Option Str} {dir : Str} {pieces : List (Piece P)}

/-- The paths of a function. -/
def pathsOf (get_func_name : P → Option Str) (ps : List P) (func : Str) : List P :=
  ps.filter fun p => get_func_name p = some func

/-- The parts, pickled and fixed up in any order, leave what one pass over their paths files. -/
def FixedUp (get_func_name get_rtn : P → Option Str) (dir : Str) (pieces : List (Piece P)) : Prop :=
  ∃ fs, _pickle get_func_name get_rtn dir pieces = some fs ∧ ∀ pickles, Globbed dir fs pickles →
    ∃ plans, fixup_plans pickles = some plans ∧ ∀ order, order.Perm plans →
      ∃ fs', _fixup dir order fs = some fs' ∧ ∀ func,
        Option.Rel (fun d d' : FuncDic P => ∀ rtn, Option.Rel List.Perm (d.get? rtn) (d'.get? rtn))
          (fs' (get_pickle_name dir func PICKLE_NAME))
          ((PathBin.parse get_func_name get_rtn (pieces.flatMap Piece.paths)).get? (some func))

/-- The name of a part is not the one of the database. -/
theorem Pickler.Piece.get_pickle_name_ne (piece : Piece P) : piece.get_pickle_name ≠ PICKLE_NAME := by
  intro h
  have hplan : piece.get_pickle_name.head? = some '_' := rfl
  have hdatabase : PICKLE_NAME.head? = some 'p' := rfl
  rw [h, hdatabase] at hplan
  exact absurd hplan (by decide)

/-- Parts without paths of a function add none. -/
theorem flatMap_pathsOf (pieces : List (Piece P)) (func : Str) :
    (pieces.filter fun piece => pathsOf get_func_name piece.paths func ≠ []).flatMap
      (fun piece => pathsOf get_func_name piece.paths func) = pathsOf get_func_name (pieces.flatMap Piece.paths) func := by
  induction pieces with
  | nil => rfl
  | cons piece pieces ih =>
    have happend : pathsOf get_func_name ((piece :: pieces).flatMap Piece.paths) func =
        pathsOf get_func_name piece.paths func ++ pathsOf get_func_name (pieces.flatMap Piece.paths) func := by
      rw [pathsOf, List.flatMap_cons, List.filter_append]
      rfl
    rw [happend, ← ih]
    by_cases h : pathsOf get_func_name piece.paths func = []
    · rw [List.filter_cons_of_neg (by simpa using h), h, List.nil_append]
    · rw [List.filter_cons_of_pos (by simpa using h), List.flatMap_cons]

/-- The pickles of the parts. -/
structure Pickles (get_func_name get_rtn : P → Option Str) (dir : Str) (pieces : List (Piece P)) (fs : Files P)
    (pickles : List Str) : Prop where
  /-- Each is listed once. -/
  nodup : pickles.Nodup
  /-- There is one for each part and each function it has paths of. -/
  mem : ∀ name, name ∈ pickles ↔ ∃ piece ∈ pieces, ∃ func, pathsOf get_func_name piece.paths func ≠ [] ∧
    name = get_pickle_name dir func piece.get_pickle_name
  /-- It holds these paths. -/
  filed : ∀ piece ∈ pieces, ∀ func, pathsOf get_func_name piece.paths func ≠ [] →
    ∃ d, fs (get_pickle_name dir func piece.get_pickle_name) = some d ∧
      FuncFiled get_rtn d (pathsOf get_func_name piece.paths func)
  /-- There is no dot in the name of a function. -/
  dot : ∀ piece ∈ pieces, ∀ func, pathsOf get_func_name piece.paths func ≠ [] → '.' ∉ func

namespace Pickles

variable {fs : Files P} {pickles : List Str}

/-- A pickle of a function. -/
theorem of_mem (h : Pickles get_func_name get_rtn dir pieces fs pickles) {name : Str} (hname : name ∈ pickles) :
    ∃ piece ∈ pieces, ∃ func, pathsOf get_func_name piece.paths func ≠ [] ∧
      name = get_pickle_name dir func piece.get_pickle_name ∧ func_p name = some func := by
  obtain ⟨piece, hpiece, func, hfunc, rfl⟩ := (h.mem name).mp hname
  exact ⟨piece, hpiece, func, hfunc, rfl, func_p_name dir _ (h.dot piece hpiece func hfunc)⟩

/-- **The pickles of a function** are ready to be fixed up. -/
theorem ready (h : Pickles get_func_name get_rtn dir pieces fs pickles)
    (hids : (pieces.map fun piece => (piece.id, piece.sub_id)).Nodup) {func : Str}
    (hne : pickles.filter (fun pickle => (func_p pickle).getD [] = func) ≠ []) :
    Ready get_rtn fs (pickles.filter fun pickle => (func_p pickle).getD [] = func)
      (pathsOf get_func_name (pieces.flatMap Piece.paths) func) := by
  have hperm : (pickles.filter fun pickle => (func_p pickle).getD [] = func).Perm
      ((pieces.filter fun piece => pathsOf get_func_name piece.paths func ≠ []).map fun piece =>
        get_pickle_name dir func piece.get_pickle_name) := by
    refine (List.perm_ext_iff_of_nodup (h.nodup.filter _) ?_).mpr fun name => ?_
    · refine List.Nodup.map_on (fun piece hpiece piece' hpiece' heq => ?_) ((hids.of_map _).filter _)
      have hpre := (get_pickle_name_injective piece.dot_notMem piece'.dot_notMem heq).1
      exact List.inj_on_of_nodup_map hids (List.mem_of_mem_filter hpiece) (List.mem_of_mem_filter hpiece')
        (Piece.get_pickle_name_injective hpre)
    · rw [List.mem_filter, List.mem_map]
      constructor
      · rintro ⟨hname, hfunc⟩
        obtain ⟨piece, hpiece, func', hfunc', rfl, hfunc_p⟩ := h.of_mem hname
        have heq : func' = func := by simpa [hfunc_p] using hfunc
        subst heq
        exact ⟨piece, List.mem_filter.mpr ⟨hpiece, by simpa using hfunc'⟩, rfl⟩
      · rintro ⟨piece, hpiece, rfl⟩
        obtain ⟨hpiece, hfunc⟩ := List.mem_filter.mp hpiece
        have hfunc : pathsOf get_func_name piece.paths func ≠ [] := by simpa using hfunc
        refine ⟨(h.mem _).mpr ⟨piece, hpiece, func, hfunc, rfl⟩, ?_⟩
        rw [func_p_name dir _ (h.dot piece hpiece func hfunc)]
        simp
  obtain ⟨order, horder, hfiles⟩ := exists_of_perm_map hperm
  refine ⟨hne, order.map fun piece => pathsOf get_func_name piece.paths func, ?_, ?_⟩
  · rw [hfiles, List.forall₂_map_left_iff, List.forall₂_map_right_iff, List.forall₂_same]
    intro piece hpiece
    obtain ⟨hpiece, hfunc⟩ := List.mem_filter.mp (horder.mem_iff.mp hpiece)
    exact h.filed piece hpiece func (by simpa using hfunc)
  · have hflat := (horder.map fun piece => pathsOf get_func_name piece.paths func).flatten
    rw [← List.flatMap_def, ← List.flatMap_def] at hflat
    rw [← List.flatMap_def]
    exact hflat.trans (List.Perm.of_eq (flatMap_pathsOf pieces func))

end Pickles

/-- The parts are pickled, and `glob` finds their pickles. -/
theorem pickles_globbed (hids : (pieces.map fun piece => (piece.id, piece.sub_id)).Nodup)
    (hnames : ∀ piece ∈ pieces, ∀ p ∈ piece.paths, ∃ func, get_func_name p = some func ∧ FileName func) :
    ∃ fs, _pickle get_func_name get_rtn dir pieces = some fs ∧
      (∀ func, fs (get_pickle_name dir func PICKLE_NAME) = none) ∧
      ∀ pickles, Globbed dir fs pickles → Pickles get_func_name get_rtn dir pieces fs pickles := by
  have hsome : ∀ piece ∈ pieces, ∀ p ∈ piece.paths, get_func_name p ≠ none := by
    intro piece hpiece p hp hnone
    obtain ⟨func, hfunc, -⟩ := hnames piece hpiece p hp
    rw [hnone] at hfunc
    cases hfunc
  obtain ⟨fs, hrun, hsaved, hother⟩ := @pickled P get_func_name get_rtn dir pieces hids hsome fun _ => none
  have hget (piece : Piece P) (func : Str) :
      (PathBin.parse get_func_name get_rtn piece.paths).get? (some func) ≠ none ↔
        pathsOf get_func_name piece.paths func ≠ [] := parse_get?_ne_none
  refine ⟨fs, hrun, fun func => hother _ fun piece _ func' _ heq => ?_, fun pickles hglob => ⟨hglob.nodup, ?_, ?_, ?_⟩⟩
  · exact piece.get_pickle_name_ne (get_pickle_name_injective (by decide) piece.dot_notMem heq).1.symm
  · intro name
    rw [hglob.mem]
    constructor
    · rintro ⟨hname, -⟩
      by_contra hno
      refine hname (hother name fun piece hpiece func hfunc heq => hno ?_)
      exact ⟨piece, hpiece, func, (hget piece func).mp hfunc, heq⟩
    · rintro ⟨piece, hpiece, func, hfunc, rfl⟩
      obtain ⟨d, hd⟩ := Option.ne_none_iff_exists'.mp ((hget piece func).mpr hfunc)
      refine ⟨by rw [hsaved piece hpiece func d hd]; simp, ?_, ?_⟩
      · rw [get_pickle_name, Piece.get_pickle_name, List.prefix_append_right_inj, List.append_assoc]
        exact List.prefix_append _ _
      · exact ⟨dir ++ (piece.get_pickle_name ++ '.' :: func), by simp [get_pickle_name]⟩
  · intro piece hpiece func hfunc
    obtain ⟨d, hd⟩ := Option.ne_none_iff_exists'.mp ((hget piece func).mpr hfunc)
    have hfiled := (@parse_filed P get_func_name get_rtn piece.paths).2 (some func)
    rw [hd] at hfiled
    exact ⟨d, hsaved piece hpiece func d hd, hfiled.2⟩
  · intro piece hpiece func hfunc
    obtain ⟨p, hp⟩ := List.exists_mem_of_ne_nil _ hfunc
    obtain ⟨hp, hname⟩ := List.mem_filter.mp hp
    obtain ⟨func', hfunc', hfile⟩ := hnames piece hpiece p hp
    have heq : func' = func := by simpa [hfunc'] using hname
    exact heq ▸ hfile.1

/-- **Parts that are pickled and fixed up** leave the databases of one pass, when the names of the functions can be part
of file names. -/
theorem fixed_up (hids : (pieces.map fun piece => (piece.id, piece.sub_id)).Nodup)
    (hnames : ∀ piece ∈ pieces, ∀ p ∈ piece.paths, ∃ func, get_func_name p = some func ∧ FileName func) :
    FixedUp get_func_name get_rtn dir pieces := by
  obtain ⟨fs, hrun, hnone, hpickles⟩ := @pickles_globbed P get_func_name get_rtn dir pieces hids hnames
  refine ⟨fs, hrun, fun pickles hglob => ?_⟩
  have h := hpickles pickles hglob
  obtain ⟨plans, hplans_run, hplans⟩ := @plans_spec pickles fun pickle hpickle => by
    obtain ⟨_, _, func, _, _, hfunc⟩ := h.of_mem hpickle
    rw [hfunc]
    simp
  refine ⟨plans, hplans_run, fun order horder => ?_⟩
  -- what a plan is
  have hplan : ∀ plan ∈ order, pickles.filter (fun pickle => (func_p pickle).getD [] = plan.1) ≠ [] ∧
      plan.2 = pickles.filter fun pickle => (func_p pickle).getD [] = plan.1 := by
    intro plan hplan
    have hk := hplans.2 plan.1
    rw [Dict.get?_of_mem hplans.1 (horder.mem_iff.mp hplan)] at hk
    exact hk
  have hfile : ∀ plan ∈ order, ∀ file ∈ plan.2, ∃ piece ∈ pieces, pathsOf get_func_name piece.paths plan.1 ≠ [] ∧
      file = get_pickle_name dir plan.1 piece.get_pickle_name ∧ func_p file = some plan.1 := by
    intro plan hmem file hfile
    rw [(hplan plan hmem).2] at hfile
    obtain ⟨hfile, hfunc⟩ := List.mem_filter.mp hfile
    obtain ⟨piece, hpiece, func, hne, hname, hfunc_p⟩ := h.of_mem hfile
    have heq : func = plan.1 := by simpa [hfunc_p] using hfunc
    subst heq
    exact ⟨piece, hpiece, hne, hname, hfunc_p⟩
  have hdst : ∀ plan ∈ order, ∀ func, get_pickle_name dir func PICKLE_NAME ∉ plan.2 := by
    intro plan hmem func hin
    obtain ⟨piece, -, -, hname, -⟩ := hfile plan hmem _ hin
    exact piece.get_pickle_name_ne (get_pickle_name_injective (by decide) piece.dot_notMem hname).1.symm
  obtain ⟨fs', hfix, hfixed, hother⟩ := @fixup_run P get_rtn dir fs order
    (pathsOf get_func_name (pieces.flatMap Piece.paths))
    (fun plan hmem => by
      rw [(hplan plan hmem).2]
      exact h.ready hids (hplan plan hmem).1)
    ((horder.map Prod.fst).nodup_iff.mpr hplans.1) (fun plan hmem file hin => by
      obtain ⟨_, _, _, _, hfunc⟩ := hfile plan hmem file hin
      exact hfunc) hdst
  refine ⟨fs', hfix, fun func => ?_⟩
  have hparse := (@parse_filed P get_func_name get_rtn (pieces.flatMap Piece.paths)).2 (some func)
  by_cases hpaths : pathsOf get_func_name (pieces.flatMap Piece.paths) func = []
  · -- no path of the function
    have hget : (PathBin.parse get_func_name get_rtn (pieces.flatMap Piece.paths)).get? (some func) = none := by
      by_contra hne
      exact parse_get?_ne_none.mp hne hpaths
    rw [hget, hother, hnone]
    · exact .none
    · intro plan hmem
      refine ⟨hdst plan hmem func, fun heq => ?_⟩
      have hfunc := (get_pickle_name_injective (by decide) (by decide) heq).2
      obtain ⟨file, hin⟩ := List.exists_mem_of_ne_nil _ ((hplan plan hmem).2 ▸ (hplan plan hmem).1)
      obtain ⟨piece, hpiece, hne, -⟩ := hfile plan hmem file hin
      obtain ⟨p, hp⟩ := List.exists_mem_of_ne_nil _ hne
      obtain ⟨hp, hname⟩ := List.mem_filter.mp hp
      refine List.ne_nil_of_mem (List.mem_filter.mpr ⟨List.mem_flatMap.mpr ⟨piece, hpiece, hp⟩, ?_⟩) hpaths
      rwa [hfunc]
  · -- its pickles are planned
    obtain ⟨p, hp⟩ := List.exists_mem_of_ne_nil _ hpaths
    obtain ⟨hp, hname⟩ := List.mem_filter.mp hp
    obtain ⟨piece, hpiece, hp⟩ := List.mem_flatMap.mp hp
    have hne : pathsOf get_func_name piece.paths func ≠ [] := List.ne_nil_of_mem (List.mem_filter.mpr ⟨hp, hname⟩)
    have hin : get_pickle_name dir func piece.get_pickle_name ∈
        pickles.filter fun pickle => (func_p pickle).getD [] = func := by
      refine List.mem_filter.mpr ⟨(h.mem _).mpr ⟨piece, hpiece, func, hne, rfl⟩, ?_⟩
      rw [func_p_name dir _ (h.dot piece hpiece func hne)]
      simp
    obtain ⟨files, hfiles⟩ : ∃ files, plans.get? func = some files := by
      have hk := hplans.2 func
      cases hget : plans.get? func with
      | none =>
        rw [hget] at hk
        exact absurd hk (List.ne_nil_of_mem hin)
      | some files => exact ⟨files, rfl⟩
    obtain ⟨d, hd, hfiled⟩ := hfixed (func, files) (horder.mem_iff.mpr (Dict.mem_of_get? hfiles))
    cases hget : (PathBin.parse get_func_name get_rtn (pieces.flatMap Piece.paths)).get? (some func) with
    | none =>
      rw [hget] at hparse
      exact absurd hparse hpaths
    | some d' =>
      rw [hget] at hparse
      rw [hd]
      exact .some fun rtn => FiledBy.rel (fun _ _ _ hl hl' => hl.trans hl'.symm) hfiled hparse.2 rtn

/-- **Sharded databases.** However a list of paths is cut into pieces, merging their databases in any order files the same
paths as one pass over the list; and so do the pickles of the pieces, listed and fixed up in any order, when the names of
the functions can be part of file names. -/
theorem sharded_same (hids : (pieces.map fun piece => (piece.id, piece.sub_id)).Nodup) :
    (∀ first rest, (first :: rest).Perm (pieces.map Piece.paths) →
      ∃ db, PathBin.merge_bins (PathBin.parse get_func_name get_rtn first)
          (rest.map (PathBin.parse get_func_name get_rtn)) = some db ∧
        Same db (PathBin.parse get_func_name get_rtn (pieces.flatMap Piece.paths))) ∧
    ((∀ piece ∈ pieces, ∀ p ∈ piece.paths, ∃ func, get_func_name p = some func ∧ FileName func) →
      FixedUp get_func_name get_rtn dir pieces) := by
  refine ⟨fun first rest h => ?_, fixed_up hids⟩
  rw [List.flatMap_def]
  exact merged_same h

end Sharded

/-- Two parts, with paths of two functions. -/
def twoParts : List (Piece (Str × Option Str)) :=
  [⟨0, 0, [("f".toList, some "0".toList), ("g".toList, none)]⟩, ⟨0, 1, [("f".toList, some "0".toList)]⟩]

/-- They are fixed up. -/
theorem sharded_same_two : FixedUp (fun p => some p.1) Prod.snd "out/".toList twoParts := by
  refine (sharded_same (by decide)).2 fun piece hpiece p hp => ⟨p.1, rfl, ?_⟩
  have hfiles : ∀ piece ∈ twoParts, ∀ p ∈ piece.paths, '.' ∉ p.1 ∧ '/' ∉ p.1 := by decide
  exact hfiles piece hpiece p hp

/-- A part with a path of a function `f.g`. -/
def dotted : List (Piece (Str × Option Str)) := [⟨0, 0, [("f.g".toList, none)]⟩]

/-- Its pickle is taken for one of `g`. -/
theorem not_sharded_same : ¬ FixedUp (fun p => some p.1) Prod.snd "out/".toList dotted := by
  rintro ⟨fs, hrun, h⟩
  have hfs : _pickle (fun p => some p.1) Prod.snd "out/".toList dotted =
      some (Function.update (fun _ => none) "out/_pickler-0000-0000.f.g.p".toList
        (some [(none, [("f.g".toList, none)])])) := by rfl
  rw [hfs] at hrun
  obtain rfl := Option.some.inj hrun
  have hglob : Globbed "out/".toList (Function.update (fun _ => none) "out/_pickler-0000-0000.f.g.p".toList
      (some [(none, [(("f.g".toList : Str), (none : Option Str))])])) ["out/_pickler-0000-0000.f.g.p".toList] := by
    refine ⟨List.nodup_singleton _, fun name => ?_⟩
    rw [List.mem_singleton]
    constructor
    · rintro rfl
      exact ⟨by rw [Function.update_self]; simp, by decide, by decide⟩
    · rintro ⟨hname, -⟩
      by_contra hne
      exact hname (Function.update_of_ne hne _ _)
  obtain ⟨plans, hplans, h⟩ := h _ hglob
  have hg : fixup_plans ["out/_pickler-0000-0000.f.g.p".toList] =
      some [("g".toList, ["out/_pickler-0000-0000.f.g.p".toList])] := by rfl
  rw [hg] at hplans
  obtain rfl := Option.some.inj hplans
  obtain ⟨fs', hfix, h⟩ := h _ (List.Perm.refl _)
  rw [_fixup, List.foldlM_cons, do_fixup] at hfix
  dsimp only at hfix
  rw [Function.update_self] at hfix
  obtain rfl := Option.some.inj hfix
  have hfunc := h "f.g".toList
  have hname : get_pickle_name "out/".toList "f.g".toList PICKLE_NAME = "out/pathbin.f.g.p".toList := rfl
  have hdst : get_pickle_name "out/".toList "g".toList PICKLE_NAME = "out/pathbin.g.p".toList := rfl
  rw [hname, hdst] at hfunc
  dsimp only at hfunc
  rw [Function.update_of_ne (by decide), Function.update_of_ne (by decide),
    Function.update_of_ne (by decide)] at hfunc
  have hparse : (PathBin.parse (fun p => some p.1) Prod.snd (dotted.flatMap Piece.paths)).get? (some "f.g".toList) =
      some [(none, [("f.g".toList, none)])] := rfl
  rw [hparse] at hfunc
  cases hfunc

end SEDiff.Juxta

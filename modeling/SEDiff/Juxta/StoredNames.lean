import SEDiff.Foundation.Glob
import SEDiff.Juxta.Pickles
import Mathlib.Algebra.Group.Action.Defs
import Mathlib.Algebra.Order.BigOperators.Group.List
import Mathlib.Algebra.Order.Group.Nat

/-!
# Names of stored functions

`save_as_pickle` puts the name of a function into the name of a file. `CheckerRunner` of `checker.py` lists the files of the
log directory and cuts the names out at a fixed place; `__fixup_plans` of `pickler.py` takes them from between the dots.

## What is proved

* `generate_fops_eq` — what is cut out are the names without as many characters as the place is off.
* `names_survive_iff` — so the names survive exactly when the log directory's text is not empty, has no slash at the end, and
  is found under itself.
-/

namespace SEDiff.Juxta

open Foundation Pickler

variable {P : Type*}

/-! ### The source -/

/-- The name of the file of a function. -/
def file_name (func pickle_prefix : Str) : Str := pickle_prefix ++ '.' :: (func ++ ".p".toList)

namespace CheckerRunner

/-- `all_pickles`. -/
def all_pickles (fs : Glob.Disk) (log_d : Str) : Option (List Str) := Glob.glob fs (Glob.join log_d "*.p".toList)

/-- `pickle[len(self.log_d)+9:-2]`. -/
def fops (log_d pickle : Str) : Str := (pickle.take (pickle.length - 2)).drop (log_d.length + 9)

/-- `__generate_fops`, with `check_all`. -/
def generate_fops (fs : Glob.Disk) (log_d : Str) : Option (List Str) :=
  (all_pickles fs log_d).map fun pickles => pickles.map (fops log_d)

end CheckerRunner

open CheckerRunner

/-! ### What is to be shown -/

/-- The functions of a database. -/
def functions (fn_dic : FnDic P) : List Str := fn_dic.keys.reduceOption

/-- A non-empty identifier. -/
def Identifier (func : Str) : Prop := func ≠ [] ∧ ∀ c ∈ func, c.isAlphanum = true ∨ c = '_'

/-- The function names of a database are identifiers, each once. -/
structure Named (fn_dic : FnDic P) : Prop where
  /-- Each function has a name. -/
  named : fn_dic.keys = (functions fn_dic).map some
  /-- It is an identifier. -/
  identifier : ∀ func ∈ functions fn_dic, Identifier func
  /-- Each is there once. -/
  nodup : fn_dic.keys.Nodup

/-- The directory of the files, as `glob` splits it off. -/
def directory (log_d : Str) : Str := Glob.trimmed (Glob.slashed log_d)

/-- **The files are written**: of the names that `*.p` finds, the directory has those of the functions, and no other directory
that is found under its text has any. -/
structure Written (fs : Glob.Disk) (log_d : Str) (fn_dic : FnDic P) : Prop where
  /-- The directory can be listed, and has the files of the functions. -/
  listed : ∃ names, Glob.namesIn fs (directory log_d) = some names ∧
    (names.filter (Glob.HasSuffix ".p".toList)).Perm ((functions fn_dic).map fun func => file_name func PICKLE_NAME)
  /-- There are no others. -/
  elsewhere : ∀ dirs, Glob.dirsOf fs (directory log_d) = some dirs → ∀ dir ∈ dirs, dir ≠ directory log_d →
    ∀ name ∈ (Glob.namesIn fs dir).getD [], ¬ Glob.HasSuffix ".p".toList name

/-- **The names survive**. -/
structure Survive (fs : Glob.Disk) (log_d : Str) (fn_dic : FnDic P) (files : Files P) : Prop where
  /-- The functions that are found are those of the database. -/
  recovered : ∃ funcs, generate_fops fs log_d = some funcs ∧ funcs.Perm (functions fn_dic)
  /-- Each function of the database is found, and its name loads its paths. -/
  loadable : ∀ e ∈ fn_dic, ∃ funcs func, generate_fops fs log_d = some funcs ∧ func ∈ funcs ∧ e.1 = some func ∧
    files (get_pickle_name (Glob.slashed log_d) func PICKLE_NAME) = some e.2
  /-- The name of a partial pickle, in any directory, has its function. -/
  partials : ∀ (piece : Piece P) (dir : Str), ∀ func ∈ functions fn_dic,
    func_p (Glob.join dir (file_name func piece.get_pickle_name)) = some func

/-- The log directory is found under its text, which ends in its name. -/
def FoundUnder (fs : Glob.Disk) (log_d : Str) (fn_dic : FnDic P) : Prop :=
  ∃ dirs, Glob.dirsOf fs (directory log_d) = some dirs ∧
    (functions fn_dic = [] ∨ log_d ≠ [] ∧ log_d.getLast? ≠ some '/' ∧ dirs.count log_d = 1)

/-! ### The name of a file -/

theorem Identifier.notMem {func : Str} (h : Identifier func) {c : Char} (hc : c.isAlphanum = false) (hne : c ≠ '_') :
    c ∉ func := fun hmem => by
  rcases h.2 c hmem with hal | heq
  · rw [hc] at hal
    cases hal
  · exact hne heq

theorem slash_notMem_file_name {func pre : Str} (hfunc : '/' ∉ func) (hpre : '/' ∉ pre) : '/' ∉ file_name func pre := by
  simp [file_name, hfunc, hpre]

/-- The path of a file. -/
theorem join_file_name (dir : Str) {func pre : Str} (hfunc : '/' ∉ func) (hpre : '/' ∉ pre) :
    Glob.join dir (file_name func pre) = get_pickle_name (Glob.slashed dir) func pre :=
  Glob.join_eq dir (slash_notMem_file_name hfunc hpre)

/-- **What is cut out** of the name of a file. -/
theorem fops_file_name {log_d dir : Str} (hdir : dir.length ≤ log_d.length + 1) (func : Str) :
    fops log_d (dir ++ file_name func PICKLE_NAME) = func.drop (log_d.length + 1 - dir.length) := by
  have hpre : (dir ++ "pathbin.".toList).length = dir.length + 8 := by simp
  have htext : dir ++ file_name func PICKLE_NAME = (dir ++ "pathbin.".toList) ++ func ++ ".p".toList := by
    simp [file_name, PICKLE_NAME]
  have htake : (dir ++ file_name func PICKLE_NAME).take ((dir ++ file_name func PICKLE_NAME).length - 2) =
      (dir ++ "pathbin.".toList) ++ func := by
    rw [htext]
    have hlen : ((dir ++ "pathbin.".toList) ++ func ++ ".p".toList).length - 2 = ((dir ++ "pathbin.".toList) ++ func).length := by
      rw [List.length_append]
      exact Nat.add_sub_cancel _ _
    rw [hlen, List.take_left]
  have hplace : log_d.length + 9 = (dir ++ "pathbin.".toList).length + (log_d.length + 1 - dir.length) := by omega
  rw [fops, htake, hplace, List.drop_append]
  simp

/-! ### The directory -/

/-- How far the place where names are cut is off. -/
def off (log_d : Str) : ℕ := log_d.length + 1 - (Glob.slashed (directory log_d)).length

theorem length_slashed (a : Str) : (Glob.slashed a).length ≤ a.length + 1 := by
  rw [Glob.slashed]
  split_ifs <;> simp

/-- A text with a character that is no slash at the end is its own directory. -/
theorem directory_of_last {log_d : Str} (hne : log_d ≠ []) (hlast : log_d.getLast? ≠ some '/') : directory log_d = log_d := by
  obtain ⟨c, hc⟩ := Option.ne_none_iff_exists'.mp (List.getLast?_eq_none_iff.not.mpr hne)
  have hcne : c ≠ '/' := fun heq => hlast (heq ▸ hc)
  have hslashed : Glob.slashed log_d = log_d ++ ['/'] := if_neg (not_or.mpr ⟨hne, hlast⟩)
  have hall : ¬ (log_d ++ ['/']).all (· = '/') = true := fun h => by
    have := List.all_eq_true.mp h c (List.mem_append_left _ (List.mem_of_getLast? hc))
    exact hcne (of_decide_eq_true this)
  rw [directory, hslashed, Glob.trimmed, if_neg hall, Str.rstrip_append (by simp), Str.rstrip_of_last]
  intro d hd
  obtain rfl := Option.some.inj (hc.symm.trans hd)
  exact decide_eq_false hcne

theorem length_slashed_directory {log_d : Str} (hne : log_d ≠ []) (hlast : log_d.getLast? ≠ some '/') :
    (Glob.slashed (directory log_d)).length = log_d.length + 1 := by
  have hslashed : Glob.slashed log_d = log_d ++ ['/'] := if_neg (not_or.mpr ⟨hne, hlast⟩)
  rw [directory_of_last hne hlast, hslashed, List.length_append, List.length_singleton]

/-- The directory of another text, with its slash, is not longer than the text. -/
theorem length_slashed_directory_le {log_d : Str} (h : log_d = [] ∨ log_d.getLast? = some '/') :
    (Glob.slashed (directory log_d)).length ≤ log_d.length := by
  have hslashed : Glob.slashed log_d = log_d := if_pos h
  rw [directory, hslashed, Glob.trimmed]
  split_ifs with hall
  · rw [hslashed]
  · -- a slash is dropped at the end
    have hne : log_d ≠ [] := by
      rintro rfl
      exact hall rfl
    obtain ⟨s, rfl⟩ := List.getLast?_eq_some_iff.mp (h.resolve_left hne)
    have hstrip : Str.rstrip (s ++ ['/']) (· = '/') = Str.rstrip s (· = '/') := Str.rstrip_append (by simp)
    have hle : (Str.rstrip s (· = '/')).length ≤ s.length := (List.rdropWhile_prefix _ _).length_le
    have hlen := length_slashed (Str.rstrip s (· = '/'))
    rw [hstrip, List.length_append, List.length_singleton]
    omega

/-- **The place is right** for a text that is not empty and has no slash at the end. -/
theorem off_eq_zero_iff {log_d : Str} : off log_d = 0 ↔ log_d ≠ [] ∧ log_d.getLast? ≠ some '/' := by
  constructor
  · intro hoff
    by_contra hnot
    have hle := length_slashed_directory_le (by rwa [← not_or, not_not] at hnot : log_d = [] ∨ log_d.getLast? = some '/')
    rw [off] at hoff
    omega
  · rintro ⟨hne, hlast⟩
    rw [off, length_slashed_directory hne hlast, Nat.sub_self]

/-! ### What is recovered -/

/-- Copies of names without their first characters are the names when there is one copy and nothing is missing. -/
theorem perm_copies_iff {funcs : List Str} (hne : ∀ func ∈ funcs, func ≠ []) {copies n : ℕ} :
    (List.replicate copies (funcs.map (List.drop n))).flatten.Perm funcs ↔ funcs = [] ∨ copies = 1 ∧ n = 0 := by
  constructor
  · intro hperm
    by_cases hnil : funcs = []
    · exact .inl hnil
    have hpos : 0 < funcs.length := List.length_pos_iff.mpr hnil
    have hlen := hperm.length_eq
    rw [List.length_flatten, List.map_replicate, List.sum_replicate, List.length_map, smul_eq_mul] at hlen
    have hcopies : copies = 1 := Nat.eq_of_mul_eq_mul_right hpos (hlen.trans (Nat.one_mul _).symm)
    refine .inr ⟨hcopies, ?_⟩
    subst hcopies
    rw [List.replicate_one, List.flatten_singleton] at hperm
    by_contra hn
    have hsum := (hperm.map List.length).sum_eq
    rw [List.map_map] at hsum
    have hlt : (funcs.map (List.length ∘ List.drop n)).sum < (funcs.map List.length).sum := by
      refine List.sum_lt_sum_of_ne_nil hnil _ _ fun func hfunc => ?_
      have := List.length_pos_iff.mpr (hne func hfunc)
      rw [Function.comp, List.length_drop]
      omega
    omega
  · rintro (rfl | ⟨rfl, rfl⟩)
    · simp
    · have hdrop : (List.drop 0 : Str → Str) = id := rfl
      rw [List.replicate_one, List.flatten_singleton, hdrop, List.map_id]

/-- The lists of the copies of one text. -/
theorem flatten_picks {β : Type*} {d : Str} {xs ys : List β} (h : xs.Perm ys) (ds : List Str) :
    (ds.map fun a => if a = d then xs else []).flatten.Perm (List.replicate (ds.count d) ys).flatten := by
  induction ds with
  | nil => simp
  | cons a ds ih =>
    rw [List.map_cons, List.flatten_cons]
    by_cases ha : a = d
    · rw [if_pos ha, ha, List.count_cons_self, List.replicate_succ, List.flatten_cons]
      exact h.append ih
    · rw [if_neg ha, List.count_cons_of_ne ha, List.nil_append]
      exact ih

/-- A function that returns on each element. -/
theorem mapM_eq_some {α β : Type*} {f : α → Option β} {g : α → β} {l : List α} (h : ∀ a ∈ l, f a = some (g a)) :
    l.mapM f = some (l.map g) := by
  induction l with
  | nil => rfl
  | cons a l ih =>
    obtain ⟨ha, hl⟩ := List.forall_mem_cons.mp h
    rw [List.mapM_cons, ha, ih hl]
    rfl

variable {fs : Glob.Disk} {log_d : Str} {fn_dic : FnDic P}

/-- The names of the files of a directory, cut. -/
theorem fops_join {func : Str} (hfunc : Identifier func) :
    fops log_d (Glob.join (directory log_d) (file_name func PICKLE_NAME)) = func.drop (off log_d) := by
  have hslash : '/' ∉ func := hfunc.notMem (by decide) (by decide)
  rw [join_file_name _ hslash (by decide)]
  refine fops_file_name ?_ func
  by_cases hlast : log_d = [] ∨ log_d.getLast? = some '/'
  · exact (length_slashed_directory_le hlast).trans (Nat.le_succ _)
  · rw [not_or] at hlast
    exact (length_slashed_directory hlast.1 hlast.2).le

/-- **What `check_all` finds**: for each time the directory is found, the functions, cut. -/
theorem generate_fops_eq (hnamed : Named fn_dic) (h : Written fs log_d fn_dic) :
    (Glob.dirsOf fs (directory log_d) = none → generate_fops fs log_d = none) ∧
      ∀ dirs, Glob.dirsOf fs (directory log_d) = some dirs → ∃ funcs, generate_fops fs log_d = some funcs ∧
        funcs.Perm (List.replicate (dirs.count (directory log_d)) ((functions fn_dic).map (List.drop (off log_d)))).flatten := by
  have hglob : all_pickles fs log_d = do
      let dirs ← Glob.dirsOf fs (directory log_d)
      let pieces ← dirs.mapM (Glob.globIn fs "*.p".toList)
      return pieces.flatten := Glob.glob_join fs log_d (by decide) (by decide)
  refine ⟨fun hnone => ?_, fun dirs hdirs => ?_⟩
  · rw [generate_fops, hglob, hnone]
    rfl
  · obtain ⟨names, hnames, hperm⟩ := h.listed
    let found : List Str := names.filter (Glob.HasSuffix ".p".toList)
    have hin : ∀ dir ∈ dirs, Glob.globIn fs "*.p".toList dir =
        some (if dir = directory log_d then found.map (Glob.join (directory log_d)) else []) := fun dir hdir => by
      have hone : Glob.glob1 fs dir "*.p".toList = some (((Glob.namesIn fs dir).getD []).filter (Glob.HasSuffix ".p".toList)) :=
        Glob.glob1_suffix fs dir (by decide)
      rw [Glob.globIn, if_pos (by decide), hone, Option.map_some]
      split_ifs with heq
      · rw [heq, hnames]
        rfl
      · have hnil : ((Glob.namesIn fs dir).getD []).filter (Glob.HasSuffix ".p".toList) = [] :=
          List.filter_eq_nil_iff.mpr fun name hname => by simpa using h.elsewhere dirs hdirs dir hdir heq name hname
        rw [hnil, List.map_nil]
    have hmap : dirs.mapM (Glob.globIn fs "*.p".toList) =
        some (dirs.map fun dir => if dir = directory log_d then found.map (Glob.join (directory log_d)) else []) := mapM_eq_some hin
    have hfound : generate_fops fs log_d = some ((dirs.map fun dir =>
        if dir = directory log_d then found.map (Glob.join (directory log_d)) else []).flatten.map (fops log_d)) := by
      rw [generate_fops, hglob, hdirs, Option.bind_eq_bind, Option.bind_some, hmap]
      rfl
    refine ⟨_, hfound, ?_⟩
    have hcut : (found.map fun name => fops log_d (Glob.join (directory log_d) name)).Perm
        ((functions fn_dic).map (List.drop (off log_d))) := by
      refine (hperm.map _).trans (List.Perm.of_eq ?_)
      rw [List.map_map]
      exact List.map_congr_left fun func hfunc => fops_join (hnamed.identifier func hfunc)
    have heq : ((dirs.map fun dir =>
        if dir = directory log_d then found.map (Glob.join (directory log_d)) else []).flatten.map (fops log_d)) =
        (dirs.map fun dir => if dir = directory log_d then
          found.map fun name => fops log_d (Glob.join (directory log_d) name) else []).flatten := by
      rw [List.map_flatten, List.map_map]
      refine congrArg List.flatten (List.map_congr_left fun dir _ => ?_)
      rw [Function.comp]
      split_ifs
      · rw [List.map_map]
        rfl
      · rfl
    rw [heq]
    exact flatten_picks hcut dirs

/-- **The names of stored functions survive** exactly when the log directory's text is not empty, has no slash at the end,
and is found under itself once. -/
theorem names_survive_iff {fs : Glob.Disk} {log_d : Str} {fn_dic : FnDic P} (hnamed : Named fn_dic)
    (h : Written fs log_d fn_dic) (before : Files P) :
    ∃ files, PathBin.save_as_pickle (Glob.slashed log_d) PICKLE_NAME fn_dic before = some files ∧
      (Survive fs log_d fn_dic files ↔ FoundUnder fs log_d fn_dic) := by
  have hsome : ∀ e ∈ fn_dic, ∃ func ∈ functions fn_dic, e.1 = some func := fun e he => by
    have hmem : e.1 ∈ fn_dic.keys := List.mem_map_of_mem he
    rw [hnamed.named] at hmem
    obtain ⟨func, hfunc, heq⟩ := List.mem_map.mp hmem
    exact ⟨func, hfunc, heq.symm⟩
  have hkeys : ∀ e ∈ fn_dic, e.1 ≠ none := fun e he => by
    obtain ⟨func, -, heq⟩ := hsome e he
    rw [heq]
    exact Option.some_ne_none func
  obtain ⟨files, hsave, hfiles, -⟩ := @save_spec P (Glob.slashed log_d) PICKLE_NAME (by decide) fn_dic hnamed.nodup hkeys before
  refine ⟨files, hsave, ?_⟩
  obtain ⟨hnone, hrun⟩ := generate_fops_eq hnamed h
  have hne : ∀ func ∈ functions fn_dic, func ≠ [] := fun func hfunc => (hnamed.identifier func hfunc).1
  constructor
  · rintro ⟨⟨funcs, hfops, hperm⟩, -, -⟩
    cases hdirs : Glob.dirsOf fs (directory log_d) with
    | none =>
      rw [hnone hdirs] at hfops
      cases hfops
    | some dirs =>
      obtain ⟨funcs', hfops', hcopies⟩ := hrun dirs hdirs
      obtain rfl := Option.some.inj (hfops.symm.trans hfops')
      refine ⟨dirs, hdirs, ((perm_copies_iff hne).mp (hcopies.symm.trans hperm)).imp_right fun ⟨hcount, hoff⟩ => ?_⟩
      obtain ⟨hnil, hlast⟩ := off_eq_zero_iff.mp hoff
      rw [directory_of_last hnil hlast] at hcount
      exact ⟨hnil, hlast, hcount⟩
  · rintro ⟨dirs, hdirs, hcond⟩
    obtain ⟨funcs, hfops, hcopies⟩ := hrun dirs hdirs
    have hperm : funcs.Perm (functions fn_dic) := by
      refine hcopies.trans ((perm_copies_iff hne).mpr (hcond.imp_right fun ⟨hnil, hlast, hcount⟩ => ?_))
      exact ⟨by rw [directory_of_last hnil hlast]; exact hcount, off_eq_zero_iff.mpr ⟨hnil, hlast⟩⟩
    refine ⟨⟨funcs, hfops, hperm⟩, fun e he => ?_, fun piece dir func hfunc => ?_⟩
    · obtain ⟨func, hfunc, heq⟩ := hsome e he
      refine ⟨funcs, func, hfops, hperm.mem_iff.mpr hfunc, heq, hfiles func e.2 ?_⟩
      rw [← heq]
      exact Dict.get?_of_mem hnamed.nodup he
    · have hid := hnamed.identifier func hfunc
      have hslash : '/' ∉ piece.get_pickle_name := piece.notMem_name (by decide) (by decide) rfl
      rw [join_file_name dir (hid.notMem (by decide) (by decide)) hslash]
      exact func_p_name _ _ (hid.notMem (by decide) (by decide))

/-- A log directory with the file of one function. -/
def oneFile : Glob.Disk where
  listdir dirname := if dirname = "out".toList then some ["pathbin.f.p".toList, "a.log".toList] else none
  isdir dirname := dirname = "out".toList
  lexists path := path = "out".toList

/-- The database of one function. -/
def oneFunction : FnDic Unit := [(some ['f'], [(none, [()])])]

theorem named_oneFunction : Named oneFunction where
  named := rfl
  identifier := List.forall_mem_singleton.mpr ⟨by decide, List.forall_mem_singleton.mpr (.inl rfl)⟩
  nodup := by decide

/-- A text of the directory, with or without a slash. -/
theorem written_oneFile {log_d : Str} (hdir : directory log_d = "out".toList) : Written oneFile log_d oneFunction where
  listed := ⟨_, by rw [hdir]; rfl, List.Perm.of_eq (by decide)⟩
  elsewhere := by
    intro dirs hdirs dir hmem hne
    rw [hdir] at hdirs hne
    obtain rfl := Option.some.inj (hdirs : some _ = some dirs)
    exact absurd (List.mem_singleton.mp hmem) hne

theorem names_survive_iff_oneFile : ∃ files,
    PathBin.save_as_pickle "out/".toList PICKLE_NAME oneFunction (fun _ => none) = some files ∧
      Survive oneFile "out".toList oneFunction files := by
  have hdir : directory "out".toList = "out".toList := by decide
  obtain ⟨files, hsave, hiff⟩ := names_survive_iff named_oneFunction (written_oneFile hdir) fun _ => none
  refine ⟨files, hsave, hiff.mpr ⟨["out".toList], ?_, .inr ⟨by decide, by decide, by decide⟩⟩⟩
  rw [hdir]
  rfl

/-- With a slash at the end of the log directory the first character of each function is cut off. -/
theorem not_names_survive : ¬ ∀ (fs : Glob.Disk) (log_d : Str) (fn_dic : FnDic Unit) (before : Files Unit), Named fn_dic →
    Written fs log_d fn_dic → ∃ files,
      PathBin.save_as_pickle (Glob.slashed log_d) PICKLE_NAME fn_dic before = some files ∧ Survive fs log_d fn_dic files := by
  intro hall
  have hdir : directory "out/".toList = "out".toList := by decide
  obtain ⟨files, -, ⟨funcs, hfops, hperm⟩, -, -⟩ :=
    hall oneFile "out/".toList oneFunction (fun _ => none) named_oneFunction (written_oneFile hdir)
  have hdirs : Glob.dirsOf oneFile (directory "out/".toList) = some ["out".toList] := by
    rw [hdir]
    rfl
  obtain ⟨funcs', hfops', hcut⟩ := (generate_fops_eq named_oneFunction (written_oneFile hdir)).2 _ hdirs
  obtain rfl := Option.some.inj (hfops.symm.trans hfops')
  exact absurd (hperm.symm.trans hcut) (by decide)

end SEDiff.Juxta

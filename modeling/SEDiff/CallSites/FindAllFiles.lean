import SEDiff.Foundation.Text
import Mathlib.Data.List.Nodup

/-!
# Finding the files of an application

`FindAllFiles` of `visitor.php` collects the PHP files below a directory. It reads the entries of a directory until `readdir`
returns something that counts as false, which an entry that is named `0` does too.

## What is proved

* `mem_FindAllFiles` — a file is found when every directory above it lists the way to it before an entry `0`.
* `finds_iff` — so the PHP files are found, each once, exactly when this holds of all of them.
-/

namespace SEDiff.CallSites

open Foundation

/-- A file, or a directory with its entries in the order of `readdir`; those named `.` and `..` have no node of their own. -/
inductive Node
  /-- A file. -/
  | file
  /-- A directory. -/
  | dir (entries : List (Str × Node))

/-- `is_dir`. -/
def Node.is_dir : Node → Bool
  | .file => false
  | .dir _ => true

/-- Whether a string counts as true. -/
def truthy (s : Str) : Prop := s ≠ [] ∧ s ≠ ['0']

instance (s : Str) : Decidable (truthy s) := inferInstanceAs (Decidable (_ ∧ _))

/-- `$Entry == '.' or $Entry == '..'`. -/
def IsDots (Entry : Str) : Prop := Entry = ['.'] ∨ Entry = ['.', '.']

instance (Entry : Str) : Decidable (IsDots Entry) := inferInstanceAs (Decidable (_ ∨ _))

/-- `substr($Entry, -4) == '.php'`. -/
def IsPhp (Entry : Str) : Prop := Entry.drop (Entry.length - 4) = ".php".toList

instance (Entry : Str) : Decidable (IsPhp Entry) := inferInstanceAs (Decidable (_ = _))

mutual

/-- `FindAllFiles`. -/
def FindAllFiles (Path : Str) : Node → List Str
  | .file => [Path]
  | .dir handle => readAll Path handle

/-- The loop over the entries of `$Path`. -/
def readAll (Path : Str) : List (Str × Node) → List Str
  | [] => []
  | (Entry, node) :: handle =>
    if truthy Entry then
      if IsDots Entry then readAll Path handle
      else if node.is_dir = false then
        (if IsPhp Entry then [Path ++ '/' :: Entry] else []) ++ readAll Path handle
      else FindAllFiles (Path ++ '/' :: Entry) node ++ readAll Path handle
    else []

end

/-! ### Directory trees -/

/-- What is proved of a directory from what holds of its entries. -/
theorem Node.tree_induction {motive : Node → Prop} (file : motive .file)
    (dir : ∀ entries, (∀ e ∈ entries, motive e.2) → motive (.dir entries)) (n : Node) : motive n := by
  refine @Node.rec motive (fun entries => ∀ e ∈ entries, motive e.2) (fun e => motive e.2) file dir ?_ ?_ ?_ n
  · simp
  · intro e entries he ih
    simp only [List.forall_mem_cons]
    exact ⟨he, ih⟩
  · exact fun _ _ ih => ih

/-- A file name: not empty, and without a slash. -/
def IsEntry (s : Str) : Prop := s ≠ [] ∧ '/' ∉ s

/-- **A directory tree**: every directory has entries of different names. -/
inductive Node.WF : Node → Prop
  /-- A file. -/
  | file : Node.file.WF
  /-- A directory. -/
  | dir {entries : List (Str × Node)} (names : ∀ e ∈ entries, IsEntry e.1) (nodup : (entries.map Prod.fst).Nodup)
      (nodes : ∀ e ∈ entries, ¬ IsDots e.1 → e.2.WF) : (Node.dir entries).WF

/-- The node under some names, one directory after the other. -/
inductive Node.At : Node → List Str → Node → Prop
  /-- The node itself. -/
  | here (n : Node) : n.At [] n
  /-- Below an entry. -/
  | entry {entries : List (Str × Node)} {Entry : Str} {child n : Node} {names : List Str} (mem : (Entry, child) ∈ entries)
      (dots : ¬ IsDots Entry) (rest : child.At names n) : (Node.dir entries).At (Entry :: names) n

/-- The entries that the loop reads. -/
def beforeZero (entries : List (Str × Node)) : List (Str × Node) := entries.takeWhile fun e => e.1 ≠ ['0']

/-- The node under some names, where every directory lists the name before an entry `0`. -/
inductive Node.Reached : Node → List Str → Node → Prop
  /-- The node itself. -/
  | here (n : Node) : n.Reached [] n
  /-- Below an entry. -/
  | entry {entries : List (Str × Node)} {Entry : Str} {child n : Node} {names : List Str}
      (mem : (Entry, child) ∈ beforeZero entries) (dots : ¬ IsDots Entry) (rest : child.Reached names n) :
      (Node.dir entries).Reached (Entry :: names) n

theorem Node.Reached.at {n m : Node} {names : List Str} (h : n.Reached names m) : n.At names m := by
  induction h with
  | here n => exact .here n
  | entry mem dots _ ih => exact .entry ((List.takeWhile_sublist _).subset mem) dots ih

/-- The full path of what has these names below `Path`. -/
def fullPath (Path : Str) (names : List Str) : Str := Path ++ names.flatMap ('/' :: ·)

/-- The last of the names ends in `.php`. -/
def EndsInPhp (names : List Str) : Prop := ∃ Entry, names.getLast? = some Entry ∧ ".php".toList <:+ Entry

/-- **The PHP files are found**: each once, with its full path, and nothing else. -/
def Finds (Path : Str) (n : Node) : Prop :=
  (FindAllFiles Path n).Nodup ∧
    ∀ file, file ∈ FindAllFiles Path n ↔ ∃ names, n.At names .file ∧ EndsInPhp names ∧ file = fullPath Path names

/-! ### Paths -/

theorem fullPath_cons (Path Entry : Str) (names : List Str) :
    fullPath Path (Entry :: names) = fullPath (Path ++ '/' :: Entry) names := by simp [fullPath]

theorem Node.At.noSlash {n m : Node} (hn : n.WF) {names : List Str} (h : n.At names m) : ∀ s ∈ names, '/' ∉ s := by
  induction h with
  | here n => simp
  | entry mem dots _ ih =>
    cases hn with
    | dir hnames _ hnodes =>
      simp only [List.forall_mem_cons]
      exact ⟨(hnames _ mem).2, ih (hnodes _ mem dots)⟩

/-- The names can be read off the path. -/
theorem flatMap_slash_inj {names others : List Str} (hnames : ∀ s ∈ names, '/' ∉ s) (hothers : ∀ s ∈ others, '/' ∉ s)
    (h : names.flatMap ('/' :: ·) = others.flatMap ('/' :: ·)) : names = others := by
  have hread : ∀ {s : Str} (rest : List Str), '/' ∉ s → (s ++ rest.flatMap ('/' :: ·)).takeWhile (· ≠ '/') = s := by
    intro s rest hs
    rw [List.takeWhile_append_of_pos fun c hc => by simpa using ne_of_mem_of_not_mem hc hs]
    cases rest <;> simp
  induction names generalizing others with
  | nil =>
    cases others with
    | nil => rfl
    | cons b others => simp at h
  | cons a names ih =>
    cases others with
    | nil => simp at h
    | cons b others =>
      obtain ⟨ha, hnames⟩ := List.forall_mem_cons.mp hnames
      obtain ⟨hb, hothers'⟩ := List.forall_mem_cons.mp hothers
      simp only [List.flatMap_cons, List.cons_append, List.cons.injEq, true_and] at h
      have hab : a = b := by rw [← hread names ha, h, hread others hb]
      subst hab
      have hrest : names = others := ih hnames hothers' (List.append_cancel_left h)
      rw [hrest]

theorem fullPath_inj {Path : Str} {names others : List Str} (hnames : ∀ s ∈ names, '/' ∉ s) (hothers : ∀ s ∈ others, '/' ∉ s)
    (h : fullPath Path names = fullPath Path others) : names = others :=
  flatMap_slash_inj hnames hothers (List.append_cancel_left h)

/-! ### One directory -/

theorem isPhp_iff (Entry : Str) : IsPhp Entry ↔ ".php".toList <:+ Entry := by
  rw [IsPhp, List.suffix_iff_eq_drop]
  exact eq_comm

/-- What an entry adds to the list. -/
def found (Path : Str) (e : Str × Node) : List Str :=
  if IsDots e.1 then []
  else if e.2.is_dir = false then if IsPhp e.1 then [Path ++ '/' :: e.1] else []
  else FindAllFiles (Path ++ '/' :: e.1) e.2

/-- The loop ends at an entry `0`. -/
theorem readAll_eq (Path : Str) {entries : List (Str × Node)} (hnames : ∀ e ∈ entries, IsEntry e.1) :
    readAll Path entries = (beforeZero entries).flatMap (found Path) := by
  induction entries with
  | nil => rfl
  | cons e entries ih =>
    obtain ⟨he, hnames⟩ := List.forall_mem_cons.mp hnames
    have ih := ih hnames
    rw [readAll, beforeZero]
    by_cases hzero : e.1 = ['0']
    · simp [truthy, hzero]
    · rw [if_pos ⟨he.1, hzero⟩, List.takeWhile_cons_of_pos (by simpa using hzero), List.flatMap_cons, ← beforeZero, ih, found]
      split_ifs <;> simp

/-! ### The whole tree -/

/-- **What is found**: the files that are reached. -/
theorem mem_FindAllFiles {n : Node} (hn : n.WF) (hdir : n.is_dir = true) (Path file : Str) :
    file ∈ FindAllFiles Path n ↔ ∃ names, n.Reached names .file ∧ EndsInPhp names ∧ file = fullPath Path names := by
  induction n using Node.tree_induction generalizing Path file with
  | file => cases hdir
  | dir entries ih =>
    cases hn with
    | dir hnames _ hnodes =>
      rw [FindAllFiles, readAll_eq Path hnames]
      simp only [List.mem_flatMap]
      constructor
      · rintro ⟨⟨Entry, child⟩, hmem, hfile⟩
        have hentry : (Entry, child) ∈ entries := (List.takeWhile_sublist _).subset hmem
        simp only [found] at hfile
        split_ifs at hfile with hdots hchild hphp
        · simp at hfile
        · cases child with
          | dir _ => cases hchild
          | file =>
            refine ⟨[Entry], .entry hmem hdots (.here _), ⟨Entry, rfl, (isPhp_iff Entry).mp hphp⟩, ?_⟩
            simpa [fullPath] using hfile
        · simp at hfile
        · obtain ⟨names, hreached, ⟨last, hlast, hend⟩, rfl⟩ :=
            (ih _ hentry (hnodes _ hentry hdots) (by simpa using hchild) _ _).mp hfile
          refine ⟨Entry :: names, .entry hmem hdots hreached, ⟨last, ?_, hend⟩, (fullPath_cons _ _ _).symm⟩
          rw [List.getLast?_cons, hlast]
          rfl
      · rintro ⟨names, hreached, ⟨last, hlast, hend⟩, rfl⟩
        cases hreached with
        | @entry _ Entry child _ names hmem hdots hrest =>
          have hentry : (Entry, child) ∈ entries := (List.takeWhile_sublist _).subset hmem
          refine ⟨(Entry, child), hmem, ?_⟩
          simp only [found]
          rw [if_neg hdots]
          cases hrest with
          | here =>
            obtain rfl : Entry = last := by simpa using hlast
            simp [Node.is_dir, (isPhp_iff Entry).mpr hend, fullPath]
          | @entry entries' Entry' child' _ names' hmem' hdots' hrest' =>
            rw [if_neg (by simp [Node.is_dir]), fullPath_cons]
            have hlast' : (Entry' :: names').getLast? = some last := by rwa [List.getLast?_cons_cons] at hlast
            exact (ih _ hentry (hnodes _ hentry hdots) rfl _ _).mpr
              ⟨Entry' :: names', .entry hmem' hdots' hrest', ⟨last, hlast', hend⟩, rfl⟩

/-- Nothing is found twice. -/
theorem nodup_FindAllFiles {n : Node} (hn : n.WF) (Path : Str) : (FindAllFiles Path n).Nodup := by
  induction n using Node.tree_induction generalizing Path with
  | file => simp [FindAllFiles]
  | dir entries ih =>
    have hdir := hn
    cases hn with
    | dir hnames hnodup hnodes =>
      rw [FindAllFiles, readAll_eq Path hnames]
      have hsub : (beforeZero entries).Sublist entries := List.takeWhile_sublist _
      -- what an entry adds starts with its name
      have hfirst : ∀ e ∈ beforeZero entries, ∀ file ∈ found Path e, ∃ names, (∀ s ∈ e.1 :: names, '/' ∉ s) ∧
          file = fullPath Path (e.1 :: names) := by
        intro e he file hfile
        have hmem := hsub.subset he
        simp only [found] at hfile
        split_ifs at hfile with hdots hchild hphp
        · simp at hfile
        · exact ⟨[], by simpa using (hnames e hmem).2, by simpa [fullPath] using hfile⟩
        · simp at hfile
        · have hwf := hnodes e hmem hdots
          obtain ⟨names, hreached, -, rfl⟩ := (mem_FindAllFiles hwf (by simpa using hchild) _ _).mp hfile
          refine ⟨names, ?_, (fullPath_cons _ _ _).symm⟩
          simp only [List.forall_mem_cons]
          exact ⟨(hnames e hmem).2, hreached.at.noSlash hwf⟩
      refine List.nodup_flatMap.mpr ⟨fun e he => ?_, ?_⟩
      · simp only [found]
        split_ifs with hdots hchild hphp
        · exact List.nodup_nil
        · exact List.nodup_singleton _
        · exact List.nodup_nil
        · exact ih e (hsub.subset he) (hnodes e (hsub.subset he) hdots) _
      · have hpair : (beforeZero entries).Pairwise fun e e' => e.1 ≠ e'.1 :=
          (List.pairwise_map.mp hnodup).sublist hsub
        refine hpair.imp_of_mem fun he he' hne file hfile hfile' => hne ?_
        obtain ⟨names, hslash, rfl⟩ := hfirst _ he file hfile
        obtain ⟨names', hslash', heq⟩ := hfirst _ he' _ hfile'
        exact (List.cons.inj (fullPath_inj hslash hslash' heq)).1

/-- **`FindAllFiles` finds the PHP files** of a directory tree exactly when no directory lists the way to one of them at or
after an entry `0`. -/
theorem finds_iff {n : Node} (hn : n.WF) (hdir : n.is_dir = true) (Path : Str) :
    Finds Path n ↔ ∀ names, n.At names .file → EndsInPhp names → n.Reached names .file := by
  constructor
  · rintro ⟨-, hmem⟩ names hat hphp
    obtain ⟨others, hreached, -, heq⟩ :=
      (mem_FindAllFiles hn hdir Path _).mp ((hmem (fullPath Path names)).mpr ⟨names, hat, hphp, rfl⟩)
    obtain rfl := fullPath_inj (hat.noSlash hn) (hreached.at.noSlash hn) heq
    exact hreached
  · intro hall
    refine ⟨nodup_FindAllFiles hn Path, fun file => ?_⟩
    rw [mem_FindAllFiles hn hdir]
    constructor
    · rintro ⟨names, hreached, hphp, rfl⟩
      exact ⟨names, hreached.at, hphp, rfl⟩
    · rintro ⟨names, hat, hphp, rfl⟩
      exact ⟨names, hall names hat hphp, hphp, rfl⟩

/-- Two PHP files around a directory `0` that holds a third. -/
def aroundZero : Node :=
  .dir [(['.'], .file), ("a.php".toList, .file), (['0'], .dir [("b.php".toList, .file)]), ("c.php".toList, .file)]

theorem aroundZero_wf : aroundZero.WF := by
  have hinner : (Node.dir [("b.php".toList, .file)]).WF := by
    refine .dir (by simp [IsEntry]) (by simp) ?_
    simp only [List.forall_mem_singleton]
    exact fun _ => .file
  refine .dir (by simp [IsEntry]) (by decide) ?_
  simp only [List.forall_mem_cons]
  exact ⟨fun _ => .file, fun _ => .file, fun _ => hinner, fun _ => .file, nofun⟩

theorem finds_iff_aroundZero : Finds "app".toList aroundZero ↔
    ∀ names, aroundZero.At names .file → EndsInPhp names → aroundZero.Reached names .file :=
  finds_iff aroundZero_wf rfl "app".toList

/-- Only the file before the directory is found. -/
theorem not_finds : ¬ ∀ (n : Node) (Path : Str), n.WF → n.is_dir = true → Finds Path n := by
  intro h
  have hmem := (h aroundZero "app".toList aroundZero_wf rfl).2 "app/c.php".toList
  have hat : aroundZero.At ["c.php".toList] .file := .entry (by simp) (by decide) (.here _)
  have hphp : EndsInPhp ["c.php".toList] := ⟨"c.php".toList, rfl, by decide⟩
  exact absurd (hmem.mpr ⟨_, hat, hphp, rfl⟩) (by decide)

end SEDiff.CallSites

import SEDiff.Foundation.Cut

/-!
# Paths and patterns

`os.path.join` and `os.path.split` of Python on a POSIX system, and the modules `fnmatch` and `glob` over them. What is on the
disk is a parameter.

## What is proved

* `split_join` — a name that is joined to a directory is split off again, and the directory loses its trailing slashes.
* `matches_suffix` — `*` and plain characters after it match the names that end in these characters.
* `glob_join` — a pattern in a directory finds the names in the directories that are found under the directory's text.
-/

namespace SEDiff.Foundation.Glob

open Str

/-! ### Paths -/

/-- A directory before a name. -/
def slashed (a : Str) : Str := if a = [] ∨ a.getLast? = some '/' then a else a ++ ['/']

/-- `os.path.join`. -/
def join (a b : Str) : Str := if b.head? = some '/' then b else slashed a ++ b

/-- The trailing slashes are dropped, unless there is nothing else. -/
def trimmed (head : Str) : Str := if head.all (· = '/') then head else rstrip head (· = '/')

/-- `os.path.split`. -/
def split (p : Str) : Str × Str :=
  let i := match rfind p '/' with
    | some i => i + 1
    | none => 0
  (trimmed (p.take i), p.drop i)

theorem slashed_cases (a : Str) : slashed a = [] ∧ a = [] ∨ ∃ s, slashed a = s ++ ['/'] := by
  rw [slashed]
  split_ifs with h
  · rcases h with rfl | h
    · exact .inl ⟨rfl, rfl⟩
    · obtain ⟨s, rfl⟩ := List.getLast?_eq_some_iff.mp h
      exact .inr ⟨s, rfl⟩
  · exact .inr ⟨a, rfl⟩

theorem join_eq (a : Str) {b : Str} (hb : '/' ∉ b) : join a b = slashed a ++ b := by
  rw [join, if_neg fun h => hb (List.mem_of_head? h)]

/-- **A name is split off** the directory it was joined to. -/
theorem split_join (a : Str) {b : Str} (hb : '/' ∉ b) : split (join a b) = (trimmed (slashed a), b) := by
  rw [join_eq a hb, split]
  rcases slashed_cases a with ⟨hs, -⟩ | ⟨s, hs⟩
  · rw [hs, List.nil_append, rfind_eq_none_iff.mpr hb]
    rfl
  · rw [hs, List.append_assoc, List.singleton_append, rfind_append_cons s hb]
    have htake : (s ++ '/' :: b).take (s.length + 1) = s ++ ['/'] := by simp [List.take_append]
    have hdrop : (s ++ '/' :: b).drop (s.length + 1) = b := by simp [List.drop_append]
    simp only [htake, hdrop]

theorem isPrefix_trimmed (s : Str) : trimmed s <+: s := by
  rw [trimmed]
  split_ifs
  · exact List.prefix_refl s
  · exact List.rdropWhile_prefix _ _

theorem isPrefix_split (p : Str) : (split p).1 <+: p := (isPrefix_trimmed _).trans (List.take_prefix _ _)

theorem length_split {p : Str} (hne : (split p).1 ≠ p) : (split p).1.length < p.length :=
  lt_of_le_of_ne (isPrefix_split p).length_le fun h => hne ((isPrefix_split p).eq_of_length h)

/-! ### Patterns -/

/-- What a pattern is made of. -/
inductive Item
  /-- `*`. -/
  | many
  /-- `?`. -/
  | one
  /-- `[...]`, and `[!...]` when `negated`. -/
  | set (negated : Bool) (ranges : List (Char × Char))
  /-- A plain character. -/
  | char (c : Char)

/-- The ranges between brackets; one that is upside down is an error. -/
def ranges : Str → Option (List (Char × Char))
  | [] => some []
  | c :: '-' :: d :: s => if d < c then none else (ranges s).map ((c, d) :: ·)
  | c :: s => (ranges s).map ((c, c) :: ·)

/-- What is between brackets. -/
def set : Str → Option Item
  | '!' :: s => (ranges s).map (.set true)
  | s => (ranges s).map (.set false)

/-- What is before and after the closing bracket, which does not come first. -/
def closing (s : Str) : Option (Str × Str) :=
  let n := if s.head? = some '!' then 1 else 0
  let n := if (s.drop n).head? = some ']' then n + 1 else n
  (partition ']' (s.drop n)).map fun p => (s.take n ++ p.1, p.2)

theorem length_of_closing {s stuff rest : Str} (h : closing s = some (stuff, rest)) : rest.length < s.length := by
  obtain ⟨⟨a, b⟩, hp, heq⟩ := Option.map_eq_some_iff.mp h
  cases heq
  exact (length_of_partition hp).trans_le (by rw [List.length_drop]; exact Nat.sub_le _ _)

/-- `fnmatch.translate`. -/
def translate : Str → Option (List Item)
  | [] => some []
  | c :: s =>
    if c = '*' then (translate s).map (.many :: ·)
    else if c = '?' then (translate s).map (.one :: ·)
    else if c = '[' then
      match h : closing s with
      | none => (translate s).map (.char '[' :: ·)
      | some (stuff, rest) => do
        have := length_of_closing h
        return (← set stuff) :: (← translate rest)
    else (translate s).map (.char c :: ·)
  termination_by s => s.length

/-- Whether a name matches. -/
def matchItems : List Item → Str → Bool
  | [], s => s = []
  | .many :: items, s => s.tails.any (matchItems items)
  | .one :: _, [] => false
  | .one :: items, _ :: s => matchItems items s
  | .set _ _ :: _, [] => false
  | .set negated ranges :: items, c :: s =>
    (negated ^^ ranges.any fun r => r.1 ≤ c ∧ c ≤ r.2) && matchItems items s
  | .char _ :: _, [] => false
  | .char c :: items, d :: s => c = d && matchItems items s

/-- Characters that stand for others. -/
def isMagic (c : Char) : Bool := c = '*' ∨ c = '?' ∨ c = '['

/-- `has_magic`. -/
def has_magic (s : Str) : Bool := s.any isMagic

theorem translate_plain {s : Str} (hs : has_magic s = false) : translate s = some (s.map .char) := by
  induction s with
  | nil => rw [translate, List.map_nil]
  | cons c s ih =>
    simp only [has_magic, List.any_cons, Bool.or_eq_false_iff, isMagic, decide_eq_false_iff_not, not_or] at hs ih
    rw [translate, if_neg hs.1.1, if_neg hs.1.2.1, if_neg hs.1.2.2, ih hs.2]
    rfl

theorem matchItems_plain (s t : Str) : matchItems (s.map .char) t = decide (t = s) := by
  induction s generalizing t with
  | nil => rw [List.map_nil, matchItems]
  | cons c s ih =>
    cases t with
    | nil => simp [matchItems]
    | cons d t =>
      rw [List.map_cons, matchItems, ih]
      simp [eq_comm]

/-- **Plain characters after `*`** match the names that end in them. -/
theorem matches_suffix (s t : Str) : matchItems (.many :: s.map .char) t = decide (s <:+ t) := by
  rw [matchItems, Bool.eq_iff_iff]
  simp only [List.any_eq_true, List.mem_tails, matchItems_plain, decide_eq_true_eq]
  exact ⟨fun ⟨u, hu, heq⟩ => heq ▸ hu, fun h => ⟨s, h, rfl⟩⟩

/-! ### Finding -/

/-- What is on a disk. -/
structure Disk where
  /-- `os.listdir`, where an error is `none`. -/
  listdir : Str → Option (List Str)
  /-- `os.path.isdir`. -/
  isdir : Str → Bool
  /-- `os.path.lexists`. -/
  lexists : Str → Bool

/-- `os.curdir`. -/
def curdir : Str := ['.']

/-- Hidden names are found by patterns for them. -/
def visible (pattern : Str) (name : Str) : Bool := pattern.head? = some '.' || !(name.head? = some '.')

/-- The names in a directory. -/
def namesIn (fs : Disk) (dirname : Str) : Option (List Str) := fs.listdir (if dirname = [] then curdir else dirname)

/-- The names in a directory that match. -/
def glob1 (fs : Disk) (dirname pattern : Str) : Option (List Str) :=
  match namesIn fs dirname with
  | none => some []
  | some names => (translate pattern).map fun items => (names.filter (visible pattern)).filter (matchItems items)

/-- A name in a directory. -/
def glob0 (fs : Disk) (dirname basename : Str) : List Str :=
  if basename = [] then if fs.isdir dirname then [basename] else []
  else if fs.lexists (join dirname basename) then [basename] else []

/-- The paths in a directory that match. -/
def globIn (fs : Disk) (basename dirname : Str) : Option (List Str) :=
  (if has_magic basename then glob1 fs dirname basename else some (glob0 fs dirname basename)).map (·.map (join dirname))

/-- `glob.glob`; a pattern that is no regular expression raises. -/
def glob (fs : Disk) (pathname : Str) : Option (List Str) :=
  if has_magic pathname = false then
    if (split pathname).2 ≠ [] then some (if fs.lexists pathname then [pathname] else [])
    else some (if fs.isdir (split pathname).1 then [pathname] else [])
  else if (split pathname).1 = [] then glob1 fs curdir (split pathname).2
  else do
    let dirs ←
      if h : (split pathname).1 ≠ pathname ∧ has_magic (split pathname).1 = true then
        have := length_split h.1
        glob fs (split pathname).1
      else some [(split pathname).1]
    let pieces ← dirs.mapM (globIn fs (split pathname).2)
    return pieces.flatten
  termination_by pathname.length

/-- The directories that are found under the text of a directory. -/
def dirsOf (fs : Disk) (dirname : Str) : Option (List Str) :=
  if has_magic dirname then glob fs dirname else some [dirname]

theorem has_magic_append (s t : Str) : has_magic (s ++ t) = (has_magic s || has_magic t) := List.any_append

/-- Names with a suffix, but for hidden ones. -/
def HasSuffix (s name : Str) : Prop := name.head? ≠ some '.' ∧ s <:+ name

instance (s name : Str) : Decidable (HasSuffix s name) := inferInstanceAs (Decidable (_ ∧ _))

/-- **A star before a suffix** finds the names with the suffix. -/
theorem glob1_suffix (fs : Disk) (dirname : Str) {s : Str} (hs : has_magic s = false) :
    glob1 fs dirname ('*' :: s) = some (((namesIn fs dirname).getD []).filter (HasSuffix s)) := by
  rw [glob1]
  cases namesIn fs dirname with
  | none => rfl
  | some names =>
    have htranslate : translate ('*' :: s) = some (.many :: s.map .char) := by
      rw [translate, if_pos rfl, translate_plain hs]
      rfl
    simp only [htranslate, Option.map_some, List.filter_filter, Option.getD_some]
    refine congrArg some (List.filter_congr fun name _ => ?_)
    rw [matches_suffix, visible, Bool.eq_iff_iff]
    simp [HasSuffix, and_comm]

/-- A pattern is looked for in the directories that are found. -/
theorem glob_eq (fs : Disk) {pathname : Str} (hmagic : has_magic pathname = true) (hdir : (split pathname).1 ≠ [])
    (hne : (split pathname).1 ≠ pathname) : glob fs pathname = do
      let dirs ← dirsOf fs (split pathname).1
      let pieces ← dirs.mapM (globIn fs (split pathname).2)
      return pieces.flatten := by
  rw [glob, if_neg (by rw [hmagic]; simp), if_neg hdir, dirsOf]
  by_cases hdirMagic : has_magic (split pathname).1 = true
  · rw [dif_pos ⟨hne, hdirMagic⟩, if_pos hdirMagic]
  · rw [dif_neg fun h => hdirMagic h.2, if_neg hdirMagic]

theorem join_nil (name : Str) : join [] name = name := ite_self _

/-- **A pattern in a directory** finds names in the directories that are found under its text. -/
theorem glob_join (fs : Disk) (a : Str) {b : Str} (hb : '/' ∉ b) (hmagic : has_magic b = true) :
    glob fs (join a b) = do
      let dirs ← dirsOf fs (trimmed (slashed a))
      let pieces ← dirs.mapM (globIn fs b)
      return pieces.flatten := by
  have hjoin : has_magic (join a b) = true := by rw [join_eq a hb, has_magic_append, hmagic, Bool.or_true]
  have hbne : b ≠ [] := by
    rintro rfl
    cases hmagic
  have hdir : (split (join a b)).1 = trimmed (slashed a) := by rw [split_join a hb]
  have hname : (split (join a b)).2 = b := by rw [split_join a hb]
  by_cases hnil : trimmed (slashed a) = []
  · have hself : List.map (join []) = id := funext fun names => by
      rw [show join [] = id from funext join_nil, List.map_id, id]
    have hdirs : dirsOf fs [] = some [[]] := rfl
    have hglob : globIn fs b [] = glob1 fs curdir b := by
      rw [globIn, if_pos hmagic, hself, Option.map_id]
      rfl
    rw [glob, if_neg (by rw [hjoin]; simp), if_pos (hdir.trans hnil), hname, hnil, hdirs]
    simp only [Option.bind_eq_bind, Option.bind_some, List.mapM_cons, List.mapM_nil, hglob]
    cases glob1 fs curdir b with
    | none => rfl
    | some names => simp
  · have hne : trimmed (slashed a) ≠ join a b := fun heq => by
      have hlen := (isPrefix_trimmed (slashed a)).length_le
      rw [heq, join_eq a hb, List.length_append] at hlen
      exact hbne (List.length_eq_zero_iff.mp (by omega))
    rw [glob_eq fs hjoin (hdir ▸ hnil) (hdir ▸ hne), hdir, hname]

end SEDiff.Foundation.Glob

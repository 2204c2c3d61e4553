import SEDiff.Foundation.Numerals
import SEDiff.Juxta.Statements

/-!
# Locations

How a location gets from the static report to the fuzzer: `PathStore` takes it from a store, `CrossCheckers.report`
writes it to a file, `readFavoredBBList` of `afl-llvm-pass.so.cc` reads it back, and `checkFavorBB` compares it with
the debug locations of a block.

## What is proved

* `init_loc` — the location that `PathStore` takes from a store.
* `same_location_iff` — it is the one that `checkFavorBB` computes for the same file name and line if and only if the
  file name has no directory, does not start with a blank and has no location mark; a block is then favored exactly when
  one of its instructions carries a file and line that were reported.
-/

namespace SEDiff.Juxta

open Foundation

/-- A line or column in decimal. -/
def decimal (n : ℕ) : Str := Nat.toDigits 10 n

/-- `std::isspace` and `str.strip` take off the same characters: `rtrim`. -/
def rtrim (s : Str) : Str := s.rstrip Str.isSpace

/-- What follows the last slash. -/
def basename (Filename : Str) : Str :=
  match Filename.rfind '/' with
  | none => Filename
  | some found => Filename.drop (found + 1)

/-- The location that `checkFavorBB` computes for an instruction. -/
def instLoc (Filename : Str) (line : ℕ) : Str := basename Filename ++ ':' :: decimal line

/-- `checkFavorBB`. An instruction has a file name and a line, or no debug location. -/
def checkFavorBB (favoredBBList : List Str) (BB : List (Option (Str × ℕ))) : Bool :=
  BB.any fun
    | none => false
    | some (Filename, line) => decide (instLoc Filename line ∈ favoredBBList)

/-- `readFavoredBBList`. -/
def readFavoredBBList (text : Str) : List Str := ((text.splitOn '\n').map rtrim).filter (· ≠ [])

/-- What `CrossCheckers.report` writes. -/
def report (locations : List Str) : Str := ['\n'].intercalate locations ++ ['\n']

/-- A store with its location. -/
def storeAt (stmt p : Str) (line col : ℕ) : Str :=
  stmt ++ ("@LOCATION:".toList ++ ' ' :: (p ++ ':' :: (decimal line ++ ':' :: decimal col)))

/-! ### Decimals -/

theorem notMem_decimal (n : ℕ) {c : Char} (hc : c.isDigit = false) : c ∉ decimal n :=
  fun h => Bool.false_ne_true (hc.symm.trans (Str.isDigit_of_mem_toDigits h))

theorem decimal_ne_nil (n : ℕ) : decimal n ≠ [] := Nat.toDigits_ne_nil

theorem decimal_injective {m n : ℕ} (h : decimal m = decimal n) : m = n := by
  have := congrArg (Nat.ofDigitChars 10 · 0) h
  simpa [decimal] using this

/-- A decimal ends in a digit. -/
theorem getLast?_decimal (s : Str) (n : ℕ) {c : Char} (hc : c ∈ (s ++ decimal n).getLast?) : Str.isSpace c = false := by
  rw [List.getLast?_append_of_ne_nil _ (decimal_ne_nil n)] at hc
  exact Str.isSpace_of_isDigit (Str.isDigit_of_mem_toDigits (List.mem_of_mem_getLast? hc))

/-! ### The location of a store -/

/-- The column is cut off the location. -/
theorem init_of_rsplit {text stmt q loc : Str} {col : ℕ} (h : text.rsplit "@LOCATION:".toList = some (stmt, q))
    (hq : Str.strip q = loc ++ ':' :: decimal col) : ∃ s, PathStore.init text = .ok s ∧ s.loc = loc := by
  obtain ⟨⟨lhs, rhs⟩, hsides⟩ := sides_ok text stmt.strip
  have hfind : Str.rfind (Str.strip q) ':' = some loc.length := by
    rw [hq]
    exact Str.rfind_append_cons loc (notMem_decimal col (by decide))
  refine ⟨⟨loc, lhs, rhs⟩, ?_, rfl⟩
  rw [PathStore.init, split, h]
  simp only [bind, Except.bind, hsides, hfind]
  rw [hq, List.take_left]
  rfl

/-- A file name, a line and a column, stripped. -/
theorem strip_location (p : Str) (line col : ℕ) :
    Str.strip (p ++ ':' :: (decimal line ++ ':' :: decimal col)) =
      (p.lstrip Str.isSpace ++ ':' :: decimal line) ++ ':' :: decimal col := by
  have hlast : ∀ c ∈ (p.lstrip Str.isSpace ++ ':' :: (decimal line ++ ':' :: decimal col)).getLast?,
      Str.isSpace c = false := by
    intro c hc
    refine getLast?_decimal (p.lstrip Str.isSpace ++ ':' :: (decimal line ++ [':'])) col ?_
    simpa using hc
  rw [Str.strip, Str.lstrip_append_cons p (by decide), Str.rstrip_of_last hlast]
  simp

/-- A line and a column, stripped. -/
theorem strip_line (line col : ℕ) :
    Str.strip (decimal line ++ ':' :: decimal col) = decimal line ++ ':' :: decimal col := by
  refine Str.strip_of_trimmed ⟨fun c hc => ?_, fun c hc => ?_⟩
  · rw [List.head?_append_of_ne_nil _ (decimal_ne_nil line)] at hc
    exact Str.isSpace_of_isDigit (Str.isDigit_of_mem_toDigits (List.mem_of_mem_head? hc))
  · refine getLast?_decimal (decimal line ++ [':']) col ?_
    simpa using hc

/-- A line and a column have no location mark. -/
theorem notMem_line_col (line col : ℕ) : '@' ∉ decimal line ++ ':' :: decimal col := by
  rw [List.mem_append, List.mem_cons]
  rintro (h | h | h)
  · exact notMem_decimal line (by decide) h
  · exact absurd h (by decide)
  · exact notMem_decimal col (by decide) h

/-- Without another location mark, `PathStore` takes the file name and the line. -/
theorem init_loc (stmt : Str) {p : Str} (line col : ℕ) (h : ¬ "@LOCATION:".toList <:+: p ++ [':']) :
    ∃ s, PathStore.init (storeAt stmt p line col) = .ok s ∧ s.loc = p.lstrip Str.isSpace ++ ':' :: decimal line := by
  have hlast : ¬ "@LOCATION:".toList <:+:
      ("@LOCATION:".toList ++ ' ' :: (p ++ ':' :: (decimal line ++ ':' :: decimal col))).tail := by
    intro hin
    have hin := Str.infix_of_append (a := "LOCATION: ".toList) (by decide) hin
    obtain hp | hd := (Str.infix_append_cons_iff (t := "@LOCATION".toList) (by decide)).mp hin
    · exact h hp
    · exact notMem_line_col line col (hd.subset (by decide))
  exact init_of_rsplit (Str.rsplit_append stmt (by decide) hlast) (strip_location (' ' :: p) line col)

/-! ### File names -/

theorem basename_of_notMem {p : Str} (hp : '/' ∉ p) : basename p = p := by
  rw [basename, Str.rfind_eq_none_iff.mpr hp]

theorem basename_append (d : Str) {p : Str} (hp : '/' ∉ p) : basename (d ++ '/' :: p) = p := by
  rw [basename, Str.rfind_append_cons d hp]
  simp

/-- A file name has no slash. -/
theorem notMem_basename (p : Str) : '/' ∉ basename p := by
  by_cases hp : '/' ∈ p
  · obtain ⟨d, b, rfl, hb⟩ := Str.exists_last_char hp
    rw [basename_append d hb]
    exact hb
  · rw [basename_of_notMem hp]
    exact hp

/-- A file name is longer than what comes after one of its characters. -/
theorem length_lt_basename (u : Str) {c : Char} (hc : c ≠ '/') {p : Str} (hp : '/' ∉ p) :
    p.length < (basename (u ++ c :: p)).length := by
  have hcp : '/' ∉ c :: p := by
    rw [List.mem_cons, not_or]
    exact ⟨hc.symm, hp⟩
  by_cases hu : '/' ∈ u
  · obtain ⟨d, b, rfl, hb⟩ := Str.exists_last_char hu
    have hbp : '/' ∉ b ++ c :: p := by
      rw [List.mem_append, not_or]
      exact ⟨hb, hcp⟩
    rw [List.append_assoc, List.cons_append, basename_append d hbp, List.length_append, List.length_cons]
    omega
  · have hup : '/' ∉ u ++ c :: p := by
      rw [List.mem_append, not_or]
      exact ⟨hu, hcp⟩
    rw [basename_of_notMem hup, List.length_append, List.length_cons]
    omega

/-- Stripping a path on the left leaves its file name when there is nothing to take off. -/
theorem lstrip_eq_basename_iff (p : Str) :
    p.lstrip Str.isSpace = basename p ↔ '/' ∉ p ∧ ∀ c ∈ p.head?, Str.isSpace c = false := by
  constructor
  · intro h
    have hp : '/' ∉ p := fun hp => notMem_basename p (h ▸ Str.mem_lstrip hp (by decide))
    rw [basename_of_notMem hp] at h
    exact ⟨hp, Str.lstrip_eq_self_iff.mp h⟩
  · rintro ⟨hp, hhead⟩
    rw [basename_of_notMem hp, Str.lstrip_of_head hhead]

/-- What follows the last location mark: the line, or the end of the path. -/
theorem after_mark {p d u r : Str} (hd : '@' ∉ d) (h : p ++ ':' :: d = (u ++ "@LOCATION".toList) ++ ':' :: r) :
    r = d ∨ ∃ e, r = e ++ ':' :: d ∧ p = (u ++ "@LOCATION".toList) ++ ':' :: e := by
  obtain ⟨e, hu, hr⟩ | ⟨e, hp, hr⟩ := List.append_eq_append_iff.mp h
  · cases e with
    | nil => exact .inl (List.cons.inj hr).2.symm
    | cons c e =>
      -- the mark would be in the line and the column
      obtain ⟨rfl, hde⟩ : ':' = c ∧ d = e ++ ':' :: r := List.cons.inj hr
      have hsuffix : "@LOCATION".toList <:+ e := Str.suffix_of_append_cons (by decide) hu
      exact absurd (hde ▸ List.mem_append_left _ (hsuffix.subset (by decide))) hd
  · cases e with
    | nil => exact .inl (List.cons.inj hr).2
    | cons c e =>
      obtain ⟨rfl, hre⟩ : ':' = c ∧ r = e ++ ':' :: d := List.cons.inj hr
      exact .inr ⟨e, hre, hp⟩

/-- After a location mark in the path, `PathStore` does not take the file name. -/
theorem init_loc_ne (stmt : Str) {p : Str} (line col : ℕ) (h : "@LOCATION:".toList <:+: p ++ [':']) :
    ∃ s, PathStore.init (storeAt stmt p line col) = .ok s ∧ s.loc ≠ instLoc p line := by
  set d := decimal line ++ ':' :: decimal col with hd
  have hin : "@LOCATION:".toList <:+: p ++ ':' :: d :=
    (Str.infix_append_cons_iff (t := "@LOCATION".toList) (by decide)).mpr (.inl h)
  obtain ⟨l, r, hsplit, hlast⟩ := Str.exists_last (by decide) hin
  have htext : storeAt stmt p line col = (stmt ++ ("@LOCATION:".toList ++ ' ' :: l)) ++ ("@LOCATION:".toList ++ r) := by
    rw [storeAt, ← hd, hsplit]
    simp
  have hcut := Str.rsplit_append (stmt ++ ("@LOCATION:".toList ++ ' ' :: l)) (by decide) hlast
  rw [← htext] at hcut
  have hdelim : p ++ ':' :: d = (l ++ "@LOCATION".toList) ++ ':' :: r := by
    rw [hsplit]
    simp
  obtain rfl | ⟨e, rfl, rfl⟩ := after_mark (notMem_line_col line col) hdelim
  · obtain ⟨s, hs, hloc⟩ := init_of_rsplit hcut (strip_line line col)
    refine ⟨s, hs, fun heq => ?_⟩
    have hlen := congrArg List.length (hloc.symm.trans heq)
    rw [instLoc, List.length_append, List.length_cons] at hlen
    omega
  · obtain ⟨s, hs, hloc⟩ := init_of_rsplit hcut (strip_location e line col)
    refine ⟨s, hs, fun heq => ?_⟩
    rw [hloc, instLoc] at heq
    have hname : Str.lstrip e Str.isSpace = basename _ := List.append_cancel_right heq
    have he : '/' ∉ e := fun he => notMem_basename _ (hname ▸ Str.mem_lstrip (p := Str.isSpace) he (by decide))
    have hlt := length_lt_basename (l ++ "@LOCATION".toList) (c := ':') (by decide) he
    have hle : (Str.lstrip e Str.isSpace).length ≤ e.length := (List.dropWhile_suffix Str.isSpace).length_le
    rw [← hname] at hlt
    exact absurd hle (Nat.not_le.mpr hlt)

/-- The two names of a location are the same. -/
def SameLocation (stmt p : Str) (line col : ℕ) : Prop :=
  ∃ s, PathStore.init (storeAt stmt p line col) = .ok s ∧ s.loc = instLoc p line

/-- A path that is read as it is: a file name without a directory, a blank in front or a location mark. -/
structure PlainName (p : Str) : Prop where
  /-- No directory. -/
  slash : '/' ∉ p
  /-- No blank in front. -/
  head : ∀ c ∈ p.head?, Str.isSpace c = false
  /-- No location mark. -/
  mark : ¬ "@LOCATION:".toList <:+: p ++ [':']

instance (p : Str) : Decidable (PlainName p) :=
  decidable_of_iff ('/' ∉ p ∧ (p.head?.all fun c => !Str.isSpace c) = true ∧ ¬ "@LOCATION:".toList <:+: p ++ [':'])
    ⟨fun ⟨h, h', h''⟩ => ⟨h, Str.all_not_isSpace.mp h', h''⟩,
      fun h => ⟨h.slash, Str.all_not_isSpace.mpr h.head, h.mark⟩⟩

theorem sameLocation_iff (stmt p : Str) (line col : ℕ) : SameLocation stmt p line col ↔ PlainName p := by
  by_cases hmark : "@LOCATION:".toList <:+: p ++ [':']
  · obtain ⟨s, hs, hne⟩ := init_loc_ne stmt line col hmark
    refine iff_of_false ?_ fun hp => hp.mark hmark
    rintro ⟨t, ht, hloc⟩
    rw [hs] at ht
    cases ht
    exact hne hloc
  · obtain ⟨s, hs, hloc⟩ := init_loc stmt line col hmark
    have hsame : SameLocation stmt p line col ↔ p.lstrip Str.isSpace = basename p := by
      constructor
      · rintro ⟨t, ht, heq⟩
        rw [hs] at ht
        cases ht
        rw [hloc, instLoc] at heq
        exact List.append_cancel_right heq
      · intro heq
        exact ⟨s, hs, by rw [hloc, heq, instLoc]⟩
    rw [hsame, lstrip_eq_basename_iff]
    exact ⟨fun h => ⟨h.1, h.2, hmark⟩, fun h => ⟨h.slash, h.head⟩⟩

/-! ### Favored blocks -/

theorem intercalate_concat_nil {x : Char} {ls : List Str} (hne : ls ≠ []) :
    [x].intercalate (ls ++ [[]]) = [x].intercalate ls ++ [x] := by
  induction ls with
  | nil => exact absurd rfl hne
  | cons l ls ih =>
    cases ls with
    | nil => simp [List.intercalate_cons_cons]
    | cons l' ls =>
      have hrest := ih (List.cons_ne_nil l' ls)
      rw [List.cons_append] at hrest
      rw [List.cons_append, List.cons_append, List.intercalate_cons_cons, List.intercalate_cons_cons, hrest]
      simp

/-- What is read back of a report. -/
theorem read_report {locations : List Str} (hne : ∀ l ∈ locations, l ≠ []) (hnl : ∀ l ∈ locations, '\n' ∉ l)
    (hend : ∀ l ∈ locations, ∀ c ∈ l.getLast?, Str.isSpace c = false) :
    readFavoredBBList (report locations) = locations := by
  by_cases hnil : locations = []
  · subst hnil
    decide
  · have hsplit : (report locations).splitOn '\n' = locations ++ [[]] := by
      rw [report, ← intercalate_concat_nil hnil]
      apply List.splitOn_intercalate
      · intro l hl
        obtain hl | hl := List.mem_append.mp hl
        · exact hnl l hl
        · rw [List.mem_singleton.mp hl]
          exact List.not_mem_nil
      · simp
    have hmap : locations.map rtrim = locations :=
      (List.map_congr_left fun l hl => Str.rstrip_of_last (hend l hl)).trans (List.map_id _)
    have hfilter : locations.filter (· ≠ []) = locations :=
      List.filter_eq_self.mpr fun l hl => decide_eq_true (hne l hl)
    rw [readFavoredBBList, hsplit, List.map_append, List.filter_append, hmap, hfilter]
    exact List.append_nil _

/-- A store that is reported. -/
structure Report where
  /-- The statement. -/
  stmt : Str
  /-- The file. -/
  path : Str
  /-- The line. -/
  line : ℕ
  /-- The column. -/
  col : ℕ

/-- The locations of the stores that are reported, in any order. -/
def Locations (reports : List Report) (locations : List Str) : Prop :=
  ∀ l, l ∈ locations ↔ ∃ r ∈ reports, ∃ s, PathStore.init (storeAt r.stmt r.path r.line r.col) = .ok s ∧ s.loc = l

/-- The location of a plain path. -/
theorem instLoc_of_notMem {p : Str} (hp : '/' ∉ p) (line : ℕ) : instLoc p line = p ++ ':' :: decimal line := by
  rw [instLoc, basename_of_notMem hp]

/-- A file name and a line are told apart. -/
theorem instLoc_injective {p q : Str} (hp : '/' ∉ p) (hq : '/' ∉ q) {line line' : ℕ}
    (h : instLoc p line = instLoc q line') : p = q ∧ line = line' := by
  rw [instLoc_of_notMem hp, instLoc_of_notMem hq] at h
  have hfind := congrArg (Str.rfind · ':') h
  simp only [Str.rfind_append_cons _ (notMem_decimal _ (c := ':') (by decide)), Option.some.injEq] at hfind
  obtain ⟨rfl, hline⟩ := List.append_inj h hfind
  exact ⟨rfl, decimal_injective (List.cons.inj hline).2⟩

/-- **A block is favored** exactly when one of its instructions carries a file and line that were reported, for plain
paths. -/
theorem checkFavorBB_iff {reports : List Report} {locations : List Str} (hloc : Locations reports locations)
    (hplain : ∀ r ∈ reports, PlainName r.path ∧ '\n' ∉ r.path) {BB : List (Option (Str × ℕ))}
    (hBB : ∀ q line, some (q, line) ∈ BB → '/' ∉ q) :
    checkFavorBB (readFavoredBBList (report locations)) BB = true ↔
      ∃ q line, some (q, line) ∈ BB ∧ ∃ r ∈ reports, r.path = q ∧ r.line = line := by
  have hmem (l : Str) : l ∈ locations ↔ ∃ r ∈ reports, l = instLoc r.path r.line := by
    rw [hloc l]
    refine exists_congr fun r => and_congr_right fun hr => ?_
    obtain ⟨s, hs, heq⟩ := (sameLocation_iff r.stmt r.path r.line r.col).mpr (hplain r hr).1
    constructor
    · rintro ⟨t, ht, rfl⟩
      rw [hs] at ht
      cases ht
      exact heq
    · rintro rfl
      exact ⟨s, hs, heq⟩
  have hread : readFavoredBBList (report locations) = locations := by
    apply read_report
    · intro l hl
      obtain ⟨r, -, rfl⟩ := (hmem l).mp hl
      simp [instLoc]
    · intro l hl
      obtain ⟨r, hr, rfl⟩ := (hmem l).mp hl
      rw [instLoc_of_notMem (hplain r hr).1.slash, List.mem_append, List.mem_cons]
      rintro (h | h | h)
      · exact (hplain r hr).2 h
      · exact absurd h (by decide)
      · exact notMem_decimal _ (by decide) h
    · intro l hl
      obtain ⟨r, -, rfl⟩ := (hmem l).mp hl
      intro c hc
      refine getLast?_decimal (basename r.path ++ [':']) r.line ?_
      simpa [instLoc] using hc
  rw [hread, checkFavorBB, List.any_eq_true]
  constructor
  · rintro ⟨I, hI, hfav⟩
    cases I with
    | none => exact absurd hfav Bool.false_ne_true
    | some I =>
      obtain ⟨r, hr, heq⟩ := (hmem _).mp (of_decide_eq_true hfav)
      obtain ⟨hq, hline⟩ := instLoc_injective (hBB I.1 I.2 hI) (hplain r hr).1.slash heq
      exact ⟨I.1, I.2, hI, r, hr, hq.symm, hline.symm⟩
  · rintro ⟨q, line, hI, r, hr, rfl, rfl⟩
    exact ⟨_, hI, decide_eq_true ((hmem _).mpr ⟨r, hr, rfl⟩)⟩

/-- **Locations.** The location that `PathStore` takes from a store is the one that `checkFavorBB` computes for the same
file name and line if and only if the path is a plain file name; among plain paths, a block is favored exactly when one
of its instructions carries a file and line that were reported. -/
theorem locations_agree_iff (stmt p : Str) (line col : ℕ) :
    (SameLocation stmt p line col ↔ PlainName p) ∧
      ∀ (reports : List Report) (locations : List Str), Locations reports locations →
        (∀ r ∈ reports, PlainName r.path ∧ '\n' ∉ r.path) → ∀ BB : List (Option (Str × ℕ)),
          (∀ q line, some (q, line) ∈ BB → '/' ∉ q) →
            (checkFavorBB (readFavoredBBList (report locations)) BB = true ↔
              ∃ q line, some (q, line) ∈ BB ∧ ∃ r ∈ reports, r.path = q ∧ r.line = line) :=
  ⟨sameLocation_iff stmt p line col, fun _ _ hloc hplain _ hBB => checkFavorBB_iff hloc hplain hBB⟩

/-- A block with the line of a reported store is favored. -/
theorem locations_agree_one :
    checkFavorBB (readFavoredBBList (report ["a.c:3".toList])) [none, some ("a.c".toList, 3)] = true := by
  have hstore : PathStore.init (storeAt "x = y ".toList "a.c".toList 3 5) =
      .ok ⟨"a.c:3".toList, some "x".toList, "y".toList⟩ := by rfl
  have hplain : PlainName "a.c".toList := by decide
  refine ((locations_agree_iff [] [] 0 0).2 [⟨"x = y ".toList, "a.c".toList, 3, 5⟩] _ ?_ ?_ _ ?_).mpr ?_
  · intro l
    rw [List.mem_singleton]
    constructor
    · rintro rfl
      exact ⟨_, List.mem_singleton_self _, _, hstore, rfl⟩
    · rintro ⟨r, hr, s, hs, rfl⟩
      rw [List.mem_singleton.mp hr, hstore] at hs
      cases hs
      rfl
  · intro r hr
    rw [List.mem_singleton.mp hr]
    exact ⟨hplain, by decide⟩
  · intro q line hI
    simp only [List.mem_cons, List.not_mem_nil, or_false, reduceCtorEq, false_or, Option.some.injEq, Prod.mk.injEq] at hI
    rw [hI.1]
    decide
  · exact ⟨_, _, List.mem_cons_of_mem _ (List.mem_singleton_self _), _, List.mem_singleton_self _, rfl, rfl⟩

/-- A path with a directory: the report keeps it, the instrumentation does not. -/
theorem not_locations_agree : ¬ ∀ (stmt p : Str) (line col : ℕ), SameLocation stmt p line col := by
  intro h
  have hplain := (sameLocation_iff "a = b ".toList "fs/a.c".toList 3 5).mp (h _ _ _ _)
  exact hplain.slash (by decide)

end SEDiff.Juxta

import SEDiff.Afl.DetExtras
import Mathlib.Data.List.DropRight

/-!
# Dictionary files

`load_extras_file` reads the user's tokens from a text file: one in a line, in quotes, after a name and a level, which
may be left out. This is what the file may look like, as a grammar, and the reader against it.

## What is proved

* `unescape_iff` — the text between the quotes; `Body.length_le` — what is written fits in the buffer.
* `load_line_iff` — one line.
* `load_extras_file_ok` — the files that are accepted, the tokens that are read from them, and the line that is reported if
  a file is not.
* `read_back` — entries that are written to a file are read back.
-/

namespace SEDiff.Afl.DictionaryFile

open Dictionary

/-! ### The source -/

/-- `MAX_LINE`. -/
def MAX_LINE : ℕ := 8192

/-- `isspace`, in the "C" locale. -/
def isspace (b : UInt8) : Bool := (9 ≤ b && b ≤ 13) || b == 32

/-- `isdigit`. -/
def isdigit (b : UInt8) : Bool := 48 ≤ b && b ≤ 57

/-- `isalnum`, in the "C" locale. -/
def isalnum (b : UInt8) : Bool := isdigit b || (65 ≤ b && b ≤ 90) || (97 ≤ b && b ≤ 122)

/-- `isxdigit`. -/
def isxdigit (b : UInt8) : Bool := isdigit b || (65 ≤ b && b ≤ 70) || (97 ≤ b && b ≤ 102)

/-- The digits at the front, as a number. -/
def decimal (s : List UInt8) : ℤ := (s.takeWhile isdigit).foldl (fun n b => 10 * n + (b.toNat - 48)) 0

/-- `atoi`: a `long` that is cut to an `int`, which is then compared to an unsigned number. -/
def atoi (s : List UInt8) : ℕ :=
  let value : ℤ := match s.dropWhile isspace with
    | [] => 0
    | b :: s =>
      if b = 45 then max (-(2 ^ 63)) (-decimal s) else if b = 43 then min (2 ^ 63 - 1) (decimal s)
      else min (2 ^ 63 - 1) (decimal (b :: s))
  (value % 2 ^ 32).toNat

/-- What `fgets` reads, line by line; `n` more bytes fit behind the next one. -/
def fgets (n : ℕ) : List UInt8 → List (List UInt8)
  | [] => []
  | b :: file =>
    if b = 10 ∨ n = 0 then [b] :: fgets (MAX_LINE - 2) file
    else
      match fgets (n - 1) file with
      | [] => [[b]]
      | line :: lines => (b :: line) :: lines

/-- `FATAL`. -/
structure Fatal where
  /-- The format. -/
  message : String
  /-- The line. -/
  cur_line : ℕ
  deriving DecidableEq

/-- `hexdigits`. -/
def hexdigits : List UInt8 := [48, 49, 50, 51, 52, 53, 54, 55, 56, 57, 97, 98, 99, 100, 101, 102]

/-- The byte of an escape `\xNN`. -/
def hexbyte (a b : UInt8) : UInt8 :=
  UInt8.ofNat ((hexdigits.idxOf (tolower a) <<< 4) ||| hexdigits.idxOf (tolower b))

/-- Copy data between "...", handling `\xNN` escaping, `\\`, and `\"`. -/
def unescape : List UInt8 → Except String (List UInt8)
  | [] => .ok []
  | b :: s =>
    if b < 32 ∨ 128 ≤ b then .error "Non-printable characters in line %u."
    else if b = 92 then
      match s with
      | [] => .error "Invalid escaping (not \\xNN) in line %u."
      | c :: s =>
        if c = 92 ∨ c = 34 then (unescape s).map (c :: ·)
        else
          match s with
          | d :: e :: s =>
            if c = 120 ∧ isxdigit d ∧ isxdigit e then (unescape s).map (hexbyte d e :: ·)
            else .error "Invalid escaping (not \\xNN) in line %u."
          | _ => .error "Invalid escaping (not \\xNN) in line %u."
    else (unescape s).map (b :: ·)

/-- Trim on left and right; the line ends at a zero byte. -/
def trim (line : List UInt8) : List UInt8 := ((line.takeWhile (· ≠ 0)).dropWhile isspace).rdropWhile isspace

/-- Skip alphanumerics and dashes (label). -/
def skip_label (s : List UInt8) : List UInt8 := s.dropWhile fun b => isalnum b || b == 95

/-- Skip whitespace and = signs. -/
def skip_equals (s : List UInt8) : List UInt8 := s.dropWhile fun b => isspace b || b == 61

/-- From the opening quote on. -/
def load_value (s : List UInt8) : Except String (Option (List UInt8)) :=
  let s := skip_equals s
  if s.head? ≠ some 34 then .error "Malformed name=\"keyword\" pair in line %u."
  else if s.tail = [] then .error "Empty keyword in line %u."
  else (unescape s.tail).bind fun data =>
    if data.length > MAX_DICT_FILE then .error "Keyword too big in line %u (%s, limit is %s)" else .ok (some data)

/-- One line; some are skipped. -/
def load_line (dict_level : ℕ) (line : List UInt8) : Except String (Option (List UInt8)) :=
  let s := trim line
  if s = [] ∨ s.head? = some 35 then .ok none
  else if s.getLast? ≠ some 34 then .error "Malformed name=\"value\" pair in line %u."
  else
    let s := skip_label s.dropLast
    if s.head? ≠ some 64 then load_value s
    else if atoi s.tail > dict_level then .ok none
    else load_value (s.tail.dropWhile isdigit)

/-- The lines of the file, one after the other. `cur_line` is a `u32`, so this is for files of fewer than 2^32 lines, and the
table is taken to be one that `ck_realloc_block` makes room in: it ends the program above `MAX_ALLOC`. -/
def load_lines (dict_level : ℕ) : ℕ → List (List UInt8) → Except Fatal (List (List UInt8))
  | _, [] => .ok []
  | cur_line, line :: lines =>
    match load_line dict_level line with
    | .error message => .error ⟨message, cur_line + 1⟩
    | .ok token => (load_lines dict_level (cur_line + 1) lines).map (token.toList ++ ·)

/-- `load_extras_file`. -/
def load_extras_file (dict_level : ℕ) (file : List UInt8) : Except Fatal (List (List UInt8)) :=
  load_lines dict_level 0 (fgets (MAX_LINE - 2) file)

/-! ### Between the quotes -/

/-- How a byte may be written. -/
inductive Written : UInt8 → List UInt8 → Prop
  /-- As it is. -/
  | plain {b : UInt8} (hmin : 32 ≤ b) (hmax : b < 128) (h : b ≠ 92) : Written b [b]
  /-- A backslash or a quote, after a backslash. -/
  | escaped {b : UInt8} (h : b = 92 ∨ b = 34) : Written b [92, b]
  /-- By its number. -/
  | hex {a b : UInt8} (ha : isxdigit a = true) (hb : isxdigit b = true) : Written (hexbyte a b) [92, 120, a, b]

/-- How a token may be written. -/
inductive Body : List UInt8 → List UInt8 → Prop
  /-- Nothing. -/
  | nil : Body [] []
  /-- One byte after the other. -/
  | cons {b : UInt8} {w data s : List UInt8} (hb : Written b w) (h : Body data s) : Body (b :: data) (w ++ s)

theorem unescape_written {b : UInt8} {w : List UInt8} (h : Written b w) (s : List UInt8) :
    unescape (w ++ s) = (unescape s).map (b :: ·) := by
  cases h with
  | plain hmin hmax h =>
    have hprint : ¬ (b < 32 ∨ 128 ≤ b) := fun hout => hout.elim (UInt8.not_lt.mpr hmin) (UInt8.not_le.mpr hmax)
    rw [List.singleton_append, unescape.eq_def]
    dsimp only
    rw [if_neg hprint, if_neg h]
  | escaped h =>
    rw [List.cons_append, List.singleton_append, unescape.eq_def]
    dsimp only
    rw [if_neg (by decide), if_pos rfl, if_pos h]
  | @hex a b ha hb =>
    show unescape (92 :: 120 :: a :: b :: s) = _
    rw [unescape.eq_def]
    dsimp only
    rw [if_neg (by decide), if_pos rfl, if_neg (by decide), if_pos ⟨rfl, ha, hb⟩]

theorem of_map_ok {α β ε : Type} {f : α → β} {x : Except ε α} {y : β} (h : x.map f = .ok y) :
    ∃ z, x = .ok z ∧ y = f z := by
  cases x with
  | error => cases h
  | ok z => exact ⟨z, rfl, (Except.ok.inj h).symm⟩

theorem of_map_error {α β ε : Type} {f : α → β} {x : Except ε α} {e : ε} (h : x.map f = .error e) : x = .error e := by
  cases x with
  | error e' => exact congrArg _ (Except.error.inj h)
  | ok z => cases h

theorem body_of_unescape (s : List UInt8) : ∀ {data}, unescape s = .ok data → Body data s := by
  induction s using unescape.induct with
  | case1 =>
    intro data h
    obtain rfl := Except.ok.inj h
    exact .nil
  | case2 b s hout =>
    intro data h
    rw [unescape.eq_def] at h
    dsimp only at h
    rw [if_pos hout] at h
    cases h
  | case3 hprint =>
    -- A backslash at the end.
    intro data h
    rw [unescape.eq_def] at h
    dsimp only at h
    rw [if_neg hprint, if_pos rfl] at h
    cases h
  | case4 c s hc hprint ih =>
    intro data h
    rw [unescape.eq_def] at h
    dsimp only at h
    rw [if_neg hprint, if_pos rfl, if_pos hc] at h
    obtain ⟨rest, hrest, rfl⟩ := of_map_ok h
    exact .cons (.escaped hc) (ih hrest)
  | case5 c hc d e s hhex hprint ih =>
    intro data h
    rw [unescape.eq_def] at h
    dsimp only at h
    rw [if_neg hprint, if_pos rfl, if_neg hc, if_pos hhex] at h
    obtain ⟨rest, hrest, rfl⟩ := of_map_ok h
    obtain ⟨rfl, hd, he⟩ := hhex
    exact .cons (.hex hd he) (ih hrest)
  | case6 c hc d e s hhex hprint =>
    intro data h
    rw [unescape.eq_def] at h
    dsimp only at h
    rw [if_neg hprint, if_pos rfl, if_neg hc, if_neg hhex] at h
    cases h
  | case7 c s hc hshort hprint =>
    -- Less than two bytes after the letter.
    intro data h
    rw [unescape.eq_def] at h
    dsimp only at h
    rw [if_neg hprint, if_pos rfl, if_neg hc] at h
    split at h
    · exact absurd rfl (hshort _ _ _)
    · cases h
  | case8 b s hprint hb ih =>
    intro data h
    rw [unescape.eq_def] at h
    dsimp only at h
    rw [if_neg hprint, if_neg hb] at h
    obtain ⟨rest, hrest, rfl⟩ := of_map_ok h
    obtain ⟨hmin, hmax⟩ := not_or.mp hprint
    exact .cons (.plain (UInt8.not_lt.mp hmin) (UInt8.not_le.mp hmax) hb) (ih hrest)

/-- **What is between the quotes** is read as it is meant, and nothing else is accepted. -/
theorem unescape_iff {s data : List UInt8} : unescape s = .ok data ↔ Body data s := by
  refine ⟨fun h => body_of_unescape s h, fun h => ?_⟩
  induction h with
  | nil => rfl
  | cons hb h ih =>
    rw [unescape_written hb, ih]
    rfl

theorem Body.eq_nil {data s : List UInt8} (h : Body data s) : data = [] ↔ s = [] := by
  cases h with
  | nil => exact ⟨fun _ => rfl, fun _ => rfl⟩
  | cons hb h =>
    refine ⟨fun hdata => absurd hdata (List.cons_ne_nil _ _), fun hs => ?_⟩
    cases hb with
    | plain => exact absurd hs (List.cons_ne_nil _ _)
    | escaped => exact absurd hs (List.cons_ne_nil _ _)
    | hex => exact absurd hs (List.cons_ne_nil _ _)

/-- The buffer, of the length of the text, is large enough. -/
theorem Body.length_le {data s : List UInt8} (h : Body data s) : data.length ≤ s.length := by
  induction h with
  | nil => exact Nat.le_refl 0
  | @cons b w data s hb h ih =>
    have hone : 1 ≤ w.length := by
      cases hb with
      | plain => exact Nat.le_refl 1
      | escaped => exact Nat.le_add_left 1 1
      | hex => exact Nat.le_add_left 1 3
    rw [List.length_cons, List.length_append]
    omega

/-! ### One line -/

/-- What is skipped, and what is left. -/
theorem dropWhile_iff {p : UInt8 → Bool} {s rest : List UInt8} :
    s.dropWhile p = rest ↔ (∀ b ∈ rest.head?, p b = false) ∧ ∃ l, (∀ b ∈ l, p b = true) ∧ s = l ++ rest := by
  constructor
  · rintro rfl
    refine ⟨fun b hb => ?_, s.takeWhile p, fun b hb => ?_, List.takeWhile_append_dropWhile.symm⟩
    · have hnot := List.head?_dropWhile_not p s
      rwa [Option.mem_def.mp hb] at hnot
    · exact List.mem_takeWhile_imp hb
  · rintro ⟨hhead, l, hl, rfl⟩
    rw [List.dropWhile_append_of_pos hl]
    cases rest with
    | nil => rfl
    | cons b rest => exact List.dropWhile_cons_of_neg (by simp [hhead b rfl])

/-- An entry, as it is written. -/
structure Entry where
  /-- The name. -/
  label : List UInt8
  /-- Letters, digits and underscores. -/
  label_ok : ∀ b ∈ label, (isalnum b || b == 95) = true
  /-- The level, if there is one. -/
  level : Option (List UInt8)
  /-- Digits. -/
  level_ok : ∀ digits ∈ level, ∀ b ∈ digits, isdigit b = true
  /-- Between them and the quote. -/
  equals : List UInt8
  /-- Blanks and equals signs. -/
  equals_ok : ∀ b ∈ equals, (isspace b || b == 61) = true
  /-- The token. -/
  data : List UInt8
  /-- How it is written. -/
  body : List UInt8
  /-- The escapes. -/
  body_ok : Body data body
  /-- It is not empty. -/
  filled : data ≠ []
  /-- It is not too long. -/
  small : data.length ≤ MAX_DICT_FILE

/-- The text of an entry, but for the last quote. -/
def Entry.front (e : Entry) : List UInt8 :=
  e.label ++ (e.level.elim [] (64 :: ·) ++ (e.equals ++ 34 :: e.body))

/-- The text of an entry. -/
def Entry.text (e : Entry) : List UInt8 := e.front ++ [34]

/-- An entry of a level that is loaded. -/
def Entry.Wanted (dict_level : ℕ) (e : Entry) : Prop := ∀ digits ∈ e.level, atoi digits ≤ dict_level

/-- A line that is passed over. -/
inductive Passed (dict_level : ℕ) (line : List UInt8) : Prop
  /-- An empty line. -/
  | empty (h : trim line = [])
  /-- A comment. -/
  | comment {s : List UInt8} (h : trim line = 35 :: s)
  /-- The level is too high. -/
  | level {label s : List UInt8} (hlabel : ∀ b ∈ label, (isalnum b || b == 95) = true)
      (h : trim line = label ++ 64 :: (s ++ [34])) (hlevel : dict_level < atoi s)

/-- **From the opening quote on.** -/
theorem load_value_iff {s data : List UInt8} :
    load_value s = .ok (some data) ↔ ∃ equals body, (∀ b ∈ equals, (isspace b || b == 61) = true) ∧
      s = equals ++ 34 :: body ∧ Body data body ∧ data ≠ [] ∧ data.length ≤ MAX_DICT_FILE := by
  constructor
  · intro h
    simp only [load_value] at h
    split_ifs at h with hquote hempty
    obtain ⟨body, hskip⟩ := List.head?_eq_some_iff.mp (not_not.mp hquote)
    obtain ⟨-, equals, hequals, rfl⟩ := dropWhile_iff.mp hskip
    rw [hskip, List.tail_cons] at h hempty
    cases hdata : unescape body with
    | error => rw [hdata] at h; cases h
    | ok data' =>
      have hwritten := unescape_iff.mp hdata
      rw [hdata] at h
      dsimp only [Except.bind] at h
      split_ifs at h with hsmall
      obtain rfl := Option.some.inj (Except.ok.inj h)
      exact ⟨equals, body, hequals, rfl, hwritten, fun hnil => hempty (hwritten.eq_nil.mp hnil), not_lt.mp hsmall⟩
  · rintro ⟨equals, body, hequals, rfl, hwritten, hfilled, hsmall⟩
    have hskip : skip_equals (equals ++ 34 :: body) = 34 :: body :=
      dropWhile_iff.mpr ⟨fun b hb => by cases hb; decide, equals, hequals, rfl⟩
    simp only [load_value, hskip]
    rw [if_neg fun hne => hne rfl, List.tail_cons, if_neg fun hnil => hfilled (hwritten.eq_nil.mpr hnil),
      unescape_iff.mpr hwritten]
    exact if_neg (not_lt.mpr hsmall)

theorem load_value_ne_none {s : List UInt8} : load_value s ≠ .ok none := by
  intro h
  simp only [load_value] at h
  split_ifs at h
  cases hdata : unescape (skip_equals s).tail with
  | error => rw [hdata] at h; cases h
  | ok data =>
    rw [hdata] at h
    dsimp only [Except.bind] at h
    split_ifs at h
    cases h

/-- The bytes between the name and the token are in no name and in no number. -/
theorem separator {b : UInt8} (h : ((isspace b || b == 61) || b == 34) = true) :
    (isalnum b || b == 95) = false ∧ isdigit b = false ∧ b ≠ 64 ∧ b ≠ 35 ∧ b ≠ 45 ∧ b ≠ 43 := by
  have hall : ∀ i : Fin 256, ((isspace (.ofFin i) || UInt8.ofFin i == 61) || UInt8.ofFin i == 34) = true →
      (isalnum (.ofFin i) || UInt8.ofFin i == 95) = false ∧ isdigit (.ofFin i) = false ∧ UInt8.ofFin i ≠ 64 ∧
        UInt8.ofFin i ≠ 35 ∧ UInt8.ofFin i ≠ 45 ∧ UInt8.ofFin i ≠ 43 := by decide +kernel
  exact hall b.toFin h

theorem label_ne {b : UInt8} (h : (isalnum b || b == 95) = true) : b ≠ 35 := by
  rintro rfl
  exact absurd h (by decide)

theorem digit_ne {b : UInt8} (h : isdigit b = true) : isspace b = false ∧ b ≠ 45 ∧ b ≠ 43 := by
  have hall : ∀ i : Fin 256, isdigit (.ofFin i) = true →
      isspace (.ofFin i) = false ∧ UInt8.ofFin i ≠ 45 ∧ UInt8.ofFin i ≠ 43 := by decide +kernel
  exact hall b.toFin h

section Separators

variable {equals body : List UInt8}

theorem head_equals (hequals : ∀ b ∈ equals, (isspace b || b == 61) = true) :
    ∀ b ∈ (equals ++ 34 :: body).head?, ((isspace b || b == 61) || b == 34) = true := by
  intro b hb
  cases equals with
  | nil =>
    obtain rfl := Option.some.inj hb
    rfl
  | cons c equals =>
    obtain rfl := Option.some.inj hb
    rw [hequals c List.mem_cons_self, Bool.true_or]

theorem head_blanks (hequals : ∀ b ∈ equals, (isspace b || b == 61) = true) :
    ∀ b ∈ ((equals ++ 34 :: body).dropWhile isspace).head?, ((isspace b || b == 61) || b == 34) = true := by
  induction equals with
  | nil =>
    intro b hb
    obtain rfl := Option.some.inj hb
    rfl
  | cons c equals ih =>
    by_cases hc : isspace c = true
    · rw [List.cons_append, List.dropWhile_cons_of_pos hc]
      exact ih fun b hb => hequals b (List.mem_cons_of_mem c hb)
    · rw [List.cons_append, List.dropWhile_cons_of_neg hc]
      show ∀ b ∈ (c :: equals ++ 34 :: body).head?, _
      exact head_equals hequals

end Separators

/-- Only the digits count. -/
theorem decimal_append {digits rest : List UInt8} (hdigits : ∀ b ∈ digits, isdigit b = true)
    (hrest : ∀ b ∈ rest.head?, isdigit b = false) : decimal (digits ++ rest) = decimal digits := by
  have hnone : rest.takeWhile isdigit = [] := by
    cases rest with
    | nil => rfl
    | cons b rest => exact List.takeWhile_cons_of_neg (by simp [hrest b rfl])
  rw [decimal, decimal, List.takeWhile_append_of_pos hdigits, hnone, List.append_nil,
    List.takeWhile_eq_self_iff.mpr hdigits]

/-- **The level** is the number up to what comes after it. -/
theorem atoi_front {digits equals body : List UInt8} (hdigits : ∀ b ∈ digits, isdigit b = true)
    (hequals : ∀ b ∈ equals, (isspace b || b == 61) = true) :
    atoi (digits ++ (equals ++ 34 :: body)) = atoi digits := by
  cases digits with
  | nil =>
    have hhead : ∀ b ∈ ((equals ++ 34 :: body).dropWhile isspace).head?, _ := head_blanks hequals
    rw [List.nil_append, atoi]
    cases hblank : (equals ++ 34 :: body).dropWhile isspace with
    | nil => rfl
    | cons b s =>
      rw [hblank] at hhead
      obtain ⟨-, hdigit, -, -, hminus, hplus⟩ := separator (hhead b rfl)
      have hzero : decimal (b :: s) = 0 := by
        rw [decimal, List.takeWhile_cons_of_neg (by simp [hdigit])]
        rfl
      dsimp only
      rw [if_neg hminus, if_neg hplus, hzero]
      rfl
  | cons d digits =>
    obtain ⟨hspace, hminus, hplus⟩ := digit_ne (hdigits d List.mem_cons_self)
    have hvalue : decimal (d :: (digits ++ (equals ++ 34 :: body))) = decimal (d :: digits) :=
      decimal_append hdigits fun b hb => (separator (head_equals hequals b hb)).2.1
    rw [atoi, atoi, List.cons_append, List.dropWhile_cons_of_neg (by simp [hspace]),
      List.dropWhile_cons_of_neg (by simp [hspace])]
    dsimp only
    rw [if_neg hminus, if_neg hplus, if_neg hminus, if_neg hplus, hvalue]

theorem Entry.text_ne_nil (e : Entry) : e.text ≠ [] :=
  List.append_ne_nil_of_right_ne_nil _ (List.cons_ne_nil _ _)

/-- The name is skipped. -/
theorem Entry.skip_label_front (e : Entry) :
    skip_label e.front = e.level.elim [] (64 :: ·) ++ (e.equals ++ 34 :: e.body) := by
  refine dropWhile_iff.mpr ⟨fun b hb => ?_, e.label, e.label_ok, rfl⟩
  cases hlevel : e.level with
  | none =>
    rw [hlevel] at hb
    exact (separator (head_equals e.equals_ok b hb)).1
  | some digits =>
    rw [hlevel] at hb
    obtain rfl := Option.some.inj hb
    rfl

/-- No entry is a comment. -/
theorem Entry.head_text (e : Entry) : e.text.head? ≠ some 35 := by
  intro hhead
  have hne : e.front ≠ [] := by
    rw [Entry.front, ← List.append_assoc, ← List.append_assoc]
    exact List.append_ne_nil_of_right_ne_nil _ (List.cons_ne_nil _ _)
  rw [Entry.text, List.head?_append_of_ne_nil _ hne, Entry.front] at hhead
  cases hlabel : e.label with
  | cons b label =>
    rw [hlabel] at hhead
    exact label_ne (e.label_ok b (hlabel ▸ List.mem_cons_self)) (Option.some.inj hhead)
  | nil =>
    rw [hlabel, List.nil_append] at hhead
    cases hlevel : e.level with
    | none =>
      rw [hlevel] at hhead
      exact (separator (head_equals e.equals_ok 35 hhead)).2.2.2.1 rfl
    | some digits =>
      rw [hlevel] at hhead
      exact absurd (Option.some.inj hhead) (by decide)

/-- **One line** is an entry that is loaded; nothing else is accepted. -/
theorem load_line_iff {dict_level : ℕ} {line data : List UInt8} :
    load_line dict_level line = .ok (some data) ↔
      ∃ e : Entry, trim line = e.text ∧ e.data = data ∧ e.Wanted dict_level := by
  constructor
  · intro h
    simp only [load_line] at h
    split_ifs at h with hskip hlast hat hlevel
    · cases h
    -- No level.
    · have htext := List.dropLast_append_getLast? 34 (Option.mem_def.mpr (not_not.mp hlast))
      obtain ⟨equals, body, hequals, hs, hbody, hfilled, hsmall⟩ := load_value_iff.mp h
      obtain ⟨-, label, hlabel, hfront⟩ := dropWhile_iff.mp hs
      have hnone : ∀ d ∈ (none : Option (List UInt8)), ∀ b ∈ d, isdigit b = true := fun d hd => absurd hd (by simp)
      refine ⟨⟨label, hlabel, none, hnone, equals, hequals, data, body, hbody, hfilled, hsmall⟩, ?_, rfl,
        fun d hd => absurd hd (by simp)⟩
      rw [← htext, hfront]
      rfl
    · cases h
    -- `atoi` reads on after the digits, but what comes there is no part of a number.
    · have htext := List.dropLast_append_getLast? 34 (Option.mem_def.mpr (not_not.mp hlast))
      obtain ⟨s, hs⟩ := List.head?_eq_some_iff.mp (not_not.mp hat)
      obtain ⟨-, label, hlabel, hfront⟩ := dropWhile_iff.mp hs
      rw [hs, List.tail_cons] at h hlevel
      obtain ⟨equals, body, hequals, hrest, hbody, hfilled, hsmall⟩ := load_value_iff.mp h
      obtain ⟨-, digits, hdigits, rfl⟩ := dropWhile_iff.mp hrest
      rw [atoi_front hdigits hequals] at hlevel
      have hsome : ∀ d ∈ some digits, ∀ b ∈ d, isdigit b = true := fun d hd => Option.some.inj hd ▸ hdigits
      refine ⟨⟨label, hlabel, some digits, hsome, equals, hequals, data, body, hbody, hfilled, hsmall⟩, ?_, rfl,
        fun d hd => ?_⟩
      · rw [← htext, hfront]
        rfl
      · obtain rfl := Option.some.inj hd
        exact not_lt.mp hlevel
  · rintro ⟨e, htrim, rfl, hwanted⟩
    have hvalue : load_value (e.equals ++ 34 :: e.body) = .ok (some e.data) :=
      load_value_iff.mpr ⟨e.equals, e.body, e.equals_ok, rfl, e.body_ok, e.filled, e.small⟩
    have hskip : ¬ (e.text = [] ∨ e.text.head? = some 35) := not_or.mpr ⟨e.text_ne_nil, e.head_text⟩
    have hlast : e.text.getLast? = some 34 := List.getLast?_concat
    have hfront : e.text.dropLast = e.front := List.dropLast_concat
    simp only [load_line, htrim]
    rw [if_neg hskip, if_neg fun hne => hne hlast, hfront, e.skip_label_front]
    cases hlevel : e.level with
    | none =>
      rw [Option.elim_none, List.nil_append, if_pos fun hat => ?_, hvalue]
      exact (separator (head_equals e.equals_ok 64 hat)).2.2.1 rfl
    | some digits =>
      have hdigits := e.level_ok digits hlevel
      have hrest : (digits ++ (e.equals ++ 34 :: e.body)).dropWhile isdigit = e.equals ++ 34 :: e.body :=
        dropWhile_iff.mpr ⟨fun b hb => (separator (head_equals e.equals_ok b hb)).2.1, digits, hdigits, rfl⟩
      rw [Option.elim_some, List.cons_append, if_neg fun hne => hne rfl, List.tail_cons, atoi_front hdigits e.equals_ok,
        if_neg (not_lt.mpr (hwanted digits hlevel)), hrest, hvalue]

/-- **Lines that are passed over.** -/
theorem load_line_none_iff {dict_level : ℕ} {line : List UInt8} :
    load_line dict_level line = .ok none ↔ Passed dict_level line := by
  constructor
  · intro h
    simp only [load_line] at h
    split_ifs at h with hskip hlast hat hlevel
    · rcases hskip with hempty | hcomment
      · exact .empty hempty
      · obtain ⟨s, hs⟩ := List.head?_eq_some_iff.mp hcomment
        exact .comment hs
    · exact absurd h load_value_ne_none
    · obtain ⟨s, hs⟩ := List.head?_eq_some_iff.mp (not_not.mp hat)
      obtain ⟨-, label, hlabel, hfront⟩ := dropWhile_iff.mp hs
      rw [hs, List.tail_cons] at hlevel
      refine .level hlabel ?_ hlevel
      rw [← List.dropLast_append_getLast? 34 (Option.mem_def.mpr (not_not.mp hlast)), hfront, List.append_assoc,
        List.cons_append]
    · exact absurd h load_value_ne_none
  · intro h
    simp only [load_line]
    cases h with
    | empty h => rw [if_pos (.inl h)]
    | @comment s h => rw [if_pos (.inr (by rw [h]; rfl))]
    | @level label s hlabel h hlevel =>
      have htext : trim line = (label ++ 64 :: s) ++ [34] := by rw [h, List.append_assoc, List.cons_append]
      have hskip : skip_label (label ++ 64 :: s) = 64 :: s :=
        dropWhile_iff.mpr ⟨fun b hb => by cases hb; rfl, label, hlabel, rfl⟩
      have hother : ¬ (trim line = [] ∨ (trim line).head? = some 35) := by
        rw [h]
        rintro (hempty | hcomment)
        · exact absurd hempty (List.append_ne_nil_of_right_ne_nil _ (List.cons_ne_nil _ _))
        · cases label with
          | nil => exact absurd (Option.some.inj hcomment) (by decide)
          | cons b label => exact label_ne (hlabel b List.mem_cons_self) (Option.some.inj hcomment)
      rw [if_neg hother, htext, if_neg fun hne => hne List.getLast?_concat, List.dropLast_concat, hskip,
        if_neg fun hne => hne rfl, List.tail_cons, if_pos hlevel]

/-! ### The file -/

/-- What a file says, line by line. -/
inductive Reads (dict_level : ℕ) : List (List UInt8) → List (List UInt8) → Prop
  /-- The end. -/
  | nil : Reads dict_level [] []
  /-- A line that is passed over. -/
  | pass {line : List UInt8} {lines tokens : List (List UInt8)} (hline : Passed dict_level line)
      (h : Reads dict_level lines tokens) : Reads dict_level (line :: lines) tokens
  /-- An entry. -/
  | entry {e : Entry} {line : List UInt8} {lines tokens : List (List UInt8)} (hline : trim line = e.text)
      (hlevel : e.Wanted dict_level) (h : Reads dict_level lines tokens) :
      Reads dict_level (line :: lines) (e.data :: tokens)

theorem load_lines_iff {dict_level : ℕ} {lines tokens : List (List UInt8)} {cur_line : ℕ} :
    load_lines dict_level cur_line lines = .ok tokens ↔ Reads dict_level lines tokens := by
  constructor
  · intro h
    induction lines generalizing cur_line tokens with
    | nil =>
      obtain rfl := Except.ok.inj h
      exact .nil
    | cons line lines ih =>
      rw [load_lines] at h
      cases hline : load_line dict_level line with
      | error message => rw [hline] at h; cases h
      | ok token =>
        rw [hline] at h
        obtain ⟨rest, hrest, rfl⟩ := of_map_ok h
        cases token with
        | none => exact .pass (load_line_none_iff.mp hline) (ih hrest)
        | some data =>
          obtain ⟨e, htext, rfl, hlevel⟩ := load_line_iff.mp hline
          exact .entry htext hlevel (ih hrest)
  · intro h
    induction h generalizing cur_line with
    | nil => rfl
    | pass hline h ih =>
      rw [load_lines, load_line_none_iff.mpr hline]
      dsimp only
      rw [ih]
      rfl
    | @entry e line lines tokens hline hlevel h ih =>
      rw [load_lines, load_line_iff.mpr ⟨e, hline, rfl, hlevel⟩]
      dsimp only
      rw [ih]
      rfl

/-- **The first line that is wrong** is the one that is reported. -/
theorem load_lines_error {dict_level : ℕ} {lines : List (List UInt8)} {cur_line : ℕ} {fatal : Fatal}
    (h : load_lines dict_level cur_line lines = .error fatal) :
    ∃ before line after tokens, lines = before ++ line :: after ∧ fatal.cur_line = cur_line + before.length + 1 ∧
      Reads dict_level before tokens ∧ load_line dict_level line = .error fatal.message := by
  induction lines generalizing cur_line with
  | nil => cases h
  | cons line lines ih =>
    rw [load_lines] at h
    cases hline : load_line dict_level line with
    | error message =>
      rw [hline] at h
      obtain rfl := Except.error.inj h
      exact ⟨[], line, lines, [], rfl, rfl, .nil, hline⟩
    | ok token =>
      rw [hline] at h
      obtain ⟨before, bad, after, tokens, rfl, hcount, hreads, hbad⟩ := ih (of_map_error h)
      have hnext : fatal.cur_line = cur_line + (line :: before).length + 1 := by
        rw [hcount, List.length_cons]
        omega
      cases token with
      | none => exact ⟨line :: before, bad, after, _, rfl, hnext, .pass (load_line_none_iff.mp hline) hreads, hbad⟩
      | some data =>
        obtain ⟨e, htext, rfl, hlevel⟩ := load_line_iff.mp hline
        exact ⟨line :: before, bad, after, _, rfl, hnext, .entry htext hlevel hreads, hbad⟩

/-- A line that is wrong is no entry that is loaded, and not passed over. -/
theorem bad_line {dict_level : ℕ} {line : List UInt8} {message : String}
    (h : load_line dict_level line = .error message) :
    ¬ Passed dict_level line ∧ ∀ e : Entry, trim line = e.text → ¬ e.Wanted dict_level := by
  refine ⟨fun hpass => ?_, fun e htext hlevel => ?_⟩
  · rw [load_line_none_iff.mpr hpass] at h
    cases h
  · rw [load_line_iff.mpr ⟨e, htext, rfl, hlevel⟩] at h
    cases h

/-- **A dictionary file is accepted** just if each of its lines is an entry, or is passed over; its tokens are those of the
entries, in their order. If it is not, the first line that is neither is reported. -/
theorem load_extras_file_ok (dict_level : ℕ) (file : List UInt8) :
    (∀ tokens, load_extras_file dict_level file = .ok tokens ↔ Reads dict_level (fgets (MAX_LINE - 2) file) tokens) ∧
      ∀ fatal, load_extras_file dict_level file = .error fatal →
        ∃ before line after tokens, fgets (MAX_LINE - 2) file = before ++ line :: after ∧
          fatal.cur_line = before.length + 1 ∧ Reads dict_level before tokens ∧ ¬ Passed dict_level line ∧
          ∀ e : Entry, trim line = e.text → ¬ e.Wanted dict_level := by
  refine ⟨fun tokens => load_lines_iff, fun fatal h => ?_⟩
  obtain ⟨before, line, after, tokens, hlines, hcount, hreads, hbad⟩ := load_lines_error h
  rw [Nat.zero_add] at hcount
  exact ⟨before, line, after, tokens, hlines, hcount, hreads, bad_line hbad⟩

/-- **Tokens that are read** are not empty, and not too long. -/
theorem tokens_ok {dict_level : ℕ} {lines tokens : List (List UInt8)} (h : Reads dict_level lines tokens) :
    ∀ u ∈ tokens, u ≠ [] ∧ u.length ≤ MAX_DICT_FILE := by
  induction h with
  | nil => exact fun u hu => absurd hu List.not_mem_nil
  | pass hline h ih => exact ih
  | @entry e line lines tokens hline hlevel h ih =>
    intro u hu
    rcases List.mem_cons.mp hu with rfl | hu
    · exact ⟨e.filled, e.small⟩
    · exact ih u hu

/-- In every session with a dictionary file, the dictionaries are such tokens as the deterministic stages rely on. -/
def tokens_of_file {q : Foundation.Qsort ExtraData} {dict_level n : ℕ} {file : List UInt8} {old files : Files}
    {user : List (List UInt8)} {autos : Autos} (hfile : load_extras_file dict_level file = .ok user)
    (h : Valid n old (load_extras q user) autos files) (random : ℕ → ℕ → ℕ) (past_end : UInt8) : DetExtras.Tokens :=
  .of_session h (tokens_ok (load_lines_iff.mp hfile)) random past_end

/-! ### Writing a file -/

/-- A line to be written. -/
inductive Item
  /-- An entry. -/
  | entry (e : Entry)
  /-- A comment. -/
  | comment (s : List UInt8)
  /-- An empty line. -/
  | blank

/-- The text of a line. -/
def Item.text : Item → List UInt8
  | .entry e => e.text
  | .comment s => 35 :: s
  | .blank => []

/-- The token of a line, if it is loaded. -/
def Item.token (dict_level : ℕ) : Item → Option (List UInt8)
  | .entry e => if e.level.all fun digits => atoi digits ≤ dict_level then some e.data else none
  | .comment _ => none
  | .blank => none

/-- A line that is one line in the file. -/
structure Item.Plain (item : Item) : Prop where
  /-- It is short. -/
  short : item.text.length + 1 < MAX_LINE
  /-- It is not broken. -/
  unbroken : 10 ∉ item.text
  /-- An entry starts with a byte that is seen. -/
  seen : ∀ e, item = .entry e → ∀ b ∈ e.text.head?, isspace b = false

theorem written_print {b : UInt8} {w : List UInt8} (h : Written b w) : 0 ∉ w := by
  intro hmem
  cases h with
  | plain hmin hmax h =>
    rw [← List.mem_singleton.mp hmem] at hmin
    exact absurd hmin (by decide)
  | escaped h =>
    rcases List.mem_cons.mp hmem with hzero | hmem
    · exact absurd hzero (by decide)
    · rw [← List.mem_singleton.mp hmem] at h
      exact absurd h (by decide)
  | @hex a b ha hb =>
    have hdigit : isxdigit 0 = false := rfl
    simp only [List.mem_cons, List.not_mem_nil, or_false] at hmem
    rcases hmem with hzero | hzero | hzero | hzero
    · exact absurd hzero (by decide)
    · exact absurd hzero (by decide)
    · rw [← hzero, hdigit] at ha
      exact absurd ha Bool.false_ne_true
    · rw [← hzero, hdigit] at hb
      exact absurd hb Bool.false_ne_true

theorem body_print {data s : List UInt8} (h : Body data s) : 0 ∉ s := by
  induction h with
  | nil => exact List.not_mem_nil
  | cons hb h ih => exact fun hmem => (List.mem_append.mp hmem).elim (written_print hb) ih

/-- The text of an entry does not end early. -/
theorem Entry.text_print (e : Entry) : 0 ∉ e.text := by
  intro hmem
  rw [Entry.text, Entry.front] at hmem
  simp only [List.mem_append, List.mem_cons, List.not_mem_nil, or_false] at hmem
  rcases hmem with (hlabel | hlevel | hequals | hquote | hbody) | hquote
  · exact absurd (e.label_ok 0 hlabel) (by decide)
  · cases hdigits : e.level with
    | none =>
      rw [hdigits] at hlevel
      exact absurd hlevel List.not_mem_nil
    | some digits =>
      rw [hdigits] at hlevel
      rcases List.mem_cons.mp hlevel with hat | hdigit
      · exact absurd hat (by decide)
      · exact absurd (e.level_ok digits hdigits 0 hdigit) (by decide)
  · exact absurd (e.equals_ok 0 hequals) (by decide)
  · exact absurd hquote (by decide)
  · exact body_print e.body_ok hbody
  · exact absurd hquote (by decide)

/-- **A line** is read as it was written. -/
theorem fgets_line {line file : List UInt8} {n : ℕ} (hn : line.length ≤ n) (hline : 10 ∉ line) :
    fgets n (line ++ 10 :: file) = (line ++ [10]) :: fgets (MAX_LINE - 2) file := by
  induction line generalizing n with
  | nil => rw [List.nil_append, fgets, if_pos (.inl rfl), List.nil_append]
  | cons b line ih =>
    rw [List.length_cons] at hn
    have hb : ¬ (b = 10 ∨ n = 0) :=
      not_or.mpr ⟨fun hb => hline (hb ▸ List.mem_cons_self), by omega⟩
    rw [List.cons_append, fgets, if_neg hb, ih (by omega) fun hin => hline (List.mem_cons_of_mem b hin), List.cons_append]

theorem fgets_lines {lines : List (List UInt8)} (h : ∀ line ∈ lines, line.length + 1 < MAX_LINE ∧ 10 ∉ line) :
    fgets (MAX_LINE - 2) (lines.flatMap (· ++ [10])) = lines.map (· ++ [10]) := by
  induction lines with
  | nil => rfl
  | cons line lines ih =>
    obtain ⟨hshort, hline⟩ := h line List.mem_cons_self
    rw [List.flatMap_cons, List.append_assoc, List.singleton_append, fgets_line (by omega) hline,
      ih fun l hl => h l (List.mem_cons_of_mem line hl), List.map_cons]

/-- **An entry** is trimmed to itself. -/
theorem Entry.trim_text (e : Entry) (h : ∀ b ∈ e.text.head?, isspace b = false) : trim (e.text ++ [10]) = e.text := by
  have hzero : (e.text ++ [10]).takeWhile (· ≠ 0) = e.text ++ [10] := by
    refine List.takeWhile_eq_self_iff.mpr fun b hb => ?_
    rcases List.mem_append.mp hb with hb | hb
    · exact decide_eq_true fun hz => e.text_print (hz ▸ hb)
    · rw [List.mem_singleton.mp hb]
      rfl
  have hblank : (e.text ++ [10]).dropWhile isspace = e.text ++ [10] := by
    refine dropWhile_iff.mpr ⟨fun b hb => h b ?_, [], fun b hb => absurd hb List.not_mem_nil, rfl⟩
    rwa [List.head?_append_of_ne_nil _ e.text_ne_nil] at hb
  rw [trim, hzero, hblank, List.rdropWhile_concat_pos _ _ _ rfl, Entry.text, List.rdropWhile_concat_neg _ _ _ (by decide)]

/-- A comment stays one. -/
theorem trim_comment (s : List UInt8) : ∃ s', trim (35 :: s ++ [10]) = 35 :: s' := by
  have hstart : ((35 :: s ++ [10]).takeWhile (· ≠ 0)).dropWhile isspace = 35 :: (s ++ [10]).takeWhile (· ≠ 0) := by
    rw [List.cons_append, List.takeWhile_cons_of_pos (by decide), List.dropWhile_cons_of_neg (by decide)]
  rw [trim, hstart]
  have hne : (35 :: (s ++ [10]).takeWhile (· ≠ 0)).rdropWhile isspace ≠ [] := fun hnil =>
    absurd (List.rdropWhile_eq_nil_iff.mp hnil 35 List.mem_cons_self) (by decide)
  obtain ⟨b, s', hs⟩ := List.exists_cons_of_ne_nil hne
  obtain ⟨rest, hrest⟩ := List.rdropWhile_prefix isspace (l := 35 :: (s ++ [10]).takeWhile (· ≠ 0))
  rw [hs, List.cons_append] at hrest
  obtain ⟨rfl, -⟩ := List.cons.inj hrest
  exact ⟨s', hs⟩

/-- **Files that are written** are read back: the tokens of all entries whose level is loaded, in their order. -/
theorem read_back (dict_level : ℕ) (items : List Item) (h : ∀ item ∈ items, item.Plain) :
    load_extras_file dict_level (items.flatMap fun item => item.text ++ [10]) =
      .ok (items.filterMap (Item.token dict_level)) := by
  rw [load_extras_file, load_lines_iff]
  have hlines : fgets (MAX_LINE - 2) ((items.map Item.text).flatMap (· ++ [10])) =
      (items.map Item.text).map (· ++ [10]) := by
    refine fgets_lines fun line hline => ?_
    obtain ⟨item, hitem, rfl⟩ := List.mem_map.mp hline
    exact ⟨(h item hitem).short, (h item hitem).unbroken⟩
  rw [List.flatMap_map] at hlines
  rw [hlines]
  clear hlines
  induction items with
  | nil => exact .nil
  | cons item items ih =>
    have hrest := ih fun i hi => h i (List.mem_cons_of_mem item hi)
    rw [List.map_cons, List.map_cons]
    cases item with
    | blank => exact .pass (.empty rfl) hrest
    | comment s =>
      obtain ⟨s', hs⟩ := trim_comment s
      exact .pass (.comment hs) hrest
    | entry e =>
      have htext := e.trim_text ((h (.entry e) List.mem_cons_self).seen e rfl)
      rw [List.filterMap_cons, Item.token]
      by_cases hlevel : (e.level.all fun digits => atoi digits ≤ dict_level) = true
      · rw [if_pos hlevel]
        refine .entry htext (fun digits hdigits => ?_) hrest
        rw [hdigits] at hlevel
        exact of_decide_eq_true hlevel
      · rw [if_neg hlevel]
        refine .pass ?_ hrest
        cases hdigits : e.level with
        | none => exact absurd (by rw [hdigits]; rfl) hlevel
        | some digits =>
          rw [hdigits] at hlevel
          refine .level (s := digits ++ (e.equals ++ 34 :: e.body)) e.label_ok ?_ ?_
          · show trim (e.text ++ [10]) = _
            rw [htext, Entry.text, Entry.front, hdigits, List.append_assoc]
            rfl
          · rw [atoi_front (e.level_ok digits hdigits) e.equals_ok]
            exact not_le.mp fun hle => hlevel (decide_eq_true hle)

/-- `verb@1 = "GE\x54"`. -/
def get_entry : Entry where
  label := [118, 101, 114, 98]
  label_ok := List.all_eq_true.mp rfl
  level := some [49]
  level_ok digits h := by
    obtain rfl := Option.some.inj h
    exact List.all_eq_true.mp rfl
  equals := [32, 61, 32]
  equals_ok := List.all_eq_true.mp rfl
  data := [71, 69, 84]
  body := [71, 69, 92, 120, 53, 52]
  body_ok := .cons (.plain (by decide) (by decide) (by decide)) (.cons (.plain (by decide) (by decide) (by decide))
    (.cons (.hex (a := 53) (b := 52) rfl rfl) .nil))
  filled := List.cons_ne_nil _ _
  small := by decide

theorem read_back_get :
    load_extras_file 1
        (([.comment [32, 118], .blank, .entry get_entry] : List Item).flatMap fun item => item.text ++ [10]) =
      .ok [[71, 69, 84]] :=
  read_back 1 _ fun item hitem => by
    simp only [List.mem_cons, List.not_mem_nil, or_false] at hitem
    rcases hitem with rfl | rfl | rfl
    · exact ⟨by decide, by decide, fun e he => by cases he⟩
    · exact ⟨by decide, by decide, fun e he => by cases he⟩
    · refine ⟨by decide, by decide, fun e he b hb => ?_⟩
      obtain rfl := Item.entry.inj he
      obtain rfl := Option.some.inj hb
      rfl

end SEDiff.Afl.DictionaryFile

import Mathlib.Data.List.Infix
import Mathlib.Data.List.DropRight

/-!
# Strings and lines

A Python string as the list of its characters, and the lines of a file.

## What is proved

* `lines_unlines` — reading a text line by line gives its lines.
* `unlines_blank_inj` — the lines before an empty one are known from the text.
* `drop_unlines` — reading it from any offset gives the rest of one line and the lines after it.
-/

namespace SEDiff.Foundation

/-- A string. -/
abbrev Str := List Char

namespace Str

instance : LawfulBEq Str := List.instLawfulBEq

/-- What `strip` takes off. -/
def isSpace (c : Char) : Bool := c ∈ [' ', '\t', '\n', '\r', Char.ofNat 11, Char.ofNat 12]

/-- `s.lstrip(chars)`. -/
def lstrip (s : Str) (p : Char → Bool) : Str := s.dropWhile p

/-- `s.rstrip(chars)`. -/
def rstrip (s : Str) (p : Char → Bool) : Str := s.rdropWhile p

/-- `s.strip()`. -/
def strip (s : Str) : Str := rstrip (lstrip s isSpace) isSpace

/-- `s.rfind(c)`, where `-1` is `none`. -/
def rfind : Str → Char → Option ℕ
  | [], _ => none
  | x :: s, c =>
    match rfind s c with
    | some i => some (i + 1)
    | none => if x = c then some 0 else none

/-- `s.rsplit(tok, 1)`, when it has two parts. -/
def rsplit : Str → Str → Option (Str × Str)
  | [], _ => none
  | x :: s, tok =>
    match rsplit s tok with
    | some (l, r) => some (x :: l, r)
    | none => if tok <+: x :: s then some ([], (x :: s).drop tok.length) else none

/-- Stripping leaves a part of the string. -/
theorem strip_infix (s : Str) : strip s <:+: s :=
  ((List.rdropWhile_prefix _ _).isInfix).trans (List.dropWhile_suffix _).isInfix

end Str

/-! ### Lines -/

section Lines

variable {α : Type*} (nl : α)

/-- A line with its newline. -/
def line (l : List α) : List α := l ++ [nl]

/-- The text of these lines. -/
def unlines (ls : List (List α)) : List α := ls.flatMap (line nl)

@[simp] theorem unlines_nil : unlines nl ([] : List (List α)) = [] := rfl

@[simp] theorem unlines_cons (l : List α) (ls : List (List α)) :
    unlines nl (l :: ls) = line nl l ++ unlines nl ls := rfl

@[simp] theorem unlines_append (ls ls' : List (List α)) :
    unlines nl (ls ++ ls') = unlines nl ls ++ unlines nl ls' := List.flatMap_append

@[simp] theorem length_line (l : List α) : (line nl l).length = l.length + 1 := by simp [line]

variable [DecidableEq α]

/-- The lines of a text, each with its newline. -/
def lines : List α → List (List α)
  | [] => []
  | c :: cs =>
    if c = nl then [c] :: lines cs
    else match lines cs with
      | [] => [[c]]
      | l :: ls => (c :: l) :: ls

variable {nl}

/-- The first line ends at the first newline. -/
theorem lines_line_append {l : List α} (hl : nl ∉ l) (cs : List α) :
    lines nl (line nl l ++ cs) = line nl l :: lines nl cs := by
  induction l with
  | nil => simp [line, lines]
  | cons c l ih =>
    have hc : c ≠ nl := fun h => hl (h ▸ List.mem_cons_self)
    have hrest := ih fun h => hl (List.mem_cons_of_mem _ h)
    rw [line, List.cons_append, List.cons_append, lines, if_neg hc]
    rw [line] at hrest
    rw [hrest]

/-- **Reading a text line by line** gives its lines. -/
theorem lines_unlines {ls : List (List α)} (hls : ∀ l ∈ ls, nl ∉ l) :
    lines nl (unlines nl ls) = ls.map (line nl) := by
  induction ls with
  | nil => rfl
  | cons l ls ih =>
    rw [unlines_cons, lines_line_append (hls l List.mem_cons_self), List.map_cons,
      ih fun l' hl' => hls l' (List.mem_cons_of_mem _ hl')]

/-- The first line of a text, and the rest. -/
theorem line_append_inj {l l' s s' : List α} (hl : nl ∉ l) (hl' : nl ∉ l') (h : line nl l ++ s = line nl l' ++ s') :
    l = l' ∧ s = s' := by
  have hlines := congrArg (lines nl) h
  rw [lines_line_append hl, lines_line_append hl'] at hlines
  obtain rfl := List.append_cancel_right (List.cons.inj hlines).1
  exact ⟨rfl, List.append_cancel_left h⟩

theorem unlines_inj {ls ls' : List (List α)} (hls : ∀ l ∈ ls, nl ∉ l) (hls' : ∀ l ∈ ls', nl ∉ l)
    (h : unlines nl ls = unlines nl ls') : ls = ls' := by
  have hlines := congrArg (lines nl) h
  rw [lines_unlines hls, lines_unlines hls'] at hlines
  exact List.map_injective_iff.mpr (fun l l' h => List.append_cancel_right h) hlines

/-- Lines end at the first empty one. -/
theorem unlines_blank_inj {ls ls' : List (List α)} {s s' : List α} (hls : ∀ l ∈ ls, nl ∉ l ∧ l ≠ [])
    (hls' : ∀ l ∈ ls', nl ∉ l ∧ l ≠ []) (h : unlines nl ls ++ nl :: s = unlines nl ls' ++ nl :: s') : ls = ls' ∧ s = s' := by
  have hblank : ∀ {s}, nl :: s = line nl [] ++ s := rfl
  induction ls generalizing ls' with
  | nil =>
    cases ls' with
    | nil => exact ⟨rfl, (List.cons.inj h).2⟩
    | cons l ls' =>
      obtain ⟨hl, hne⟩ := hls' l List.mem_cons_self
      rw [unlines_nil, unlines_cons, List.nil_append, hblank, List.append_assoc] at h
      exact absurd (line_append_inj List.not_mem_nil hl h).1.symm hne
  | cons l ls ih =>
    obtain ⟨⟨hl, hne⟩, htail⟩ := List.forall_mem_cons.mp hls
    cases ls' with
    | nil =>
      rw [unlines_nil, unlines_cons, List.nil_append, hblank, List.append_assoc] at h
      exact absurd (line_append_inj hl List.not_mem_nil h).1 hne
    | cons l' ls' =>
      obtain ⟨⟨hl', _⟩, htail'⟩ := List.forall_mem_cons.mp hls'
      rw [unlines_cons, unlines_cons, List.append_assoc, List.append_assoc] at h
      obtain ⟨rfl, hrest⟩ := line_append_inj hl hl' h
      obtain ⟨rfl, hs⟩ := ih htail htail' hrest
      exact ⟨rfl, hs⟩

omit [DecidableEq α] in
/-- **Every offset is in a line**: what follows it is the rest of that line and the lines after it. -/
theorem drop_unlines {ls : List (List α)} {n : ℕ} (hn : n < (unlines nl ls).length) :
    ∃ pre l post d, ls = pre ++ l :: post ∧ d ≤ l.length ∧ n = (unlines nl pre).length + d ∧
      ∀ cs, (unlines nl ls ++ cs).drop n = line nl (l.drop d) ++ (unlines nl post ++ cs) := by
  induction ls generalizing n with
  | nil => exact absurd hn (Nat.not_lt_zero n)
  | cons l ls ih =>
    rw [unlines_cons, List.length_append, length_line] at hn
    by_cases hin : n ≤ l.length
    · refine ⟨[], l, ls, n, rfl, hin, (Nat.zero_add n).symm, fun cs => ?_⟩
      rw [unlines_cons, List.append_assoc, List.drop_append_of_le_length (by rw [length_line]; omega), line,
        List.drop_append_of_le_length hin, line]
    · obtain ⟨pre, l', post, d, rfl, hd, hpos, hdrop⟩ := ih (n := n - (l.length + 1)) (by omega)
      refine ⟨l :: pre, l', post, d, rfl, hd, ?_, fun cs => ?_⟩
      · rw [unlines_cons, List.length_append, length_line]
        omega
      · rw [← hdrop cs, unlines_cons, List.append_assoc, List.drop_append, length_line,
          List.drop_eq_nil_of_le (by rw [length_line]; omega), List.nil_append]

end Lines

end SEDiff.Foundation

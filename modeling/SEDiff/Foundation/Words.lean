import Mathlib.Data.List.TakeWhile
import Mathlib.Data.List.Chain
import Mathlib.Data.List.Forall2

/-!
# Words

A list read as maximal words and the marks between them, where `p` says what words are made of.

## What is proved

* `unlex_lex`, `lex_unlex` — lists are the same as separated lexemes.
* `takeWhile_unlex` — what cannot tell the elements of words apart takes whole lexemes.
-/

namespace SEDiff.Foundation

/-- A word, or a mark that is in no word. -/
inductive Lexeme (α : Type*)
  /-- A word. -/
  | word (w : List α)
  /-- A mark. -/
  | mark (a : α)
  deriving DecidableEq

namespace Lexeme

variable {α : Type*}

/-- What a lexeme is written as. -/
def text : Lexeme α → List α
  | word w => w
  | mark a => [a]

/-- Whether all of a lexeme satisfies `q`. -/
def sat (q : α → Bool) : Lexeme α → Bool
  | word w => w.all q
  | mark a => q a

end Lexeme

namespace Words

open Lexeme

variable {α : Type*}

/-- What lexemes are written as. -/
def unlex (ls : List (Lexeme α)) : List α := ls.flatMap text

@[simp] theorem unlex_nil : unlex ([] : List (Lexeme α)) = [] := rfl

@[simp] theorem unlex_cons (l : Lexeme α) (ls : List (Lexeme α)) : unlex (l :: ls) = l.text ++ unlex ls :=
  List.flatMap_cons

@[simp] theorem unlex_append (ls ls' : List (Lexeme α)) : unlex (ls ++ ls') = unlex ls ++ unlex ls' :=
  List.flatMap_append

/-- Taking lexemes is taking what they are written as. -/
theorem take_unlex (ls : List (Lexeme α)) (n : ℕ) : (unlex ls).take (unlex (ls.take n)).length = unlex (ls.take n) := by
  have hsplit : unlex ls = unlex (ls.take n) ++ unlex (ls.drop n) := by
    rw [← unlex_append, List.take_append_drop]
  rw [hsplit, List.take_left]

theorem drop_unlex (ls : List (Lexeme α)) (n : ℕ) : (unlex ls).drop (unlex (ls.take n)).length = unlex (ls.drop n) := by
  have hsplit : unlex ls = unlex (ls.take n) ++ unlex (ls.drop n) := by
    rw [← unlex_append, List.take_append_drop]
  rw [hsplit, List.drop_left]

section

variable (p : α → Bool)

/-- One more element of words, which extends the word it comes before. -/
def extend (a : α) : List (Lexeme α) → List (Lexeme α)
  | [] => [.word [a]]
  | .word w :: ls => .word (a :: w) :: ls
  | .mark b :: ls => .word [a] :: .mark b :: ls

/-- One more element. -/
def lexCons (a : α) (ls : List (Lexeme α)) : List (Lexeme α) := if p a then extend a ls else .mark a :: ls

/-- The lexemes of a list. -/
def lex : List α → List (Lexeme α)
  | [] => []
  | a :: l => lexCons p a (lex l)

/-- The word of a lexeme is made of what words are made of, and a mark is not. -/
inductive Proper : Lexeme α → Prop
  /-- A word is not empty. -/
  | word {w : List α} (hne : w ≠ []) (hw : ∀ a ∈ w, p a = true) : Proper (.word w)
  /-- A mark. -/
  | mark {a : α} (ha : p a = false) : Proper (.mark a)

/-- Between two words is a mark. -/
def Apart : Lexeme α → Lexeme α → Prop
  | .word _, .word _ => False
  | _, _ => True

/-- Proper lexemes, no two words of which are next to each other. -/
structure Lexed (ls : List (Lexeme α)) : Prop where
  /-- They are proper. -/
  proper : ∀ l ∈ ls, Proper p l
  /-- Words are apart. -/
  apart : ls.IsChain Apart

end

variable {p : α → Bool}

@[simp] theorem apart_mark_left (a : α) (l : Lexeme α) : Apart (.mark a) l := by
  cases l <;> trivial

@[simp] theorem apart_mark_right (l : Lexeme α) (a : α) : Apart l (.mark a) := by
  cases l <;> trivial

theorem Proper.text_ne_nil {l : Lexeme α} (hl : Proper p l) : l.text ≠ [] := by
  cases hl with
  | word hne _ => exact hne
  | mark _ => exact List.cons_ne_nil _ _

theorem Lexed.nil : Lexed p ([] : List (Lexeme α)) := ⟨fun _ h => absurd h List.not_mem_nil, List.IsChain.nil⟩

theorem Lexed.tail {l : Lexeme α} {ls : List (Lexeme α)} (h : Lexed p (l :: ls)) : Lexed p ls :=
  ⟨fun l' hl' => h.proper l' (List.mem_cons_of_mem _ hl'), h.apart.tail⟩

theorem Lexed.mark {a : α} {ls : List (Lexeme α)} (ha : p a = false) (h : Lexed p ls) : Lexed p (.mark a :: ls) := by
  refine ⟨List.forall_mem_cons.mpr ⟨.mark ha, h.proper⟩, ?_⟩
  cases ls with
  | nil => exact List.IsChain.singleton _
  | cons l ls => exact List.isChain_cons_cons.mpr ⟨apart_mark_left a l, h.apart⟩

theorem Lexed.word {w : List α} {ls : List (Lexeme α)} (hne : w ≠ []) (hw : ∀ a ∈ w, p a = true)
    (h : Lexed p ls) (hls : ∀ w', ls.head? ≠ some (.word w')) : Lexed p (.word w :: ls) := by
  refine ⟨List.forall_mem_cons.mpr ⟨.word hne hw, h.proper⟩, ?_⟩
  cases ls with
  | nil => exact List.IsChain.singleton _
  | cons l ls =>
    refine List.isChain_cons_cons.mpr ⟨?_, h.apart⟩
    cases l with
    | word w' => exact absurd rfl (hls w')
    | mark a => trivial

theorem Lexed.take {ls : List (Lexeme α)} (h : Lexed p ls) (n : ℕ) : Lexed p (ls.take n) :=
  ⟨fun l hl => h.proper l (List.mem_of_mem_take hl), h.apart.take n⟩

theorem Lexed.drop {ls : List (Lexeme α)} (h : Lexed p ls) (n : ℕ) : Lexed p (ls.drop n) :=
  ⟨fun l hl => h.proper l (List.mem_of_mem_drop hl), h.apart.drop n⟩

/-- Lexemes are not written as nothing. -/
theorem Lexed.unlex_ne_nil {ls : List (Lexeme α)} (h : Lexed p ls) (hne : ls ≠ []) : unlex ls ≠ [] := by
  cases ls with
  | nil => exact absurd rfl hne
  | cons l ls =>
    rw [unlex_cons]
    exact List.append_ne_nil_of_left_ne_nil (h.proper l List.mem_cons_self).text_ne_nil _

/-! ### Reading back -/

theorem lexed_extend {ls : List (Lexeme α)} {a : α} (ha : p a = true) (h : Lexed p ls) : Lexed p (extend a ls) := by
  have hsingle : ∀ b ∈ [a], p b = true := List.forall_mem_singleton.mpr ha
  cases ls with
  | nil => exact Lexed.word (List.cons_ne_nil _ _) hsingle h fun _ hw' => by cases hw'
  | cons l ls =>
    cases l with
    | word w =>
      obtain ⟨_, hw⟩ | _ := h.proper _ List.mem_cons_self
      refine Lexed.word (List.cons_ne_nil _ _) (List.forall_mem_cons.mpr ⟨ha, hw⟩) h.tail fun w' hw' => ?_
      obtain ⟨ls', rfl⟩ := List.head?_eq_some_iff.mp hw'
      exact (List.isChain_cons_cons.mp h.apart).1
    | mark b => exact Lexed.word (List.cons_ne_nil _ _) hsingle h fun w' hw' => by cases hw'

theorem lexed_lexCons {ls : List (Lexeme α)} (a : α) (h : Lexed p ls) : Lexed p (lexCons p a ls) := by
  rw [lexCons]
  split_ifs with ha
  · exact lexed_extend ha h
  · exact Lexed.mark (Bool.eq_false_iff.mpr ha) h

/-- **Lists are read** as proper lexemes. -/
theorem lexed_lex (l : List α) : Lexed p (lex p l) := by
  induction l with
  | nil => exact Lexed.nil
  | cons a l ih => exact lexed_lexCons a ih

theorem unlex_extend (a : α) (ls : List (Lexeme α)) : unlex (extend a ls) = a :: unlex ls := by
  cases ls with
  | nil => rfl
  | cons l ls => cases l <;> rfl

theorem unlex_lexCons (a : α) (ls : List (Lexeme α)) : unlex (lexCons p a ls) = a :: unlex ls := by
  rw [lexCons]
  split_ifs
  · exact unlex_extend a ls
  · rfl

/-- **Nothing is lost** in reading. -/
@[simp] theorem unlex_lex (l : List α) : unlex (lex p l) = l := by
  induction l with
  | nil => rfl
  | cons a l ih => rw [lex, unlex_lexCons, ih]

/-- A whole word is read. -/
theorem lex_word_append {w l : List α} (hne : w ≠ []) (hw : ∀ a ∈ w, p a = true)
    (hl : ∀ w', (lex p l).head? ≠ some (.word w')) : lex p (w ++ l) = .word w :: lex p l := by
  induction w with
  | nil => exact absurd rfl hne
  | cons a w ih =>
    obtain ⟨ha, hw⟩ := List.forall_mem_cons.mp hw
    rw [List.cons_append, lex, lexCons, if_pos ha]
    by_cases hnil : w = []
    · subst hnil
      rw [List.nil_append]
      cases hls : lex p l with
      | nil => rfl
      | cons l' ls =>
        cases l' with
        | word w' => exact absurd (by rw [hls]; rfl) (hl w')
        | mark b => rfl
    · rw [ih hnil hw, extend]

/-- **Lexemes are read back** as they were written. -/
theorem lex_unlex {ls : List (Lexeme α)} (h : Lexed p ls) : lex p (unlex ls) = ls := by
  induction ls with
  | nil => rfl
  | cons l ls ih =>
    have hrest := ih h.tail
    obtain ⟨hne, hw⟩ | ha := h.proper _ List.mem_cons_self
    · rename_i w
      rw [unlex_cons, text, lex_word_append hne hw, hrest]
      intro w' hw'
      rw [hrest] at hw'
      obtain ⟨ls', rfl⟩ := List.head?_eq_some_iff.mp hw'
      exact (List.isChain_cons_cons.mp h.apart).1
    · rw [unlex_cons, text, List.singleton_append, lex, lexCons, if_neg (by simp [ha]), hrest]

/-- Lexemes are written in one way only. -/
theorem unlex_inj {ls ls' : List (Lexeme α)} (h : Lexed p ls) (h' : Lexed p ls') : unlex ls = unlex ls' ↔ ls = ls' := by
  refine ⟨fun heq => ?_, congrArg unlex⟩
  rw [← lex_unlex h, heq, lex_unlex h']

/-- What is written as a word is that word. -/
theorem unlex_eq_word {ls : List (Lexeme α)} (h : Lexed p ls) {w : List α} (hne : w ≠ []) (hw : ∀ a ∈ w, p a = true) :
    unlex ls = w ↔ ls = [.word w] := by
  have hword : Lexed p [.word w] := Lexed.word hne hw Lexed.nil fun _ hw' => by cases hw'
  rw [← unlex_inj h hword, unlex_cons, unlex_nil, List.append_nil, text]

/-! ### Runs -/

variable {q : α → Bool}

/-- A run comes first. -/
theorem take_length_takeWhile (l : List α) : l.take (l.takeWhile q).length = l.takeWhile q :=
  (List.prefix_iff_eq_take.mp (List.takeWhile_prefix q)).symm

/-- What comes after a run. -/
theorem drop_length_takeWhile (l : List α) : l.drop (l.takeWhile q).length = l.dropWhile q := by
  induction l with
  | nil => rfl
  | cons a l ih =>
    rw [List.takeWhile_cons, List.dropWhile_cons]
    split_ifs
    · exact ih
    · rfl

/-- **A run** of elements is a run of lexemes, when the elements of words are all alike. -/
theorem takeWhile_unlex {b : Bool} (hq : ∀ a, p a = true → q a = b) {ls : List (Lexeme α)} (h : Lexed p ls) :
    (unlex ls).takeWhile q = unlex (ls.takeWhile (sat q)) := by
  induction ls with
  | nil => rfl
  | cons l ls ih =>
    rw [unlex_cons]
    obtain ⟨hne, hw⟩ | ha := h.proper _ List.mem_cons_self
    · rename_i w
      cases b with
      | true =>
        have hall : ∀ a ∈ w, q a = true := fun a ha => hq a (hw a ha)
        have hsat : sat q (.word w) = true := List.all_eq_true.mpr hall
        rw [List.takeWhile_cons_of_pos hsat, unlex_cons, text, List.takeWhile_append_of_pos hall, ih h.tail]
      | false =>
        obtain ⟨a, w, rfl⟩ := List.exists_cons_of_ne_nil hne
        have ha : q a = false := hq a (hw a List.mem_cons_self)
        rw [List.takeWhile_cons_of_neg (by simp [sat, ha]), text, List.cons_append,
          List.takeWhile_cons_of_neg (by simp [ha]), unlex_nil]
    · rename_i a
      rw [text, List.singleton_append, List.takeWhile_cons, List.takeWhile_cons, sat, ih h.tail]
      split_ifs <;> rfl

end Words

end SEDiff.Foundation

import SEDiff.Foundation.Cut

/-!
# Replacing a text

How `replace` goes over what is in front of, and behind, the occurrences of a text.

## What is proved

* `replace_append` — before a text in which an occurrence starts, everything is copied.
* `count_replace_lt` — replacing a text that occurs removes characters of it.
-/

namespace SEDiff.Foundation.Str

variable {old new : Str}

theorem replaceFrom_drop (old new : Str) (s : Str) (n : ℕ) : replaceFrom old new n s = replace (s.drop n) old new := by
  induction s generalizing n with
  | nil => cases n <;> rfl
  | cons c s ih =>
    cases n with
    | zero => rfl
    | succ n => rw [replaceFrom, List.drop_succ_cons, ih]

@[simp] theorem replace_nil (old new : Str) : replace [] old new = [] := rfl

/-- A character at which no occurrence starts is copied. -/
theorem replace_cons {c : Char} {s : Str} (h : ¬ old <+: c :: s) : replace (c :: s) old new = c :: replace s old new := by
  rw [replace, replaceFrom, if_neg h]
  rfl

/-- An occurrence is replaced. -/
theorem replace_hit (hne : old ≠ []) (s : Str) : replace (old ++ s) old new = new ++ replace s old new := by
  obtain ⟨c, old', rfl⟩ := List.exists_cons_of_ne_nil hne
  have hpre : c :: old' <+: c :: (old' ++ s) := List.prefix_append (c :: old') s
  rw [replace, List.cons_append, replaceFrom, if_pos hpre, replaceFrom_drop]
  have hdrop : (old' ++ s).drop ((c :: old').length - 1) = s := by simp
  rw [hdrop]

/-- A text without the first character of what is replaced is copied. -/
theorem replace_append {c : Char} {a : Str} (hc : c ∉ a) (s : Str) :
    replace (a ++ s) (c :: old) new = a ++ replace s (c :: old) new := by
  induction a with
  | nil => rfl
  | cons d a ih =>
    rw [List.mem_cons, not_or] at hc
    rw [List.cons_append, replace_cons, ih hc.2, List.cons_append]
    exact fun h => hc.1 (List.cons_prefix_cons.mp h).1

/-- **A text is copied**, or an occurrence starts in it. -/
theorem replace_cases (c : Char) (old new x s : Str) :
    ((∀ a b, x = a ++ c :: b → ¬ old <+: b ++ s) ∧
        replace (x ++ s) (c :: old) new = x ++ replace s (c :: old) new) ∨
      ∃ a b y, x = a ++ c :: b ∧ old <+: b ++ s ∧ replace (x ++ s) (c :: old) new = a ++ (new ++ y) := by
  induction x with
  | nil => exact .inl ⟨fun a b h => by simp at h, rfl⟩
  | cons d x ih =>
    by_cases hhit : d = c ∧ old <+: x ++ s
    · obtain ⟨rfl, r, hr⟩ := hhit
      refine .inr ⟨[], x, replace r (d :: old) new, rfl, ⟨r, hr⟩, ?_⟩
      rw [List.cons_append, ← hr]
      exact replace_hit (List.cons_ne_nil d old) r
    have hstep : replace ((d :: x) ++ s) (c :: old) new = d :: replace (x ++ s) (c :: old) new :=
      replace_cons fun h => hhit ⟨(List.cons_prefix_cons.mp h).1.symm, (List.cons_prefix_cons.mp h).2⟩
    rcases ih with ⟨hmiss, hcopy⟩ | ⟨a, b, y, rfl, hpre, hrep⟩
    · refine .inl ⟨fun a b heq => ?_, by rw [hstep, hcopy]; rfl⟩
      cases a with
      | nil =>
        obtain ⟨rfl, rfl⟩ := List.cons.inj heq
        exact fun h => hhit ⟨rfl, h⟩
      | cons e a => exact hmiss a b (List.cons.inj heq).2
    · exact .inr ⟨d :: a, b, y, rfl, hpre, by rw [hstep, hrep]; rfl⟩

/-- Replacing a text by one without `c` adds no `c`. -/
theorem count_replace_le {c : Char} (hne : old ≠ []) (hnew : c ∉ new) (s : Str) :
    (replace s old new).count c ≤ s.count c := by
  induction hlen : s.length using Nat.strong_induction_on generalizing s with
  | _ n ih =>
    subst hlen
    by_cases hpre : old <+: s
    · obtain ⟨r, rfl⟩ := hpre
      have hpos := List.length_pos_iff.mpr hne
      rw [replace_hit hne, List.count_append, List.count_append, List.count_eq_zero_of_not_mem hnew]
      have := ih r.length (by rw [List.length_append]; omega) r rfl
      omega
    · cases s with
      | nil => simp
      | cons d s =>
        rw [replace_cons hpre, List.count_cons, List.count_cons]
        exact Nat.add_le_add_right (ih s.length (Nat.lt_succ_self _) s rfl) _

/-- **Replacing a text that occurs** removes the characters that the new text does not have. -/
theorem count_replace_lt {c : Char} (hold : c ∈ old) (hnew : c ∉ new) {s : Str} (h : old <:+: s) :
    (replace s old new).count c < s.count c := by
  have hne : old ≠ [] := List.ne_nil_of_mem hold
  induction s with
  | nil => exact absurd (List.infix_nil.mp h) hne
  | cons d s ih =>
    by_cases hpre : old <+: d :: s
    · obtain ⟨r, hr⟩ := hpre
      have hcount := List.count_pos_iff.mpr hold
      have hle := count_replace_le hne hnew r
      rw [← hr, replace_hit hne, List.count_append, List.count_append, List.count_eq_zero_of_not_mem hnew]
      omega
    · rw [replace_cons hpre, List.count_cons, List.count_cons]
      exact Nat.add_lt_add_right (ih ((List.infix_cons_iff.mp h).resolve_left hpre)) _

end SEDiff.Foundation.Str

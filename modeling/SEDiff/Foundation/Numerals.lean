import SEDiff.Foundation.Cut
import Mathlib.Algebra.Order.Field.Rat
import Mathlib.Algebra.Field.Rat
import Mathlib.Tactic.IntervalCases

/-!
# Numerals

Printing integers, and what `int` and `float` read. Numbers are exact.

## What is proved

* `toInt_ofInt`, `toFloat_ofInt` — an integer that is printed is read as that integer.
* `notMem_ofInt` — what is printed is digits, after a minus sign.
* `of_mem_toInt` — only signs, digits and blanks are read.
-/

namespace SEDiff.Foundation.Str

/-! ### Definitions -/

/-- `str(n)`. -/
def ofInt : ℤ → Str
  | .ofNat n => Nat.toDigits 10 n
  | .negSucc n => '-' :: Nat.toDigits 10 (n + 1)

/-- Digits, at least one. -/
def unsigned (s : Str) : Option ℕ := if s ≠ [] ∧ s.all Char.isDigit then some (Nat.ofDigitChars 10 s 0) else none

/-- A sign may come first. -/
def signed {α : Type*} (neg : α → α) (read : Str → Option α) : Str → Option α
  | [] => read []
  | c :: s => if c = '-' then (read s).map neg else if c = '+' then read s else read (c :: s)

/-- `int(s)`, where a `ValueError` is `none`. -/
def toInt (s : Str) : Option ℤ := signed Neg.neg (fun s => (unsigned s).map Int.ofNat) (strip s)

/-- What `float` can read. -/
inductive Num
  /-- A number. -/
  | fin (q : ℚ)
  /-- Plus or minus infinity. -/
  | inf (neg : Bool)
  /-- Not a number. -/
  | nan
  deriving DecidableEq

/-- The number with the other sign. -/
def Num.neg : Num → Num
  | .fin q => .fin (-q)
  | .inf b => .inf !b
  | .nan => .nan

/-- The exponent, if there is one. -/
def exponent : Str → Option ℤ
  | [] => some 0
  | c :: s => if c.toLower = 'e' then signed Neg.neg (fun s => (unsigned s).map Int.ofNat) s else none

/-- Digits and a point, and the exponent. -/
def decimals (s : Str) : Option ℚ :=
  let ip := s.takeWhile Char.isDigit
  let (fp, s) := match s.dropWhile Char.isDigit with
    | [] => ([], [])
    | c :: s => if c = '.' then (s.takeWhile Char.isDigit, s.dropWhile Char.isDigit) else ([], c :: s)
  if ip ++ fp = [] then none
  else (exponent s).map fun e => (Nat.ofDigitChars 10 (ip ++ fp) 0 : ℚ) * 10 ^ (e - fp.length : ℤ)

/-- A number without its sign. -/
def magnitude (s : Str) : Option Num :=
  let lower := s.map Char.toLower
  if lower = "inf".toList ∨ lower = "infinity".toList then some (.inf false)
  else if lower = "nan".toList then some .nan
  else (decimals s).map .fin

/-- `float(s)`, where a `ValueError` is `none`. -/
def toFloat (s : Str) : Option Num := signed Num.neg magnitude (strip s)

/-! ### Digits -/

theorem isSpace_of_isDigit {c : Char} (hc : c.isDigit = true) : isSpace c = false := by
  rw [isSpace, decide_eq_false_iff_not]
  have hnone : ([' ', '\t', '\n', '\r', Char.ofNat 11, Char.ofNat 12].all fun d => !d.isDigit) = true := by decide
  intro hmem
  have hnot := List.all_eq_true.mp hnone c hmem
  rw [hc] at hnot
  exact absurd hnot (by decide)

theorem isDigit_of_mem_toDigits {n : ℕ} {c : Char} (hc : c ∈ Nat.toDigits 10 n) : c.isDigit = true :=
  Nat.isDigit_of_mem_toDigits (by decide) (by decide) hc

/-- Only zero is printed with a zero first. -/
theorem eq_zero_of_toDigits_head {n : ℕ} (h : (Nat.toDigits 10 n).head? = some '0') : n = 0 := by
  induction n using Nat.strongRecOn with
  | _ n ih =>
    obtain hlt | hle := Nat.lt_or_ge n 10
    · rw [Nat.toDigits_of_lt_base hlt] at h
      interval_cases n <;> first | rfl | exact absurd h (by decide)
    · rw [Nat.toDigits_of_base_le (by decide) hle, List.head?_append_of_ne_nil _ Nat.toDigits_ne_nil] at h
      have hzero := ih (n / 10) (by omega) h
      omega

/-- Digits are read as their number. -/
theorem unsigned_toDigits (n : ℕ) : unsigned (Nat.toDigits 10 n) = some n := by
  rw [unsigned, if_pos ⟨Nat.toDigits_ne_nil, List.all_eq_true.mpr fun c hc => isDigit_of_mem_toDigits hc⟩,
    Nat.ofDigitChars_ten_toDigits]

theorem signed_cons {α : Type*} (neg : α → α) (read : Str → Option α) (c : Char) (s : Str) :
    signed neg read (c :: s) = if c = '-' then (read s).map neg else if c = '+' then read s else read (c :: s) := rfl

/-- Digits do not start with a sign. -/
theorem signed_toDigits {α : Type*} (neg : α → α) (read : Str → Option α) (n : ℕ) :
    signed neg read (Nat.toDigits 10 n) = read (Nat.toDigits 10 n) := by
  cases hd : Nat.toDigits 10 n with
  | nil => rfl
  | cons c s =>
    have hc : c.isDigit = true := isDigit_of_mem_toDigits (hd ▸ List.mem_cons_self)
    have hminus : c ≠ '-' := by
      rintro rfl
      exact absurd hc (by decide)
    have hplus : c ≠ '+' := by
      rintro rfl
      exact absurd hc (by decide)
    rw [signed_cons, if_neg hminus, if_neg hplus]

theorem signed_minus {α : Type*} (neg : α → α) (read : Str → Option α) (s : Str) :
    signed neg read ('-' :: s) = (read s).map neg := by
  rw [signed_cons, if_pos rfl]

/-! ### Printed integers -/

/-- What an integer is printed with. -/
theorem mem_ofInt {n : ℤ} {c : Char} (hc : c ∈ ofInt n) : c = '-' ∨ c.isDigit = true := by
  cases n with
  | ofNat n => exact .inr (isDigit_of_mem_toDigits hc)
  | negSucc n =>
    obtain rfl | hc := List.mem_cons.mp hc
    · exact .inl rfl
    · exact .inr (isDigit_of_mem_toDigits hc)

theorem notMem_ofInt (n : ℤ) {c : Char} (hminus : c ≠ '-') (hdigit : c.isDigit = false) : c ∉ ofInt n := by
  intro hc
  obtain rfl | hc := mem_ofInt hc
  · exact hminus rfl
  · exact Bool.false_ne_true (hdigit.symm.trans hc)

theorem ofInt_ne_nil (n : ℤ) : ofInt n ≠ [] := by
  cases n with
  | ofNat n => exact Nat.toDigits_ne_nil
  | negSucc n => exact List.cons_ne_nil _ _

theorem isSpace_of_mem_ofInt {n : ℤ} {c : Char} (hc : c ∈ ofInt n) : isSpace c = false := by
  obtain rfl | hc := mem_ofInt hc
  · decide
  · exact isSpace_of_isDigit hc

theorem trimmed_ofInt (n : ℤ) : Trimmed (ofInt n) :=
  ⟨fun _ hc => isSpace_of_mem_ofInt (List.mem_of_mem_head? hc), fun _ hc => isSpace_of_mem_ofInt (List.mem_of_mem_getLast? hc)⟩

/-- **An integer** that is printed is read by `int`, with blanks around it or not. -/
theorem toInt_ofInt {s : Str} {n : ℤ} (hs : strip s = ofInt n) : toInt s = some n := by
  rw [toInt, hs]
  cases n with
  | ofNat n => rw [ofInt, signed_toDigits, unsigned_toDigits]; rfl
  | negSucc n => rw [ofInt, signed_minus, unsigned_toDigits]; rfl

/-- A digit is no letter. -/
theorem toLower_of_isDigit {c : Char} (hc : c.isDigit = true) : c.toLower = c := by
  have hnine : c.val ≤ '9'.val := by
    rw [Char.isDigit, Bool.and_eq_true, decide_eq_true_eq, decide_eq_true_eq] at hc
    exact hc.2
  have hnone : ¬ (c.val ≥ 'A'.val ∧ c.val ≤ 'Z'.val) := by
    rintro ⟨hA, -⟩
    exact absurd (UInt32.le_trans hA hnine) (by decide)
  exact dif_neg hnone

theorem decimals_toDigits (n : ℕ) : decimals (Nat.toDigits 10 n) = some (n : ℚ) := by
  have hdigits : ∀ c ∈ Nat.toDigits 10 n, c.isDigit = true := fun c hc => isDigit_of_mem_toDigits hc
  have hdrop : (Nat.toDigits 10 n).dropWhile Char.isDigit = [] := List.dropWhile_eq_nil_iff.mpr hdigits
  have htake : (Nat.toDigits 10 n).takeWhile Char.isDigit = Nat.toDigits 10 n := List.takeWhile_eq_self_iff.mpr hdigits
  rw [decimals, hdrop, htake]
  dsimp only
  rw [List.append_nil, if_neg Nat.toDigits_ne_nil, Nat.ofDigitChars_ten_toDigits]
  simp [exponent]

/-- **An integer** that is printed is read by `float`. -/
theorem toFloat_ofInt {s : Str} {n : ℤ} (hs : strip s = ofInt n) : toFloat s = some (.fin n) := by
  have hmagnitude (n : ℕ) : magnitude (Nat.toDigits 10 n) = some (.fin n) := by
    have hdigits : ∀ t : Str, (∃ c ∈ t, c.isDigit = false) → (Nat.toDigits 10 n).map Char.toLower ≠ t := by
      rintro _ ⟨c, hc, hcd⟩ rfl
      obtain ⟨d, hd, rfl⟩ := List.mem_map.mp hc
      rw [toLower_of_isDigit (isDigit_of_mem_toDigits hd)] at hcd
      exact Bool.false_ne_true (hcd.symm.trans (isDigit_of_mem_toDigits hd))
    rw [magnitude, if_neg ?_, if_neg (hdigits _ ⟨'n', by decide, by decide⟩), decimals_toDigits]
    · rfl
    · exact not_or.mpr ⟨hdigits _ ⟨'i', by decide, by decide⟩, hdigits _ ⟨'i', by decide, by decide⟩⟩
  rw [toFloat, hs]
  cases n with
  | ofNat n => rw [ofInt, signed_toDigits, hmagnitude]; rfl
  | negSucc n =>
    rw [ofInt, signed_minus, hmagnitude, Option.map_some, Num.neg, Int.cast_negSucc]

/-- What `int` reads is a sign and digits, among blanks. -/
theorem of_mem_toInt {s : Str} {n : ℤ} (h : toInt s = some n) {c : Char} (hc : c ∈ s) :
    isSpace c = true ∨ c = '-' ∨ c = '+' ∨ c.isDigit = true := by
  cases hspace : isSpace c with
  | true => exact .inl rfl
  | false =>
    have hunsigned (t : Str) (k : ℤ) (ht : (unsigned t).map Int.ofNat = some k) (hct : c ∈ t) : c.isDigit = true := by
      rw [unsigned] at ht
      split_ifs at ht with hdigits
      · exact List.all_eq_true.mp hdigits.2 c hct
      · cases ht
    have hstrip : c ∈ strip s := mem_strip hc hspace
    rw [toInt] at h
    cases ht : strip s with
    | nil =>
      rw [ht] at hstrip
      cases hstrip
    | cons x t =>
      rw [ht] at h hstrip
      rw [signed] at h
      obtain rfl | hct := List.mem_cons.mp hstrip
      · by_cases hminus : c = '-'
        · exact .inr (.inl hminus)
        · by_cases hplus : c = '+'
          · exact .inr (.inr (.inl hplus))
          · rw [if_neg hminus, if_neg hplus] at h
            exact .inr (.inr (.inr (hunsigned _ _ h List.mem_cons_self)))
      · refine .inr (.inr (.inr ?_))
        split_ifs at h
        · obtain ⟨k, hk, -⟩ := Option.map_eq_some_iff.mp h
          exact hunsigned t k hk hct
        · exact hunsigned t _ h hct
        · exact hunsigned _ _ h (List.mem_cons_of_mem _ hct)

end SEDiff.Foundation.Str

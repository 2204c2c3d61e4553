import SEDiff.Foundation.Hexadecimal
import SEDiff.Foundation.Python

/-!
# Ranges as conditions

`_parse_ranges` of `ckapi.py` prints the ranges of a checked value as a condition for the report. Reading the condition back
as C does, with the value left out on the left of each test, says which values it is true of.

## What is proved

* `read_or` — a condition after another is read as one or the other.
* `parse_range_spec` — what the condition of one range is true of.
-/

namespace SEDiff.Juxta.RangeCondition

open Foundation Foundation.Str

/-! ### The printer -/

/-- `MAX_S8`. -/
def MAX_S8 : ℤ := 127
/-- `MIN_S8`. -/
def MIN_S8 : ℤ := -128
/-- `MAX_U8`. -/
def MAX_U8 : ℤ := 255
/-- `MAX_S16`. -/
def MAX_S16 : ℤ := 32767
/-- `MIN_S16`. -/
def MIN_S16 : ℤ := -32768
/-- `MAX_U16`, as the source has it. -/
def MAX_U16 : ℤ := 65536
/-- `MAX_S32`. -/
def MAX_S32 : ℤ := 2147483647
/-- `MIN_S32`. -/
def MIN_S32 : ℤ := -2147483648
/-- `MAX_U32`. -/
def MAX_U32 : ℤ := 4294967295
/-- `MAX_S64`. -/
def MAX_S64 : ℤ := 9223372036854775807
/-- `MIN_S64`. -/
def MIN_S64 : ℤ := -9223372036854775808
/-- `MAX_U64`. -/
def MAX_U64 : ℤ := 18446744073709551615
/-- `MAX_ERRNO`. -/
def MAX_ERRNO : ℤ := 18446744073709547521

/-- `_parse_range`. -/
def _parse_range (value_range : ℤ × ℤ) : Except PyErr Str :=
  let (lb, ub) := value_range
  if lb = ub then
    if lb > 0xffff then .ok ("== ".toList ++ hex lb)
    else .ok ("== ".toList ++ ofInt lb)
  else if ub = MAX_S64 ∨ ub = MAX_S32 ∨ ub = MAX_S16 ∨ ub = MAX_S8 then
    if lb = 1 then .ok "> 0".toList
    else .ok (">= ".toList ++ ofInt lb)
  else if lb = MIN_S64 ∨ lb = MIN_S32 ∨ ub = MIN_S16 ∨ ub = MIN_S8 then
    if ub = -1 then .ok "< 0".toList
    else .ok ("<= ".toList ++ ofInt ub)
  else if ub = MAX_U64 ∨ ub = MAX_U32 ∨ ub = MAX_U16 ∨ ub = MAX_U8 then do
    pyAssert (lb ≥ 0)
    if lb = MAX_ERRNO then .ok "== ERROR_VALUE".toList
    else if lb = 1 then .ok "!= 0".toList
    else .ok (">= ".toList ++ ofInt lb)
  else if lb = 0 ∧ ub = MAX_ERRNO - 1 then .ok "!= ERROR_VALUE".toList
  else if lb = 1 ∧ ub = MAX_ERRNO - 1 then .ok "!= 0 && != ERROR_VALUE".toList
  else if ub > 0xffff then .ok (">= ".toList ++ (ofInt lb ++ (" && <= ".toList ++ hex ub)))
  else .ok (">= ".toList ++ (ofInt lb ++ (" && <= ".toList ++ ofInt ub)))

/-- `_parse_range_pair`. -/
def _parse_range_pair (value_range1 value_range2 : ℤ × ℤ) : Except PyErr Str := do
  -- "swap the two ranges if necessary"
  let ((lb1, ub1), (lb2, ub2)) :=
    if value_range1.2 > value_range2.1 then (value_range2, value_range1) else (value_range1, value_range2)
  pyAssert (lb2 > ub1)
  if (lb1 = MIN_S64 ∨ lb1 = MIN_S32 ∨ lb1 = MIN_S16 ∨ lb1 = MIN_S8) ∧
      (ub2 = MAX_S64 ∨ ub2 = MAX_S32 ∨ ub2 = MAX_S16 ∨ ub2 = MAX_S8) ∧ lb2 - ub1 = 2 then
    return "!= ".toList ++ ofInt ((lb2 + ub1) / 2)
  if lb1 = 0 ∧ (ub2 = MAX_U64 ∨ ub2 = MAX_U32 ∨ ub2 = MAX_U16 ∨ ub2 = MAX_U8) ∧ lb2 - ub1 = 2 then
    return "!= ".toList ++ ofInt ((lb2 + ub1) / 2)
  -- the ranges are printed in the order they came in
  let vl1 ← _parse_range value_range1
  let vl2 ← _parse_range value_range2
  return vl1 ++ " || ".toList ++ vl2

/-- `_parse_ranges`, where `none` is `None`. -/
def _parse_ranges : List (ℤ × ℤ) → Except PyErr (Option Str)
  | [] => .ok (some [])
  | [value_range] => do return some (← _parse_range value_range)
  | [value_range1, value_range2] => do return some (← _parse_range_pair value_range1 value_range2)
  | value_ranges => do
    let _vrs ← value_ranges.foldlM (fun vrs vr => do
      let vrs := if vrs.length ≠ 0 then vrs ++ " || ".toList else vrs
      return vrs ++ (← _parse_range vr)) []
    -- no `return`
    return none

/-! ### The reader -/

/-- The comparisons of C. -/
inductive Cmp
  | eq
  | ne
  | lt
  | le
  | gt
  | ge
  deriving DecidableEq

/-- Whether `x cmp n`. -/
def Cmp.Holds (x n : ℤ) : Cmp → Prop
  | .eq => x = n
  | .ne => x ≠ n
  | .lt => x < n
  | .le => x ≤ n
  | .gt => x > n
  | .ge => x ≥ n

/-- One test of a value. -/
inductive Test
  /-- With a number. -/
  | compare (cmp : Cmp) (n : ℤ)
  /-- `== ERROR_VALUE`. -/
  | isError
  /-- `!= ERROR_VALUE`. -/
  | isNotError
  deriving DecidableEq

/-- The error numbers, as a pointer or a 64-bit value holds them. -/
def ErrorValue (x : ℤ) : Prop := MAX_ERRNO ≤ x % 2 ^ 64

/-- Whether a test holds of a value. -/
def Test.Holds (x : ℤ) : Test → Prop
  | .compare cmp n => cmp.Holds x n
  | .isError => ErrorValue x
  | .isNotError => ¬ ErrorValue x

/-- A condition: one or the other group of tests holds, all of them. -/
abbrev Condition := List (List Test)

/-- Whether a condition holds of a value. -/
def Condition.Holds (c : Condition) (x : ℤ) : Prop := ∃ tests ∈ c, ∀ t ∈ tests, t.Holds x

/-- A comparison. -/
def readCmp (s : Str) : Option Cmp :=
  if s = "==".toList then some .eq
  else if s = "!=".toList then some .ne
  else if s = "<".toList then some .lt
  else if s = "<=".toList then some .le
  else if s = ">".toList then some .gt
  else if s = ">=".toList then some .ge
  else none

/-- An integer literal. -/
def readNumber (s : Str) : Option ℤ :=
  match ofHex s with
  | some n => some n
  | none => toInt s

/-- A test from its two words. -/
def readTest (op num : Str) : Option Test :=
  if num = "ERROR_VALUE".toList then
    if op = "==".toList then some .isError else if op = "!=".toList then some .isNotError else none
  else (readCmp op).bind fun cmp => (readNumber num).map (.compare cmp)

/-- A test before a condition; `&&` binds more tightly. -/
def connect (conn : Str) (t : Test) (c : Condition) : Option Condition :=
  if conn = "||".toList then some ([t] :: c)
  else if conn = "&&".toList then
    match c with
    | [] => none
    | tests :: c => some ((t :: tests) :: c)
  else none

/-- A condition from its words. -/
def readWords : List Str → Option Condition
  | [op, num] => (readTest op num).map fun t => [[t]]
  | op :: num :: conn :: words => (readTest op num).bind fun t => (readWords words).bind (connect conn t)
  | _ => none

/-- A condition from its text. -/
def readCondition (s : Str) : Option Condition := readWords (Str.split [' '] s)

/-! ### Reading back -/

theorem holds_append {c d : Condition} {x : ℤ} : Condition.Holds (c ++ d) x ↔ c.Holds x ∨ d.Holds x := by
  simp [Condition.Holds, or_and_right, exists_or]

theorem holds_singleton {t : Test} {x : ℤ} : Condition.Holds [[t]] x ↔ t.Holds x := by
  simp [Condition.Holds]

/-- Words that are read as two conditions with an or between them. -/
theorem readWords_or {ws vs : List Str} {c d : Condition} (hc : readWords ws = some c) (hd : readWords vs = some d) :
    readWords (ws ++ "||".toList :: vs) = some (c ++ d) := by
  fun_induction readWords ws generalizing c with
  | case1 op num =>
    obtain ⟨t, ht, rfl⟩ := Option.map_eq_some_iff.mp hc
    rw [List.cons_append, List.cons_append, List.nil_append, readWords, ht, hd]
    rfl
  | case2 op num conn words ih =>
    obtain ⟨t, ht, hc⟩ := Option.bind_eq_some_iff.mp hc
    obtain ⟨c', hc', hconn⟩ := Option.bind_eq_some_iff.mp hc
    have hconn' : connect conn t (c' ++ d) = some (c ++ d) := by
      unfold connect at hconn ⊢
      split_ifs at hconn ⊢
      · rw [← Option.some.inj hconn]
        rfl
      · cases c' with
        | nil => cases hconn
        | cons tests c' =>
          rw [← Option.some.inj hconn]
          rfl
    simp only [List.cons_append, readWords, ht, ih hc', Option.bind_some, hconn']
  | case3 => cases hc

/-- **A condition after another** is read as one or the other. -/
theorem read_or {s t : Str} {c d : Condition} (hs : readCondition s = some c) (ht : readCondition t = some d) :
    readCondition (s ++ " || ".toList ++ t) = some (c ++ d) := by
  have hsplit : Str.split [' '] (s ++ " || ".toList ++ t) = Str.split [' '] s ++ "||".toList :: Str.split [' '] t := by
    have heq : s ++ " || ".toList ++ t = s ++ ' ' :: ("||".toList ++ ([' '] ++ t)) := by simp
    rw [heq, split_append_sep, split_append (by decide)]
  rw [readCondition, hsplit, readWords_or hs ht]

/-! ### Reading one test -/

theorem notMem_hex {n : ℤ} (hn : 0 ≤ n) {c : Char} (hx : c ≠ 'x') (hl : c ≠ 'L') (hdigit : hexDigit c = none) : c ∉ hex n := by
  have hdigits : c ∉ Nat.toDigits 16 n.natAbs := fun hmem => by
    have := hexDigit_of_mem_toDigits hmem
    rw [hdigit] at this
    cases this
  have hzero : c ≠ '0' := by
    rintro rfl
    cases hdigit
  rw [hex, if_neg (by omega)]
  split_ifs <;> simp [hdigits, hzero, hx, hl]

theorem readNumber_ofInt (n : ℤ) : readNumber (ofInt n) = some n := by
  have hdec : ofHex (ofInt n) = none := by
    unfold ofHex
    split
    · rename_i ds heq
      exact absurd (heq ▸ List.mem_cons_of_mem _ List.mem_cons_self) (notMem_ofInt n (c := 'x') (by decide) (by decide))
    · rfl
  rw [readNumber, hdec]
  exact toInt_ofInt (strip_of_trimmed (trimmed_ofInt n))

theorem readNumber_hex {n : ℤ} (hn : 0 ≤ n) : readNumber (hex n) = some n := by
  rw [readNumber, ofHex_hex hn]
  exact congrArg some (Int.toNat_of_nonneg hn)

/-- A number that is printed, in a test. -/
structure Printed (num : Str) (n : ℤ) : Prop where
  /-- It is one word. -/
  word : ' ' ∉ num
  /-- It is no name. -/
  number : 'V' ∉ num
  /-- It is read back. -/
  read : readNumber num = some n

theorem printed_ofInt (n : ℤ) : Printed (ofInt n) n where
  word := notMem_ofInt n (by decide) (by decide)
  number := notMem_ofInt n (by decide) (by decide)
  read := readNumber_ofInt n

theorem printed_hex {n : ℤ} (hn : 0 ≤ n) : Printed (hex n) n where
  word := notMem_hex hn (by decide) (by decide) (by decide)
  number := notMem_hex hn (by decide) (by decide) (by decide)
  read := readNumber_hex hn

variable {op num : Str} {cmp : Cmp} {n lb ub x : ℤ}

theorem readTest_printed (hcmp : readCmp op = some cmp) (h : Printed num n) : readTest op num = some (.compare cmp n) := by
  have hname : num ≠ "ERROR_VALUE".toList := by
    rintro rfl
    exact h.number (by decide)
  rw [readTest, if_neg hname, hcmp, h.read]
  rfl

theorem split_word {s : Str} (hs : ' ' ∉ s) : Str.split [' '] s = [s] :=
  split_of_not_infix (not_infix_of_notMem List.mem_cons_self hs)

/-- **One test** is read back. -/
theorem read_test {t : Test} (hop : ' ' ∉ op) (hnum : ' ' ∉ num) (ht : readTest op num = some t) :
    readCondition (op ++ ' ' :: num) = some [[t]] := by
  rw [readCondition, split_append_sep, split_word hnum, split_word hop, List.singleton_append, readWords, ht]
  rfl

/-- **Two tests** are read back. -/
theorem read_and {op' num' : Str} {t t' : Test} (hop : ' ' ∉ op) (hnum : ' ' ∉ num) (ht : readTest op num = some t)
    (hop' : ' ' ∉ op') (hnum' : ' ' ∉ num') (ht' : readTest op' num' = some t') :
    readCondition (op ++ ' ' :: (num ++ ' ' :: ("&&".toList ++ ' ' :: (op' ++ ' ' :: num')))) = some [[t, t']] := by
  rw [readCondition, split_append_sep, split_append_sep, split_append_sep, split_append_sep, split_word hop,
    split_word hnum, split_word hop', split_word hnum', split_word (by decide)]
  rw [List.singleton_append, List.singleton_append, List.singleton_append, List.singleton_append, readWords, readWords,
    ht, ht']
  rfl

/-! ### The values -/

/-- The 64-bit types. -/
inductive Signedness
  | signed
  | unsigned
  deriving DecidableEq

/-- The smallest value. -/
def Signedness.min : Signedness → ℤ
  | .signed => -2 ^ 63
  | .unsigned => 0

/-- The greatest value. -/
def Signedness.max : Signedness → ℤ
  | .signed => 2 ^ 63 - 1
  | .unsigned => 2 ^ 64 - 1

/-- The values of a type. -/
def Signedness.Value (T : Signedness) (x : ℤ) : Prop := T.min ≤ x ∧ x ≤ T.max

/-- The ranges of values of a type. -/
structure Signedness.Range (T : Signedness) (r : ℤ × ℤ) : Prop where
  /-- The lower bound is a value. -/
  lower : T.min ≤ r.1
  /-- It is not above the upper bound. -/
  le : r.1 ≤ r.2
  /-- The upper bound is a value. -/
  upper : r.2 ≤ T.max

/-! ### What the condition of a range says -/

/-- The upper bounds that are taken for those of signed types. -/
abbrev SignedMax (ub : ℤ) : Prop := ub = MAX_S64 ∨ ub = MAX_S32 ∨ ub = MAX_S16 ∨ ub = MAX_S8

/-- The lower bounds of signed types. -/
abbrev SignedMin (lb : ℤ) : Prop := lb = MIN_S64 ∨ lb = MIN_S32 ∨ lb = MIN_S16 ∨ lb = MIN_S8

/-- The upper bounds that are taken for those of unsigned types. -/
abbrev UnsignedMax (ub : ℤ) : Prop := ub = MAX_U64 ∨ ub = MAX_U32 ∨ ub = MAX_U16 ∨ ub = MAX_U8

/-- The assertion on the range fails. -/
def Asserts (r : ℤ × ℤ) : Prop := r.1 ≠ r.2 ∧ UnsignedMax r.2 ∧ r.1 < 0 ∧ r.1 ≠ MIN_S64 ∧ r.1 ≠ MIN_S32

/-- The lower bound is not printed. -/
def LowerLeft (r : ℤ × ℤ) : Prop :=
  r.1 ≠ r.2 ∧ ¬ SignedMax r.2 ∧ (r.1 = MIN_S64 ∨ r.1 = MIN_S32 ∨ r.2 = MIN_S16 ∨ r.2 = MIN_S8)

/-- The upper bound is not printed. -/
def UpperLeft (r : ℤ × ℤ) : Prop := r.1 ≠ r.2 ∧ (SignedMax r.2 ∨ UnsignedMax r.2 ∧ ¬ LowerLeft r)

/-- The range is printed as `!= 0`. -/
def NonZero (r : ℤ × ℤ) : Prop := r.1 = 1 ∧ r.1 ≠ r.2 ∧ UnsignedMax r.2

/-- What the condition of a range is true of. -/
def Shown (r : ℤ × ℤ) (x : ℤ) : Prop :=
  NonZero r ∧ x ≠ 0 ∨ ¬ NonZero r ∧ (LowerLeft r ∨ r.1 ≤ x) ∧ (UpperLeft r ∨ x ≤ r.2)

theorem shown_of_eq {r : ℤ × ℤ} {x : ℤ} (heq : r.1 = r.2) : Shown r x ↔ x = r.1 := by
  have hn : ¬ NonZero r := fun h => h.2.1 heq
  have hl : ¬ LowerLeft r := fun h => h.1 heq
  have hu : ¬ UpperLeft r := fun h => h.1 heq
  simp only [Shown, hn, hl, hu, false_and, false_or, not_false_eq_true, true_and]
  omega

/-- A condition that is the printed one of a range. -/
def Says (T : Signedness) (r : ℤ × ℤ) (out : Except PyErr Str) : Prop :=
  ∃ t c, out = .ok t ∧ readCondition t = some c ∧ ∀ x, T.Value x → (c.Holds x ↔ Shown r x)

variable {T : Signedness} {r : ℤ × ℤ}

theorem says_compare (op : Str) (hop : ' ' ∉ op) (hcmp : readCmp op = some cmp) (h : Printed num n)
    (hshown : ∀ x, T.Value x → (Cmp.Holds x n cmp ↔ Shown r x)) : Says T r (.ok (op ++ ' ' :: num)) :=
  ⟨_, _, rfl, read_test hop h.word (readTest_printed hcmp h), fun x hx => holds_singleton.trans (hshown x hx)⟩

theorem says_bounds (h : Printed num ub) (hshown : ∀ x, T.Value x → (lb ≤ x ∧ x ≤ ub ↔ Shown r x)) :
    Says T r (.ok (">= ".toList ++ (ofInt lb ++ (" && <= ".toList ++ num)))) := by
  have hlb := printed_ofInt lb
  have hge : readTest ">=".toList (ofInt lb) = some (.compare .ge lb) := readTest_printed rfl hlb
  have hle : readTest "<=".toList num = some (.compare .le ub) := readTest_printed rfl h
  refine ⟨_, [[.compare .ge lb, .compare .le ub]], rfl, ?_, fun x hx => ?_⟩
  · exact read_and (by decide) hlb.word hge (by decide) h.word hle
  · rw [← hshown x hx]
    simp [Condition.Holds, Test.Holds, Cmp.Holds]

/-- The constants. -/
theorem signedMax_iff : SignedMax ub ↔ ub = 9223372036854775807 ∨ ub = 2147483647 ∨ ub = 32767 ∨ ub = 127 := Iff.rfl

theorem unsignedMax_iff : UnsignedMax ub ↔ ub = 18446744073709551615 ∨ ub = 4294967295 ∨ ub = 65536 ∨ ub = 255 := Iff.rfl

theorem lowerLeft_iff : LowerLeft (lb, ub) ↔ lb ≠ ub ∧ ¬ SignedMax ub ∧
    (lb = -9223372036854775808 ∨ lb = -2147483648 ∨ ub = -32768 ∨ ub = -128) := Iff.rfl

/-- A range of which only the lower bound is printed. -/
theorem shown_lower (hn : ¬ NonZero r) (hl : ¬ LowerLeft r) (hu : UpperLeft r) : Shown r x ↔ r.1 ≤ x := by
  simp [Shown, hn, hl, hu]

/-- A range of which only the upper bound is printed. -/
theorem shown_upper (hn : ¬ NonZero r) (hl : LowerLeft r) (hu : ¬ UpperLeft r) : Shown r x ↔ x ≤ r.2 := by
  simp [Shown, hn, hl, hu]

/-- A range of which both bounds are printed. -/
theorem shown_both (hn : ¬ NonZero r) (hl : ¬ LowerLeft r) (hu : ¬ UpperLeft r) : Shown r x ↔ r.1 ≤ x ∧ x ≤ r.2 := by
  simp [Shown, hn, hl, hu]

/-- A range of large values is one of unsigned values, and the error numbers are the largest. -/
theorem errorValue_iff (h : T.Range r) (hlarge : 2 ^ 63 ≤ r.2) (hx : T.Value x) :
    0 ≤ x ∧ x < 2 ^ 64 ∧ (ErrorValue x ↔ 18446744073709547521 ≤ x) := by
  cases T with
  | signed =>
    have hupper : r.2 ≤ 2 ^ 63 - 1 := h.upper
    omega
  | unsigned =>
    have hlower : 0 ≤ x := hx.1
    have hupper : x ≤ 2 ^ 64 - 1 := hx.2
    have hmod : x % 2 ^ 64 = x := Int.emod_eq_of_lt hlower (by omega)
    rw [ErrorValue, hmod]
    exact ⟨hlower, by omega, Iff.rfl⟩

/-- **The condition of a range** is true of what is shown of the range, and there is one unless the assertion fails. -/
theorem parse_range_spec (h : T.Range r) :
    (Asserts r → _parse_range r = .error .assertionError) ∧ (¬ Asserts r → Says T r (_parse_range r)) := by
  obtain ⟨lb, ub⟩ := r
  have hle : lb ≤ ub := h.le
  rw [_parse_range]
  by_cases heq : lb = ub
  · refine ⟨fun ha => absurd heq ha.1, fun _ => ?_⟩
    rw [if_pos heq]
    have hshown : ∀ x, T.Value x → (Cmp.Holds x lb .eq ↔ Shown (lb, ub) x) := fun x _ => (@shown_of_eq (lb, ub) x heq).symm
    split_ifs with hbig
    · exact says_compare "==".toList (by decide) rfl (printed_hex (by omega)) hshown
    · exact says_compare "==".toList (by decide) rfl (printed_ofInt lb) hshown
  rw [if_neg heq]
  by_cases hsmax : SignedMax ub
  · have hnotUnsigned : ¬ UnsignedMax ub := by
      rw [signedMax_iff] at hsmax
      rw [unsignedMax_iff]
      omega
    have hn : ¬ NonZero (lb, ub) := fun hn => hnotUnsigned hn.2.2
    have hl : ¬ LowerLeft (lb, ub) := fun hl => hl.2.1 hsmax
    have hu : UpperLeft (lb, ub) := ⟨heq, .inl hsmax⟩
    refine ⟨fun ha => absurd ha.2.1 hnotUnsigned, fun _ => ?_⟩
    rw [if_pos hsmax]
    split_ifs with hone
    · refine says_compare ">".toList (by decide) rfl (printed_ofInt 0) fun x _ => ?_
      rw [shown_lower hn hl hu, Cmp.Holds]
      dsimp only
      omega
    · exact says_compare ">=".toList (by decide) rfl (printed_ofInt lb) fun x _ => (shown_lower hn hl hu).symm
  rw [if_neg hsmax]
  by_cases hmin : lb = MIN_S64 ∨ lb = MIN_S32 ∨ ub = MIN_S16 ∨ ub = MIN_S8
  · have hl : LowerLeft (lb, ub) := ⟨heq, hsmax, hmin⟩
    have hu : ¬ UpperLeft (lb, ub) := fun hu => hu.2.elim hsmax fun hu => hu.2 hl
    have hsigns := (lowerLeft_iff.mp hl).2.2
    have hn : ¬ NonZero (lb, ub) := fun ⟨hone, _, hmax⟩ => by
      rw [unsignedMax_iff] at hmax
      dsimp only at hone hmax
      omega
    refine ⟨fun ⟨_, hmax, _, hne, hne'⟩ => ?_, fun _ => ?_⟩
    · rw [unsignedMax_iff] at hmax
      rcases hsigns with hmin | hmin | hmin | hmin
      · exact absurd hmin hne
      · exact absurd hmin hne'
      · dsimp only at hmax
        omega
      · dsimp only at hmax
        omega
    · rw [if_pos hmin]
      split_ifs with hneg
      · refine says_compare "<".toList (by decide) rfl (printed_ofInt 0) fun x _ => ?_
        rw [shown_upper hn hl hu, Cmp.Holds]
        dsimp only
        omega
      · exact says_compare "<=".toList (by decide) rfl (printed_ofInt ub) fun x _ => (shown_upper hn hl hu).symm
  rw [if_neg hmin]
  have hl : ¬ LowerLeft (lb, ub) := fun hl => hmin hl.2.2
  have hlower : T.min ≤ lb := h.lower
  have hupper : ub ≤ T.max := h.upper
  by_cases hmax : UnsignedMax ub
  · have hu : UpperLeft (lb, ub) := ⟨heq, .inr ⟨hmax, hl⟩⟩
    rw [if_pos hmax]
    by_cases hneg : lb < 0
    · refine ⟨fun _ => ?_, fun hna => absurd ⟨heq, hmax, hneg, fun h => hmin (.inl h), fun h => hmin (.inr (.inl h))⟩ hna⟩
      rw [pyAssert, if_neg (by omega)]
      rfl
    refine ⟨fun ha => absurd ha.2.2.1 hneg, fun _ => ?_⟩
    rw [pyAssert_of_true (by omega), ok_bind]
    rw [unsignedMax_iff] at hmax
    split_ifs with herr hone
    · have hn : ¬ NonZero (lb, ub) := fun hn => by
        have : lb = 1 := hn.1
        rw [MAX_ERRNO] at herr
        omega
      refine ⟨_, _, rfl, @read_test "==".toList "ERROR_VALUE".toList .isError (by decide) (by decide) rfl, fun x hx => ?_⟩
      rw [holds_singleton, shown_lower hn hl hu, herr]
      rw [MAX_ERRNO] at herr
      exact (errorValue_iff h (by dsimp only; omega) hx).2.2
    · have hn : NonZero (lb, ub) := ⟨hone, heq, hmax⟩
      refine says_compare "!=".toList (by decide) rfl (printed_ofInt 0) fun x _ => ?_
      simp [Shown, hn, Cmp.Holds]
    · have hn : ¬ NonZero (lb, ub) := fun hn => hone hn.1
      exact says_compare ">=".toList (by decide) rfl (printed_ofInt lb) fun x _ => (shown_lower hn hl hu).symm
  rw [if_neg hmax]
  have hn : ¬ NonZero (lb, ub) := fun hn => hmax hn.2.2
  have hu : ¬ UpperLeft (lb, ub) := fun hu => hu.2.elim hsmax fun hu => hmax hu.1
  refine ⟨fun ha => absurd ha.2.1 hmax, fun _ => ?_⟩
  split_ifs with hzero hone hbig
  · refine ⟨_, _, rfl, @read_test "!=".toList "ERROR_VALUE".toList .isNotError (by decide) (by decide) rfl, fun x hx => ?_⟩
    have hub : ub = 18446744073709547520 := hzero.2
    obtain ⟨hx0, -, herr⟩ := errorValue_iff h (by dsimp only; omega) hx
    rw [holds_singleton, shown_both hn hl hu, Test.Holds, herr]
    dsimp only
    omega
  · refine ⟨_, [[.compare .ne 0, .isNotError]], rfl, @read_and "!=".toList (ofInt 0) "!=".toList "ERROR_VALUE".toList _ _
      (by decide) (by decide) rfl (by decide) (by decide) rfl, fun x hx => ?_⟩
    have hub : ub = 18446744073709547520 := hone.2
    obtain ⟨hx0, -, herr⟩ := errorValue_iff h (by dsimp only; omega) hx
    rw [shown_both hn hl hu]
    simp only [Condition.Holds, List.mem_singleton, exists_eq_left, List.forall_mem_cons, forall_eq, Test.Holds, Cmp.Holds, herr]
    omega
  · exact says_bounds (printed_hex (by omega)) fun x _ => (shown_both hn hl hu).symm
  · exact says_bounds (printed_ofInt ub) fun x _ => (shown_both hn hl hu).symm

end SEDiff.Juxta.RangeCondition

import Mathlib.Data.List.SplitBy
import SEDiff.Afl.Havoc

/-!
# Collecting tokens

While the least significant bit of every byte is flipped, strings of bytes that change the trace in the same way are
collected, and offered to the automatic dictionary.

## What is proved

* `Inside.next`, `Inside.first`, `Inside.finish` — what one byte does inside of a run, at the first byte of the next one,
  and at the end of the file.
* `tokens_eq_runs` — what is offered are the maximal runs of bytes with the same new checksum, if their length is right.
-/

namespace SEDiff.Afl.AutoExtras

open Foundation Havoc

/-! ### The source -/

/-- `MIN_AUTO_EXTRA`. -/
def MIN_AUTO_EXTRA : ℕ := 3

/-- `MAX_AUTO_EXTRA`. -/
def MAX_AUTO_EXTRA : ℕ := 32

/-- What the first bit-flip stage collects in. -/
structure Collector where
  /-- The buffer; bytes that were not written hold anything. -/
  a_collect : ℕ → UInt8
  /-- The length of the string. -/
  a_len : ℕ
  /-- The checksum of the byte before. -/
  prev_cksum : UInt32
  /-- The strings `maybe_add_auto` was called with. -/
  calls : List (List UInt8)

namespace Collector

/-- `if (a_len < MAX_AUTO_EXTRA) a_collect[a_len] = b; a_len++;`. -/
def push (c : Collector) (b : UInt8) : Collector :=
  { c with
    a_collect := if c.a_len < MAX_AUTO_EXTRA then Function.update c.a_collect c.a_len b else c.a_collect
    a_len := c.a_len + 1 }

/-- The string is offered, if its length is right. -/
def offer (c : Collector) : Collector :=
  if c.a_len ≥ MIN_AUTO_EXTRA ∧ c.a_len ≤ MAX_AUTO_EXTRA then
    { c with calls := c.calls ++ [(List.range c.a_len).map c.a_collect] }
  else c

/-- The end of the file, or of a run. -/
def turn (c : Collector) (at_end : Bool) (cksum : UInt32) (b : UInt8) : Collector :=
  if at_end && cksum == c.prev_cksum then (c.push b).offer
  else if cksum ≠ c.prev_cksum then { c.offer with a_len := 0, prev_cksum := cksum }
  else c

/-- After the execution with the least significant bit of `b` flipped. -/
def collect (exec_cksum : UInt32) (c : Collector) (at_end : Bool) (cksum : UInt32) (b : UInt8) : Collector :=
  let c := c.turn at_end cksum b
  if cksum ≠ exec_cksum then c.push b else c

/-- All bytes, each with its checksum. -/
def collects (exec_cksum : UInt32) (c : Collector) : List (UInt32 × UInt8) → Collector
  | [] => c
  | (cksum, b) :: rest => (c.collect exec_cksum rest.isEmpty cksum b).collects exec_cksum rest

section

variable {c : Collector} {b : UInt8} {cksum : UInt32}

@[simp] theorem push_a_len : (c.push b).a_len = c.a_len + 1 := rfl

@[simp] theorem push_prev_cksum : (c.push b).prev_cksum = c.prev_cksum := rfl

@[simp] theorem push_calls : (c.push b).calls = c.calls := rfl

theorem push_a_collect (h : c.a_len < MAX_AUTO_EXTRA) : (c.push b).a_collect c.a_len = b := by
  simp [push, h]

theorem push_a_collect_of_ne {i : ℕ} (h : i ≠ c.a_len) : (c.push b).a_collect i = c.a_collect i := by
  rw [push]
  dsimp only
  split
  · rw [Function.update_of_ne h]
  · rfl

theorem offer_short (h : c.a_len < MIN_AUTO_EXTRA) : c.offer = c := if_neg fun hc => absurd hc.1 (Nat.not_le.mpr h)

theorem turn_same (h : cksum = c.prev_cksum) : c.turn false cksum b = c := by
  rw [turn, Bool.false_and, if_neg Bool.false_ne_true, if_neg (not_not_intro h)]

theorem turn_last (h : cksum = c.prev_cksum) : c.turn true cksum b = (c.push b).offer := by
  rw [turn, Bool.true_and, if_pos (beq_iff_eq.mpr h)]

theorem turn_new {at_end : Bool} (h : cksum ≠ c.prev_cksum) :
    c.turn at_end cksum b = { c.offer with a_len := 0, prev_cksum := cksum } := by
  rw [turn, beq_eq_false_iff_ne.mpr h, Bool.and_false, if_neg Bool.false_ne_true, if_pos h]

theorem collect_calls {exec_cksum : UInt32} {at_end : Bool} :
    (c.collect exec_cksum at_end cksum b).calls = (c.turn at_end cksum b).calls := by
  rw [collect]
  split <;> rfl

end

end Collector

/-- The tokens of the stage, from the checksum of the input and those of its bytes. -/
def tokens (a_collect : ℕ → UInt8) (exec_cksum : UInt32) (bytes : List (UInt32 × UInt8)) : List (List UInt8) :=
  (Collector.collects exec_cksum ⟨a_collect, 0, exec_cksum, []⟩ bytes).calls

/-- Runs of a new checksum, of the right length. -/
def wanted (exec_cksum : UInt32) (runs : List (List (UInt32 × UInt8))) : List (List UInt8) :=
  (runs.filter fun r => (r.all fun x => x.1 ≠ exec_cksum) && (MIN_AUTO_EXTRA ≤ r.length && r.length ≤ MAX_AUTO_EXTRA)).map
    fun r => r.map Prod.snd

/-- The same checksum. -/
def same (x y : UInt32 × UInt8) : Bool := x.1 == y.1

variable {exec_cksum : UInt32}

theorem wanted_append (rs rs' : List (List (UInt32 × UInt8))) :
    wanted exec_cksum (rs ++ rs') = wanted exec_cksum rs ++ wanted exec_cksum rs' := by
  simp [wanted]

theorem wanted_old {run : List (UInt32 × UInt8)} (h : ∃ x ∈ run, x.1 = exec_cksum) : wanted exec_cksum [run] = [] := by
  have hfail : (run.all fun x => decide (x.1 ≠ exec_cksum)) = false := by
    obtain ⟨x, hx, heq⟩ := h
    rw [List.all_eq_false]
    exact ⟨x, hx, by simp [heq]⟩
  simp only [wanted, List.filter_cons, hfail, Bool.false_and, Bool.false_eq_true, if_false, List.filter_nil,
    List.map_nil]

theorem wanted_length {run : List (UInt32 × UInt8)} (h : ¬ (MIN_AUTO_EXTRA ≤ run.length ∧ run.length ≤ MAX_AUTO_EXTRA)) :
    wanted exec_cksum [run] = [] := by
  have hfail : (decide (MIN_AUTO_EXTRA ≤ run.length) && decide (run.length ≤ MAX_AUTO_EXTRA)) = false := by
    rw [Bool.and_eq_false_iff, decide_eq_false_iff_not, decide_eq_false_iff_not]
    exact not_and_or.mp h
  simp only [wanted, List.filter_cons, hfail, Bool.and_false, Bool.false_eq_true, if_false, List.filter_nil,
    List.map_nil]

theorem wanted_single {x : UInt32 × UInt8} : wanted exec_cksum [[x]] = [] :=
  wanted_length fun hc => absurd hc.1 (Nat.not_le.mpr (Nat.succ_lt_succ (Nat.zero_lt_succ 1)))

/-- What is already split stays. -/
theorem loop_eq_append {bytes before : List (UInt32 × UInt8)} {last : UInt32 × UInt8}
    (done : List (List (UInt32 × UInt8))) :
    List.splitBy.loop same bytes last before done = done.reverse ++ List.splitBy.loop same bytes last before [] := by
  induction bytes generalizing last before done with
  | nil => simp [List.splitBy.loop]
  | cons x bytes ih =>
    rw [List.splitBy.loop, List.splitBy.loop]
    cases same last x with
    | true => exact ih done
    | false =>
      dsimp only
      rw [ih (_ :: done), ih [_], List.reverse_cons, List.append_assoc]
      rfl

/-- Where the collector is inside of a run, the last byte of it first. -/
structure Inside (exec_cksum : UInt32) (c : Collector) (last : UInt32 × UInt8) (before : List (UInt32 × UInt8)) : Prop where
  /-- The checksum of the run. -/
  prev_cksum : c.prev_cksum = last.1
  /-- It is the same for all of it. -/
  run : ∀ x ∈ before, x.1 = last.1
  /-- Nothing is collected where nothing changed. -/
  idle : last.1 = exec_cksum → c.a_len = 0
  /-- The length. -/
  a_len : last.1 ≠ exec_cksum → c.a_len = before.length + 1
  /-- The bytes. -/
  a_collect : last.1 ≠ exec_cksum → ∀ i < c.a_len, i < MAX_AUTO_EXTRA →
    (((last :: before).reverse).map Prod.snd)[i]? = some (c.a_collect i)

namespace Inside

variable {c : Collector} {last x : UInt32 × UInt8} {before : List (UInt32 × UInt8)}

/-- What is collected is the run, if it is short enough. -/
theorem collected (h : Inside exec_cksum c last before) (hnew : last.1 ≠ exec_cksum) (hmax : c.a_len ≤ MAX_AUTO_EXTRA) :
    (List.range c.a_len).map c.a_collect = ((last :: before).reverse).map Prod.snd := by
  have hlen := h.a_len hnew
  refine List.ext_getElem? fun i => ?_
  by_cases hi : i < c.a_len
  · rw [h.a_collect hnew i hi (by omega), List.getElem?_map, List.getElem?_range hi, Option.map_some]
  · rw [List.getElem?_eq_none (by simp; omega), List.getElem?_eq_none (by simp; omega)]

/-- One more byte. -/
theorem pushed (h : Inside exec_cksum c last before) (hx : x.1 = last.1) (hnew : x.1 ≠ exec_cksum) :
    Inside exec_cksum (c.push x.2) x (last :: before) := by
  have hlen := h.a_len (hx ▸ hnew)
  refine ⟨by rw [Collector.push_prev_cksum, h.prev_cksum, hx], ?_, fun hc => absurd hc hnew, fun _ => ?_,
    fun _ i hi hmax => ?_⟩
  · intro y hy
    rcases List.mem_cons.mp hy with rfl | hy
    · exact hx.symm
    · rw [h.run y hy, hx]
  · rw [Collector.push_a_len, hlen, List.length_cons]
  · rw [List.reverse_cons, List.map_append]
    by_cases hlast : i = c.a_len
    · subst hlast
      rw [List.getElem?_append_right (by simp [hlen]), Collector.push_a_collect hmax]
      simp [hlen]
    · have hbefore : i < c.a_len := by
        rw [Collector.push_a_len] at hi
        omega
      rw [List.getElem?_append_left (by simp; omega), h.a_collect (hx ▸ hnew) i hbefore hmax,
        Collector.push_a_collect_of_ne hlast]

/-- **Offering** adds the run if it is wanted. -/
theorem offer_calls (h : Inside exec_cksum c last before) :
    c.offer.calls = c.calls ++ wanted exec_cksum [(last :: before).reverse] := by
  rw [Collector.offer]
  by_cases hnew : last.1 = exec_cksum
  · have hzero := h.idle hnew
    rw [if_neg (by rw [hzero]; simp [MIN_AUTO_EXTRA])]
    rw [wanted_old ⟨last, by simp, hnew⟩, List.append_nil]
  · have hall : ((last :: before).reverse.all fun x => decide (x.1 ≠ exec_cksum)) = true := by
      rw [List.all_eq_true]
      intro x hx
      rw [List.mem_reverse, List.mem_cons] at hx
      rcases hx with rfl | hx
      · exact decide_eq_true hnew
      · exact decide_eq_true (by rw [h.run x hx]; exact hnew)
    have hlen : (last :: before).reverse.length = c.a_len := by
      rw [h.a_len hnew]
      simp
    by_cases hright : c.a_len ≥ MIN_AUTO_EXTRA ∧ c.a_len ≤ MAX_AUTO_EXTRA
    · rw [if_pos hright]
      simp only [wanted, List.filter_cons, hall, hlen, hright.1, hright.2, decide_true, Bool.and_self, if_true,
        List.filter_nil, List.map_cons, List.map_nil]
      rw [h.collected hnew hright.2]
    · rw [if_neg hright]
      rw [wanted_length (by rw [hlen]; exact hright), List.append_nil]

/-- **A byte of the same run.** -/
theorem next (h : Inside exec_cksum c last before) (hx : x.1 = last.1) :
    Inside exec_cksum (c.collect exec_cksum false x.1 x.2) x (last :: before) ∧
      (c.collect exec_cksum false x.1 x.2).calls = c.calls := by
  have hcollect : c.collect exec_cksum false x.1 x.2 = if x.1 ≠ exec_cksum then c.push x.2 else c := by
    rw [Collector.collect, Collector.turn_same (hx.trans h.prev_cksum.symm)]
  rw [hcollect]
  have hrun : ∀ y ∈ last :: before, y.1 = x.1 := by
    intro y hy
    rcases List.mem_cons.mp hy with rfl | hy
    · exact hx.symm
    · rw [h.run y hy, hx]
  by_cases hnew : x.1 = exec_cksum
  · rw [if_neg (not_not_intro hnew)]
    exact ⟨⟨by rw [h.prev_cksum, hx], hrun, fun _ => h.idle (hx ▸ hnew), fun hc => absurd hnew hc,
      fun hc => absurd hnew hc⟩, rfl⟩
  · rw [if_pos hnew]
    exact ⟨pushed h hx hnew, rfl⟩

/-- **A byte of the next run.** -/
theorem first (exec_cksum : UInt32) (hx : x.1 ≠ c.prev_cksum) :
    Inside exec_cksum (c.collect exec_cksum false x.1 x.2) x [] ∧
      (c.collect exec_cksum false x.1 x.2).calls = c.offer.calls := by
  refine ⟨?_, by rw [Collector.collect_calls, Collector.turn_new hx]⟩
  rw [Collector.collect, Collector.turn_new hx]
  by_cases hnew : x.1 = exec_cksum
  · rw [if_neg (not_not_intro hnew)]
    exact ⟨rfl, fun y hy => absurd hy List.not_mem_nil, fun _ => rfl, fun hc => absurd hnew hc, fun hc => absurd hnew hc⟩
  · rw [if_pos hnew]
    refine ⟨rfl, fun y hy => absurd hy List.not_mem_nil, fun hc => absurd hc hnew, fun _ => rfl, fun _ i hi hmax => ?_⟩
    obtain rfl : i = 0 := by
      rw [Collector.push_a_len] at hi
      exact Nat.lt_one_iff.mp hi
    exact (congrArg some (Collector.push_a_collect (Nat.zero_lt_succ 31))).symm

/-- **The last byte.** -/
theorem finish (h : Inside exec_cksum c last before) :
    (c.collect exec_cksum true x.1 x.2).calls =
      c.calls ++ wanted exec_cksum (List.splitBy.loop same [x] last before []) := by
  rw [Collector.collect_calls, List.splitBy.loop]
  by_cases hx : x.1 = last.1
  · rw [Collector.turn_last (hx.trans h.prev_cksum.symm), show same last x = true from beq_iff_eq.mpr hx.symm]
    by_cases hnew : x.1 = exec_cksum
    · have hidle : (c.push x.2).a_len = 1 := by
        rw [Collector.push_a_len, h.idle (hx ▸ hnew)]
      rw [Collector.offer_short (by rw [hidle]; decide)]
      show c.calls = c.calls ++ wanted exec_cksum [(x :: last :: before).reverse]
      rw [wanted_old ⟨x, by simp, hnew⟩, List.append_nil]
    · exact (h.pushed hx hnew).offer_calls
  · rw [Collector.turn_new fun hc => hx (hc.trans h.prev_cksum), h.offer_calls,
      show same last x = false from beq_eq_false_iff_ne.mpr (Ne.symm hx)]
    show _ = c.calls ++ wanted exec_cksum ([(last :: before).reverse] ++ [[x]])
    rw [wanted_append, wanted_single, List.append_nil]

/-- **The remaining bytes.** -/
theorem rest (h : Inside exec_cksum c last before) {bytes : List (UInt32 × UInt8)} (hbytes : bytes ≠ []) :
    (c.collects exec_cksum bytes).calls =
      c.calls ++ wanted exec_cksum (List.splitBy.loop same bytes last before []) := by
  induction bytes generalizing c last before with
  | nil => exact absurd rfl hbytes
  | cons x bytes ih =>
    cases bytes with
    | nil => exact h.finish
    | cons y bytes =>
      have hmore : y :: bytes ≠ [] := List.cons_ne_nil y bytes
      show ((c.collect exec_cksum false x.1 x.2).collects exec_cksum (y :: bytes)).calls = _
      rw [List.splitBy.loop]
      by_cases hx : x.1 = last.1
      · obtain ⟨hinside, hcalls⟩ := h.next hx
        rw [ih hinside hmore, hcalls, show same last x = true from beq_iff_eq.mpr hx.symm]
      · obtain ⟨hinside, hcalls⟩ := first exec_cksum fun hc => hx (hc.trans h.prev_cksum)
        rw [ih hinside hmore, hcalls, h.offer_calls, show same last x = false from beq_eq_false_iff_ne.mpr (Ne.symm hx),
          loop_eq_append [_], wanted_append, List.append_assoc]
        rfl

end Inside

/-- **Tokens are runs.** What is offered to the dictionary are the maximal strings of bytes for which the trace changed
in the same way, of a length between `MIN_AUTO_EXTRA` and `MAX_AUTO_EXTRA`. -/
theorem tokens_eq_runs (a_collect : ℕ → UInt8) (exec_cksum : UInt32) (bytes : List (UInt32 × UInt8)) :
    tokens a_collect exec_cksum bytes = wanted exec_cksum (bytes.splitBy same) := by
  rw [tokens]
  have hempty : (⟨a_collect, 0, exec_cksum, []⟩ : Collector).offer = ⟨a_collect, 0, exec_cksum, []⟩ :=
    Collector.offer_short (Nat.zero_lt_succ 2)
  cases bytes with
  | nil => rfl
  | cons x bytes =>
    rw [List.splitBy]
    cases bytes with
    | nil =>
      show (Collector.collect exec_cksum ⟨a_collect, 0, exec_cksum, []⟩ true x.1 x.2).calls = wanted exec_cksum [[x]]
      rw [wanted_single, Collector.collect_calls]
      by_cases hx : x.1 = exec_cksum
      · rw [Collector.turn_last hx, Collector.offer_short (Nat.succ_lt_succ (Nat.zero_lt_succ 1))]
        rfl
      · rw [Collector.turn_new hx, hempty]
    | cons y bytes =>
      have hmore : y :: bytes ≠ [] := List.cons_ne_nil y bytes
      show (Collector.collects exec_cksum (Collector.collect exec_cksum ⟨a_collect, 0, exec_cksum, []⟩ false x.1 x.2)
        (y :: bytes)).calls = _
      by_cases hx : x.1 = exec_cksum
      · have hstay : Collector.collect exec_cksum ⟨a_collect, 0, exec_cksum, []⟩ false x.1 x.2 =
            ⟨a_collect, 0, exec_cksum, []⟩ := by
          rw [Collector.collect, Collector.turn_same hx, if_neg (not_not_intro hx)]
        have hinside : Inside exec_cksum ⟨a_collect, 0, exec_cksum, []⟩ x [] :=
          ⟨hx.symm, fun y hy => absurd hy List.not_mem_nil, fun _ => rfl, fun hc => absurd hx hc, fun hc => absurd hx hc⟩
        rw [hstay, hinside.rest hmore, List.nil_append]
      · obtain ⟨hinside, hcalls⟩ := Inside.first (c := ⟨a_collect, 0, exec_cksum, []⟩) exec_cksum hx
        rw [hinside.rest hmore, hcalls, hempty, List.nil_append]

end SEDiff.Afl.AutoExtras

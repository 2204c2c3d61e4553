import SEDiff.Foundation.Cut
import SEDiff.Juxta.Path

/-!
# Statements

What `PathStore` of `path.py` makes of stores `l = r` and `l op= r`.

## What is proved

* `sides_ok` — the two sides of a statement are always found.
* `store_faithful_iff` — they are the ones of the store if and only if no operator of the right-hand side is looked for
  before the one of the store, which `^=` never is, and the operands commute.
-/

namespace SEDiff.Juxta

open Foundation

/-- A line is split at a token that occurs. -/
theorem split_ok {line tok : Str} (hne : tok ≠ []) (h : tok <:+: line) : ∃ l r, split line tok = .ok (l, r) := by
  obtain ⟨l, r, rfl, hlast⟩ := Str.exists_last hne h
  rw [split, Str.rsplit_append l hne hlast]
  exact ⟨_, _, rfl⟩

/-- A text is split at its location mark, when there is no other one in the location. -/
theorem split_location {s loc : Str} (hs : Str.Trimmed s) (hloc : ¬ "@LOCATION:".toList <:+: loc) :
    split (s ++ ' ' :: ("@LOCATION:".toList ++ ' ' :: loc)) "@LOCATION:".toList = .ok (s, Str.strip (' ' :: loc)) := by
  have hlast : ¬ "@LOCATION:".toList <:+: ("@LOCATION:".toList ++ ' ' :: loc).tail := fun h =>
    hloc (Str.infix_of_append (a := "LOCATION: ".toList) (by decide) h)
  have htext : s ++ ' ' :: ("@LOCATION:".toList ++ ' ' :: loc) = (s ++ [' ']) ++ ("@LOCATION:".toList ++ ' ' :: loc) := by
    simp
  rw [htext, split, Str.rsplit_append _ (by decide) hlast]
  dsimp only
  rw [Str.strip_append_blank hs]

/-- The two sides of a statement are always found. -/
theorem sides_ok (line stmt : Str) : ∃ r, sides line stmt = .ok r := by
  rw [sides]
  by_cases hinc : "++".toList <:+: stmt
  · rw [if_pos hinc]
    exact ⟨_, rfl⟩
  by_cases hdec : "--".toList <:+: stmt
  · rw [if_neg hinc, if_pos hdec]
    exact ⟨_, rfl⟩
  rw [if_neg hinc, if_neg hdec]
  cases hfind : compound.find? fun p => p.1 <:+: stmt with
  | some p =>
    have hmem := List.mem_of_find?_eq_some hfind
    have hne : ∀ p ∈ compound, p.1 ≠ [] := by decide
    have hin : p.1 <:+: stmt := by simpa using List.find?_some hfind
    obtain ⟨l, r, hrun⟩ := split_ok (hne p hmem) hin
    dsimp only
    rw [hrun]
    exact ⟨_, rfl⟩
  | none =>
    dsimp only
    split_ifs with heq
    · obtain ⟨l, r, hrun⟩ := split_ok (by decide) heq
      rw [hrun]
      exact ⟨_, rfl⟩
    · exact ⟨_, rfl⟩

/-! ### Stores -/

/-- The operators of compound stores. -/
inductive BinOp
  /-- `+`. -/
  | add
  /-- `-`. -/
  | sub
  /-- `*`. -/
  | mul
  /-- `/`. -/
  | div
  /-- `%`. -/
  | mod
  /-- `&`. -/
  | and
  /-- `|`. -/
  | or
  /-- `^`. -/
  | xor
  /-- `<<`. -/
  | shl
  /-- `>>`. -/
  | shr
  deriving DecidableEq

namespace BinOp

/-- The operator. -/
def sym : BinOp → Str
  | add => ['+']
  | sub => ['-']
  | mul => ['*']
  | div => ['/']
  | mod => ['%']
  | and => ['&']
  | or => ['|']
  | xor => ['^']
  | shl => ['<', '<']
  | shr => ['>', '>']

/-- The operator that assigns. -/
def tok (op : BinOp) : Str := op.sym ++ ['=']

/-- The operator between its operands. -/
def text (op : BinOp) : Str := ' ' :: (op.sym ++ [' '])

/-- All of them. -/
def ops : List BinOp := [add, sub, mul, div, mod, and, or, xor, shl, shr]

theorem mem_ops (op : BinOp) : op ∈ ops := by
  cases op <;> decide

/-- The tokens that are looked for before it. -/
def before (op : BinOp) : List Str := (compound.map Prod.fst).takeWhile (· ≠ op.tok)

end BinOp

/-- The assignment operator of a store. -/
def assign : Option BinOp → Str
  | none => ['=']
  | some op => op.tok

/-- A store with its location. -/
def storeText (l : Str) (op : Option BinOp) (r loc : Str) : Str :=
  (l ++ ' ' :: (assign op ++ ' ' :: r)) ++ ' ' :: ("@LOCATION:".toList ++ ' ' :: loc)

/-- The value that is stored. -/
def value (l : Str) (op : Option BinOp) (r : Str) : Str :=
  match op with
  | none => r
  | some op => l ++ op.text ++ r

/-- The store is parsed as what it is. -/
def Faithful (l : Str) (op : Option BinOp) (r loc : Str) : Prop :=
  ∃ s, PathStore.init (storeText l op r loc) = .ok s ∧ s.lhs = some l ∧ s.rhs = value l op r

/-- No increment or decrement. -/
def NoStep (s : Str) : Prop := ¬ "++".toList <:+: s ∧ ¬ "--".toList <:+: s

/-- No token is found that is not the one of the store, and the operands commute. -/
def Readable (l : Str) (op : Option BinOp) (r : Str) : Prop :=
  NoStep l ∧ NoStep r ∧
    match op with
    | none => '=' ∉ r
    | some op => op ≠ .xor ∧ (∀ t ∈ op.before ++ [op.tok], ¬ t <:+: r) ∧ r ++ op.text ++ l = l ++ op.text ++ r

/-! ### Tokens of a store -/

/-- The statement of a store. -/
def stmtText (l m r : Str) : Str := l ++ ' ' :: (m ++ ' ' :: r)

/-- A token is in the left-hand side, in the operator or in the right-hand side. -/
theorem infix_stmtText_iff {t l m r : Str} (ht : ' ' ∉ t) :
    t <:+: stmtText l m r ↔ t <:+: l ∨ t <:+: m ∨ t <:+: r := by
  rw [stmtText, Str.infix_cons_iff_of_notMem ht, Str.infix_cons_iff_of_notMem ht]

/-- The right-hand side is in the statement. -/
theorem infix_right (l m r : Str) : r <:+: stmtText l m r := by
  refine ⟨l ++ ' ' :: (m ++ [' ']), [], ?_⟩
  simp [stmtText]

theorem mem_assign (op : Option BinOp) : '=' ∈ assign op := by
  cases op with
  | none => exact List.mem_singleton_self _
  | some op => exact List.mem_append_right _ (List.mem_singleton_self _)

theorem noStep_assign (op : Option BinOp) : NoStep (assign op) := by
  cases op with
  | none => exact ⟨by decide, by decide⟩
  | some op => cases op <;> exact ⟨by decide, by decide⟩

theorem noStep_stmtText_iff (l : Str) (op : Option BinOp) (r : Str) :
    NoStep (stmtText l (assign op) r) ↔ NoStep l ∧ NoStep r := by
  have hop := noStep_assign op
  rw [NoStep, infix_stmtText_iff (by decide), infix_stmtText_iff (by decide), NoStep, NoStep]
  have h1 := hop.1
  have h2 := hop.2
  tauto

theorem mem_stmtText (l : Str) (op : Option BinOp) (r : Str) : '=' ∈ stmtText l (assign op) r :=
  List.mem_append_right _ (List.mem_cons_of_mem _ (List.mem_append_left _ (mem_assign op)))

/-- The tokens of the chain have no blank, are there, and assign. -/
theorem compound_tok {p : Str × Str} (hp : p ∈ compound) : ' ' ∉ p.1 ∧ p.1 ≠ [] ∧ '=' ∈ p.1 := by
  have hall : ∀ p ∈ compound, ' ' ∉ p.1 ∧ p.1 ≠ [] ∧ '=' ∈ p.1 := by decide
  exact hall p hp

/-- A token of the chain is in the operator only when it is the operator. -/
theorem infix_assign_iff {p : Str × Str} (hp : p ∈ compound) (op : Option BinOp) :
    p.1 <:+: assign op ↔ assign op = p.1 := by
  have hnone : ∀ p ∈ compound, (p.1 <:+: assign none ↔ assign none = p.1) := by decide
  have hsome : ∀ p ∈ compound, ∀ op ∈ BinOp.ops, (p.1 <:+: op.tok ↔ op.tok = p.1) := by decide
  cases op with
  | none => exact hnone p hp
  | some op => exact hsome p hp op op.mem_ops

/-- The last token of a statement is in the right-hand side: the left-hand side that is found has the operator. -/
theorem split_right {t : Str} (hne : t ≠ []) {r : Str} (hr : t <:+: r) (l : Str) (op : Option BinOp) :
    ∃ lhs rhs, split (stmtText l (assign op) r) t = .ok (lhs, rhs) ∧ '=' ∈ lhs := by
  obtain ⟨a, b, rfl, hlast⟩ := Str.exists_last hne hr
  have htext : stmtText l (assign op) (a ++ (t ++ b)) = stmtText l (assign op) a ++ (t ++ b) := by simp [stmtText]
  rw [htext, split, Str.rsplit_append _ hne hlast]
  exact ⟨_, _, rfl, Str.mem_strip (mem_stmtText l op a) (by decide)⟩

/-- The last token of a statement is in the operator. -/
theorem split_assign {t m r : Str} (hne : t ≠ []) (hblank : ' ' ∉ t) (hself : ¬ t <:+: t.tail) (hr : ¬ t <:+: r)
    (htrim : Str.Trimmed r) (l : Str) :
    split (stmtText l (m ++ t) r) t = .ok (Str.strip (l ++ ' ' :: m), r) := by
  have htext : stmtText l (m ++ t) r = (l ++ ' ' :: m) ++ (t ++ ' ' :: r) := by simp [stmtText]
  have htail : (t ++ ' ' :: r).tail = t.tail ++ ' ' :: r := List.tail_append_of_ne_nil hne
  have hlast : ¬ t <:+: (t ++ ' ' :: r).tail := by
    rw [htail, Str.infix_cons_iff_of_notMem hblank, not_or]
    exact ⟨hself, hr⟩
  rw [htext, split, Str.rsplit_append _ hne hlast]
  dsimp only
  rw [Str.strip_blank_cons htrim]

/-! ### What is found -/

section Found

variable {text l r : Str} {op : Option BinOp}

/-- A step anywhere is taken for the statement. -/
theorem sides_step (hl : '=' ∉ l) (h : ¬ NoStep (stmtText l (assign op) r)) {x : Str} :
    sides text (stmtText l (assign op) r) ≠ .ok (some l, x) := by
  have hmem := mem_stmtText l op r
  intro hrun
  rw [sides] at hrun
  by_cases hinc : "++".toList <:+: stmtText l (assign op) r
  · rw [if_pos hinc] at hrun
    have hlhs := Option.some.inj (congrArg Prod.fst (Except.ok.inj hrun))
    rw [← hlhs] at hl
    exact hl (Str.mem_rstrip hmem (by decide))
  · have hdec : "--".toList <:+: stmtText l (assign op) r := not_not.mp fun hdec => h ⟨hinc, hdec⟩
    rw [if_neg hinc, if_pos hdec] at hrun
    have hlhs := Option.some.inj (congrArg Prod.fst (Except.ok.inj hrun))
    rw [← hlhs] at hl
    exact hl (Str.mem_rstrip hmem (by decide))

/-- Without a step, the first token of the chain that occurs is taken. -/
theorem sides_of_some (h : NoStep (stmtText l (assign op) r)) {p : Str × Str}
    (hfind : (compound.find? fun p => p.1 <:+: stmtText l (assign op) r) = some p) {lhs rhs : Str}
    (hsplit : split (stmtText l (assign op) r) p.1 = .ok (lhs, rhs)) :
    sides text (stmtText l (assign op) r) = .ok (some lhs, rhs ++ p.2 ++ lhs) := by
  rw [sides, if_neg h.1, if_neg h.2, hfind]
  dsimp only
  rw [hsplit]
  rfl

/-- Without a token of the chain, `=` is taken. -/
theorem sides_of_none (h : NoStep (stmtText l (assign op) r))
    (hfind : (compound.find? fun p => p.1 <:+: stmtText l (assign op) r) = none) {lhs rhs : Str}
    (hsplit : split (stmtText l (assign op) r) "=".toList = .ok (lhs, rhs)) :
    sides text (stmtText l (assign op) r) = .ok (some lhs, rhs) := by
  have heq : "=".toList <:+: stmtText l (assign op) r := by
    obtain ⟨a, b, hab⟩ := List.append_of_mem (mem_stmtText l op r)
    exact ⟨a, b, by rw [hab]; simp⟩
  rw [sides, if_neg h.1, if_neg h.2, hfind]
  dsimp only
  rw [if_pos heq, hsplit]
  rfl

end Found

/-! ### The chain -/

/-- What is found is looked for before a token that occurs, or is that token. -/
theorem mem_before_of_find {s : Str} {op : BinOp} (hop : op.tok <:+: s) {p : Str × Str}
    (hfind : (compound.find? fun p => p.1 <:+: s) = some p) : p.1 ∈ op.before ++ [op.tok] := by
  obtain ⟨-, as, bs, heq, has⟩ := List.find?_eq_some_iff_append.mp hfind
  have hpass : ∀ t ∈ as.map Prod.fst, decide (t ≠ op.tok) = true := by
    intro t ht
    obtain ⟨q, hq, rfl⟩ := List.mem_map.mp ht
    refine decide_eq_true fun heq => ?_
    have hno := has q hq
    rw [heq] at hno
    simp [hop] at hno
  by_cases hp : p.1 = op.tok
  · exact List.mem_append_right _ (List.mem_singleton.mpr hp)
  · refine List.mem_append_left _ ?_
    rw [BinOp.before, heq, List.map_append, List.map_cons, List.takeWhile_append_of_pos hpass,
      List.takeWhile_cons_of_pos (by simpa using hp)]
    exact List.mem_append_right _ List.mem_cons_self

/-- What is looked for before the token that is found does not occur. -/
theorem not_infix_of_mem_before {s : Str} {op : BinOp} {p : Str × Str}
    (hfind : (compound.find? fun p => p.1 <:+: s) = some p) (hp : p.1 = op.tok) {t : Str} (ht : t ∈ op.before) :
    ¬ t <:+: s := by
  obtain ⟨-, as, bs, heq, has⟩ := List.find?_eq_some_iff_append.mp hfind
  rw [BinOp.before, heq, List.map_append, List.map_cons] at ht
  have hmem : t ∈ as.map Prod.fst := by
    by_contra hno
    rw [List.takeWhile_append] at ht
    split_ifs at ht
    · rw [List.takeWhile_cons_of_neg (by simpa using hp), List.append_nil] at ht
      exact hno ht
    · exact hno ((List.takeWhile_prefix _).subset ht)
  obtain ⟨q, hq, rfl⟩ := List.mem_map.mp hmem
  simpa using has q hq

/-- Every operator but `^` is in the chain. -/
theorem mem_compound {op : BinOp} (hop : op ≠ .xor) : (op.tok, op.text) ∈ compound := by
  cases op <;> first | decide | exact absurd rfl hop

/-- What is in the chain for an operator. -/
theorem eq_of_mem_compound {op : BinOp} {p : Str × Str} (hp : p ∈ compound) (htok : p.1 = op.tok) :
    op ≠ .xor ∧ p.2 = op.text := by
  have hall : ∀ p ∈ compound, ∀ op ∈ BinOp.ops, p.1 = op.tok → op ≠ .xor ∧ p.2 = op.text := by decide
  exact hall p hp op op.mem_ops htok

/-! ### The sides of a store -/

section Sides

variable {text l r : Str} {op : Option BinOp}

/-- A token of the right-hand side is taken: the left-hand side has the operator. -/
theorem ne_of_mem (hl : '=' ∉ l) {lhs x y : Str} (hlhs : '=' ∈ lhs) :
    (.ok (some lhs, x) : Except PyErr (Option Str × Str)) ≠ .ok (some l, y) := by
  intro h
  obtain rfl : lhs = l := Option.some.inj (congrArg Prod.fst (Except.ok.inj h))
  exact hl hlhs

/-- A left-hand side with half of `^=`. -/
theorem strip_caret_ne (hlt : Str.Trimmed l) : Str.strip (l ++ ' ' :: ['^']) ≠ l := by
  cases l with
  | nil => decide
  | cons c l =>
    have htrim : Str.Trimmed (c :: l ++ ' ' :: ['^']) := by
      refine ⟨hlt.head, fun d hd => ?_⟩
      rw [List.getLast?_append_of_ne_nil _ (by simp)] at hd
      obtain rfl : '^' = d := by simpa using hd
      decide
    rw [Str.strip_of_trimmed htrim]
    exact fun h => absurd (congrArg List.length h) (by simp)

/-- With a token of the chain in the statement. -/
theorem sides_some_iff (hl : '=' ∉ l) (hlt : Str.Trimmed l) (hrt : Str.Trimmed r)
    (hstep : NoStep l ∧ NoStep r) {p : Str × Str}
    (hfind : (compound.find? fun p => p.1 <:+: stmtText l (assign op) r) = some p) :
    sides text (stmtText l (assign op) r) = .ok (some l, value l op r) ↔ Readable l op r := by
  have hno := (noStep_stmtText_iff l op r).mpr hstep
  have hmem := List.mem_of_find?_eq_some hfind
  obtain ⟨hblank, hne, heq⟩ := compound_tok hmem
  by_cases hr : p.1 <:+: r
  · obtain ⟨lhs, rhs, hsplit, hlhs⟩ := split_right hne hr l op
    rw [sides_of_some hno hfind hsplit]
    refine iff_of_false (ne_of_mem hl hlhs) fun hread => ?_
    cases op with
    | none => exact hread.2.2 (hr.subset heq)
    | some op =>
      have hop : op.tok <:+: stmtText l (assign (some op)) r :=
        (infix_stmtText_iff (by cases op <;> decide)).mpr (.inr (.inl (List.infix_refl _)))
      exact hread.2.2.2.1 _ (mem_before_of_find hop hfind) hr
  · have hin : p.1 <:+: stmtText l (assign op) r := by simpa using List.find?_some hfind
    have hassign : assign op = p.1 := by
      refine (infix_assign_iff hmem op).mp ?_
      obtain h | h | h := (infix_stmtText_iff hblank).mp hin
      · exact absurd (h.subset heq) hl
      · exact h
      · exact absurd h hr
    cases op with
    | none =>
      have hall : ∀ p ∈ compound, assign none ≠ p.1 := by decide
      exact absurd hassign (hall p hmem)
    | some op =>
      obtain ⟨hxor, htxt⟩ := eq_of_mem_compound hmem hassign.symm
      have hself : ∀ p ∈ compound, ¬ p.1 <:+: p.1.tail := by decide
      have hsplit := split_assign (m := []) hne hblank (hself p hmem) hr hrt l
      rw [List.nil_append, Str.strip_append_blank hlt] at hsplit
      rw [← hassign] at hr
      have hsides : sides text (stmtText l (assign (some op)) r) = .ok (some l, r ++ p.2 ++ l) :=
        sides_of_some hno hfind (by rw [hassign]; exact hsplit)
      rw [hsides, htxt]
      constructor
      · intro h
        refine ⟨hstep.1, hstep.2, hxor, fun t ht htr => ?_, congrArg Prod.snd (Except.ok.inj h)⟩
        obtain ht | ht := List.mem_append.mp ht
        · exact not_infix_of_mem_before hfind hassign.symm ht (htr.trans (infix_right l _ r))
        · rw [List.mem_singleton.mp ht] at htr
          exact hr htr
      · intro h
        rw [h.2.2.2.2]
        rfl

/-- Without a token of the chain in the statement. -/
theorem sides_none_iff (hl : '=' ∉ l) (hlt : Str.Trimmed l) (hrt : Str.Trimmed r) (hstep : NoStep l ∧ NoStep r)
    (hfind : (compound.find? fun p => p.1 <:+: stmtText l (assign op) r) = none) :
    sides text (stmtText l (assign op) r) = .ok (some l, value l op r) ↔ Readable l op r := by
  have hno := (noStep_stmtText_iff l op r).mpr hstep
  have hright (hr : '=' ∈ r) : sides text (stmtText l (assign op) r) ≠ .ok (some l, value l op r) := by
    have hin : "=".toList <:+: r := by
      obtain ⟨a, b, rfl⟩ := List.append_of_mem hr
      exact ⟨a, b, by simp⟩
    obtain ⟨lhs, rhs, hsplit, hlhs⟩ := split_right (by decide) hin l op
    rw [sides_of_none hno hfind hsplit]
    exact ne_of_mem hl hlhs
  have hassign {m : Str} (hm : assign op = m ++ "=".toList) (hr : '=' ∉ r) :
      sides text (stmtText l (assign op) r) = .ok (some (Str.strip (l ++ ' ' :: m)), r) := by
    have hin : ¬ "=".toList <:+: r := Str.not_infix_of_notMem (by decide) hr
    apply sides_of_none hno hfind
    rw [hm]
    exact split_assign (by decide) (by decide) (by decide) hin hrt l
  cases op with
  | none =>
    by_cases hr : '=' ∈ r
    · exact iff_of_false (hright hr) fun h => h.2.2 hr
    · rw [hassign (m := []) rfl hr, Str.strip_append_blank hlt]
      exact iff_of_true rfl ⟨hstep.1, hstep.2, hr⟩
  | some op =>
    have hxor : op = .xor := by
      by_contra hne
      have hfail := List.find?_eq_none.mp hfind _ (mem_compound hne)
      simp only [decide_eq_true_eq] at hfail
      exact hfail ((infix_stmtText_iff (by cases op <;> decide)).mpr (.inr (.inl (List.infix_refl _))))
    subst hxor
    refine iff_of_false ?_ fun h => h.2.2.1 rfl
    by_cases hr : '=' ∈ r
    · exact hright hr
    · rw [hassign (m := ['^']) rfl hr]
      exact fun h => strip_caret_ne hlt (Option.some.inj (congrArg Prod.fst (Except.ok.inj h)))

/-- **The sides of a store** are found exactly when it is readable. -/
theorem sides_stmtText_iff (hl : '=' ∉ l) (hlt : Str.Trimmed l) (hrt : Str.Trimmed r) :
    sides text (stmtText l (assign op) r) = .ok (some l, value l op r) ↔ Readable l op r := by
  by_cases hstep : NoStep l ∧ NoStep r
  · cases hfind : compound.find? fun p => p.1 <:+: stmtText l (assign op) r with
    | some p => exact sides_some_iff hl hlt hrt hstep hfind
    | none => exact sides_none_iff hl hlt hrt hstep hfind
  · have hno : ¬ NoStep (stmtText l (assign op) r) := fun h => hstep ((noStep_stmtText_iff l op r).mp h)
    exact iff_of_false (sides_step hl hno) fun h => hstep ⟨h.1, h.2.1⟩

end Sides

/-- The statement of a store has no blanks around it. -/
theorem trimmed_stmtText {l r : Str} (hlt : Str.Trimmed l) (hrt : Str.Trimmed r) (hl : l ≠ []) (hr : r ≠ []) (m : Str) :
    Str.Trimmed (stmtText l m r) := by
  refine ⟨fun c hc => hlt.head c ?_, fun c hc => hrt.last c ?_⟩
  · rwa [stmtText, List.head?_append_of_ne_nil _ hl] at hc
  · have htext : stmtText l m r = (l ++ ' ' :: (m ++ [' '])) ++ r := by simp [stmtText]
    rwa [htext, List.getLast?_append_of_ne_nil _ hr] at hc

/-- **Stores.** `PathStore` finds the two sides of `l = r` and `l op= r` if and only if neither has an increment or
decrement, and: for `=`, there is no `=` in `r`; for `op=`, the operator is not `^`, no operator of the chain up to `op=`
is in `r`, and `r op l` is the same text as `l op r` (the operands are swapped). -/
theorem store_faithful_iff {l r loc : Str} (hl : '=' ∉ l) (hlt : Str.Trimmed l) (hlne : l ≠ []) (hrt : Str.Trimmed r)
    (hrne : r ≠ []) (hloc : ¬ "@LOCATION:".toList <:+: loc) (op : Option BinOp) :
    Faithful l op r loc ↔ Readable l op r := by
  rw [← @sides_stmtText_iff (storeText l op r loc) l r op hl hlt hrt]
  obtain ⟨⟨lhs, rhs⟩, hsides⟩ := sides_ok (storeText l op r loc) (stmtText l (assign op) r)
  have hinit : ∃ loc', PathStore.init (storeText l op r loc) = .ok ⟨loc', lhs, rhs⟩ := by
    have hsplit : split (storeText l op r loc) "@LOCATION:".toList =
        .ok (stmtText l (assign op) r, Str.strip (' ' :: loc)) :=
      split_location (trimmed_stmtText hlt hrt hlne hrne (assign op)) hloc
    rw [PathStore.init, hsplit]
    simp only [ok_bind, hsides]
    exact ⟨_, rfl⟩
  obtain ⟨loc', hinit⟩ := hinit
  rw [Faithful, hinit, hsides]
  constructor
  · rintro ⟨s, hs, hlhs, hrhs⟩
    cases hs
    rw [← hlhs, ← hrhs]
  · intro h
    cases h
    exact ⟨_, rfl, rfl, rfl⟩

/-- A plain store of a sum. -/
theorem store_faithful_plain : Faithful "a->b".toList none "c + 1".toList "a.c:3:5".toList :=
  (store_faithful_iff (by decide) (by decide) (by decide) (by decide) (by decide) (by decide) none).mpr ⟨⟨by decide, by decide⟩, ⟨by decide, by decide⟩, by decide⟩

/-- A comparison is taken for the assignment: `x = a == b` stores `b` in `x = a =`. -/
theorem not_store_faithful : ¬ ∀ (l r loc : Str) (op : Option BinOp), '=' ∉ l → Str.Trimmed l → l ≠ [] →
    Str.Trimmed r → r ≠ [] → ¬ "@LOCATION:".toList <:+: loc → Faithful l op r loc := by
  intro h
  obtain ⟨s, hs, hlhs, -⟩ := h "x".toList "a == b".toList "a.c:3:5".toList none (by decide) (by decide)
    (by decide) (by decide) (by decide) (by decide)
  have hinit : PathStore.init (storeText "x".toList none "a == b".toList "a.c:3:5".toList) =
      .ok ⟨"a.c:3".toList, some "x = a =".toList, "b".toList⟩ := by rfl
  rw [hinit] at hs
  cases hs
  exact absurd hlhs (by decide)

end SEDiff.Juxta

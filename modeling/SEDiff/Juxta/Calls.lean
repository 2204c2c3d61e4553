import Mathlib.Data.List.Infix
import SEDiff.Juxta.Statements

/-!
# Calls

What `PathCall` of `path.py` makes of a call `f(a1, ..., an)`.

## What is proved

* `beg_args_call` — the parenthesis that opens the arguments is found.
* `call_recovered_iff` — the function, the arguments and the location are recovered if and only if no argument has a
  comma or a blank in it.
-/

namespace SEDiff.Juxta

open Foundation

/-- The arguments of a call. -/
def argText (args : List Str) : Str := [',', ' '].intercalate args

/-- A call with its location. -/
def callText (f : Str) (args : List Str) (loc : Str) : Str :=
  (f ++ '(' :: (argText args ++ [')'])) ++ ' ' :: ("@LOCATION:".toList ++ ' ' :: loc)

/-- `callname`. -/
def PathCall.callname (c : PathCall) : Str := c.func ++ '(' :: ([','].intercalate c.args ++ [')'])

/-- The call is parsed as what it is. -/
def Recovered (f : Str) (args : List Str) (loc : Str) : Prop :=
  ∃ c, PathCall.init (callText f args loc) = .ok c ∧ c.func = f ∧ c.args = args ∧ c.loc = loc ∧
    c.callname = f ++ '(' :: ([','].intercalate args ++ [')'])

/-! ### Parentheses -/

/-- How many more parentheses are closed than opened. -/
def depth (s : Str) : ℤ := s.count ')' - s.count '('

/-- The parentheses are balanced. -/
structure BalancedParens (s : Str) : Prop where
  /-- As many are opened as closed. -/
  total : depth s = 0
  /-- None is closed before it is opened. -/
  prefixes : ∀ pre, pre <+: s → depth pre ≤ 0

theorem balancedParens_iff (s : Str) : BalancedParens s ↔ depth s = 0 ∧ ∀ pre ∈ s.inits, depth pre ≤ 0 := by
  constructor
  · intro h
    exact ⟨h.total, fun pre hpre => h.prefixes pre ((List.mem_inits pre s).mp hpre)⟩
  · intro h
    exact ⟨h.1, fun pre hpre => h.2 pre ((List.mem_inits pre s).mpr hpre)⟩

instance (s : Str) : Decidable (BalancedParens s) := decidable_of_iff' _ (balancedParens_iff s)

theorem depth_append (s t : Str) : depth (s ++ t) = depth s + depth t := by
  rw [depth, depth, depth, List.count_append, List.count_append]
  omega

theorem BalancedParens.append {s t : Str} (hs : BalancedParens s) (ht : BalancedParens t) : BalancedParens (s ++ t) := by
  refine ⟨by rw [depth_append, hs.total, ht.total]; rfl, fun pre hpre => ?_⟩
  obtain ⟨r, hr⟩ := hpre
  obtain ⟨u, hu, -⟩ | ⟨u, hu, hr⟩ := List.append_eq_append_iff.mp hr
  · exact hs.prefixes pre ⟨u, hu.symm⟩
  · rw [hu, depth_append, hs.total, Int.zero_add]
    exact ht.prefixes u ⟨r, hr.symm⟩

/-- Text without parentheses is balanced. -/
theorem balancedParens_of_notMem {s : Str} (hopen : '(' ∉ s) (hclose : ')' ∉ s) : BalancedParens s := by
  have hzero {t : Str} (ho : '(' ∉ t) (hc : ')' ∉ t) : depth t = 0 := by
    rw [depth, List.count_eq_zero_of_not_mem ho, List.count_eq_zero_of_not_mem hc]
    rfl
  refine ⟨hzero hopen hclose, fun pre hpre => le_of_eq (hzero ?_ ?_)⟩
  · exact fun h => hopen (hpre.subset h)
  · exact fun h => hclose (hpre.subset h)

theorem balancedParens_argText {args : List Str} (h : ∀ a ∈ args, BalancedParens a) : BalancedParens (argText args) := by
  induction args with
  | nil => exact balancedParens_of_notMem List.not_mem_nil List.not_mem_nil
  | cons a args ih =>
    have ha := h a List.mem_cons_self
    have hargs := ih fun a' ha' => h a' (List.mem_cons_of_mem _ ha')
    cases args with
    | nil =>
      rw [argText, List.intercalate_singleton]
      exact ha
    | cons a' args =>
      rw [argText, List.intercalate_cons_cons]
      exact (ha.append (balancedParens_of_notMem (by decide) (by decide))).append hargs

/-- What is closed at the end of balanced text was opened in it. -/
theorem BalancedParens.suffixes {s : Str} (hs : BalancedParens s) {suf : Str} (hsuf : suf <:+ s) : 0 ≤ depth suf := by
  obtain ⟨pre, rfl⟩ := hsuf
  have hpre := hs.prefixes pre (List.prefix_append pre suf)
  have htotal := hs.total
  rw [depth_append] at htotal
  omega

theorem depth_singleton (c : Char) : depth [c] = if c = ')' then 1 else if c = '(' then -1 else 0 := by
  by_cases hclose : c = ')'
  · subst hclose
    rfl
  · by_cases hopen : c = '('
    · subst hopen
      rfl
    · simp [depth, hclose, hopen]

/-- One step back. -/
theorem beg_args_step (s : Str) (c : Char) (post : Str) (d : ℤ) :
    beg_args (s ++ c :: post) (s.length + 1) d =
      if d + depth [c] = 0 ∧ c = '(' then some s.length else beg_args (s ++ c :: post) s.length (d + depth [c]) := by
  have hget : (s ++ c :: post).getD s.length ' ' = c := by simp
  have hdepth : d + depth [c] = if c = ')' then d + 1 else if c = '(' then d - 1 else d := by
    rw [depth_singleton]
    split_ifs <;> omega
  rw [beg_args, hget, hdepth]

/-- Going back over text that never closes the depth. -/
theorem beg_args_append (pre s post : Str) {d : ℤ} (hs : ∀ suf, suf <:+ s → 1 ≤ d + depth suf) :
    beg_args (pre ++ (s ++ post)) (pre.length + s.length) d =
      beg_args (pre ++ (s ++ post)) pre.length (d + depth s) := by
  induction s using List.reverseRecOn generalizing post d with
  | nil => simp [depth]
  | append_singleton s c ih =>
    have htext : pre ++ (s ++ [c] ++ post) = (pre ++ s) ++ c :: post := by simp
    have hlen : pre.length + (s ++ [c]).length = (pre ++ s).length + 1 := by
      simp only [List.length_append, List.length_singleton]
      omega
    have hc := hs [c] (List.suffix_append s [c])
    have hrest : ∀ suf, suf <:+ s → 1 ≤ (d + depth [c]) + depth suf := by
      rintro suf ⟨u, rfl⟩
      have := hs (suf ++ [c]) ⟨u, (List.append_assoc _ _ _).symm⟩
      rw [depth_append] at this
      omega
    have hback := ih (c :: post) hrest
    rw [htext, hlen, beg_args_step, if_neg fun h => by omega, List.length_append, List.append_assoc, hback,
      depth_append]
    congr 1
    omega

/-- **The parenthesis that opens the arguments** is found. -/
theorem beg_args_call (f : Str) {s : Str} (hs : BalancedParens s) :
    beg_args (f ++ '(' :: (s ++ [')'])) (f ++ '(' :: (s ++ [')'])).length 0 = some f.length := by
  have hlast : f ++ '(' :: (s ++ [')']) = (f ++ '(' :: s) ++ ')' :: [] := by simp
  have hargs : f ++ '(' :: (s ++ [')']) = (f ++ ['(']) ++ (s ++ [')']) := by simp
  have hend : (f ++ '(' :: (s ++ [')'])).length = (f ++ '(' :: s).length + 1 := by
    simp only [List.length_append, List.length_cons, List.length_nil]
    omega
  have hlen : (f ++ '(' :: s).length = (f ++ ['(']).length + s.length := by
    simp only [List.length_append, List.length_cons, List.length_nil]
    omega
  have hback := beg_args_append (f ++ ['(']) s [')'] (d := 1) fun suf hsuf => by
    have := hs.suffixes hsuf
    omega
  have hopen := beg_args_step f '(' (s ++ [')']) 1
  rw [if_pos ⟨by decide, rfl⟩] at hopen
  rw [hend, hlast, beg_args_step, if_neg fun h => absurd h.2 (by decide), ← hlast, hlen, hargs]
  show beg_args _ _ 1 = _
  rw [hback, hs.total, ← hargs, List.length_append]
  exact hopen

/-! ### Arguments -/

/-- What is parsed of an argument has neither its delimiter nor a blank. -/
theorem parse_typed_arg_strip {part : Str} {c : Char} (hc : c ∉ part) :
    c ∉ (_parse_typed_arg (Str.strip part)).2 ∧ ' ' ∉ (_parse_typed_arg (Str.strip part)).2 := by
  have hpart : c ∉ Str.strip part := fun h => hc ((Str.strip_infix part).subset h)
  by_cases hblank : ' ' ∈ Str.strip part
  · obtain ⟨a, b, hab, hb⟩ := Str.exists_last_char hblank
    have hhead := Str.strip_head part
    rw [hab] at hpart hhead ⊢
    cases a with
    | nil => exact absurd (hhead ' ' rfl) (by decide)
    | cons x a =>
      have harg : (_parse_typed_arg (x :: a ++ ' ' :: b)).2 = Str.strip b := by
        rw [_parse_typed_arg, Str.rfind_append_cons _ hb]
        simp
      rw [harg]
      refine ⟨fun h => hpart ?_, fun h => hb ((Str.strip_infix b).subset h)⟩
      exact List.mem_append_right _ (List.mem_cons_of_mem _ ((Str.strip_infix b).subset h))
  · rw [_parse_typed_arg, Str.rfind_eq_none_iff.mpr hblank]
    exact ⟨hpart, hblank⟩

/-- An argument without a blank is left as it is. -/
theorem parse_typed_arg_of_notMem {a : Str} (ha : ' ' ∉ a) : _parse_typed_arg a = (none, a) := by
  rw [_parse_typed_arg, Str.rfind_eq_none_iff.mpr ha]

/-- The arguments that are parsed. -/
def parsedArgs (args : List Str) : List Str :=
  ((argText args).splitOn ',').map fun arg => (_parse_typed_arg (Str.strip arg)).2

/-- The arguments between their commas. -/
theorem splitOn_argText {a : Str} {args : List Str} (h : ∀ a' ∈ a :: args, ',' ∉ a') :
    (argText (a :: args)).splitOn ',' = a :: args.map (' ' :: ·) := by
  induction args generalizing a with
  | nil =>
    rw [argText, List.intercalate_singleton]
    exact List.splitOn_eq_singleton (h a List.mem_cons_self)
  | cons a' args ih =>
    have hrest := ih fun b hb => h b (List.mem_cons_of_mem _ hb)
    have htext : argText (a :: a' :: args) = a ++ ',' :: (' ' :: argText (a' :: args)) := by
      rw [argText, List.intercalate_cons_cons, List.append_assoc]
      rfl
    rw [htext, List.splitOn_append_cons_self_of_not_mem (h a List.mem_cons_self),
      List.splitOn_cons_eq_if_modifyHead, if_neg (by decide), hrest]
    rfl

/-- **The arguments** are recovered when there is no comma and no blank in them. -/
theorem parsedArgs_eq_iff {args : List Str} (hne : args ≠ []) (htrim : ∀ a ∈ args, Str.Trimmed a) :
    parsedArgs args = args ↔ ∀ a ∈ args, ',' ∉ a ∧ ' ' ∉ a := by
  constructor
  · intro h a ha
    rw [← h] at ha
    obtain ⟨part, hpart, rfl⟩ := List.mem_map.mp ha
    exact parse_typed_arg_strip (Str.notMem_of_mem_splitOn hpart)
  · intro h
    obtain ⟨a, args, rfl⟩ := List.exists_cons_of_ne_nil hne
    have hpad : ∀ a' ∈ args, Str.strip (' ' :: a') = a' := fun a' ha' =>
      Str.strip_blank_cons (htrim a' (List.mem_cons_of_mem _ ha'))
    have harg : ∀ a' ∈ a :: args, (_parse_typed_arg a').2 = a' := fun a' ha' => by
      rw [parse_typed_arg_of_notMem (h a' ha').2]
    rw [parsedArgs, splitOn_argText fun a' ha' => (h a' ha').1, List.map_cons, List.map_map,
      Str.strip_of_trimmed (htrim a List.mem_cons_self), harg a List.mem_cons_self]
    congr 1
    refine (List.map_congr_left fun a' ha' => ?_).trans (List.map_id _)
    show (_parse_typed_arg (Str.strip (' ' :: a'))).2 = a'
    rw [hpad a' ha', harg a' (List.mem_cons_of_mem _ ha')]

/-! ### The call -/

/-- The parsed call. -/
theorem init_callText {f loc : Str} {args : List Str} (hf : Str.Trimmed f) (hbal : ∀ a ∈ args, BalancedParens a)
    (hloct : Str.Trimmed loc) (hloc : ¬ "@LOCATION:".toList <:+: loc) :
    PathCall.init (callText f args loc) = .ok ⟨f, parsedArgs args, loc⟩ := by
  set decl := f ++ '(' :: (argText args ++ [')']) with hdecl
  have htrim : Str.Trimmed decl := by
    refine ⟨fun c hc => ?_, fun c hc => ?_⟩
    · cases f with
      | nil =>
        obtain rfl : '(' = c := by simpa [hdecl] using hc
        decide
      | cons x f => exact hf.head c hc
    · have htext : decl = (f ++ '(' :: argText args) ++ [')'] := by simp [hdecl]
      rw [htext, List.getLast?_append_of_ne_nil _ (by simp)] at hc
      obtain rfl : ')' = c := by simpa using hc
      decide
  have hsplit : split (callText f args loc) "@LOCATION:".toList = .ok (decl, loc) := by
    rw [callText, ← hdecl, split_location htrim hloc, Str.strip_blank_cons hloct]
  have hbeg : beg_args decl decl.length 0 = some f.length := beg_args_call f (balancedParens_argText hbal)
  have harg : decl.dropLast.drop (f.length + 1) = argText args := by
    have hdrop : decl = (f ++ ['('] ++ argText args) ++ [')'] := by simp [hdecl]
    have hlen : (f ++ ['(']).length = f.length + 1 := by simp
    rw [hdrop, List.dropLast_concat, ← hlen, List.drop_left]
  obtain ⟨types, hfunc⟩ : ∃ types, _parse_func decl = some ⟨f, types, parsedArgs args⟩ := by
    rw [_parse_func, hbeg, Option.map_some]
    dsimp only
    rw [harg, List.map_map, List.map_map, hdecl, List.take_left]
    exact ⟨_, rfl⟩
  rw [PathCall.init, hsplit]
  simp only [ok_bind, hfunc]
  rfl

/-- **Calls.** `PathCall` recovers the function, the arguments and the location of a call if and only if no argument has
a comma (the arguments are cut at every comma) or a blank (what precedes the last blank is taken for a type). -/
theorem call_recovered_iff {f loc : Str} {args : List Str} (hf : Str.Trimmed f) (hne : args ≠ [])
    (hargs : ∀ a ∈ args, Str.Trimmed a ∧ BalancedParens a) (hloct : Str.Trimmed loc)
    (hloc : ¬ "@LOCATION:".toList <:+: loc) : Recovered f args loc ↔ ∀ a ∈ args, ',' ∉ a ∧ ' ' ∉ a := by
  have hinit := init_callText hf (fun a ha => (hargs a ha).2) hloct hloc
  rw [← parsedArgs_eq_iff hne fun a ha => (hargs a ha).1, Recovered, hinit]
  constructor
  · rintro ⟨c, hc, -, hargs, -⟩
    cases hc
    exact hargs
  · intro h
    refine ⟨_, rfl, rfl, h, rfl, ?_⟩
    rw [PathCall.callname, h]

/-- A call of a field with one argument. -/
theorem call_recovered_one : Recovered "(*f)->op".toList ["g(x)".toList, "y".toList] "a.c:3:5".toList := by
  refine (call_recovered_iff (by decide) (by decide) ?_ (by decide) (by decide)).mpr (by decide)
  intro a ha
  obtain rfl | rfl : a = "g(x)".toList ∨ a = "y".toList := by simpa using ha
  · exact ⟨by decide, by decide⟩
  · exact ⟨by decide, by decide⟩

/-- The argument of a call with a sum: `f(x + 1)` is parsed as `f(1)`. -/
theorem not_call_recovered : ¬ ∀ (f loc : Str) (args : List Str), Str.Trimmed f → args ≠ [] →
    (∀ a ∈ args, Str.Trimmed a ∧ BalancedParens a) → Str.Trimmed loc → ¬ "@LOCATION:".toList <:+: loc →
      Recovered f args loc := by
  intro h
  have hbal : BalancedParens "x + 1".toList := by decide
  obtain ⟨c, hc, -, hargs, -⟩ := h "f".toList "a.c:3:5".toList ["x + 1".toList] (by decide) (by decide)
    (by simpa using ⟨by decide, hbal⟩) (by decide) (by decide)
  have hinit : PathCall.init (callText "f".toList ["x + 1".toList] "a.c:3:5".toList) =
      .ok ⟨"f".toList, ["1".toList], "a.c:3:5".toList⟩ := by rfl
  rw [hinit] at hc
  cases hc
  exact absurd hargs (by decide)

end SEDiff.Juxta

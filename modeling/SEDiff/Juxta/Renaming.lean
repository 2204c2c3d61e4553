import SEDiff.Juxta.ArgNorm

/-!
# Renaming parameters

A path with its parameters renamed: where they are listed, and where an expression refers to them. The word after `->` or
`.` is the name of a member, and the word between `(` and ` #` is the kind of an expression.

## What is proved

* `kindStart_isPrefix_iff`, `tokens_unlex` — the tokens of an expression are runs of its lexemes.
* `renamed_renameFrom` — a renaming keeps kinds and marks.
* `tokens_rename` — the tokens of a renamed expression are those of the expression, with identifiers renamed.
-/

namespace SEDiff.Juxta

open Foundation Words

/-! ### Renaming -/

/-- What identifiers are made of. -/
def isIdent (c : Char) : Bool := c.isAlphanum || c = '_'

/-- Whether what comes next is the name of a member, where the lexemes before it are the last one first. -/
def isMember (before : List (Lexeme Char)) : Bool :=
  match before.dropWhile fun l => l = .mark ' ' with
  | .mark '.' :: _ => true
  | .mark '>' :: .mark '-' :: _ => true
  | _ => false

/-- Whether what is between these is the kind of an expression. -/
def isKind (before after : List (Lexeme Char)) : Bool :=
  before.head? = some (.mark '(') && after.take 2 = [.mark ' ', .mark '#']

/-- Whether a word between these refers to a variable. -/
def isReference (before after : List (Lexeme Char)) : Bool := !isMember before && !isKind before after

section

variable (ρ : Str → Str) (args : List Str)

/-- A lexeme with the parameter it refers to renamed. -/
def renameOne (before after : List (Lexeme Char)) : Lexeme Char → Lexeme Char
  | .word w => .word (if w ∈ args ∧ isReference before after then ρ w else w)
  | .mark c => .mark c

/-- Lexemes with parameters renamed. -/
def renameFrom : List (Lexeme Char) → List (Lexeme Char) → List (Lexeme Char)
  | _, [] => []
  | before, l :: ls => renameOne ρ args before ls l :: renameFrom (l :: before) ls

/-- An expression with parameters renamed. -/
def rename (expr : Str) : Str := unlex (renameFrom ρ args [] (lex isIdent expr))

/-- An entry with parameters renamed: the text of a return value is renamed with its path. -/
def Entry.rename : Entry → Entry
  | .func f => .func (f.map fun f => { f with args := f.args.map ρ })
  | .cond c => .cond { c with expr := Juxta.rename ρ args c.expr }
  | .call c => .call { c with func := Juxta.rename ρ args c.func, args := c.args.map (Juxta.rename ρ args) }
  | .store s => .store { s with lhs := s.lhs.map (Juxta.rename ρ args), rhs := Juxta.rename ρ args s.rhs }
  | .text val => .text val

/-- What a key holds, with parameters renamed. -/
def Slot.rename (key : Str) : Slot → Slot
  | .one (.text val) => .one (.text (if key = "RETURN".toList then Juxta.rename ρ args val else val))
  | .one e => .one (e.rename ρ args)
  | .many es => .many (es.map (Entry.rename ρ args))

/-- A path with parameters renamed. -/
def RetPath.rename (p : RetPath) : RetPath :=
  ⟨p.index.map fun e => (e.1, e.2.rename ρ args e.1), p.effects.map (Entry.rename ρ args)⟩

end

/-! ### Tokens of lexemes -/

/-- Delimiters are not in identifiers. -/
theorem isDelimiter_of_isIdent {c : Char} (hc : isIdent c = true) : isDelimiter c = false := by
  have hall : (DELIMITERS.all fun d => !isIdent d) = true := by decide
  rw [isDelimiter, decide_eq_false_iff_not]
  intro hmem
  have hnot := List.all_eq_true.mp hall c hmem
  rw [hc] at hnot
  exact absurd hnot (by decide)

/-- The kind of an expression that starts here. -/
def kindOf : List (Lexeme Char) → Option Str
  | .mark a :: .word k :: .mark b :: .mark c :: _ => if a = '(' ∧ b = ' ' ∧ c = '#' then some k else none
  | _ => none

/-- The kinds of `EXPR_PREFIX`. -/
def KINDS : List Str := ["S64".toList, "I".toList, "E".toList]

/-- How an expression of a kind starts. -/
def kindStart (k : Str) : Str := '(' :: (k ++ [' ', '#'])

theorem exists_of_kindOf {ps : List (Lexeme Char)} {k : Str} (h : kindOf ps = some k) :
    ∃ rest, ps = .mark '(' :: .word k :: .mark ' ' :: .mark '#' :: rest := by
  unfold kindOf at h
  split at h
  · rename_i a k' b c rest
    split_ifs at h with hcond
    obtain ⟨rfl, rfl, rfl⟩ := hcond
    obtain rfl := Option.some.inj h
    exact ⟨rest, rfl⟩
  · cases h

/-- **Kinds** are read from the lexemes. -/
theorem kindStart_isPrefix_iff {ps : List (Lexeme Char)} (hps : Lexed isIdent ps) {k : Str} (hk : k ∈ KINDS) :
    kindStart k <+: unlex ps ↔ kindOf ps = some k := by
  have hkind : k ≠ [] ∧ ∀ c ∈ k, isIdent c = true := by
    simp only [KINDS, List.mem_cons, List.not_mem_nil, or_false] at hk
    obtain rfl | rfl | rfl := hk <;> exact ⟨by decide, List.all_eq_true.mp (by decide)⟩
  constructor
  · rintro ⟨r, hr⟩
    have hlexed : Lexed isIdent (.mark '(' :: .word k :: .mark ' ' :: .mark '#' :: lex isIdent r) := by
      have hmarks := Lexed.mark (a := ' ') (by decide) (Lexed.mark (a := '#') (by decide) (lexed_lex (p := isIdent) r))
      exact Lexed.mark (by decide) (Lexed.word hkind.1 hkind.2 hmarks fun w' hw' => by cases hw')
    have hunlex : unlex (.mark '(' :: .word k :: .mark ' ' :: .mark '#' :: lex isIdent r) = unlex ps := by
      simp [← hr, kindStart, Lexeme.text]
    rw [← (unlex_inj hlexed hps).mp hunlex, kindOf, if_pos ⟨rfl, rfl, rfl⟩]
  · intro h
    obtain ⟨rest, rfl⟩ := exists_of_kindOf h
    exact ⟨unlex rest, by simp [kindStart, Lexeme.text]⟩

/-- The number of lexemes of the expression prefix. -/
def startLexemes (ps : List (Lexeme Char)) : ℕ := if ∃ k ∈ kindOf ps, k ∈ KINDS then 4 else 0

theorem startLength_unlex {ps : List (Lexeme Char)} (hps : Lexed isIdent ps) :
    startLength (unlex ps) = (unlex (ps.take (startLexemes ps))).length := by
  have hfind : EXPR_PREFIX.find? (fun start => start <+: unlex ps) =
      (KINDS.find? fun k => kindOf ps = some k).map kindStart := by
    have hmap : EXPR_PREFIX = KINDS.map kindStart := rfl
    have hcongr (ks : List Str) (hks : ks ⊆ KINDS) :
        ks.find? ((fun s : Str => decide (s <+: unlex ps)) ∘ kindStart) = ks.find? fun k => kindOf ps = some k := by
      induction ks with
      | nil => rfl
      | cons k ks ih =>
        obtain ⟨hk, hks⟩ := List.cons_subset.mp hks
        rw [List.find?_cons, List.find?_cons, ih hks, Function.comp,
          decide_eq_decide.mpr (kindStart_isPrefix_iff hps hk)]
    rw [hmap, List.find?_map, hcongr KINDS (List.Subset.refl _)]
  rw [startLength, hfind, startLexemes]
  by_cases hk : ∃ k ∈ kindOf ps, k ∈ KINDS
  · obtain ⟨k, hkind, hmem⟩ := hk
    obtain ⟨rest, rfl⟩ := exists_of_kindOf hkind
    have hsome : KINDS.find? (fun k' => kindOf (.mark '(' :: .word k :: .mark ' ' :: .mark '#' :: rest) = some k') = some k := by
      rw [hkind]
      cases hf : KINDS.find? fun k' => some k = some k' with
      | none =>
        have hne := List.find?_eq_none.mp hf k hmem
        simp at hne
      | some k' => exact congrArg some (by simpa using List.find?_some hf : k = k').symm
    rw [hsome, if_pos ⟨k, hkind, hmem⟩]
    simp [kindStart, Lexeme.text]
  · have hnone : KINDS.find? (fun k => kindOf ps = some k) = none :=
      List.find?_eq_none.mpr fun k hmem => by simpa using fun hkind => hk ⟨k, hkind, hmem⟩
    rw [hnone, if_neg hk]
    rfl

/-- The number of lexemes of the first token, when it is made of delimiters. -/
def delimiterLexemes (ps : List (Lexeme Char)) : ℕ :=
  startLexemes ps + ((ps.drop (startLexemes ps)).takeWhile (Lexeme.sat isDelimiter)).length

theorem delimiters_unlex {ps : List (Lexeme Char)} (hps : Lexed isIdent ps) :
    delimiters (unlex ps) = (unlex (ps.take (delimiterLexemes ps))).length := by
  rw [delimiters, startLength_unlex hps, drop_unlex,
    takeWhile_unlex (fun c hc => isDelimiter_of_isIdent hc) (hps.drop _), delimiterLexemes, List.take_add,
    unlex_append, List.length_append, take_length_takeWhile]

/-- The number of lexemes of the first token, and whether it is an expression. -/
def firstLexemes (ps : List (Lexeme Char)) : ℕ × Bool :=
  if 0 < delimiterLexemes ps then (delimiterLexemes ps, false)
  else ((ps.takeWhile (Lexeme.sat fun c => !isDelimiter c)).length, true)

theorem firstToken_unlex {ps : List (Lexeme Char)} (hps : Lexed isIdent ps) (hne : ps ≠ []) :
    firstToken (unlex ps) = ((unlex (ps.take (firstLexemes ps).1)).length, (firstLexemes ps).2) := by
  have hpos : 0 < delimiters (unlex ps) ↔ 0 < delimiterLexemes ps := by
    rw [delimiters_unlex hps, List.length_pos_iff]
    refine ⟨fun h => ?_, fun h => (hps.take _).unlex_ne_nil ?_⟩
    · by_contra hzero
      rw [Nat.eq_zero_of_not_pos hzero] at h
      exact h rfl
    · simpa [hne] using Nat.pos_iff_ne_zero.mp h
  rw [firstToken, firstLexemes]
  by_cases h : 0 < delimiterLexemes ps
  · rw [if_pos (hpos.mpr h), if_pos h, delimiters_unlex hps]
  · rw [if_neg (mt hpos.mp h), if_neg h, takeWhile_unlex (b := true) (fun c hc => by simp [isDelimiter_of_isIdent hc]) hps,
      take_length_takeWhile]

/-- **The first token** of lexemes, and the others. -/
theorem tokens_unlex {ps : List (Lexeme Char)} (hps : Lexed isIdent ps) (hne : ps ≠ []) :
    _tokenize_expr (unlex ps) = (unlex (ps.take (firstLexemes ps).1), (firstLexemes ps).2) ::
      _tokenize_expr (unlex (ps.drop (firstLexemes ps).1)) := by
  rw [_tokenize_expr_eq (hps.unlex_ne_nil hne), firstToken_unlex hps hne]
  dsimp only
  rw [take_unlex, drop_unlex]

theorem firstLexemes_pos {ps : List (Lexeme Char)} (hps : Lexed isIdent ps) (hne : ps ≠ []) : 0 < (firstLexemes ps).1 := by
  have hpos := firstToken_pos (hps.unlex_ne_nil hne)
  rw [firstToken_unlex hps hne] at hpos
  by_contra hzero
  rw [Nat.eq_zero_of_not_pos hzero] at hpos
  exact absurd hpos (by simp)

/-! ### The tokens of a renamed expression -/

section

variable {ρ : Str → Str} {args : List Str}

/-- A lexeme is the same, or a parameter that is renamed. -/
def Follows (ρ : Str → Str) (args : List Str) (l l' : Lexeme Char) : Prop :=
  l' = l ∨ ∃ w ∈ args, l = .word w ∧ l' = .word (ρ w)

/-- Lexemes are the same, or renamed where no kind is. -/
structure Renamed (ρ : Str → Str) (args : List Str) (ps ps' : List (Lexeme Char)) : Prop where
  /-- One by one. -/
  each : List.Forall₂ (Follows ρ args) ps ps'
  /-- Kinds stay. -/
  kinds : ∀ n, kindOf (ps.drop n) = kindOf (ps'.drop n)

theorem Renamed.drop {ps ps' : List (Lexeme Char)} (h : Renamed ρ args ps ps') (n : ℕ) :
    Renamed ρ args (ps.drop n) (ps'.drop n) := by
  refine ⟨List.forall₂_drop n h.each, fun m => ?_⟩
  rw [List.drop_drop, List.drop_drop, h.kinds]

theorem follows_mark {c : Char} {l' : Lexeme Char} (h : Follows ρ args (.mark c) l') : l' = .mark c := by
  obtain h | ⟨w, -, hw, -⟩ := h
  · exact h
  · cases hw

/-- What cannot tell the characters of identifiers apart does not see a renaming. -/
theorem sat_follows {q : Char → Bool} {b : Bool} (hq : ∀ c, isIdent c = true → q c = b) {ps ps' : List (Lexeme Char)}
    (hps : Lexed isIdent ps) (hps' : Lexed isIdent ps') (h : List.Forall₂ (Follows ρ args) ps ps') :
    ps.map (Lexeme.sat q) = ps'.map (Lexeme.sat q) := by
  have hword {w : Str} (hw : Proper isIdent (.word w)) : Lexeme.sat q (.word w) = b := by
    obtain ⟨hne, hw⟩ | _ := hw
    obtain ⟨c, w, rfl⟩ := List.exists_cons_of_ne_nil hne
    cases b with
    | true => exact List.all_eq_true.mpr fun d hd => hq d (hw d hd)
    | false => simp [Lexeme.sat, hq c (hw c List.mem_cons_self)]
  induction h with
  | nil => rfl
  | @cons l l' ps ps' hl _ ih =>
    rw [List.map_cons, List.map_cons, ih hps.tail hps'.tail]
    obtain rfl | ⟨w, -, rfl, rfl⟩ := hl
    · rfl
    · rw [hword (hps.proper _ List.mem_cons_self), hword (hps'.proper _ List.mem_cons_self)]

theorem length_takeWhile_sat {q : Char → Bool} {ps ps' : List (Lexeme Char)}
    (h : ps.map (Lexeme.sat q) = ps'.map (Lexeme.sat q)) :
    (ps.takeWhile (Lexeme.sat q)).length = (ps'.takeWhile (Lexeme.sat q)).length := by
  have hmap (ls : List (Lexeme Char)) :
      (ls.takeWhile (Lexeme.sat q)).length = ((ls.map (Lexeme.sat q)).takeWhile id).length := by
    rw [List.takeWhile_map, List.length_map, Function.id_comp]
  rw [hmap, hmap, h]

variable {ps ps' : List (Lexeme Char)}

theorem startLexemes_renamed (h : Renamed ρ args ps ps') : startLexemes ps = startLexemes ps' := by
  rw [startLexemes, startLexemes, show kindOf ps = kindOf ps' from h.kinds 0]

theorem delimiterLexemes_renamed (hps : Lexed isIdent ps) (hps' : Lexed isIdent ps') (h : Renamed ρ args ps ps') :
    delimiterLexemes ps = delimiterLexemes ps' := by
  rw [delimiterLexemes, delimiterLexemes, ← startLexemes_renamed h]
  congr 1
  exact length_takeWhile_sat (sat_follows (fun c hc => isDelimiter_of_isIdent hc) (hps.drop _) (hps'.drop _) (h.drop _).each)

/-- A renaming moves no token. -/
theorem firstLexemes_renamed (hps : Lexed isIdent ps) (hps' : Lexed isIdent ps') (h : Renamed ρ args ps ps') :
    firstLexemes ps = firstLexemes ps' := by
  rw [firstLexemes, firstLexemes, ← delimiterLexemes_renamed hps hps' h]
  have hlen := length_takeWhile_sat
    (sat_follows (q := fun c => !isDelimiter c) (b := true) (fun c hc => by simp [isDelimiter_of_isIdent hc]) hps hps' h.each)
  rw [hlen]

/-- Delimiters are not renamed. -/
theorem take_delimiterLexemes (hps : Lexed isIdent ps) (h : Renamed ρ args ps ps') :
    ps.take (delimiterLexemes ps) = ps'.take (delimiterLexemes ps) := by
  have hrun (qs qs' : List (Lexeme Char)) (hqs : Lexed isIdent qs) (hkept : List.Forall₂ (Follows ρ args) qs qs') :
      qs.take (qs.takeWhile (Lexeme.sat isDelimiter)).length = qs'.take (qs.takeWhile (Lexeme.sat isDelimiter)).length := by
    induction hkept with
    | nil => rfl
    | @cons l l' qs qs' hl _ ih =>
      cases hsat : Lexeme.sat isDelimiter l with
      | false => simp [List.takeWhile_cons_of_neg (by simp [hsat] : ¬ Lexeme.sat isDelimiter l = true)]
      | true =>
        rw [List.takeWhile_cons_of_pos hsat, List.length_cons, List.take_succ_cons, List.take_succ_cons, ih hqs.tail]
        obtain ⟨hne, hw⟩ | _ := hqs.proper _ List.mem_cons_self
        · rename_i w
          obtain ⟨c, w, rfl⟩ := List.exists_cons_of_ne_nil hne
          simp [Lexeme.sat, isDelimiter_of_isIdent (hw c List.mem_cons_self)] at hsat
        · rw [follows_mark hl]
  have hstart : ps.take (startLexemes ps) = ps'.take (startLexemes ps) := by
    rw [startLexemes]
    split_ifs with hk
    · obtain ⟨k, hkind, -⟩ := hk
      have hkind' : kindOf ps' = some k := (h.kinds 0).symm.trans hkind
      obtain ⟨rest, rfl⟩ := exists_of_kindOf hkind
      obtain ⟨rest', rfl⟩ := exists_of_kindOf hkind'
      rfl
    · rfl
  rw [delimiterLexemes, List.take_add, List.take_add, hstart, hrun _ _ (hps.drop _) (h.drop _).each]

/-- The tokens of an expression and of the renamed one. -/
structure TokenRenamed (ρ : Str → Str) (args : List Str) (ps : List (Lexeme Char)) (t t' : Str × Bool) : Prop where
  /-- They are of the same kind. -/
  isExpr : t'.2 = t.2
  /-- Delimiters are the same. -/
  same : t.2 = false → t'.1 = t.1
  /-- Expressions are made of lexemes that are the same, or renamed. -/
  kept : ∃ us us', Lexed isIdent us ∧ Lexed isIdent us' ∧ us ⊆ ps ∧ List.Forall₂ (Follows ρ args) us us' ∧
    t.1 = unlex us ∧ t'.1 = unlex us'

/-- **The tokens of a renamed expression** are those of the expression, renamed. -/
theorem tokens_renamed (hps : Lexed isIdent ps) (hps' : Lexed isIdent ps') (h : Renamed ρ args ps ps') :
    List.Forall₂ (TokenRenamed ρ args ps) (_tokenize_expr (unlex ps)) (_tokenize_expr (unlex ps')) := by
  have hall (n : ℕ) (qs qs' : List (Lexeme Char)) (hn : qs.length = n) (hqs : Lexed isIdent qs) (hqs' : Lexed isIdent qs')
      (hren : Renamed ρ args qs qs') (hsub : qs ⊆ ps) :
      List.Forall₂ (TokenRenamed ρ args ps) (_tokenize_expr (unlex qs)) (_tokenize_expr (unlex qs')) := by
    induction n using Nat.strongRecOn generalizing qs qs' with
    | _ n ih =>
      by_cases hne : qs = []
      · subst hne
        obtain rfl : qs' = [] := List.forall₂_nil_left_iff.mp hren.each
        exact .nil
      · have hne' : qs' ≠ [] := fun hnil => hne (List.forall₂_nil_right_iff.mp (hnil ▸ hren.each))
        have hpos := firstLexemes_pos hqs hne
        have hlen : 0 < qs.length := List.length_pos_iff.mpr hne
        rw [tokens_unlex hqs hne, tokens_unlex hqs' hne', ← firstLexemes_renamed hqs hqs' hren]
        refine .cons ⟨rfl, fun hfalse => ?_, ?_⟩ (ih _ ?_ _ _ rfl (hqs.drop _) (hqs'.drop _) (hren.drop _)
          (List.Subset.trans (List.drop_subset _ _) hsub))
        · dsimp only at hfalse ⊢
          rw [firstLexemes] at hfalse ⊢
          split_ifs at hfalse ⊢
          rw [take_delimiterLexemes hqs hren]
        · exact ⟨_, _, hqs.take _, hqs'.take _, List.Subset.trans (List.take_subset _ _) hsub, List.forall₂_take _ hren.each, rfl, rfl⟩
        · rw [List.length_drop]
          omega
  exact hall _ _ _ rfl hps hps' h (List.Subset.refl _)

/-! ### Renamed lexemes -/

theorem lexed_renameFrom (hρ : ∀ w ∈ args, ρ w ≠ [] ∧ ∀ c ∈ ρ w, isIdent c = true) (hps : Lexed isIdent ps)
    (before : List (Lexeme Char)) : Lexed isIdent (renameFrom ρ args before ps) := by
  induction ps generalizing before with
  | nil => exact Lexed.nil
  | cons l ps ih =>
    have hrest := ih hps.tail (l :: before)
    rw [renameFrom]
    obtain ⟨hne, hw⟩ | ha := hps.proper _ List.mem_cons_self
    · rename_i w
      have hword : (if w ∈ args ∧ isReference before ps then ρ w else w) ≠ [] ∧
          ∀ c ∈ if w ∈ args ∧ isReference before ps then ρ w else w, isIdent c = true := by
        split_ifs with href
        · exact hρ w href.1
        · exact ⟨hne, hw⟩
      refine Lexed.word hword.1 hword.2 hrest fun w' hw' => ?_
      cases ps with
      | nil => cases hw'
      | cons l' ps =>
        cases l' with
        | word _ => exact (List.isChain_cons_cons.mp hps.apart).1
        | mark _ => cases hw'
    · exact Lexed.mark ha hrest

theorem kindOf_renameFrom (before ps : List (Lexeme Char)) : kindOf (renameFrom ρ args before ps) = kindOf ps := by
  match ps with
  | [] => rfl
  | .word _ :: _ => simp [renameFrom, renameOne, kindOf]
  | [.mark _] => simp [renameFrom, renameOne, kindOf]
  | .mark _ :: .mark _ :: _ => simp [renameFrom, renameOne, kindOf]
  | [.mark _, .word _] => simp [renameFrom, renameOne, kindOf]
  | .mark _ :: .word _ :: .word _ :: _ => simp [renameFrom, renameOne, kindOf]
  | [.mark _, .word _, .mark _] => simp [renameFrom, renameOne, kindOf]
  | .mark _ :: .word _ :: .mark _ :: .word _ :: _ => simp [renameFrom, renameOne, kindOf]
  | .mark a :: .word k :: .mark b :: .mark c :: rest =>
    simp only [renameFrom, renameOne, kindOf]
    by_cases hkind : a = '(' ∧ b = ' ' ∧ c = '#'
    · obtain ⟨rfl, rfl, rfl⟩ := hkind
      simp [isReference, isKind]
    · rw [if_neg hkind, if_neg hkind]

theorem drop_renameFrom (before ps : List (Lexeme Char)) (n : ℕ) :
    ∃ before', (renameFrom ρ args before ps).drop n = renameFrom ρ args before' (ps.drop n) := by
  induction ps generalizing before n with
  | nil => exact ⟨before, by simp [renameFrom]⟩
  | cons l ps ih =>
    cases n with
    | zero => exact ⟨before, rfl⟩
    | succ n => exact ih (l :: before) n

theorem each_renameFrom (before ps : List (Lexeme Char)) : List.Forall₂ (Follows ρ args) ps (renameFrom ρ args before ps) := by
  induction ps generalizing before with
  | nil => exact .nil
  | cons l ps ih =>
    refine .cons ?_ (ih (l :: before))
    cases l with
    | word w =>
      rw [renameOne]
      split_ifs with href
      · exact .inr ⟨w, href.1, rfl, rfl⟩
      · exact .inl rfl
    | mark c => exact .inl rfl

/-- **Lexemes are renamed** where no kind is. -/
theorem renamed_renameFrom (before ps : List (Lexeme Char)) : Renamed ρ args ps (renameFrom ρ args before ps) := by
  refine ⟨each_renameFrom before ps, fun n => ?_⟩
  obtain ⟨before', hdrop⟩ := drop_renameFrom before ps n
  rw [hdrop, kindOf_renameFrom]

/-- **The tokens** of a renamed expression. -/
theorem tokens_rename (hρ : ∀ w ∈ args, ρ w ≠ [] ∧ ∀ c ∈ ρ w, isIdent c = true) (expr : Str) :
    List.Forall₂ (TokenRenamed ρ args (lex isIdent expr)) (_tokenize_expr expr) (_tokenize_expr (rename ρ args expr)) := by
  have h := tokens_renamed (lexed_lex expr) (lexed_renameFrom hρ (lexed_lex expr) []) (renamed_renameFrom [] _)
  rwa [unlex_lex] at h

end

end SEDiff.Juxta

import SEDiff.Juxta.Renaming

/-!
# Normal forms and parameter names

Two paths that differ in the names of the parameters should have the same normal form. They do unless a word that is not a
reference, such as the name of a member, is the name of a parameter, or a call is made through a parameter.

## What is proved

* `normalize_rename_iff` — an expression and the renamed one have the same normal form exactly when every word that is a
  parameter's name is renamed.
* `normalized_iff` — a path and the renamed one have the same normal form exactly when this is so of all its expressions,
  and no function that is called is renamed.
* `not_normalized` — `dentry->inode` depends on the name of the parameter `inode`.
-/

namespace SEDiff.Juxta

open Foundation Words ArgNormalizer

/-! ### The map of the arguments -/

section Maps

variable {ρ : Str → Str} {args : List Str}

/-- The maps give the same to a parameter and to its new name, and nothing to other words. -/
structure Maps (ρ : Str → Str) (args : List Str) (argmap argmap' : Dict Str Str) : Prop where
  /-- Names are mapped alike. -/
  same : ∀ a ∈ args, argmap'.get? (ρ a) = argmap.get? a
  /-- Parameters are mapped. -/
  mapped : ∀ w, argmap.get? w ≠ none ↔ w ∈ args
  /-- New names are mapped. -/
  mapped' : ∀ w, argmap'.get? w ≠ none ↔ w ∈ args.map ρ
  /-- They are mapped to what has a dollar sign. -/
  dollar : ∀ w v, argmap.get? w = some v → 0 < v.count '$'

/-- All types are there. -/
theorem argmapFrom_ne_none {targs : List (Option Str × Str)} (htyped : ∀ t ∈ targs, t.1 ≠ none) (m : Dict Str Str) (i : ℕ) :
    ∃ r, argmapFrom m i targs = some r := by
  induction targs generalizing m i with
  | nil => exact ⟨m, rfl⟩
  | cons t targs ih =>
    obtain ⟨ht, hrest⟩ := List.forall_mem_cons.mp htyped
    obtain ⟨ty, arg⟩ := t
    cases ty with
    | none => exact absurd rfl ht
    | some _ => exact ih hrest _ _

/-- What is mapped. -/
theorem argmapFrom_get {targs : List (Option Str × Str)} {m r : Dict Str Str} {i : ℕ} (h : argmapFrom m i targs = some r)
    (w : Str) : (r.get? w ≠ none ↔ m.get? w ≠ none ∨ w ∈ targs.map Prod.snd) ∧
      ∀ v, r.get? w = some v → m.get? w = some v ∨ 0 < v.count '$' := by
  induction targs generalizing m i with
  | nil =>
    obtain rfl := Option.some.inj h
    exact ⟨by simp, fun v hv => .inl hv⟩
  | cons t targs ih =>
    obtain ⟨ty, arg⟩ := t
    cases ty with
    | none => cases h
    | some _ =>
      obtain ⟨hmapped, hdollar⟩ := ih h
      by_cases hw : w = arg
      · subst hw
        rw [Dict.get?_put_self] at hmapped hdollar
        refine ⟨by simpa using hmapped, fun v hv => ?_⟩
        obtain hv | hv := hdollar v hv
        · obtain rfl := Option.some.inj hv
          exact .inr (by simp)
        · exact .inr hv
      · rw [Dict.get?_put_of_ne _ _ hw] at hmapped hdollar
        exact ⟨by simpa [hw] using hmapped, hdollar⟩

/-- **New names** are mapped to the same. -/
theorem argmapFrom_rename (hinj : ∀ a ∈ args, ∀ b ∈ args, ρ a = ρ b → a = b) {types : List (Option Str)} {as : List Str}
    (has : as ⊆ args) {m m' r r' : Dict Str Str} {i : ℕ} (hm : ∀ a ∈ args, m'.get? (ρ a) = m.get? a)
    (h : argmapFrom m i (types.zip as) = some r) (h' : argmapFrom m' i (types.zip (as.map ρ)) = some r') :
    ∀ a ∈ args, r'.get? (ρ a) = r.get? a := by
  induction as generalizing types m m' i with
  | nil =>
    rw [List.zip_nil_right] at h
    rw [List.map_nil, List.zip_nil_right] at h'
    obtain rfl := Option.some.inj h
    obtain rfl := Option.some.inj h'
    exact hm
  | cons b as ih =>
    obtain ⟨hb, has⟩ := List.cons_subset.mp has
    cases types with
    | nil =>
      obtain rfl := Option.some.inj h
      obtain rfl := Option.some.inj h'
      exact hm
    | cons ty types =>
      cases ty with
      | none => cases h
      | some ty =>
        refine ih has (fun a ha => ?_) h h'
        by_cases hab : a = b
        · subst hab
          rw [Dict.get?_put_self, Dict.get?_put_self]
        · rw [Dict.get?_put_of_ne _ _ hab, Dict.get?_put_of_ne _ _ fun heq => hab (hinj a ha b hb heq), hm a ha]

/-- The maps of a function and of the renamed one. -/
theorem maps_argmap (hinj : ∀ a ∈ args, ∀ b ∈ args, ρ a = ρ b → a = b) {types : List (Option Str)}
    (hlen : types.length = args.length) (htyped : ∀ ty ∈ types, ty ≠ none) :
    ∃ m m', argmapFrom [] 0 (types.zip args) = some m ∧ argmapFrom [] 0 (types.zip (args.map ρ)) = some m' ∧
      Maps ρ args m m' := by
  have htargs (as : List Str) : ∀ t ∈ types.zip as, t.1 ≠ none := fun t ht => htyped t.1 (List.of_mem_zip ht).1
  obtain ⟨m, hm⟩ := argmapFrom_ne_none (htargs args) [] 0
  obtain ⟨m', hm'⟩ := argmapFrom_ne_none (htargs (args.map ρ)) [] 0
  refine ⟨m, m', hm, hm', ?_⟩
  have hsnd : (types.zip args).map Prod.snd = args := List.map_snd_zip hlen.ge
  have hsnd' : (types.zip (args.map ρ)).map Prod.snd = args.map ρ := List.map_snd_zip (by simp [hlen])
  constructor
  · exact argmapFrom_rename hinj (List.Subset.refl _) (fun _ _ => rfl) hm hm'
  · intro w
    simpa [hsnd] using (argmapFrom_get hm w).1
  · intro w
    have hget := (argmapFrom_get hm' w).1
    rw [hsnd'] at hget
    simpa using hget
  · intro w v hv
    exact ((argmapFrom_get hm w).2 v hv).resolve_left fun h => absurd h.symm (Option.some_ne_none v)

end Maps

/-! ### Expressions -/

section Expressions

variable {ρ : Str → Str} {args : List Str}

/-- A word that is the name of a parameter is renamed. -/
def WordRenamed (ρ : Str → Str) (args : List Str) (t t' : Str × Bool) : Prop :=
  t.2 = true → t.1 ∈ args → t'.1 = ρ t.1

/-- Every word of the expression that is the name of a parameter is renamed. -/
def WordsRenamed (ρ : Str → Str) (args : List Str) (expr : Str) : Prop :=
  List.Forall₂ (WordRenamed ρ args) (_tokenize_expr expr) (_tokenize_expr (rename ρ args expr))

variable {m m' : Dict Str Str} {ps : List (Lexeme Char)} {t t' : Str × Bool}

/-- A word becomes a new name only where it is renamed. -/
theorem word_of_new (hident : ∀ a ∈ args, ρ a ≠ [] ∧ ∀ c ∈ ρ a, isIdent c = true)
    (hfresh : ∀ a ∈ args, .word (ρ a) ∉ ps) (ht : TokenRenamed ρ args ps t t') (hnew : t'.1 ∈ args.map ρ) :
    t.1 ∈ args ∧ t'.1 = ρ t.1 := by
  obtain ⟨us, us', -, hus', hsub, hfollows, htext, htext'⟩ := ht.kept
  obtain ⟨a, ha, hρ⟩ := List.mem_map.mp hnew
  have hword : us' = [.word (ρ a)] := (unlex_eq_word hus' (hident a ha).1 (hident a ha).2).mp (htext'.symm.trans hρ.symm)
  subst hword
  obtain ⟨l, _, hl, hnil, rfl⟩ := List.forall₂_cons_right_iff.mp hfollows
  obtain rfl := List.forall₂_nil_right_iff.mp hnil
  obtain rfl | ⟨w, hw, rfl, heq⟩ := hl
  · exact absurd (hsub List.mem_cons_self) (hfresh a ha)
  · obtain heq := Lexeme.word.inj heq
    have htw : t.1 = w := by simpa [Lexeme.text] using htext
    rw [htw, ← hρ, heq]
    exact ⟨hw, rfl⟩

/-- **One token**: it is replaced by the same unless it is a parameter's name that is not renamed, which becomes `tmp` when
the parameter is renamed. -/
theorem replacement_renamed (hident : ∀ a ∈ args, ρ a ≠ [] ∧ ∀ c ∈ ρ a, isIdent c = true)
    (hfresh : ∀ a ∈ args, .word (ρ a) ∉ ps) (hmaps : Maps ρ args m m') (ht : TokenRenamed ρ args ps t t') :
    (WordRenamed ρ args t t' → replacement m t = replacement m' t') ∧
      (¬ WordRenamed ρ args t t' → (replacement m' t').count '$' < (replacement m t).count '$') := by
  rw [replacement, replacement, ht.isExpr]
  cases hexpr : t.2 with
  | false =>
    refine ⟨fun _ => (ht.same hexpr).symm, fun hnot => absurd (fun htrue => ?_) hnot⟩
    rw [hexpr] at htrue
    cases htrue
  | true =>
    rw [if_pos rfl, if_pos rfl]
    have htmp (hold : t'.1 ∉ args.map ρ) : m'.get? t'.1 = none := by
      rw [← not_not (a := m'.get? t'.1 = none)]
      exact fun hne => hold ((hmaps.mapped' t'.1).mp hne)
    by_cases hmem : t.1 ∈ args
    · refine ⟨fun hrenamed => by rw [hrenamed hexpr hmem, hmaps.same _ hmem], fun hnot => ?_⟩
      have hold : t'.1 ∉ args.map ρ := fun hnew => hnot fun _ _ => (word_of_new hident hfresh ht hnew).2
      obtain ⟨v, hv⟩ := Option.ne_none_iff_exists'.mp ((hmaps.mapped t.1).mpr hmem)
      rw [htmp hold, hv]
      exact hmaps.dollar _ _ hv
    · refine ⟨fun _ => ?_, fun hnot => absurd (fun _ hin => absurd hin hmem) hnot⟩
      have hnone : m.get? t.1 = none := by
        rw [← not_not (a := m.get? t.1 = none)]
        exact fun hne => hmem ((hmaps.mapped t.1).mp hne)
      rw [hnone, htmp fun hnew => hmem (word_of_new hident hfresh ht hnew).1]

/-- Texts that agree piece by piece, or of which the second one has fewer `c`. -/
theorem flatMap_agree {α : Type*} {G : α → α → Prop} {f g : α → Str} {c : Char} {ts ts' : List α}
    (h : List.Forall₂ (fun t t' => (G t t' → f t = g t') ∧ (¬ G t t' → (g t').count c < (f t).count c)) ts ts') :
    (List.Forall₂ G ts ts' → ts.flatMap f = ts'.flatMap g) ∧ (ts'.flatMap g).count c ≤ (ts.flatMap f).count c ∧
      ((ts.flatMap f).count c = (ts'.flatMap g).count c → List.Forall₂ G ts ts') := by
  induction h with
  | nil => exact ⟨fun _ => rfl, le_rfl, fun _ => .nil⟩
  | @cons t t' ts ts' ht _ ih =>
    obtain ⟨ihsame, ihle, iheq⟩ := ih
    simp only [List.flatMap_cons, List.count_append]
    by_cases hG : G t t'
    · have hft := ht.1 hG
      refine ⟨fun h => ?_, ?_, fun hcount => .cons hG (iheq ?_)⟩
      · rw [hft, ihsame (List.forall₂_cons.mp h).2]
      · rw [hft]
        omega
      · rw [hft] at hcount
        omega
    · have hlt := ht.2 hG
      exact ⟨fun h => absurd (List.forall₂_cons.mp h).1 hG, by omega, fun hcount => by omega⟩

theorem normalize_agree (hident : ∀ a ∈ args, ρ a ≠ [] ∧ ∀ c ∈ ρ a, isIdent c = true) {expr : Str}
    (hfresh : ∀ a ∈ args, .word (ρ a) ∉ lex isIdent expr) (hmaps : Maps ρ args m m') :
    (WordsRenamed ρ args expr → _normalize_expr m expr = _normalize_expr m' (rename ρ args expr)) ∧
      ((_normalize_expr m expr).count '$' = (_normalize_expr m' (rename ρ args expr)).count '$' →
        WordsRenamed ρ args expr) := by
  rw [_normalize_expr_eq, _normalize_expr_eq]
  have hagree := flatMap_agree ((tokens_rename hident expr).imp fun _ _ ht => replacement_renamed hident hfresh hmaps ht)
  exact ⟨hagree.1, hagree.2.2⟩

/-- **An expression and the renamed one** have the same normal form exactly when every word that is a parameter's name is
renamed. -/
theorem normalize_rename_iff (hident : ∀ a ∈ args, ρ a ≠ [] ∧ ∀ c ∈ ρ a, isIdent c = true) {expr : Str}
    (hfresh : ∀ a ∈ args, .word (ρ a) ∉ lex isIdent expr) (hmaps : Maps ρ args m m') :
    _normalize_expr m expr = _normalize_expr m' (rename ρ args expr) ↔ WordsRenamed ρ args expr := by
  obtain ⟨hsame, hcount⟩ := normalize_agree hident hfresh hmaps
  exact ⟨fun h => hcount (congrArg (List.count '$') h), hsame⟩

theorem normalize_store_rhs_iff (hident : ∀ a ∈ args, ρ a ≠ [] ∧ ∀ c ∈ ρ a, isIdent c = true) {expr : Str}
    (hfresh : ∀ a ∈ args, .word (ρ a) ∉ lex isIdent expr) (hmaps : Maps ρ args m m') :
    _normalize_store_rhs m expr = _normalize_store_rhs m' (rename ρ args expr) ↔ WordsRenamed ρ args expr := by
  obtain ⟨hsame, hcount⟩ := normalize_agree hident hfresh hmaps
  have hdollar (n : Dict Str Str) (e : Str) :
      (_normalize_store_rhs n e).count '$' = (_normalize_expr n e).count '$' := by
    rw [_normalize_store_rhs, Str.count_replace (by simp) (by decide) (by simp),
      Str.count_replace (by simp) (by decide) (by simp), Str.count_replace (by simp) (by decide) (by simp)]
  refine ⟨fun h => hcount ?_, fun h => ?_⟩
  · rw [← hdollar, ← hdollar, h]
  · rw [_normalize_store_rhs, _normalize_store_rhs, hsame h]

end Expressions

/-! ### Logged paths -/

namespace RetPath

/-- The path is what a log says. -/
def Logged (p : RetPath) : Prop :=
  ∃ es : List (Str × Str), es.foldlM (fun p e => p.add_entry e.1 e.2) RetPath.init = .ok p

/-- What a key holds was parsed for that key. -/
def SlotParsed (key : Str) : Slot → Prop
  | .one e => key ∉ LIST_TYPE ∧ ∃ val, _parse_entry key val = .ok e
  | .many es => key ∈ LIST_TYPE ∧ ∀ e ∈ es, ∃ val, _parse_entry key val = .ok e

/-- Every key holds what was parsed for it. -/
def Parsed (p : RetPath) : Prop := ∀ key slot, p.index.get? key = some slot → SlotParsed key slot

theorem Parsed.put {index : Dict Str Slot} {effects effects' : List Entry} (h : Parsed ⟨index, effects⟩) {key : Str}
    {slot : Slot} (hslot : SlotParsed key slot) : Parsed ⟨index.put key slot, effects'⟩ := by
  intro key' slot' hget
  by_cases heq : key' = key
  · subst heq
    obtain rfl := Option.some.inj ((Dict.get?_put_self _ _ _).symm.trans hget)
    exact hslot
  · exact h key' slot' ((Dict.get?_put_of_ne _ _ heq).symm.trans hget)

/-- **An entry is added** to the entries of its key. -/
theorem Parsed.add_entry {p p' : RetPath} (h : p.Parsed) {key val : Str} (hadd : p.add_entry key val = .ok p') :
    p'.Parsed := by
  rw [RetPath.add_entry] at hadd
  obtain ⟨e, hparse, hadd⟩ := bind_eq_ok.mp hadd
  by_cases hlist : key ∈ LIST_TYPE
  · simp only [if_pos hlist] at hadd
    obtain ⟨index, happend, hadd⟩ := bind_eq_ok.mp hadd
    obtain rfl := Except.ok.inj hadd
    rw [RetPath.append] at happend
    split at happend
    · obtain rfl := Except.ok.inj happend
      exact @Parsed.put _ _ _ h _ (.many [e]) ⟨hlist, List.forall_mem_singleton.mpr ⟨val, hparse⟩⟩
    · rename_i entries hget
      obtain rfl := Except.ok.inj happend
      refine @Parsed.put _ _ _ h _ (.many (entries ++ [e])) ⟨hlist, fun e' he' => ?_⟩
      obtain he' | he' := List.mem_append.mp he'
      · exact (h key _ hget).2 e' he'
      · exact ⟨val, List.mem_singleton.mp he' ▸ hparse⟩
    · cases happend
  · simp only [if_neg hlist] at hadd
    obtain ⟨_, _, hadd⟩ := bind_eq_ok.mp hadd
    obtain rfl := Except.ok.inj hadd
    exact @Parsed.put _ _ _ h _ (.one e) ⟨hlist, val, hparse⟩

theorem Logged.parsed {p : RetPath} (h : p.Logged) : p.Parsed := by
  obtain ⟨es, hes⟩ := h
  have hfold (q : RetPath) (hq : q.Parsed) (es : List (Str × Str))
      (hes : es.foldlM (fun p e => p.add_entry e.1 e.2) q = .ok p) : p.Parsed := by
    induction es generalizing q with
    | nil =>
      obtain rfl := Except.ok.inj hes
      exact hq
    | cons e es ih =>
      rw [List.foldlM_cons] at hes
      obtain ⟨q', hadd, hes⟩ := bind_eq_ok.mp hes
      exact ih q' (hq.add_entry hadd) hes
  exact hfold RetPath.init nofun es hes

end RetPath

/-! ### Paths -/

/-- The expressions of an entry. -/
def Entry.texts : Entry → List Str
  | .func _ => []
  | .cond c => [c.expr]
  | .call c => c.func :: c.args
  | .store s => s.lhs.toList ++ [s.rhs]
  | .text _ => []

/-- The entries a list holds. -/
def RetPath.entries (p : RetPath) (key : Str) : List Entry :=
  match p.index.get? key with
  | some (.many es) => es
  | _ => []

/-- The expressions of a path. -/
def RetPath.texts (p : RetPath) : List Str :=
  LIST_TYPE.flatMap (fun key => (p.entries key).flatMap Entry.texts) ++
    match p.get_rtn with
    | some (.one (.text rtn)) => [rtn]
    | _ => []

/-- The new names of the parameters: other identifiers, which occur nowhere in the path. -/
structure Renaming (ρ : Str → Str) (args : List Str) (p : RetPath) : Prop where
  /-- Different parameters are renamed differently. -/
  inj : ∀ a ∈ args, ∀ b ∈ args, ρ a = ρ b → a = b
  /-- New names are identifiers. -/
  ident : ∀ a ∈ args, ρ a ≠ [] ∧ ∀ c ∈ ρ a, isIdent c = true
  /-- They are not parameters. -/
  args_fresh : ∀ a ∈ args, ρ a ∉ args
  /-- They are in no expression. -/
  fresh : ∀ a ∈ args, ∀ t ∈ p.texts, .word (ρ a) ∉ lex isIdent t

/-- Both paths are normalized, with the same calls, conditions, stores and return value. -/
def NormalizedAlike (p p' : RetPath) : Prop :=
  ∃ q q', ArgNormalizer.init p = .ok q ∧ ArgNormalizer.init p' = .ok q' ∧ q.get_calls = q'.get_calls ∧
    q.get_conds = q'.get_conds ∧ q.get_stores = q'.get_stores ∧ q.get_rtn = q'.get_rtn

/-- Only references have the names of parameters, and no function that is called does. -/
def Entry.Clear (ρ : Str → Str) (args : List Str) : Entry → Prop
  | .cond c => WordsRenamed ρ args c.expr
  | .call c => Juxta.rename ρ args c.func = c.func ∧ ∀ arg ∈ c.args, WordsRenamed ρ args arg
  | .store s => (∀ lhs ∈ s.lhs, WordsRenamed ρ args lhs) ∧ WordsRenamed ρ args s.rhs
  | .func _ => True
  | .text _ => True

/-- There is a return value, and in all expressions of the path only references have the names of parameters. -/
structure RetPath.Clear (ρ : Str → Str) (args : List Str) (p : RetPath) : Prop where
  /-- In the lists. -/
  lists : ∀ key ∈ LIST_TYPE, ∀ e ∈ p.entries key, e.Clear ρ args
  /-- In the return value. -/
  rtn : ∃ rtn, p.get_rtn = some (.one (.text rtn)) ∧ WordsRenamed ρ args rtn

section Paths

variable {ρ : Str → Str} {args : List Str} {m m' : Dict Str Str}

/-- **A call** and the renamed one. -/
theorem normalize_call_iff (hident : ∀ a ∈ args, ρ a ≠ [] ∧ ∀ c ∈ ρ a, isIdent c = true) {e : Entry} {val : Str}
    (he : _parse_entry "LOG_CALL".toList val = .ok e) (hfresh : ∀ a ∈ args, ∀ t ∈ e.texts, .word (ρ a) ∉ lex isIdent t)
    (hmaps : Maps ρ args m m') : normalize_call m e = normalize_call m' (e.rename ρ args) ↔ e.Clear ρ args := by
  obtain ⟨c, -, rfl⟩ : ∃ c, PathCall.init val = .ok c ∧ e = .call c := by
    have hcall : _parse_entry "LOG_CALL".toList val = (PathCall.init val).map Entry.call := by
      rw [_parse_entry, if_neg (by decide), if_neg (by decide), if_pos rfl]
      cases PathCall.init val <;> rfl
    obtain ⟨c, hc, rfl⟩ := map_eq_ok.mp (hcall.symm.trans he)
    exact ⟨c, hc, rfl⟩
  have hargs : c.args.map (_normalize_expr m) = (c.args.map (rename ρ args)).map (_normalize_expr m') ↔
      ∀ arg ∈ c.args, WordsRenamed ρ args arg := by
    rw [List.map_map, List.map_inj_left]
    refine forall₂_congr fun arg harg => ?_
    exact normalize_rename_iff hident (fun a ha => hfresh a ha arg (List.mem_cons_of_mem _ harg)) hmaps
  rw [Entry.rename, normalize_call, normalize_call, Entry.Clear, ← hargs, Entry.call.injEq, PathCall.mk.injEq]
  simp [eq_comm]

/-- **A condition** and the renamed one. -/
theorem normalize_cond_iff (hident : ∀ a ∈ args, ρ a ≠ [] ∧ ∀ c ∈ ρ a, isIdent c = true) {e : Entry} {val : Str}
    (he : _parse_entry "CONDITION".toList val = .ok e) (hfresh : ∀ a ∈ args, ∀ t ∈ e.texts, .word (ρ a) ∉ lex isIdent t)
    (hmaps : Maps ρ args m m') : normalize_cond m e = normalize_cond m' (e.rename ρ args) ↔ e.Clear ρ args := by
  obtain ⟨c, -, rfl⟩ : ∃ c, PathCond.init val = .ok c ∧ e = .cond c := by
    have hcond : _parse_entry "CONDITION".toList val = (PathCond.init val).map Entry.cond := by
      rw [_parse_entry, if_neg (by decide), if_pos rfl]
      cases PathCond.init val <;> rfl
    obtain ⟨c, hc, rfl⟩ := map_eq_ok.mp (hcond.symm.trans he)
    exact ⟨c, hc, rfl⟩
  rw [Entry.rename, normalize_cond, normalize_cond, Entry.Clear,
    ← normalize_rename_iff hident (fun a ha => hfresh a ha c.expr List.mem_cons_self) hmaps, Entry.cond.injEq,
    PathCond.mk.injEq]
  simp

/-- **A store** and the renamed one. -/
theorem normalize_store_iff (hident : ∀ a ∈ args, ρ a ≠ [] ∧ ∀ c ∈ ρ a, isIdent c = true) {e : Entry} {val : Str}
    (he : _parse_entry "LOG_STORE".toList val = .ok e) (hfresh : ∀ a ∈ args, ∀ t ∈ e.texts, .word (ρ a) ∉ lex isIdent t)
    (hmaps : Maps ρ args m m') : normalize_store m e = normalize_store m' (e.rename ρ args) ↔ e.Clear ρ args := by
  obtain ⟨s, -, rfl⟩ : ∃ s, PathStore.init val = .ok s ∧ e = .store s := by
    have hstore : _parse_entry "LOG_STORE".toList val = (PathStore.init val).map Entry.store := by
      rw [_parse_entry, if_neg (by decide), if_neg (by decide), if_neg (by decide), if_pos rfl]
      cases PathStore.init val <;> rfl
    obtain ⟨s, hs, rfl⟩ := map_eq_ok.mp (hstore.symm.trans he)
    exact ⟨s, hs, rfl⟩
  have hlhs : s.lhs.map (fun lhs => if lhs = [] then lhs else _normalize_expr m lhs) =
      (s.lhs.map (rename ρ args)).map (fun lhs => if lhs = [] then lhs else _normalize_expr m' lhs) ↔
      ∀ lhs ∈ s.lhs, WordsRenamed ρ args lhs := by
    cases hs : s.lhs with
    | none => simp
    | some lhs =>
      have hiff := normalize_rename_iff hident
        (fun a ha => hfresh a ha lhs (List.mem_append_left _ (by simp [hs]))) hmaps
      have hempty (n : Dict Str Str) (x : Str) : (if x = [] then x else _normalize_expr n x) = _normalize_expr n x := by
        split_ifs with hx
        · rw [hx]
          rfl
        · rfl
      simp only [Option.map_some, hempty, Option.some.injEq, Option.mem_def, forall_eq']
      exact hiff
  have hrhs := normalize_store_rhs_iff hident
    (fun a ha => hfresh a ha s.rhs (List.mem_append_right _ List.mem_cons_self)) hmaps
  rw [Entry.rename, normalize_store, normalize_store, Entry.Clear, ← hlhs, ← hrhs, Entry.store.injEq, PathStore.mk.injEq]
  simp

end Paths

/-! ### The normalizer -/

/-- What a key holds after its entries are changed. -/
def Slot.change (f : Entry → Entry) : Slot → Slot
  | .one e => .one e
  | .many es => .many (es.map f)

theorem index_change (p : RetPath) (key : Str) (f : Entry → Entry) (key' : Str) :
    (p.change key f).index.get? key' =
      if key' = key then (p.index.get? key).map (Slot.change f) else p.index.get? key' := by
  rw [RetPath.change]
  by_cases hkey : key' = key
  · subst hkey
    rw [if_pos rfl]
    split
    · rename_i es hget
      rw [Dict.get?_put_self, hget]
      rfl
    · rename_i hnot
      cases hget : p.index.get? key' with
      | none => rfl
      | some slot =>
        cases slot with
        | one e => rfl
        | many es => exact absurd hget (hnot es)
  · rw [if_neg hkey]
    split
    · exact Dict.get?_put_of_ne _ _ hkey
    · rfl

theorem index_rename (ρ : Str → Str) (args : List Str) (p : RetPath) (key : Str) :
    (p.rename ρ args).index.get? key = (p.index.get? key).map (Slot.rename ρ args key) :=
  Dict.get?_map (fun key slot => Slot.rename ρ args key slot) p.index key

section Normalizer

variable {p : RetPath} {d : Decl} {m : Dict Str Str}

/-- The target of a function whose arguments are all mapped. -/
theorem normalize_target_eq (hargs : ∀ a ∈ d.args, m.get? a ≠ none) (p : RetPath) :
    ∃ slot, _normalize_target m d p = .ok ⟨p.index.put "FUNCTION".toList slot, p.effects⟩ := by
  have hmap (as : List Str) (has : ∀ a ∈ as, m.get? a ≠ none) : ∃ args, as.mapM (mapped m) = .ok args := by
    induction as with
    | nil => exact ⟨[], rfl⟩
    | cons a as ih =>
      obtain ⟨ha, has⟩ := List.forall_mem_cons.mp has
      obtain ⟨args, hargs⟩ := ih has
      obtain ⟨name, hname⟩ := Option.ne_none_iff_exists'.mp ha
      exact ⟨name :: args, by rw [List.mapM_cons, mapped, hname, hargs]; rfl⟩
  obtain ⟨args, hmap⟩ := hmap d.args hargs
  exact ⟨_, by rw [_normalize_target, hmap]; rfl⟩

/-- **The path before the return value** is normalized. -/
theorem init_eq_rtn (hd : p.get_target = some (.one (.func (some d)))) (hm : argmap d = some m)
    (hargs : ∀ a ∈ d.args, m.get? a ≠ none) :
    ∃ p', ArgNormalizer.init p = (_normalize_rtn m p').map (_normalize_stores m) ∧
      p'.get_calls = p.get_calls.map (Slot.change (normalize_call m)) ∧
      p'.get_conds = p.get_conds.map (Slot.change (normalize_cond m)) ∧ p'.get_stores = p.get_stores ∧
      p'.get_rtn = p.get_rtn := by
  obtain ⟨slot, htarget⟩ := normalize_target_eq hargs p
  refine ⟨_normalize_conds m (_normalize_calls m ⟨p.index.put "FUNCTION".toList slot, p.effects⟩), ?_, ?_, ?_, ?_, ?_⟩
  · rw [ArgNormalizer.init, hd]
    dsimp only
    rw [hm]
    dsimp only
    rw [_normalize, htarget, ok_bind]
    cases _normalize_rtn m (_normalize_conds m (_normalize_calls m ⟨p.index.put "FUNCTION".toList slot, p.effects⟩)) <;> rfl
  · rw [RetPath.get_calls, _normalize_conds, index_change, if_neg (by decide), _normalize_calls, index_change, if_pos rfl,
      Dict.get?_put_of_ne _ _ (by decide)]
    rfl
  · rw [RetPath.get_conds, _normalize_conds, index_change, if_pos rfl, _normalize_calls, index_change, if_neg (by decide),
      Dict.get?_put_of_ne _ _ (by decide)]
    rfl
  · rw [RetPath.get_stores, _normalize_conds, index_change, if_neg (by decide), _normalize_calls, index_change,
      if_neg (by decide), Dict.get?_put_of_ne _ _ (by decide)]
    rfl
  · rw [RetPath.get_rtn, _normalize_conds, index_change, if_neg (by decide), _normalize_calls, index_change,
      if_neg (by decide), Dict.get?_put_of_ne _ _ (by decide)]
    rfl

/-- **What is normalized**, when there is a return value. -/
theorem init_eq (hd : p.get_target = some (.one (.func (some d)))) (hm : argmap d = some m)
    (hargs : ∀ a ∈ d.args, m.get? a ≠ none) {rtn : Str} (hrtn : p.get_rtn = some (.one (.text rtn))) :
    ∃ q, ArgNormalizer.init p = .ok q ∧ q.get_calls = p.get_calls.map (Slot.change (normalize_call m)) ∧
      q.get_conds = p.get_conds.map (Slot.change (normalize_cond m)) ∧
      q.get_stores = p.get_stores.map (Slot.change (normalize_store m)) ∧
      q.get_rtn = some (.one (.text (_normalize_expr m rtn))) := by
  obtain ⟨p', hinit, hcalls, hconds, hstores, hrtn'⟩ := init_eq_rtn hd hm hargs
  rw [_normalize_rtn, hrtn', hrtn] at hinit
  refine ⟨_, hinit, ?_, ?_, ?_, ?_⟩
  · rw [RetPath.get_calls, _normalize_stores, index_change, if_neg (by decide), Dict.get?_put_of_ne _ _ (by decide)]
    exact hcalls
  · rw [RetPath.get_conds, _normalize_stores, index_change, if_neg (by decide), Dict.get?_put_of_ne _ _ (by decide)]
    exact hconds
  · rw [RetPath.get_stores, _normalize_stores, index_change, if_pos rfl, Dict.get?_put_of_ne _ _ (by decide)]
    exact congrArg _ hstores
  · rw [RetPath.get_rtn, _normalize_stores, index_change, if_neg (by decide), Dict.get?_put_self]

/-- **Without a return value**, nothing is normalized. -/
theorem init_ne_ok (hd : p.get_target = some (.one (.func (some d)))) (hm : argmap d = some m)
    (hargs : ∀ a ∈ d.args, m.get? a ≠ none) (hrtn : ∀ rtn, p.get_rtn ≠ some (.one (.text rtn))) (q : RetPath) :
    ArgNormalizer.init p ≠ .ok q := by
  obtain ⟨p', hinit, -, -, -, hrtn'⟩ := init_eq_rtn hd hm hargs
  rw [hinit, _normalize_rtn, hrtn']
  split
  · rename_i rtn hsome
    exact absurd hsome (hrtn rtn)
  · nofun

end Normalizer

/-! ### Renamed paths -/

section

variable {ρ : Str → Str} {args : List Str} {p : RetPath}

/-- **A list** of entries and the renamed one. -/
theorem slot_iff (hp : p.Parsed) {key : Str} (hkey : key ∈ LIST_TYPE) {f f' : Entry → Entry}
    (h : ∀ e ∈ p.entries key, f e = f' (e.rename ρ args) ↔ e.Clear ρ args) :
    (p.index.get? key).map (Slot.change f) = ((p.rename ρ args).index.get? key).map (Slot.change f') ↔
      ∀ e ∈ p.entries key, e.Clear ρ args := by
  rw [index_rename]
  rw [RetPath.entries] at h ⊢
  cases hget : p.index.get? key with
  | none => simp
  | some slot =>
    cases slot with
    | one e => exact absurd hkey (hp key _ hget).1
    | many es =>
      rw [hget] at h
      simp only [Option.map_some, Slot.rename, Slot.change, Option.some.injEq, Slot.many.injEq, List.map_map,
        List.map_inj_left, Function.comp]
      exact forall₂_congr h

theorem parsed_of_mem (hp : p.Parsed) {key : Str} {e : Entry} (he : e ∈ p.entries key) :
    ∃ val, _parse_entry key val = .ok e := by
  rw [RetPath.entries] at he
  split at he
  · rename_i es hget
    exact (hp key _ hget).2 e he
  · cases he

/-- A function that is parsed has as many types as arguments. -/
theorem length_types (hp : p.Parsed) {d : Decl} (hd : p.get_target = some (.one (.func (some d)))) :
    d.types.length = d.args.length := by
  obtain ⟨val, hval⟩ := (hp _ _ hd).2
  rw [_parse_entry, if_pos rfl] at hval
  have hfunc : _parse_func val = some d := Entry.func.inj (Except.ok.inj hval)
  obtain ⟨beg, -, rfl⟩ := Option.map_eq_some_iff.mp hfunc
  simp

end

/-- **A path and the renamed one** have the same normal form exactly when they have one, and only references have the
names of parameters. -/
theorem normalized_iff {p : RetPath} (hp : p.Logged) {d : Decl} (hd : p.get_target = some (.one (.func (some d))))
    (htyped : ∀ ty ∈ d.types, ty ≠ none) {ρ : Str → Str} (hρ : Renaming ρ d.args p) :
    NormalizedAlike p (p.rename ρ d.args) ↔ p.Clear ρ d.args := by
  have hparsed := hp.parsed
  obtain ⟨m, m', hm, hm', hmaps⟩ := maps_argmap hρ.inj (length_types hparsed hd) htyped
  have hargs : ∀ a ∈ d.args, m.get? a ≠ none := fun a ha => (hmaps.mapped a).mpr ha
  have hargs' : ∀ a ∈ d.args.map ρ, m'.get? a ≠ none := fun a ha => (hmaps.mapped' a).mpr ha
  have hd' : (p.rename ρ d.args).get_target = some (.one (.func (some { d with args := d.args.map ρ }))) := by
    rw [RetPath.get_target] at hd ⊢
    rw [index_rename, hd]
    rfl
  have hfresh (key : Str) (hkey : key ∈ LIST_TYPE) (e : Entry) (he : e ∈ p.entries key) :
      ∀ a ∈ d.args, ∀ t ∈ e.texts, .word (ρ a) ∉ lex isIdent t := fun a ha t ht =>
    hρ.fresh a ha t (List.mem_append_left _ (List.mem_flatMap.mpr ⟨key, hkey, List.mem_flatMap.mpr ⟨e, he, ht⟩⟩))
  by_cases hrtn : ∃ rtn, p.get_rtn = some (.one (.text rtn))
  · obtain ⟨rtn, hrtn⟩ := hrtn
    have hrtn' : (p.rename ρ d.args).get_rtn = some (.one (.text (rename ρ d.args rtn))) := by
      rw [RetPath.get_rtn] at hrtn ⊢
      rw [index_rename, hrtn]
      rfl
    have hrtn_fresh : ∀ a ∈ d.args, .word (ρ a) ∉ lex isIdent rtn := by
      refine fun a ha => hρ.fresh a ha rtn (List.mem_append_right _ ?_)
      rw [hrtn]
      exact List.mem_singleton_self rtn
    obtain ⟨q, hq, hcalls, hconds, hstores, hret⟩ := init_eq hd hm hargs hrtn
    obtain ⟨q', hq', hcalls', hconds', hstores', hret'⟩ := init_eq hd' hm' hargs' hrtn'
    have hcalls_iff : q.get_calls = q'.get_calls ↔ ∀ e ∈ p.entries "LOG_CALL".toList, e.Clear ρ d.args := by
      rw [hcalls, hcalls']
      refine slot_iff hparsed (by decide) fun e he => ?_
      obtain ⟨val, hval⟩ := parsed_of_mem hparsed he
      exact normalize_call_iff hρ.ident hval (hfresh _ (by decide) e he) hmaps
    have hconds_iff : q.get_conds = q'.get_conds ↔ ∀ e ∈ p.entries "CONDITION".toList, e.Clear ρ d.args := by
      rw [hconds, hconds']
      refine slot_iff hparsed (by decide) fun e he => ?_
      obtain ⟨val, hval⟩ := parsed_of_mem hparsed he
      exact normalize_cond_iff hρ.ident hval (hfresh _ (by decide) e he) hmaps
    have hstores_iff : q.get_stores = q'.get_stores ↔ ∀ e ∈ p.entries "LOG_STORE".toList, e.Clear ρ d.args := by
      rw [hstores, hstores']
      refine slot_iff hparsed (by decide) fun e he => ?_
      obtain ⟨val, hval⟩ := parsed_of_mem hparsed he
      exact normalize_store_iff hρ.ident hval (hfresh _ (by decide) e he) hmaps
    have hrtn_iff : q.get_rtn = q'.get_rtn ↔ WordsRenamed ρ d.args rtn := by
      rw [hret, hret', ← normalize_rename_iff hρ.ident hrtn_fresh hmaps]
      simp
    constructor
    · rintro ⟨r, r', hr, hr', hc, hn, hs, ht⟩
      obtain rfl := Except.ok.inj (hq.symm.trans hr)
      obtain rfl := Except.ok.inj (hq'.symm.trans hr')
      refine ⟨?_, rtn, hrtn, hrtn_iff.mp ht⟩
      simp only [LIST_TYPE, List.forall_mem_cons]
      exact ⟨hconds_iff.mp hn, hcalls_iff.mp hc, hstores_iff.mp hs, nofun⟩
    · rintro ⟨hlists, rtn', hget, hwords⟩
      obtain rfl : rtn = rtn' := by simpa using hrtn.symm.trans hget
      exact ⟨q, q', hq, hq', hcalls_iff.mpr (hlists _ (by decide)), hconds_iff.mpr (hlists _ (by decide)),
        hstores_iff.mpr (hlists _ (by decide)), hrtn_iff.mpr hwords⟩
  · constructor
    · rintro ⟨q, -, hq, -⟩
      exact absurd hq (init_ne_ok hd hm hargs (not_exists.mp hrtn) q)
    · rintro ⟨-, rtn, hget, -⟩
      exact absurd ⟨rtn, hget⟩ hrtn

/-- A path of `f(struct inode * inode, struct dentry * dentry)`. -/
def memberPath : RetPath :=
  ⟨[("FUNCTION".toList, .one (.func (some ⟨"f".toList, [some "struct inode *".toList, some "struct dentry *".toList],
      ["inode".toList, "dentry".toList]⟩))),
    ("RETURN".toList, .one (.text "0".toList)),
    ("CONDITION".toList, .many [.cond ⟨"(S64 # dentry->inode)".toList, " [0, 0] ".toList⟩])], []⟩

/-- Other names for its parameters. -/
def otherNames (arg : Str) : Str := if arg = "inode".toList then "node".toList else "entry".toList

theorem memberPath_logged : memberPath.Logged :=
  ⟨[("FUNCTION".toList, "f(struct inode * inode, struct dentry * dentry)".toList), ("RETURN".toList, "0".toList),
    ("CONDITION".toList, "(S64 # dentry->inode) : { [0, 0] }".toList)], rfl⟩

theorem memberPath_renaming : Renaming otherNames ["inode".toList, "dentry".toList] memberPath :=
  have hne : ∀ a ∈ ["inode".toList, "dentry".toList], otherNames a ≠ [] := by decide
  have hident : ∀ a ∈ ["inode".toList, "dentry".toList], (otherNames a).all isIdent = true := by decide
  ⟨by decide, fun a ha => ⟨hne a ha, List.all_eq_true.mp (hident a ha)⟩, by decide, by decide +kernel⟩

theorem normalized_iff_member :
    NormalizedAlike memberPath (memberPath.rename otherNames ["inode".toList, "dentry".toList]) ↔
      memberPath.Clear otherNames ["inode".toList, "dentry".toList] :=
  normalized_iff memberPath_logged rfl (by decide) memberPath_renaming

/-- The normal form of `dentry->inode` depends on the name of the parameter `inode`. -/
theorem not_normalized : ¬ ∀ (p : RetPath) (d : Decl) (ρ : Str → Str), p.Logged →
    p.get_target = some (.one (.func (some d))) → (∀ ty ∈ d.types, ty ≠ none) → Renaming ρ d.args p →
      NormalizedAlike p (p.rename ρ d.args) := by
  intro h
  obtain ⟨q, q', hq, hq', -, hconds, -⟩ := h memberPath _ otherNames memberPath_logged rfl (by decide) memberPath_renaming
  have hcond : (ArgNormalizer.init memberPath).map RetPath.get_conds =
      .ok (some (.many [.cond ⟨"(S64 # $A1->$A0)".toList, " [0, 0] ".toList⟩])) := rfl
  have hcond' : (ArgNormalizer.init (memberPath.rename otherNames ["inode".toList, "dentry".toList])).map
      RetPath.get_conds = .ok (some (.many [.cond ⟨"(S64 # $A1->tmp)".toList, " [0, 0] ".toList⟩])) := rfl
  rw [hq] at hcond
  rw [hq'] at hcond'
  have heq := (Except.ok.inj hcond).symm.trans (hconds.trans (Except.ok.inj hcond'))
  exact absurd heq (by decide)

end SEDiff.Juxta

import SEDiff.Foundation.Dict
import SEDiff.Foundation.Hexadecimal

/-!
# Escapes

The codec `string_escape` of Python 2.

## What is proved

* `decode_append` — what is decoded before a character that continues no escape is decoded alone.
* `length_le_decode` — an escape has at most four characters, but for a line end.
-/

namespace SEDiff.Foundation.Str

/-! ### Definitions -/

/-- The value of an octal digit. -/
def octalDigit (c : Char) : Option ℕ := if '0' ≤ c ∧ c ≤ '7' then some (c.toNat - '0'.toNat) else none

/-- Up to three octal digits; the value is cut to a byte. -/
def octal (s : Str) : Char × ℕ :=
  match s.map octalDigit with
  | some a :: some b :: some c :: _ => (Char.ofNat ((8 * (8 * a + b) + c) % 256), 3)
  | some a :: some b :: _ => (Char.ofNat (8 * a + b), 2)
  | some a :: _ => (Char.ofNat a, 1)
  | _ => (Char.ofNat 0, 1)

/-- The escapes of one character. -/
def escapes : Dict Char Str :=
  [('\n', []), ('\\', ['\\']), ('\'', ['\'']), ('"', ['"']), ('b', [Char.ofNat 8]), ('f', [Char.ofNat 12]), ('t', ['\t']),
    ('n', ['\n']), ('r', ['\r']), ('v', [Char.ofNat 11]), ('a', [Char.ofNat 7])]

/-- What an escape stands for and how many characters it has after the backslash. -/
def escape : Str → Option (Str × ℕ)
  | [] => none
  | c :: s =>
    match escapes.get? c with
    | some d => some (d, 1)
    | none =>
      if (octalDigit c).isSome then some ([(octal (c :: s)).1], (octal (c :: s)).2)
      else if c = 'x' then
        match s.map hexDigit with
        | some a :: some b :: _ => some ([Char.ofNat (16 * a + b)], 3)
        | _ => none
      else some (['\\', c], 1)

/-- The rest of a text, where the next `skip` characters are decoded already. -/
def decodeFrom : ℕ → Str → Option Str
  | _, [] => some []
  | skip + 1, _ :: s => decodeFrom skip s
  | 0, c :: s =>
    if c = '\\' then (escape s).bind fun e => (decodeFrom e.2 s).map (e.1 ++ ·)
    else (decodeFrom 0 s).map (c :: ·)

/-- `s.decode('string_escape')`, where a `ValueError` is `none`. -/
def decode (s : Str) : Option Str := decodeFrom 0 s

/-! ### Escapes before other characters -/

/-- A text that continues no escape. -/
def Breaks (s : Str) : Prop := ∀ c ∈ s.head?, octalDigit c = none ∧ hexDigit c = none

theorem octalDigit_lt {c : Char} {n : ℕ} (h : octalDigit c = some n) : n < 8 := by
  rw [octalDigit] at h
  split_ifs at h with hc
  obtain rfl := Option.some.inj h
  have hle : c.toNat ≤ '7'.toNat := hc.2
  have hge : '0'.toNat ≤ c.toNat := hc.1
  have h0 : '0'.toNat = 48 := rfl
  have h7 : '7'.toNat = 55 := rfl
  omega

theorem hexDigit_of_octalDigit {c : Char} (h : (octalDigit c).isSome = true) : (hexDigit c).isSome = true := by
  rw [octalDigit] at h
  split_ifs at h with hc
  · have h9 : c ≤ '9' := Nat.le_trans hc.2 (by decide : '7'.toNat ≤ '9'.toNat)
    rw [hexDigit, if_pos ⟨hc.1, h9⟩]
    rfl
  · cases h

theorem hexDigit_lt {c : Char} {n : ℕ} (h : hexDigit c = some n) : n < 16 := by
  have hbound : ∀ {a b : Char}, a ≤ c ∧ c ≤ b → a.toNat ≤ c.toNat ∧ c.toNat ≤ b.toNat := fun hc => ⟨hc.1, hc.2⟩
  rw [hexDigit] at h
  split_ifs at h with hdigit hlower hupper <;> obtain rfl := Option.some.inj h
  · have := hbound hdigit
    have h0 : '0'.toNat = 48 := rfl
    have h9 : '9'.toNat = 57 := rfl
    omega
  · have := hbound hlower
    have ha : 'a'.toNat = 97 := rfl
    have hf : 'f'.toNat = 102 := rfl
    omega
  · have := hbound hupper
    have ha : 'A'.toNat = 65 := rfl
    have hf : 'F'.toNat = 70 := rfl
    omega

theorem toNat_ofNat_byte {n : ℕ} (hn : n < 256) : (Char.ofNat n).toNat = n := by
  have hvalid : n.isValidChar := .inl (by omega)
  rw [Char.ofNat, dif_pos hvalid]
  rfl

/-- The digits of an octal escape. -/
structure Octal (c : Char) (s : Str) (e : Char × ℕ) : Prop where
  /-- One at least. -/
  pos : 1 ≤ e.2
  /-- Three at most. -/
  le_three : e.2 ≤ 3
  /-- They are in the text. -/
  le_length : e.2 ≤ s.length + 1
  /-- The others are digits, too. -/
  digits : ∀ d ∈ s.take (e.2 - 1), (hexDigit d).isSome = true
  /-- They are a byte. -/
  byte : e.1.toNat < 256

theorem octal_spec {c : Char} (hc : (octalDigit c).isSome = true) (s : Str) : Octal c s (octal (c :: s)) := by
  obtain ⟨x, hx⟩ := Option.isSome_iff_exists.mp hc
  have hx8 := octalDigit_lt hx
  have hone : (Char.ofNat x).toNat < 256 := by
    rw [toNat_ofNat_byte (by omega)]
    omega
  have htwo : ∀ {b : Char} {y : ℕ}, octalDigit b = some y → (Char.ofNat (8 * x + y)).toNat < 256 := fun hy => by
    have := octalDigit_lt hy
    rw [toNat_ofNat_byte (by omega)]
    omega
  have hhex : ∀ {b : Char} {y : ℕ}, octalDigit b = some y → (hexDigit b).isSome = true := fun hy =>
    hexDigit_of_octalDigit (by rw [hy]; rfl)
  rcases s with _ | ⟨b, s⟩
  · exact ⟨by simp [octal, hx], by simp [octal, hx], by simp [octal, hx], by simp, by simpa [octal, hx] using hone⟩
  cases hb : octalDigit b with
  | none =>
    exact ⟨by simp [octal, hx, hb], by simp [octal, hx, hb], by simp [octal, hx, hb], by simp [octal, hx, hb],
      by simpa [octal, hx, hb] using hone⟩
  | some y =>
    rcases s with _ | ⟨d, s⟩
    · exact ⟨by simp [octal, hx, hb], by simp [octal, hx, hb], by simp [octal, hx, hb],
        by simpa [octal, hx, hb] using hhex hb, by simpa [octal, hx, hb] using htwo hb⟩
    · cases hd : octalDigit d with
      | none =>
        exact ⟨by simp [octal, hx, hb, hd], by simp [octal, hx, hb, hd], by simp [octal, hx, hb, hd],
          by simpa [octal, hx, hb, hd] using hhex hb, by simpa [octal, hx, hb, hd] using htwo hb⟩
      | some z =>
        have hthree : (Char.ofNat ((8 * (8 * x + y) + z) % 256)).toNat < 256 := by
          rw [toNat_ofNat_byte (Nat.mod_lt _ (by omega))]
          exact Nat.mod_lt _ (by omega)
        exact ⟨by simp [octal, hx, hb, hd], by simp [octal, hx, hb, hd], by simp [octal, hx, hb, hd],
          by simpa [octal, hx, hb, hd] using ⟨hhex hb, hhex hd⟩, by simpa [octal, hx, hb, hd] using hthree⟩

theorem octal_append {b s : Str} (hb : b ≠ []) (hs : Breaks s) : octal (b ++ s) = octal b := by
  have hs' : s = [] ∨ ∃ d t, s = d :: t ∧ octalDigit d = none := by
    cases s with
    | nil => exact .inl rfl
    | cons d t => exact .inr ⟨d, t, rfl, (hs d rfl).1⟩
  rcases hs' with rfl | ⟨d, t, rfl, hd⟩
  · rw [List.append_nil]
  · rcases b with _ | ⟨x, _ | ⟨y, _ | ⟨z, b⟩⟩⟩
    · exact absurd rfl hb
    · cases hx : octalDigit x <;> simp [octal, hx, hd]
    · cases hx : octalDigit x <;> cases hy : octalDigit y <;> simp [octal, hx, hy, hd]
    · cases hx : octalDigit x <;> cases hy : octalDigit y <;> cases hz : octalDigit z <;> simp [octal, hx, hy, hz]

/-- What an escape is: one character that stands for itself or another, or a character and digits that stand for a byte. -/
inductive Escape (c : Char) (s : Str) : Str × ℕ → Prop
  /-- A line end is left out. -/
  | lineEnd (hc : c = '\n') : Escape c s ([], 1)
  /-- One character for another. -/
  | short {d : Char} (hd : d.toNat < 256) : Escape c s ([d], 1)
  /-- Digits. -/
  | digits {d : Char} {n : ℕ} (hpos : 1 ≤ n) (hthree : n ≤ 3) (hlen : n ≤ s.length + 1)
      (hdigits : ∀ x ∈ s.take (n - 1), (hexDigit x).isSome = true) (hd : d.toNat < 256) : Escape c s ([d], n)
  /-- No escape: the backslash is kept. -/
  | unknown (hc : c ≠ '\n') : Escape c s (['\\', c], 1)

theorem escape_spec {c : Char} {s : Str} {e : Str × ℕ} (h : escape (c :: s) = some e) : Escape c s e := by
  rw [escape] at h
  cases hget : escapes.get? c with
  | some d =>
    rw [hget] at h
    obtain rfl := Option.some.inj h
    have hall : ∀ e ∈ escapes, e.1 = '\n' ∧ e.2 = [] ∨ ∃ d, e.2 = [d] ∧ d.toNat < 256 := by simp [escapes]
    rcases hall _ (Dict.mem_of_get? hget) with ⟨hc, hd⟩ | ⟨d', hd, hbyte⟩
    · dsimp only at hc hd
      exact hd ▸ .lineEnd hc
    · dsimp only at hd
      exact hd ▸ .short hbyte
  | none =>
    rw [hget] at h
    dsimp only at h
    split_ifs at h with hoctal hx
    · have ho := octal_spec hoctal s
      exact Option.some.inj h ▸ .digits ho.pos ho.le_three ho.le_length ho.digits ho.byte
    · rcases s with _ | ⟨a, _ | ⟨b, s⟩⟩
      · cases h
      · cases hd : hexDigit a <;> simp [hd] at h
      · cases hd : hexDigit a with
        | none => simp [hd] at h
        | some x =>
          cases hd' : hexDigit b with
          | none => simp [hd, hd'] at h
          | some y =>
            have hx := hexDigit_lt hd
            have hy := hexDigit_lt hd'
            simp only [List.map_cons, hd, hd'] at h
            refine Option.some.inj h ▸ .digits (by omega) (by omega) (by simp) ?_ ?_
            · simp [hd, hd']
            · rw [toNat_ofNat_byte (by omega)]
              omega
    · refine Option.some.inj h ▸ .unknown ?_
      rintro rfl
      cases hget

/-- The characters that an escape has. -/
theorem escape_length {s : Str} {e : Str × ℕ} (h : escape s = some e) : 1 ≤ e.2 ∧ e.2 ≤ s.length := by
  cases s with
  | nil => cases h
  | cons c s =>
    rw [List.length_cons]
    cases escape_spec h with
    | lineEnd hc => exact ⟨Nat.le_refl 1, Nat.succ_le_succ (Nat.zero_le _)⟩
    | short hd => exact ⟨Nat.le_refl 1, Nat.succ_le_succ (Nat.zero_le _)⟩
    | digits hpos hthree hlen hdigits hd => exact ⟨hpos, hlen⟩
    | unknown hc => exact ⟨Nat.le_refl 1, Nat.succ_le_succ (Nat.zero_le _)⟩

/-- An escape ends before a character that continues none. -/
theorem escape_append {b s : Str} (hb : b ≠ []) (hs : Breaks s) : escape (b ++ s) = escape b := by
  obtain ⟨c, b, rfl⟩ := List.exists_cons_of_ne_nil hb
  rw [List.cons_append, escape, escape, ← List.cons_append, octal_append hb hs]
  have hhex : (match (b ++ s).map hexDigit with
      | some a :: some b :: _ => some ([Char.ofNat (16 * a + b)], 3)
      | _ => none) = match b.map hexDigit with
      | some a :: some b :: _ => some ([Char.ofNat (16 * a + b)], 3)
      | _ => (none : Option (Str × ℕ)) := by
    cases s with
    | nil => rw [List.append_nil]
    | cons d t =>
      have hd := (hs d rfl).2
      rcases b with _ | ⟨x, _ | ⟨y, b⟩⟩
      · simp [hd]
      · cases hx : hexDigit x <;> simp [hd, hx]
      · cases hx : hexDigit x <;> cases hy : hexDigit y <;> simp [hx, hy]
  rw [hhex]

/-! ### Decoding a part -/

theorem decodeFrom_drop (s : Str) (n : ℕ) : decodeFrom n s = decode (s.drop n) := by
  induction s generalizing n with
  | nil => cases n <;> rfl
  | cons c s ih =>
    cases n with
    | zero => rfl
    | succ n => rw [decodeFrom, ih, List.drop_succ_cons]

@[simp] theorem decode_nil : decode [] = some [] := rfl

theorem decode_cons {c : Char} (hc : c ≠ '\\') (s : Str) : decode (c :: s) = (decode s).map (c :: ·) := by
  rw [decode, decodeFrom, if_neg hc]
  rfl

theorem decode_backslash (s : Str) : decode ('\\' :: s) = (escape s).bind fun e => (decode (s.drop e.2)).map (e.1 ++ ·) := by
  rw [decode, decodeFrom, if_pos rfl]
  simp only [decodeFrom_drop]

/-- **Decoding** goes from escape to escape. -/
theorem decode_induction {motive : Str → Str → Prop} (nil : motive [] [])
    (plain : ∀ c b d, c ≠ '\\' → decode b = some d → motive b d → motive (c :: b) (c :: d))
    (escaped : ∀ c b e d, escape (c :: b) = some e → Escape c b e → decode ((c :: b).drop e.2) = some d →
      motive ((c :: b).drop e.2) d → motive ('\\' :: c :: b) (e.1 ++ d)) {b d : Str} (h : decode b = some d) : motive b d := by
  induction hlen : b.length using Nat.strong_induction_on generalizing b d with
  | _ n ih =>
    subst hlen
    cases b with
    | nil =>
      obtain rfl := Option.some.inj h
      exact nil
    | cons c b =>
      by_cases hc : c = '\\'
      · subst hc
        rw [decode_backslash] at h
        obtain ⟨e, he, hrest⟩ := Option.bind_eq_some_iff.mp h
        obtain ⟨d', hd', rfl⟩ := Option.map_eq_some_iff.mp hrest
        cases b with
        | nil => cases he
        | cons c b =>
          have hlt : ((c :: b).drop e.2).length < ('\\' :: c :: b).length := by
            rw [List.length_drop]
            exact Nat.lt_succ_of_le (Nat.sub_le _ _)
          exact escaped c b e d' he (escape_spec he) hd' (ih _ hlt hd' rfl)
      · rw [decode_cons hc] at h
        obtain ⟨d', hd', rfl⟩ := Option.map_eq_some_iff.mp h
        exact plain c b d' hc hd' (ih b.length (Nat.lt_succ_self _) hd' rfl)

/-- A text without backslashes is what it is decoded to. -/
theorem decode_append_plain {a : Str} (ha : '\\' ∉ a) (s : Str) : decode (a ++ s) = (decode s).map (a ++ ·) := by
  induction a with
  | nil => simp
  | cons c a ih =>
    rw [List.mem_cons, not_or] at ha
    rw [List.cons_append, decode_cons (Ne.symm ha.1), ih ha.2, Option.map_map]
    rfl

/-- **What is decoded before** a character that continues no escape is decoded alone. -/
theorem decode_append {b s d : Str} (hb : decode b = some d) (hs : Breaks s) : decode (b ++ s) = (decode s).map (d ++ ·) := by
  refine @decode_induction (fun b d => decode (b ++ s) = (decode s).map (d ++ ·)) ?_ ?_ ?_ b d hb
  · simp
  · intro c b d hc _ ih
    rw [List.cons_append, decode_cons hc, ih, Option.map_map]
    rfl
  · intro c b e d he _ _ ih
    have hdrop : ((c :: b) ++ s).drop e.2 = (c :: b).drop e.2 ++ s := List.drop_append_of_le_length (escape_length he).2
    rw [List.cons_append, decode_backslash, escape_append (List.cons_ne_nil c b) hs, he, Option.bind_some, hdrop, ih,
      Option.map_map]
    refine congrArg (fun f => Option.map f (decode s)) (funext fun t => ?_)
    rw [Function.comp, List.append_assoc]

/-- **An escape has at most four characters**, but for a line end. -/
theorem length_le_decode {b d : Str} (hb : decode b = some d) (hnl : '\n' ∉ b) : b.length ≤ 4 * d.length := by
  refine @decode_induction (fun b d => '\n' ∉ b → b.length ≤ 4 * d.length) ?_ ?_ ?_ b d hb hnl
  · simp
  · intro c b d _ _ ih hnl
    have := ih fun hmem => hnl (List.mem_cons_of_mem _ hmem)
    rw [List.length_cons, List.length_cons]
    omega
  · intro c b e d _ hspec _ ih hnl
    have hrec := ih fun hmem => hnl (List.mem_cons_of_mem _ (List.mem_of_mem_drop hmem))
    have hfour : 1 + e.2 ≤ 4 * e.1.length := by
      cases hspec with
      | lineEnd hc => exact absurd (hc ▸ List.mem_cons_of_mem _ List.mem_cons_self) hnl
      | short hd => simp
      | digits hpos hthree hlen hdigits hd =>
        rw [List.length_singleton]
        omega
      | unknown hc => simp
    rw [List.length_drop] at hrec
    rw [List.length_cons, List.length_append]
    omega

/-- Bytes are decoded to bytes. -/
theorem byte_of_mem_decode {b d : Str} (hb : decode b = some d) (hbytes : ∀ c ∈ b, c.toNat < 256) : ∀ c ∈ d, c.toNat < 256 := by
  refine @decode_induction (fun b d => (∀ c ∈ b, c.toNat < 256) → ∀ c ∈ d, c.toNat < 256) ?_ ?_ ?_ b d hb hbytes
  · exact fun _ c hc => absurd hc List.not_mem_nil
  · intro c b d _ _ ih hbytes
    obtain ⟨hc, hb⟩ := List.forall_mem_cons.mp hbytes
    exact List.forall_mem_cons.mpr ⟨hc, ih hb⟩
  · intro c b e d _ hspec _ ih hbytes
    obtain ⟨hslash, hrest⟩ := List.forall_mem_cons.mp hbytes
    have hc := (List.forall_mem_cons.mp hrest).1
    have hone : ∀ x ∈ e.1, x.toNat < 256 := by
      cases hspec with
      | lineEnd hnl => exact fun x hx => absurd hx List.not_mem_nil
      | short hd => exact List.forall_mem_singleton.mpr hd
      | digits hpos hthree hlen hdigits hd => exact List.forall_mem_singleton.mpr hd
      | unknown hnl => exact List.forall_mem_cons.mpr ⟨hslash, List.forall_mem_singleton.mpr hc⟩
    have hrec := ih fun x hx => hrest x (List.mem_of_mem_drop hx)
    exact fun x hx => (List.mem_append.mp hx).elim (hone x) (hrec x)

end SEDiff.Foundation.Str

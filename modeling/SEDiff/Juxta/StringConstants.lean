import SEDiff.Foundation.Escapes
import SEDiff.Foundation.Replacing

/-!
# String constants

`convert` of `navex-convert.py`: each string literal of the solver's input becomes a declared constant, whose name spells the
bytes of the literal.

## The model

A byte is a character, and a line the list of its characters. What the input can be wrong in is a `Fault`. The two loops over
one line are `scan` and `close`; `scan` counts its rounds down, and `scan_ne_outOfFuel` of the next module says that it never
runs out of them.
-/

namespace SEDiff.Juxta.NavexConvert

open Foundation Str

/-! ### The source -/

/-- What stops `convert`. -/
inductive Fault where
  /-- `return "eRrOr"`: a literal is not closed. -/
  | inputFormat
  /-- `sys.exit(1)`: a literal has an escape that cannot be decoded. -/
  | exit
  /-- A `KeyError` of `encodeDict`. -/
  | keyError
  /-- Not of the source: too few rounds. -/
  | outOfFuel
  deriving DecidableEq, Repr

/-- An underscore, an `x` and two lower-case digits. -/
def code (c : Char) : Str := ['_', 'x', Nat.digitChar (c.toNat / 16), Nat.digitChar (c.toNat % 16)]

/-- `encodeDict`: the codes of the bytes. -/
def encodeDict : Dict Char Str := (List.range 256).map fun n => (Char.ofNat n, code (Char.ofNat n))

/-- What names start with. -/
def mark : Str := "__cOnStStR_".toList

/-- `encodeConstStr`. -/
def encodeConstStr (constStr : Str) : Except Fault Str :=
  match decode constStr with
  | none => .error .exit
  | some constStr =>
    match constStr.mapM encodeDict.get? with
    | none => .error .keyError
    | some ccs => .ok (mark ++ ccs.flatten)

/-- `line.find(c, start)`, where `-1` is `none`. -/
def find (line : Str) (c : Char) (start : ℕ) : Option ℕ := (partition c (line.drop start)).map fun p => start + p.1.length

/-- How far behind the opening quote the closing one is, or `none` when there is none: `p2 - (p1 + 1)`. -/
def close : Str → Option ℕ
  | '\\' :: '"' :: s => (close s).map (· + 2)
  | '\\' :: '\\' :: s => (close s).map (· + 2)
  | '"' :: _ => some 0
  | _ :: s => (close s).map (· + 1)
  | [] => none

/-- `if encoded_s not in declared_string_const: declared_string_const.append(encoded_s)`. -/
def declare (declared_string_const : List Str) (encoded_s : Str) : List Str :=
  if encoded_s ∈ declared_string_const then declared_string_const else declared_string_const ++ [encoded_s]

/-- `while True`, from `start = p1 + 1`. -/
def scan : ℕ → Str → ℕ → List Str → Except Fault (Str × List Str)
  | 0, _, _, _ => .error .outOfFuel
  | fuel + 1, line, start, declared_string_const =>
    match find line '"' start with
    | none => .ok (line, declared_string_const)
    | some p1 =>
      match close (line.drop (p1 + 1)) with
      | none => .error .inputFormat
      | some n =>
        let p2 := p1 + 1 + n
        let old_s := (line.take (p2 + 1)).drop p1
        match encodeConstStr ((old_s.take (old_s.length - 1)).drop 1) with
        | .error e => .error e
        | .ok encoded_s => scan fuel (replace line old_s encoded_s) (p2 + 1) (declare declared_string_const encoded_s)

/-- What becomes of a line. -/
inductive Kind where
  /-- `continue`. -/
  | skipped
  /-- The declaration of a variable. -/
  | declaration
  /-- Its literals are converted. -/
  | converted
  deriving DecidableEq, Repr

/-- `line = line.strip()`, `line = line.replace('\t', ' ')`. -/
def trim (line : Str) : Str := replace (strip line) ['\t'] [' ']

/-- Which branch a trimmed line takes. -/
def kind (line : Str) : Kind :=
  if line = [] then .skipped
  else if [';'] <+: line then .skipped
  else if ['%'] <+: line then .skipped
  else if "//".toList <+: line then .skipped
  else if "get-model".toList <:+: line then .skipped
  else if "set-option".toList <:+: line then .skipped
  else if "declare-variable".toList <:+: line then .declaration
  else .converted

/-- What is collected over the lines. -/
structure Collected where
  /-- `declared_string_var`. -/
  declared_string_var : List Str := []
  /-- `declared_string_const`. -/
  declared_string_const : List Str := []
  /-- `converted_cstr`. -/
  converted_cstr : Str := []
  deriving DecidableEq, Repr

/-- `line.replace('declare-variable', 'declare-const')`. -/
def declaration (line : Str) : Str := replace line "declare-variable".toList "declare-const".toList

/-- One line of the file. -/
def convertLine (st : Collected) (line : Str) : Except Fault Collected :=
  match kind (trim line) with
  | .skipped => .ok st
  | .declaration => .ok { st with declared_string_var := st.declared_string_var ++ [declaration (trim line)] }
  | .converted =>
    match scan ((trim line).count '"' + 1) (trim line) 0 st.declared_string_const with
    | .error e => .error e
    | .ok (line, declared_string_const) =>
      .ok { st with declared_string_const, converted_cstr := st.converted_cstr ++ (line ++ ['\n']) }

/-- `'(declare-const ' + str_const + ' String)\n'`. -/
def constDeclaration (str_const : Str) : Str := "(declare-const ".toList ++ (str_const ++ " String)".toList)

/-- `output_str`. -/
def output_str (st : Collected) : Str :=
  unlines '\n' st.declared_string_var ++ '\n' ::
    (unlines '\n' (st.declared_string_const.map constDeclaration) ++ '\n' :: st.converted_cstr)

/-- `linesInFile`. -/
def linesInFile (fileContent : Str) : List Str := Str.split ['\n'] fileContent

/-- `convert`: what is written for a file. -/
def convert (fileContent : Str) : Except Fault Str := ((linesInFile fileContent).foldlM convertLine {}).map output_str

/-! ### What is to be shown -/

/-- What stands between the quotes of a literal: a backslash takes the next character with it. -/
inductive Body : Str → Prop
  /-- Nothing. -/
  | nil : Body []
  /-- A character that is neither a quote nor a backslash. -/
  | char {c : Char} {b : Str} (hquote : c ≠ '"') (hslash : c ≠ '\\') (hb : Body b) : Body (c :: b)
  /-- A backslash and a character. -/
  | escaped {c : Char} {b : Str} (hb : Body b) : Body ('\\' :: c :: b)

/-- **A well-formed literal** of a line. -/
structure Literal where
  /-- What it has between the quotes. -/
  body : Str
  /-- The bytes that it stands for. -/
  decoded : Str
  /-- The closing quote closes it. -/
  closed : Body body
  /-- Its escapes can be decoded. -/
  decodes : decode body = some decoded
  /-- It is text of a file. -/
  bytes : ∀ c ∈ body, c.toNat < 256
  /-- It is on one line. -/
  line : '\n' ∉ body

/-- A text between quotes. -/
def quoted (b : Str) : Str := '"' :: (b ++ ['"'])

/-- The text of a literal. -/
def Literal.text (l : Literal) : Str := quoted l.body

/-- The name of the bytes. -/
def nameOf (s : Str) : Str := mark ++ s.flatMap code

/-- The name of a literal. -/
def Literal.name (l : Literal) : Str := nameOf l.decoded

/-- A part of a line. -/
inductive Segment where
  /-- Text outside of literals. -/
  | plain (s : Str) (hquote : '"' ∉ s) (hline : '\n' ∉ s)
  /-- A literal. -/
  | lit (l : Literal)

namespace Segment

/-- The text of a part. -/
def text : Segment → Str
  | plain s _ _ => s
  | lit l => l.text

/-- What should be emitted for it. -/
def out : Segment → Str
  | plain s _ _ => s
  | lit l => l.name

end Segment

/-- A line of parts. -/
abbrev Line := List Segment

namespace Line

/-- The text of a line. -/
def text (segs : Line) : Str := segs.flatMap Segment.text

/-- What should be emitted for it: each literal is replaced at its own place and as a whole. -/
def out (segs : Line) : Str := segs.flatMap Segment.out

end Line

/-- The lines of a kind, trimmed. -/
def linesOf (k : Kind) (lines : List Str) : List Str := (lines.map trim).filter fun line => kind line = k

/-- **The conversion is a faithful replacement** of tokens. -/
structure Faithful (fileContent : Str) (lines : List Line) : Prop where
  /-- The lines are emitted with their literals replaced, after the declarations of some constants; each is declared once, and
  they are the names of the literals. -/
  emitted : ∃ consts, convert fileContent = .ok (output_str ⟨(linesOf .declaration (linesInFile fileContent)).map declaration,
      consts, unlines '\n' (lines.map Line.out)⟩) ∧ consts.Nodup ∧
    ∀ const, const ∈ consts ↔ ∃ segs ∈ lines, ∃ l, .lit l ∈ segs ∧ const = l.name
  /-- Different contents have different names. -/
  distinct : ∀ segs ∈ lines, ∀ segs' ∈ lines, ∀ l l', .lit l ∈ segs → .lit l' ∈ segs' → l.decoded ≠ l'.decoded →
    l.name ≠ l'.name

/-! ### Where it is one -/

/-- The text of a literal occurs at no escaped quote, and at no closing one, of the other literals behind it. -/
def Clear (l : Literal) (segs : Line) : Prop :=
  ∀ pre L post c d, segs = pre ++ .lit L :: post → L.body ≠ l.body → L.body ++ ['"'] = c ++ '"' :: d →
    ¬ l.body ++ ['"'] <+: d ++ Line.text post

/-- The characters of names. -/
def IsNameChar (c : Char) : Bool := c.isAlphanum || c = '_' || c = '*'

theorem isNameChar_digitChar (n : ℕ) : IsNameChar (Nat.digitChar n) = true := by
  rcases Nat.lt_or_ge n 16 with hn | hn
  · have hall : ∀ n < 16, IsNameChar (Nat.digitChar n) = true := by decide
    exact hall n hn
  · rw [Nat.digitChar_eq_star.mpr hn]
    decide

theorem mark_eq : mark = ['_', '_', 'c', 'O', 'n', 'S', 't', 'S', 't', 'R', '_'] := rfl

theorem isNameChar_of_mem_nameOf {s : Str} {c : Char} (hc : c ∈ nameOf s) : IsNameChar c = true := by
  have hmark : mark.all IsNameChar = true := by
    rw [mark_eq]
    decide
  rcases List.mem_append.mp hc with hc | hc
  · exact List.all_eq_true.mp hmark c hc
  · obtain ⟨x, _, hc⟩ := List.mem_flatMap.mp hc
    simp only [code, List.mem_cons, List.not_mem_nil, or_false] at hc
    rcases hc with rfl | rfl | rfl | rfl
    · decide
    · decide
    · exact isNameChar_digitChar _
    · exact isNameChar_digitChar _

theorem notMem_nameOf {c : Char} (hc : IsNameChar c = false) (s : Str) : c ∉ nameOf s := fun hmem =>
  Bool.noConfusion (hc.symm.trans (isNameChar_of_mem_nameOf hmem))

theorem quote_notMem_nameOf (s : Str) : '"' ∉ nameOf s := notMem_nameOf (by decide) s

theorem newline_notMem_nameOf (s : Str) : '\n' ∉ nameOf s := notMem_nameOf (by decide) s

/-- A part, where `l` is replaced. -/
def Segment.naming (l : Literal) : Segment → Segment
  | .plain s hquote hline => .plain s hquote hline
  | .lit L =>
    if L.body = l.body then .plain l.name (quote_notMem_nameOf _) (newline_notMem_nameOf _) else .lit L

/-- **No literal disturbs the others**: each is clear of those behind it, once those before it are replaced. -/
inductive Separate : Line → Prop
  /-- Nothing. -/
  | nil : Separate []
  /-- Other text. -/
  | plain {s : Str} {hquote : '"' ∉ s} {hline : '\n' ∉ s} {segs : Line} (hsegs : Separate segs) :
    Separate (.plain s hquote hline :: segs)
  /-- A literal. -/
  | lit {l : Literal} {segs : Line} (hclear : Clear l segs) (hsegs : Separate (segs.map (Segment.naming l))) :
    Separate (.lit l :: segs)

end SEDiff.Juxta.NavexConvert

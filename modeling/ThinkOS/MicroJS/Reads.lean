import ThinkOS.MicroJS.Lex

/-!
# MicroJS: what the lexical analyzer reads

The characters and the entries of the keyword table that a call of `lexer_scan` reads, each with its
index. All loops but one test for the end of the text before they read on; the loop over the characters
of a word does not, and the search in the table takes one entry too many:

    all reads of a call are inside  ↔  the next token is not a word            (lexer_inside)
-/

namespace MicroJS

open List Bool

/-- A read of `txt[off]`, or of `lex_keyword[k]`. -/
inductive Access where
  | text (off : Nat)
  | keyword (k : Nat)
  deriving DecidableEq

def Access.inside (len : Nat) : Access → Prop
  | .text off => off < len
  | .keyword k => k < lexKeyword.length

instance (len : Nat) : (a : Access) → Decidable (a.inside len)
  | .text _ => Nat.decLt _ _
  | .keyword _ => Nat.decLt _ _

/-- `do { if (++off == len) break; c = txt[off]; } while (p(c))`, from the first read on. In this and the
next definitions the list is the text from the offset on, up to `len`. -/
def seek (p : Char → Bool) : Nat → List Char → List Access
  | _, [] => []
  | off, c :: cs => .text off :: if p c then seek p (off + 1) cs else []

/-- `do c = txt[++off]; while (isalnum(c) || (c == '_'))` -/
def word : Nat → List Char → List Access
  | off, [] => [.text off]
  | off, c :: cs => .text off :: if isident c then word (off + 1) cs else []

/-- What is read behind `c`, the first character of a token. The characters of a word, which
`strncmp` reads again, and that of a quoted character are not listed twice. -/
def lexemeReads (c : Char) (off : Nat) (cs : List Char) : List Access :=
  if c == '\'' || c == '"' then seek (· != c) off cs
  else if c.isAlpha || c == '_' then
    -- `k <= (sizeof(lex_keyword) / 10)`
    word off cs ++ (List.range (lexKeyword.length + 1)).map .keyword
  else if c.isDigit then
    match c, cs with
    | '0', x :: ds =>
      .text off :: if x == 'x' || x == 'X' then seek isxdigit (off + 1) ds else seek Char.isDigit off cs
    | _, cs => seek Char.isDigit off cs
  else if c ∈ ['/', '<', '>', '=', '!'] then seek (fun _ => false) off cs
  -- `|` and `&` test for the end, and read nothing
  else []

/-- The text without the blanks and comments in front. -/
def skip : Mode → List Char → List Char
  | _, [] => []
  | .line, c :: cs => skip (if c = '\n' then .text else .line) cs
  | .block, '*' :: [] => []
  | .block, '*' :: c :: cs => skip (if c = '/' then .text else .block) cs
  | .block, _ :: cs => skip .block cs
  | .text, '/' :: '/' :: cs => skip .line cs
  | .text, '/' :: '*' :: cs => skip .block cs
  | .text, c :: cs => if isspace c then skip .text cs else c :: cs

/-- The reads of `lexer_scan`: blanks and comments one character after the other, then a token. -/
def lexerReads (off : Nat) (txt : List Char) : List Access :=
  match skip .text txt with
  | [] => (List.range' off txt.length).map .text
  | c :: cs => (List.range' off (txt.length - cs.length)).map .text ++
      lexemeReads c (off + (txt.length - cs.length)) cs

/-- Behind blanks and comments stands a letter or an underscore. -/
def wordAhead (txt : List Char) : Bool :=
  (skip .text txt).head?.any fun c => c.isAlpha || c == '_'

section
variable {len off : Nat} {c : Char} {cs : List Char}

theorem inside_cons {l : List Access} (h : off < len) :
    (∀ a ∈ .text off :: l, a.inside len) ↔ ∀ a ∈ l, a.inside len :=
  forall_mem_cons.trans (and_iff_right h)

theorem seek_inside (p : Char → Bool) (h : off + cs.length = len) :
    ∀ a ∈ seek p off cs, a.inside len := by
  induction cs generalizing off with
  | nil => exact forall_mem_nil _
  | cons c cs ih =>
    rw [length_cons] at h
    refine (inside_cons (by omega)).mpr ?_
    split
    · exact ih (by omega)
    · exact forall_mem_nil _

theorem lexemeReads_inside (h : off + cs.length = len) :
    (∀ a ∈ lexemeReads c off cs, a.inside len) ↔ (c.isAlpha || c == '_') = false := by
  unfold lexemeReads
  split
  · rename_i hq
    refine iff_of_true (seek_inside _ h) ?_
    rcases or_eq_true _ _ ▸ hq with hc | hc <;> rw [eq_of_beq hc] <;> decide
  · split
    · rename_i hw
      refine iff_of_false (fun hin => ?_) (by rw [hw]; decide)
      exact Nat.lt_irrefl _ (hin (.keyword lexKeyword.length) (by simp))
    · rename_i hw
      refine iff_of_true ?_ (eq_false_iff.mpr hw)
      split
      · split
        · rw [length_cons] at h
          refine (inside_cons (by omega)).mpr ?_
          split
          · exact seek_inside _ (by omega)
          · exact seek_inside _ h
        · exact seek_inside _ h
      · split
        · exact seek_inside _ h
        · exact forall_mem_nil _

theorem length_skip_le (m : Mode) (txt : List Char) : (skip m txt).length ≤ txt.length := by
  fun_induction skip m txt <;> grind

theorem range_inside {n : Nat} (h : off + n ≤ len) :
    ∀ a ∈ (List.range' off n).map Access.text, a.inside len := by
  intro a ha
  obtain ⟨i, hi, rfl⟩ := mem_map.mp ha
  exact Nat.lt_of_lt_of_le (mem_range'_1.mp hi).2 h

theorem lexerReads_inside {txt : List Char} :
    (∀ a ∈ lexerReads off txt, a.inside (off + txt.length)) ↔ wordAhead txt = false := by
  have hle := length_skip_le .text txt
  unfold lexerReads wordAhead
  cases hskip : skip .text txt with
  | nil => exact iff_of_true (range_inside (Nat.le_refl _)) rfl
  | cons c cs =>
    rw [hskip, length_cons] at hle
    simp only [forall_mem_append, head?_cons, Option.any_some]
    rw [and_iff_right (range_inside (by omega)), lexemeReads_inside (by omega)]

/-! ## Progress -/

theorem length_dropWhile_le (p : Char → Bool) (l : List Char) : (l.dropWhile p).length ≤ l.length :=
  (dropWhile_suffix p).length_le

theorem lexeme_le {k : Token} {rest : List Char} (h : lexeme c cs = .ok (k, rest)) :
    rest.length ≤ cs.length := by
  have hdrop {p : Char → Bool} (hp : p c) : ((c :: cs).dropWhile p).length ≤ cs.length := by
    rw [dropWhile_cons_of_pos hp]
    exact length_dropWhile_le p cs
  unfold lexeme at h
  split at h
  · grind [scanQuote, length_dropWhile_le]
  · split at h
    · cases h
      exact hdrop (by grind [isident, Char.isAlphanum])
    · split at h
      · grind [scanHex, scanDec, endNumber, length_dropWhile_le]
      · grind

theorem scan_lt {m : Mode} {k : Token} {txt rest : List Char} (h : scan m txt = .ok (k, rest)) :
    k.typ = .eof ∨ rest.length < txt.length := by
  fun_induction scan m txt <;> grind [→ lexeme_le]

end

/-- The tokens before the end of the text or an error, in `n` calls. -/
def scanned : Nat → List Char → List Token
  | 0, _ => []
  | n + 1, txt =>
    match lexerScan txt with
    | .ok (k, rest) => if k.typ = .eof then [] else k :: scanned n rest
    | .error _ => []

theorem length_scanned_le (n : Nat) (txt : List Char) : (scanned n txt).length ≤ txt.length := by
  induction n generalizing txt with
  | zero => exact Nat.zero_le _
  | succ n ih =>
    unfold scanned
    split
    · rename_i k rest hscan
      split
      · exact Nat.zero_le _
      · rename_i hk
        exact Nat.lt_of_le_of_lt (ih rest) ((scan_lt hscan).resolve_left hk)
    · exact Nat.zero_le _

/-- **A call of `lexer_scan` reads inside the text and the keyword table, and comes further, or to the
end, or fails, exactly when the next token is not a word; and a text has at most as many tokens as
characters.** -/
theorem lexer_inside (off : Nat) (txt : List Char) :
    (((∀ a ∈ lexerReads off txt, a.inside (off + txt.length)) ∧
      ∀ k rest, lexerScan txt = .ok (k, rest) → k.typ = .eof ∨ rest.length < txt.length) ↔
        wordAhead txt = false) ∧
      ∀ n, (scanned n txt).length ≤ txt.length :=
  ⟨(and_iff_left fun _ _ hscan => scan_lt hscan).trans lexerReads_inside,
    fun n => length_scanned_le n txt⟩

/-- A text of one letter is read behind its end, and so is the table. -/
theorem lexer_inside_letter : ¬ (Access.text 1).inside 1 ∧ ¬ (Access.keyword 10).inside 1 ∧
    Access.text 1 ∈ lexerReads 0 ['x'] ∧ Access.keyword 10 ∈ lexerReads 0 ['x'] := by
  decide +kernel

end MicroJS

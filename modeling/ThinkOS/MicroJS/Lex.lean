import ThinkOS.MicroJS.Grammar

/-!
# MicroJS: the lexical analyzer

`lexer_scan` of `microjs_lex.c`. The scanner's state is the text still to be read; the end of the
text reads as a character that is neither a letter nor a digit (the source's texts end in a NUL).
A token carries what the actions read of it: the text of an identifier or string, cut to the 8 bits
its length is kept in, and the value of a number or character.
-/

namespace MicroJS

abbrev Byte := BitVec 8

abbrev Word := BitVec 32

abbrev Name := List Char

/-- The `ERR_…` codes the compiler returns. `corrupt` stands for the two cases in which the source
goes on with a damaged symbol table instead of returning: an object record longer than the 8 bits
of its links, and an entry popped as one of another kind. -/
inductive Err where
  | unexpectedEof | unexpectedChar | unexpectedSymbol | unclosedString | unclosedComment
  | invalidLiteral | strbuf (code : Int) | syntaxError | varUnknown | externUnknown | argMissing
  | tooManyArgs | symPushFail | symPopFail | objNewFail | sdtStackOverflow | general
  | codeMemOverflow | retCountMismatch | stackUnderflow | externNotFunction | externNotArray
  | externNotObject | externNotInteger | externNotMember | externReadonly | externNotScalar
  | corrupt
  deriving DecidableEq

/-- A token: its class and the part of the source's union that belongs to the class. -/
structure Token where
  typ : Term
  s : Name := []
  u32 : Word := 0
  deriving DecidableEq

def isspace (c : Char) : Bool := c == ' ' || (9 ≤ c.toNat && c.toNat ≤ 13)

def isxdigit (c : Char) : Bool :=
  c.isDigit || ('a' ≤ c && c ≤ 'f') || ('A' ≤ c && c ≤ 'F')

/-- The characters of an identifier after its first one. -/
def isident (c : Char) : Bool := c.isAlphanum || c == '_'

/-- `lex_keyword`. -/
def lexKeyword : List (Name × Term) :=
  [(['c', 'a', 't', 'c', 'h'], .catch_), (['e', 'l', 's', 'e'], .else_),
    (['f', 'a', 'l', 's', 'e'], .false_), (['f', 'o', 'r'], .for_), (['i', 'f'], .if_),
    (['t', 'h', 'r', 'o', 'w'], .throw_), (['t', 'r', 'u', 'e'], .true_), (['t', 'r', 'y'], .try_),
    (['v', 'a', 'r'], .var_), (['w', 'h', 'i', 'l', 'e'], .while_)]

/-- A keyword or an identifier. -/
def scanIdent (txt : List Char) : Token × List Char :=
  let s := txt.takeWhile isident
  (match lexKeyword.lookup s with
    | some t => { typ := t }
    | none => { typ := .id, s := s.take (s.length % 256) },
   txt.dropWhile isident)

/-- A quoted character or string; `txt` starts after the opening quote `qt`. -/
def scanQuote (qt : Char) (txt : List Char) : Except Err (Token × List Char) :=
  let s := txt.takeWhile (· != qt)
  match txt.dropWhile (· != qt) with
  | [] => .error .unclosedString
  | _ :: rest =>
    match s, qt with
    | [c], '\'' => .ok ({ typ := .char, u32 := BitVec.ofNat 32 c.toNat }, rest)
    | _, _ => .ok ({ typ := .string, s := s.take (s.length % 256) }, rest)

def hexVal (c : Char) : Nat :=
  if 'a' ≤ c then c.toNat - 'a'.toNat + 10
  else if 'A' ≤ c then c.toNat - 'A'.toNat + 10
  else c.toNat - '0'.toNat

/-- The end of a number: a letter there is an error, as in `123abc`. -/
def endNumber (val : Word) (rest : List Char) : Except Err (Token × List Char) :=
  if (rest.head?).any (fun c => c.isAlpha || c == '_') then .error .invalidLiteral
  else .ok ({ typ := .int, u32 := val }, rest)

def scanHex (txt : List Char) : Except Err (Token × List Char) :=
  if (txt.head?).any isxdigit then
    endNumber ((txt.takeWhile isxdigit).foldl (fun v c => (v <<< 4) + BitVec.ofNat 32 (hexVal c)) 0)
      (txt.dropWhile isxdigit)
  else .error .invalidLiteral

def scanDec (txt : List Char) : Except Err (Token × List Char) :=
  endNumber
    ((txt.takeWhile Char.isDigit).foldl
      (fun v c => (((v <<< 2) + v) <<< 1) + BitVec.ofNat 32 (c.toNat - '0'.toNat)) 0)
    (txt.dropWhile Char.isDigit)

/-- The single characters of the final `switch`; 26 is the `<SUB>` padding of an Xmodem file. -/
def punct (c : Char) : Option Term :=
  match c with
  | '.' => some .dot | ',' => some .comma | ';' => some .semicolon | '^' => some .caret
  | '~' => some .tilde | '*' => some .star | '%' => some .percent | '+' => some .plus
  | '-' => some .minus | '(' => some .lparen | ')' => some .rparen | '{' => some .lbrace
  | '}' => some .rbrace | '[' => some .lbracket | ']' => some .rbracket
  | c => if c.toNat = 26 then some .eof else none

/-- The token that starts with `c`, which is neither a blank nor the start of a comment. -/
def lexeme (c : Char) (cs : List Char) : Except Err (Token × List Char) :=
  if c == '\'' || c == '"' then scanQuote c cs
  else if c.isAlpha || c == '_' then .ok (scanIdent (c :: cs))
  else if c.isDigit then
    match c, cs with
    | '0', 'x' :: ds => scanHex ds
    | '0', 'X' :: ds => scanHex ds
    | c, cs => scanDec (c :: cs)
  else
    match c, cs with
    | '<', '<' :: rest => .ok ({ typ := .shl }, rest)
    | '<', '=' :: rest => .ok ({ typ := .lte }, rest)
    | '<', rest => .ok ({ typ := .lessthen }, rest)
    | '>', '>' :: rest => .ok ({ typ := .asr }, rest)
    | '>', '=' :: rest => .ok ({ typ := .gte }, rest)
    | '>', rest => .ok ({ typ := .greatthen }, rest)
    | '=', '=' :: rest => .ok ({ typ := .equ }, rest)
    | '=', rest => .ok ({ typ := .equals }, rest)
    | '!', '=' :: rest => .ok ({ typ := .neq }, rest)
    | '!', rest => .ok ({ typ := .not }, rest)
    -- the source tests `c` again without reading the next character, and skips that one
    | '|', _ :: rest => .ok ({ typ := .logicor }, rest)
    | '|', [] => .ok ({ typ := .bar }, [])
    | '&', _ :: rest => .ok ({ typ := .logicand }, rest)
    | '&', [] => .ok ({ typ := .ampersand }, [])
    | c, rest =>
      match punct c with
      | some t => .ok ({ typ := t }, rest)
      | none => .error .unexpectedChar

/-- Where the scanner is: in the program text, in a `//` comment or in a block comment. -/
inductive Mode where
  | text | line | block

/-- `lexer_scan`: the next token and the text after it. -/
def scan : Mode → List Char → Except Err (Token × List Char)
  | .text, [] => .ok ({ typ := .eof }, [])
  | .line, [] => .ok ({ typ := .eof }, [])
  | .block, [] => .error .unclosedComment
  | .line, c :: cs => if c = '\n' then scan .text cs else scan .line cs
  | .block, '*' :: [] => .error .unclosedComment
  -- the character after a `*` is not looked at again, so a second `*` there hides the `/`
  | .block, '*' :: c :: cs => if c = '/' then scan .text cs else scan .block cs
  | .block, _ :: cs => scan .block cs
  | .text, '/' :: '/' :: cs => scan .line cs
  | .text, '/' :: '*' :: cs => scan .block cs
  | .text, '/' :: c :: cs => .ok ({ typ := .slash }, c :: cs)
  | .text, c :: cs => if isspace c then scan .text cs else lexeme c cs

def lexerScan (txt : List Char) : Except Err (Token × List Char) := scan .text txt

/-- `lexer_open`: the length is kept in 16 bits. -/
def lexerOpen (txt : List Char) : List Char := txt.take (txt.length % 65536)

end MicroJS

import ThinkOS.Lib.Memory

/-!
# JSON texts and tokens

`microjs_json_open`, `microjs_json_scan` and `microjs_json_get_val`: a text is turned into tokens of one
to five bytes, and these are read back. The tokens grow from the start of a buffer, and the brackets that
are open from its end.
-/

namespace Json

open Lib

/-! ## Characters -/

def isSpace (c : UInt8) : Bool := c == 32 || (9 ≤ c && c ≤ 13)

def isDigit (c : UInt8) : Bool := 48 ≤ c && c ≤ 57

def isAlpha (c : UInt8) : Bool := (65 ≤ c && c ≤ 90) || (97 ≤ c && c ≤ 122)

/-- The characters that a symbol begins with. -/
def isSymbol (c : UInt8) : Bool := isAlpha c || c == 95

/-- The characters of a symbol. -/
def isWord (c : UInt8) : Bool := isAlpha c || isDigit c || c == 95

/-- `true` -/
def trueText : List UInt8 := [116, 114, 117, 101]
/-- `false` -/
def falseText : List UInt8 := [102, 97, 108, 115, 101]
/-- `null` -/
def nullText : List UInt8 := [110, 117, 108, 108]

/-! ## Tokens -/

def stringLenMax : Nat := 200
def labelLstMax : Nat := 40

def tokString : Nat := 256 - stringLenMax - 1
def tokLabel : Nat := tokString - labelLstMax

def tokStop : Nat := 1
def tokNull : Nat := 2
def tokLeftbrace : Nat := 3
def tokLeftbracket : Nat := 4
def tokRightbrace : Nat := 5
def tokRightbracket : Nat := 6
def tokFalse : Nat := 7
def tokTrue : Nat := 8
def tokInt8 : Nat := 12
def tokInt16 : Nat := 13
def tokInt24 : Nat := 14
def tokInt32 : Nat := 15

def ok : Int := 0
def unexpectedChar : Int := -1
def tokenBufOvf : Int := -3
def unclosedString : Int := -4
def bracketMismatch : Int := -7
def stringTooLong : Int := -8
def emptyFile : Int := -9
def emptyStack : Int := -10
def invalidSymbol : Int := -12
def invalidLabel : Int := -13
def objectExpected : Int := -14

/-- A field of 16 bits. -/
def u16 (n : Nat) : Nat := n % 65536

/-- `struct microjs_json_parser` -/
structure Parser where
  idx : Nat
  cnt : Nat
  sp : Nat
  top : Nat
  tok : Mem
  off : Nat
  /-- `end` -/
  fin : Nat
  len : Nat
  txt : List UInt8
  /-- the labels, without their final NULs -/
  lbl : List (List UInt8)

/-- `microjs_json_init` -/
def jsonInit (tok : Mem) (size : Nat) (lbl : List (List UInt8)) : Parser where
  idx := 0
  cnt := 0
  sp := u16 size
  top := u16 size
  tok := tok.storeBytes 0 (List.replicate (u16 size) 0)
  off := 0
  fin := 0
  len := 0
  txt := []
  lbl

/-- `microjs_json_open` -/
def Parser.jsonOpen (p : Parser) (txt : List UInt8) : Parser × Int :=
  let p := { p with txt, len := u16 txt.length }
  -- the lead blanks
  let i := (txt.takeWhile isSpace).length
  match txt.drop i with
  | [] => ({ p with fin := u16 i }, emptyFile)
  | c :: _ =>
    if c ≠ 123 then ({ p with fin := u16 i }, objectExpected)
    else
      let p := { p with tok := p.tok.storeBytes p.cnt [UInt8.ofNat tokLeftbrace], cnt := p.cnt + 1 }
      let p := { p with tok := p.tok.storeBytes (p.sp - 1) [UInt8.ofNat tokRightbrace], sp := p.sp - 1 }
      ({ p with fin := u16 (i + 1) }, ok)

/-! ## The scanner -/

/-- The local variables of `microjs_json_scan`, with the token buffer. -/
structure Lexer where
  tok : Nat
  mem : Mem
  cnt : Nat
  sp : Nat

/-- `sp - cnt`, without a sign -/
def Lexer.room (x : Lexer) : Nat := (x.sp + 2 ^ 32 - x.cnt) % 2 ^ 32

/-- Bytes are added to the tokens. -/
def Lexer.put (x : Lexer) (bs : List UInt8) : Lexer :=
  { x with mem := x.mem.storeBytes x.cnt bs, cnt := x.cnt + bs.length }

/-- What a round of the scanner comes to, with the number of characters that it has passed. -/
inductive Round where
  | go (x : Lexer) (n : Nat)
  | done (x : Lexer) (n : Nat)
  | fail (x : Lexer) (n : Nat) (err : Int)

/-- From the label `push` on, with a token. -/
def Lexer.push (x : Lexer) (tok n : Nat) : Round :=
  let x := { x with tok }
  if x.room < 1 then .fail x n tokenBufOvf else .go (x.put [UInt8.ofNat tok]) n

/-- The number of characters in front of a quote. -/
def quoteLen (qt : UInt8) : List UInt8 → Option Nat
  | [] => none
  | c :: rest => if c = qt then some 0 else (quoteLen qt rest).map (· + 1)

/-- A string at the offset `i`. -/
def Lexer.stringRound (x : Lexer) (i : Nat) (qt : UInt8) (rest : List UInt8) : Round :=
  match quoteLen qt rest with
  | none => .fail x (rest.length + 1) unclosedString
  | some j =>
    if stringLenMax < j then .fail x (j + 2) stringTooLong
    else if x.room < 3 then .fail x (j + 2) tokenBufOvf
    else
      let offs := i + 1
      .go { x.put [UInt8.ofNat (tokString + j), UInt8.ofNat offs, UInt8.ofNat (offs >>> 8)] with
        tok := tokString } (j + 2)

/-- A symbol, which is copied behind the place of the next token. -/
def Lexer.symbolRound (x : Lexer) (c : UInt8) (rest : List UInt8) : Round :=
  if x.room < 8 then .fail x 0 tokenBufOvf
  else
    let s := c :: rest.takeWhile isWord
    let x := { x with mem := x.mem.storeBytes (x.cnt + 1) (s ++ [0]) }
    if s = trueText then x.push tokTrue s.length
    else if s = falseText then x.push tokFalse s.length
    else if s = nullText then x.push tokNull s.length
    else .fail x s.length invalidSymbol

def byteOf (v : BitVec 32) (k : Nat) : UInt8 := ⟨(v >>> (8 * k)).setWidth 8⟩

/-- The token of an integer, and its bytes. -/
def intToken (v : BitVec 32) : Nat × List UInt8 :=
  if v &&& 0xffffff00#32 = 0 then (tokInt8, [byteOf v 0])
  else if v &&& 0xffff0000#32 = 0 then (tokInt16, [byteOf v 0, byteOf v 1])
  else if v &&& 0xffffff00#32 = 0 then (tokInt24, [byteOf v 0, byteOf v 1, byteOf v 2])
  else (tokInt32, [byteOf v 0, byteOf v 1, byteOf v 2, byteOf v 3])

/-- A digit is added to a decimal number. -/
def decimal (v : BitVec 32) (c : UInt8) : BitVec 32 :=
  (((v <<< 2) + v) <<< 1) + (c.toBitVec.setWidth 32 - 48#32)

/-- A number, from its digits on. -/
def Lexer.numberRound (x : Lexer) (neg : Bool) (c : UInt8) (rest : List UInt8) : Round :=
  let digits := c :: rest.takeWhile isDigit
  let n := digits.length + (if neg then 1 else 0)
  let val := digits.foldl decimal 0
  let val := if neg then -val else val
  if x.room < 5 then .fail x n tokenBufOvf
  else
    let (tok, bs) := intToken val
    .go { x.put (UInt8.ofNat tok :: bs) with tok } n

/-- From the label `bkt_pop` on, for a closing bracket. -/
def Lexer.pop (x : Lexer) (top tok : Nat) : Round :=
  if x.sp = top then .fail x 0 emptyStack
  else
    let closing := x.mem x.sp
    let x := { x with sp := x.sp + 1, tok }
    if closing ≠ UInt8.ofNat tok then .fail x 0 bracketMismatch
    else if x.sp = top then
      if x.room < 2 then .fail x 1 tokenBufOvf
      else .done (x.put [UInt8.ofNat tok, UInt8.ofNat tokStop]) 1
    else x.push tok 1

/-- An opening bracket, whose closing one is put on the stack. -/
def Lexer.opening (x : Lexer) (tok closing : Nat) : Round :=
  { x with mem := x.mem.storeBytes (x.sp - 1) [UInt8.ofNat closing], sp := x.sp - 1 }.push tok 1

/-- The string in front of a colon becomes a label. -/
def Lexer.colon (x : Lexer) (txt : List UInt8) (lbl : List (List UInt8)) : Round :=
  if x.tok = tokString then
    let n := (x.mem (x.cnt - 3)).toNat - tokString
    let o := (x.mem (x.cnt - 2)).toNat ||| (x.mem (x.cnt - 1)).toNat <<< 8
    let j := lbl.findIdx fun cp => cp == (txt.drop o).take n
    let cnt := x.cnt - 2
    .go { x with cnt, tok := tokLabel, mem := x.mem.storeBytes (cnt - 1) [UInt8.ofNat (tokLabel + j)] } 1
  else .fail x 0 invalidLabel

/-- One round of the scanner, with the character `c` at the offset `i`. -/
def Lexer.round (txt : List UInt8) (lbl : List (List UInt8)) (top : Nat) (x : Lexer) (i : Nat) (c : UInt8)
    (rest : List UInt8) : Round :=
  if isSpace c then .go x 1
  else if c = 39 ∨ c = 34 then x.stringRound i c rest
  else if isSymbol c then x.symbolRound c rest
  else if isDigit c then x.numberRound false c rest
  else if c = 45 then
    match rest with
    | [] => .fail x 1 invalidSymbol
    | d :: rest => if isDigit d then x.numberRound true d rest else .fail x 1 unexpectedChar
  else if c = 58 then x.colon txt lbl
  else if c = 44 then .go x 1
  else if c = 91 then x.opening tokLeftbracket tokRightbracket
  else if c = 123 then x.opening tokLeftbrace tokRightbrace
  else if c = 93 then x.pop top tokRightbracket
  else if c = 125 then x.pop top tokRightbrace
  else .fail x 0 unexpectedChar

/-- The loop of the scanner, from the offset `i` on. -/
def scanRounds (txt : List UInt8) (lbl : List (List UInt8)) (top : Nat) :
    Nat → Lexer → (i : Nat) → List UInt8 → Lexer × Nat × Int
  | _, x, i, [] => (x, i, if x.sp ≠ top then bracketMismatch else ok)
  | 0, x, i, _ => (x, i, ok)
  | fuel + 1, x, i, c :: rest =>
    match x.round txt lbl top i c rest with
    | .go x n => scanRounds txt lbl top fuel x (i + n) ((c :: rest).drop n)
    | .done x n => (x, i + n, ok)
    | .fail x n err => (x, i + n, err)

/-- `microjs_json_scan` -/
def Parser.jsonScan (p : Parser) : Parser × Int :=
  let p := { p with off := p.fin }
  let rest := (p.txt.take p.len).drop p.off
  match scanRounds p.txt p.lbl p.top rest.length ⟨tokNull, p.tok, p.cnt, p.sp⟩ p.off rest with
  | (x, i, err) =>
    let p := { p with tok := x.mem, cnt := u16 x.cnt, sp := u16 x.sp }
    if err = ok then ({ p with fin := u16 i }, ok) else ({ p with off := u16 i }, err)

/-! ## The reader -/

/-- `struct microjs_val` -/
inductive Val where
  | none
  | str (dat len : Nat)
  | lbl (sz : Option (List UInt8)) (id : Nat)
  | u32 (x : BitVec 32)
  | logic (b : Bool)
  deriving DecidableEq

def jsonBoolean : Nat := 7
def jsonInteger : Nat := 8
def jsonLabel : Nat := 9
def jsonString : Nat := 10

/-- A byte of the token buffer, shifted. -/
def byteAt (m : Mem) (a k : Nat) : BitVec 32 := (m a).toBitVec.setWidth 32 <<< (8 * k)

/-- `microjs_json_get_val`: what it returns, and the value. -/
def Parser.jsonGetVal (p : Parser) : Parser × Nat × Val :=
  let tok := (p.tok p.idx).toNat
  let idx := p.idx + 1
  if tokString ≤ tok then
    let offs := (p.tok idx).toNat ||| (p.tok (idx + 1)).toNat <<< 8
    ({ p with idx := u16 (idx + 2) }, jsonString, .str offs (tok - tokString))
  else if tokLabel ≤ tok then
    let j := tok - tokLabel
    ({ p with idx := u16 idx }, jsonLabel, .lbl p.lbl[j]? j)
  else if tokInt8 ≤ tok then
    let x := byteAt p.tok idx 0
    if tokInt16 ≤ tok then
      let x := x ||| byteAt p.tok (idx + 1) 1
      if tok = tokInt24 then
        let x := x ||| byteAt p.tok (idx + 2) 2
        if tokInt32 ≤ tok then
          ({ p with idx := u16 (idx + 4) }, jsonInteger, .u32 (x ||| byteAt p.tok (idx + 3) 3))
        else ({ p with idx := u16 (idx + 3) }, jsonInteger, .u32 x)
      else ({ p with idx := u16 (idx + 2) }, jsonInteger, .u32 x)
    else ({ p with idx := u16 (idx + 1) }, jsonInteger, .u32 x)
  else if tokTrue ≤ tok then ({ p with idx := u16 idx }, jsonBoolean, .logic true)
  else if tokFalse ≤ tok then ({ p with idx := u16 idx }, jsonBoolean, .logic false)
  else ({ p with idx := u16 idx }, tok, .none)

end Json

import ThinkOS.Lib.Memory
import ThinkOS.Lib.Transition
import ThinkOS.Lib.Window

/-!
# Multipart bodies of HTTP requests

`http_multipart_recv` with the receive queue of a connection. Data is searched for CR LF and two dashes
as it comes, and three bytes of it are kept back for a match; where the four bytes stand, the boundary is
recognised by its length and its hash.

The bytes that are to come on the connection are a list, and a read takes as many of them as its segment
says and the queue has room for. A read after the last segment finds that all the others have come, and
one that finds none does not return.
-/

namespace Http

open Lib

/-- `HTTP_RCVBUF_LEN`, as it is when nothing else is configured -/
def rcvbufLen : Nat := 272

/-- CR LF and two dashes. -/
def crlfDashes : List UInt8 := [13, 10, 45, 45]

/-- `0x0d0a2d2d` -/
def pattern : BitVec 32 := 0x0d0a2d2d#32

theorem pattern_eq : pattern = window crlfDashes := by decide

/-! ## The hash of a boundary -/

/-- `HASH_M`, from `HASH_N` -/
def hashM : BitVec 32 := 40 * 40 * 40 * 40 + 40 * 40 * 40 + 40 * 40 + 40 + 1

/-- `http_hash` -/
def httpHash (hash : BitVec 32) (c : UInt8) : BitVec 32 := hash ^^^ (hashM * c.toBitVec.setWidth 32)

def hashOf (bs : List UInt8) : BitVec 32 := bs.foldl httpHash 0

/-! ## Connections -/

/-- What a read of the connection finds: a number of bytes that have come, or a failure. -/
inductive Seg where
  | data (n : Nat)
  | fail (ret : Int)

/-- `struct httpctl`, as far as multipart bodies use it, with the bytes to come. -/
structure Ctl where
  /-- `content.bdry_len`, eight bits wide -/
  bdryLen : Nat
  bdryHash : BitVec 32
  /-- `rcvq.buf` -/
  queue : Mem
  head : Nat
  pos : Nat
  tail : Nat
  pat : BitVec 32
  stream : List UInt8

/-- The text `boundary=`. -/
def boundaryKey : List UInt8 := [98, 111, 117, 110, 100, 97, 114, 121, 61]

/-- `http_parse_multipart_form_data`, for a parameter without its final NUL -/
def httpParseMultipartFormData (c : Ctl) (val : List UInt8) : Ctl :=
  if boundaryKey <+: val then
    let bdry := val.drop 9
    { c with bdryHash := hashOf bdry, bdryLen := bdry.length % 256 }
  else c

/-- `tcp_recv` to a place of the queue, for at most `rem` bytes. -/
def Ctl.tcpRecv (c : Ctl) (a rem : Nat) : Seg → Option (Ctl × Int)
  | .data n =>
    let n := min n (min rem c.stream.length)
    if n = 0 then none
    else some ({ c with queue := c.queue.storeBytes a (c.stream.take n), stream := c.stream.drop n }, n)
  | .fail ret => if ret ≤ 0 then some (c, ret) else none

/-- The next read of a call, to the free part of the queue. -/
def Ctl.read (c : Ctl) (head : Nat) (segs : List Seg) : Option (Ctl × Int) :=
  c.tcpRecv head (rcvbufLen - head) (segs.headD (.data c.stream.length))

/-- The local variables of `http_multipart_recv`, and the data copied so far. -/
structure Cur where
  head : Nat
  pos : Nat
  tail : Nat
  pat : BitVec 32
  cpy : List UInt8

/-- What a part of the function comes to: it goes on, or returns a number. -/
inductive Flow where
  | on (l : Cur) (segs : List Seg)
  | ret (n : Int) (buf : List UInt8)

/-- The queue is filled up to `need` bytes, in at most the given number of reads. -/
def Ctl.fill (need : Nat) : Nat → Ctl → Cur → List Seg → Option (Ctl × Flow)
  | 0, c, l, segs => if need ≤ l.head then some (c, .on l segs) else none
  | reads + 1, c, l, segs =>
    if need ≤ l.head then some (c, .on l segs)
    else
      (c.read l.head segs).bind fun (c, n) =>
        if n ≤ 0 then some (c, .ret n l.cpy)
        else
          { c with head := l.head + n.toNat }.fill need reads { l with head := l.head + n.toNat } segs.tail

/-- From the label `pattern_match` on. -/
def Ctl.patternMatch (len : Nat) (c : Ctl) (l : Cur) (segs : List Seg) : Option (Ctl × Flow) :=
  if 4 < l.pos then
    -- the data in front of the pattern
    let n := min (l.pos - l.tail - 4) (len - l.cpy.length)
    let l := { l with cpy := l.cpy ++ c.queue.bytes l.tail n, tail := l.tail + n }
    if l.cpy.length = len then
      some ({ c with pat := l.pat, pos := l.pos, tail := l.tail }, .ret l.cpy.length l.cpy)
    else
      let n := l.head - l.pos + 4
      let c := { c with queue := c.queue.storeBytes 0 (c.queue.bytes (l.pos - 4) n) }
      some ({ c with pat := l.pat, head := n, pos := 4, tail := 0 }, .ret l.cpy.length l.cpy)
  else
    (Ctl.fill (c.bdryLen + 4) (c.bdryLen + 4) c l segs).bind fun
      | (c, .ret n buf) => some (c, .ret n buf)
      | (c, .on l segs) =>
        if c.bdryHash = hashOf (c.queue.bytes 4 c.bdryLen) then some (c, .ret 0 l.cpy)
        else some (c, .on { l with pat := 0 } segs)

/-- The search for the pattern over `k` bytes, with whether it was found. -/
def scan (queue : Mem) : Nat → (pos : Nat) → (pat : BitVec 32) → Nat × BitVec 32 × Bool
  | 0, pos, pat => (pos, pat, false)
  | k + 1, pos, pat =>
    let pat := push pat (queue pos)
    if pat = pattern then (pos + 1, pat, true) else scan queue k (pos + 1) pat

/-- The data in front of the last three bytes is copied. -/
def Ctl.copy (len : Nat) (c : Ctl) (l : Cur) : Cur :=
  if l.tail + 3 < l.pos then
    let n := min (l.pos - l.tail - 3) (len - l.cpy.length)
    { l with cpy := l.cpy ++ c.queue.bytes l.tail n, tail := l.tail + n }
  else l

/-- The last three bytes of a full queue become its first ones. -/
def Ctl.wrap (c : Ctl) (l : Cur) : Ctl × Cur :=
  if l.head = rcvbufLen then
    ({ c with queue := c.queue.storeBytes 0 (c.queue.bytes (l.pos - 3) 3) },
      { l with head := 3, pos := 3, tail := 0 })
  else (c, l)

/-- The loop of `http_multipart_recv`. -/
def Ctl.recvRounds (len : Nat) : Nat → Ctl → Cur → List Seg → Option (Ctl × Int × List UInt8)
  | 0, _, _, _ => none
  | fuel + 1, c, l, segs =>
    match scan c.queue (l.head - l.pos) l.pos l.pat with
    | (pos, pat, true) =>
      (c.patternMatch len { l with pos, pat } segs).bind fun
        | (c, .ret n buf) => some (c, n, buf)
        | (c, .on l segs) => c.recvRounds len fuel l segs
    | (pos, pat, false) =>
      let copies := l.tail + 3 < pos
      let l := c.copy len { l with pos, pat }
      if copies ∧ l.cpy.length = len then
        some ({ c with pat := l.pat, pos := l.pos, tail := l.tail }, l.cpy.length, l.cpy)
      else
        let (c, l) := c.wrap l
        (c.read l.head segs).bind fun (c, n) =>
          if n ≤ 0 then some (c, n, l.cpy)
          else
            { c with head := l.head + n.toNat }.recvRounds len fuel { l with head := l.head + n.toNat }
              segs.tail

/-- The local variables at the start of a call. -/
def Ctl.cur (c : Ctl) : Cur := ⟨c.head, c.pos, c.tail, c.pat, []⟩

/-- `http_multipart_recv`: the number that it returns, and what it has put into the buffer. -/
def Ctl.multipartRecv (len : Nat) (c : Ctl) (segs : List Seg) : Option (Ctl × Int × List UInt8) :=
  if c.pat = pattern then
    (c.patternMatch len c.cur segs).bind fun
      | (c, .ret n buf) => some (c, n, buf)
      | (c, .on l segs) => c.recvRounds len (2 * c.stream.length + 5) l segs
  else c.recvRounds len (2 * c.stream.length + 5) c.cur segs

/-! ## The reader of a part -/

/-- A reader: the data returned to it, and whether it has been told the end. -/
structure Reader where
  c : Ctl
  out : List UInt8
  atEnd : Bool

inductive Event where
  /-- `http_multipart_recv` is called for at most `len` bytes, and reads the connection in `segs` -/
  | recv (len : Nat) (segs : List Seg)

def Reader.step (s : Reader) : Event → Option Reader
  | .recv len segs =>
    if s.atEnd then none
    else
      (s.c.multipartRecv len segs).map fun (c, n, buf) =>
        { c, out := s.out ++ buf.take n.toNat, atEnd := decide (n ≤ 0) }

def reader : System Reader Event where
  step := Reader.step

end Http

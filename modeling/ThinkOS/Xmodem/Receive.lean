import ThinkOS.Lib.Memory
import ThinkOS.Lib.Transition
import ThinkOS.Xmodem.Frame

/-!
# The XMODEM receiver

`xmodem_rcv_pkt` and `xmodem_rcv_loop` between two reads of the line: a call runs up to a read, and the
answer of the line takes it on to the next one or to its end. The answers of the line to the bytes
sent are those of `sendRet`, in turn.
-/

namespace Xmodem

open Lib

/-- The answer of the line to a read: a negative number other than a timeout is an error. -/
inductive Recv where
  | bytes (bs : List UInt8)
  | timeout
  | error (e : Int)
  deriving DecidableEq

/-- `struct xmodem_rcv`, with what was sent. -/
structure Rcv where
  /-- `mode`: a remainder or a sum is the frame check -/
  crc : Bool
  sync : UInt8
  pktno : UInt8
  retry : UInt8
  dataLen : Nat
  dataPos : Nat
  /-- `pkt`: three bytes of header, 1024 of data and two of the frame check -/
  pkt : Mem
  /-- the bytes sent -/
  sent : List UInt8
  /-- how often something was sent -/
  sends : Nat

/-- Where a call of `xmodem_rcv_pkt` reads the line. -/
inductive Pc where
  /-- for the first byte of a packet -/
  | head
  /-- for the last `rem` bytes of a packet with `cnt` bytes of data -/
  | packet (cnt rem : Nat)
  /-- for what is left on the line after a bad packet -/
  | flush
  deriving DecidableEq

/-- The number of bytes that a read asks for. -/
def Pc.want : Pc → Nat
  | .head => 1
  | .packet _ rem => rem
  | .flush => 1024

/-- `xmodem_rcv_init` -/
def rcvInit (crc : Bool) (pkt : Mem) : Rcv where
  crc
  sync := if crc then 67 else NAK
  pktno := 1
  retry := 30
  dataLen := 0
  dataPos := 0
  pkt
  sent := []
  sends := 0

section
variable (sendRet : Nat → Int)

/-- `send`: the number is negative when the line fails. -/
def Rcv.send (x : Rcv) (bs : List UInt8) : Rcv × Int :=
  let ret := sendRet x.sends
  ({ x with sends := x.sends + 1, sent := if ret < 0 then x.sent else x.sent ++ bs }, ret)

/-- The beginning of the loop of `xmodem_rcv_pkt`. -/
def Rcv.start (x : Rcv) : Rcv × (Pc ⊕ Int) :=
  let (x, ret) := x.send sendRet [x.sync]
  if ret < 0 then (x, .inr ret) else (x, .inl .head)

/-- From the label `timeout` on. -/
def Rcv.again (x : Rcv) : Rcv × (Pc ⊕ Int) :=
  let x := { x with retry := x.retry - 1 }
  if x.retry = 0 then
    let x := { x with pkt := x.pkt.storeBytes 0 [CAN, CAN, CAN] }
    ((x.send sendRet [CAN, CAN, CAN]).1, .inr (-1))
  else
    x.start sendRet

/-- The first byte of a packet. -/
def Rcv.head (x : Rcv) : Rcv × (Pc ⊕ Int) :=
  let rest := if x.crc then 4 else 3
  if x.pkt 0 = STX then
    (x, .inl (.packet 1024 (1024 + rest)))
  else if x.pkt 0 = SOH then
    (x, .inl (.packet 128 (128 + rest)))
  else if x.pkt 0 = EOT then
    let (x, ret) := { x with pkt := x.pkt.storeBytes 0 [ACK] }.send sendRet [ACK]
    (x, .inr (if ret < 0 then ret else 0))
  else
    (x, .inl .head)

/-- The frame check of the packet in the buffer is right. -/
def Rcv.checked (x : Rcv) (cnt : Nat) : Bool :=
  let data := x.pkt.bytes 3 cnt
  if x.crc then
    (x.pkt (3 + cnt)).toBitVec.setWidth 16 <<< 8 ||| (x.pkt (3 + cnt + 1)).toBitVec.setWidth 16 =
      data.foldl crc16ccitt 0
  else
    x.pkt (3 + cnt) = data.foldl (fun cks c => cks + c) 0

/-- A packet is in the buffer. -/
def Rcv.packet (x : Rcv) (cnt : Nat) : Rcv × (Pc ⊕ Int) :=
  let seq := x.pkt 1
  if seq ≠ ~~~ x.pkt 2 ∨ ¬ x.checked cnt then
    (x, .inl .flush)
  else if seq = x.pktno - 1 then
    -- a retransmission
    { x with sync := ACK }.start sendRet
  else if seq ≠ x.pktno then
    (x, .inl .flush)
  else
    ({ x with pktno := x.pktno + 1, retry := 10, sync := ACK, dataLen := cnt, dataPos := 0 }, .inr cnt)

/-- The answer of the line takes `xmodem_rcv_pkt` on to its next read, or to its end. -/
def Rcv.resume (x : Rcv) : Pc → Recv → Rcv × (Pc ⊕ Int)
  | .head, .bytes bs => { x with pkt := x.pkt.storeBytes 0 bs }.head sendRet
  | .head, .timeout => x.again sendRet
  | .head, .error e => (x, .inr e)
  | .packet cnt rem, .bytes bs =>
    let pos := cnt + (if x.crc then 4 else 3) - rem
    let x := { x with pkt := x.pkt.storeBytes (1 + pos) bs }
    if rem - bs.length = 0 then x.packet sendRet cnt else (x, .inl (.packet cnt (rem - bs.length)))
  | .packet _ _, .timeout => x.again sendRet
  | .packet _ _, .error e => (x, .inr e)
  | .flush, .bytes bs =>
    if bs.length = 0 then { x with sync := NAK }.again sendRet
    else ({ x with pkt := x.pkt.storeBytes 0 bs }, .inl .flush)
  | .flush, _ => { x with sync := NAK }.again sendRet

/-! ## Calls -/

/-- A receiver in use: the call under way, with the read that it is at and the length that it was made
with, what the calls have returned, and the answers of the line. -/
structure Session where
  x : Rcv
  call : Option (Pc × Nat)
  out : List UInt8
  rets : List Int
  line : List Recv

def EINVAL : Int := 22

/-- The call returns a number. -/
def Session.ret (s : Session) (ret : Int) : Session := { s with call := none, rets := s.rets ++ [ret] }

/-- The loop of `xmodem_rcv_loop`: data at hand is returned, otherwise a packet is asked for. -/
def Session.enter (s : Session) (len : Nat) : Session :=
  let rem := s.x.dataLen - s.x.dataPos
  if 0 < rem then
    let n := min rem len
    let s := { s with out := s.out ++ s.x.pkt.bytes (3 + s.x.dataPos) n }
    { s with x := { s.x with dataPos := s.x.dataPos + n } }.ret n
  else
    match s.x.start sendRet with
    | (x, .inl pc) => { s with x, call := some (pc, len) }
    | (x, .inr ret) => { s with x }.ret ret

/-- What `xmodem_rcv_pkt` has come to, in `xmodem_rcv_loop`. -/
def Session.settle (s : Session) (len : Nat) : Rcv × (Pc ⊕ Int) → Session
  | (x, .inl pc) => { s with x, call := some (pc, len) }
  | (x, .inr ret) => if 0 < ret then { s with x }.enter sendRet len else { s with x }.ret ret

/-- A read returns at least one byte and no more than it asks for, a timeout or an error. -/
def Recv.Fits (want : Nat) : Recv → Prop
  | .bytes bs => 1 ≤ bs.length ∧ bs.length ≤ want
  | .timeout => True
  | .error e => e < -1

instance (want : Nat) : (r : Recv) → Decidable (r.Fits want)
  | .bytes _ => inferInstanceAs (Decidable (_ ∧ _))
  | .timeout => inferInstanceAs (Decidable True)
  | .error _ => inferInstanceAs (Decidable (_ < _))

inductive Event where
  /-- `xmodem_rcv_loop` is called for at most so many bytes -/
  | call (len : Nat)
  /-- the line answers the read of the call under way -/
  | line (r : Recv)

def Session.step (s : Session) : Event → Option Session
  | .call len =>
    if s.call ≠ none then none
    else if len = 0 then some (s.ret (-EINVAL))
    else some (s.enter sendRet len)
  | .line r =>
    s.call.bind fun (pc, len) =>
      if r.Fits pc.want then
        some ({ s with line := s.line ++ [r] }.settle sendRet len (s.x.resume sendRet pc r))
      else none

def receiver : System Session Event where
  step := Session.step sendRet

end

/-- A receiver before its first call. -/
def Session.init (crc : Bool) (pkt : Mem) : Session where
  x := rcvInit crc pkt
  call := none
  out := []
  rets := []
  line := []

end Xmodem

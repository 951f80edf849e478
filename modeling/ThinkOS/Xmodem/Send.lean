import ThinkOS.Xmodem.Receive

/-!
# The XMODEM sender

`xmodem_send_pkt`, `xmodem_snd_loop` and `xmodem_snd_eot` with the answers of the line to come. A packet
is made in front of its data in the buffer, and the answers are read to the place of its first byte.
A call that reads more answers than there are does not return.
-/

namespace Xmodem

open Lib

inductive SndState where
  | idle
  | crc
  | cks
  deriving DecidableEq

/-- `struct xmodem_snd`, with the line. -/
structure Snd where
  seq : UInt8
  state : SndState
  /-- `mode` -/
  oneK : Bool
  dataLen : Nat
  dataMax : Nat
  /-- `pkt`: three bytes of header, and 1024 of data -/
  pkt : Mem
  /-- the answers to come -/
  answers : List Recv
  /-- the bytes sent -/
  sent : List UInt8
  /-- how often something was sent -/
  sends : Nat

def EBADMSG : Int := 74
def ECANCELED : Int := 125

/-- What is on the line is read until there is nothing. -/
def Snd.flush (s : Snd) : List Recv → Option Snd
  | [] => none
  | .bytes bs :: answers =>
    if bs.length = 0 then some { s with answers }
    else { s with pkt := s.pkt.storeBytes 3 bs }.flush answers
  | _ :: answers => some { s with answers }

/-- `xmodem_snd_init` -/
def sndInit (oneK : Bool) (pkt : Mem) (answers : List Recv) : Option Snd :=
  let s : Snd :=
    { oneK, dataMax := if oneK then 1024 else 128, dataLen := 0, seq := 1, state := .idle, pkt, answers,
      sent := [], sends := 0 }
  s.flush answers

section
variable (sendRet : Nat → Int)

/-- `send`: the number is negative when the line fails. -/
def Snd.send (s : Snd) (bs : List UInt8) : Snd × Int :=
  let ret := sendRet s.sends
  ({ s with sends := s.sends + 1, sent := if ret < 0 then s.sent else s.sent ++ bs }, ret)

/-- The request of the receiver is waited for, at the packet's place. A timeout is -1 and an end: the
comparison is with 110. -/
def Snd.request (pos : Nat) (s : Snd) : List Recv → Option (Snd × Int)
  | [] => none
  | .timeout :: answers => some ({ s with answers }, -1)
  | .error e :: answers => some ({ s with answers }, e)
  | .bytes bs :: answers =>
    let s := { s with pkt := s.pkt.storeBytes pos bs }
    if s.pkt pos = CAN then some ({ s with answers }, -ECANCELED)
    else if s.pkt pos = (67 : UInt8) then some ({ s with state := .crc, answers }, 0)
    else if s.pkt pos = NAK then some ({ s with state := .cks, answers }, 0)
    else s.request pos answers

/-- The frame check of the data of a packet. -/
def Snd.check (s : Snd) (data : List UInt8) : List UInt8 :=
  if s.state = .crc then
    let crc := data.foldl crc16ccitt 0
    [⟨(crc >>> 8).setWidth 8⟩, ⟨(crc &&& 0xff#16).setWidth 8⟩]
  else
    [data.foldl (fun cks c => cks + c) 0]

/-- The packet and the frame check are sent. -/
def Snd.copy (pos len : Nat) (fcs : List UInt8) (s : Snd) : Snd × Int :=
  let (s, ret) := s.send sendRet (s.pkt.bytes pos (len + 3))
  if ret < 0 then (s, ret) else s.send sendRet fcs

/-- The second loop of `xmodem_send_pkt`: the packet is sent until it is acknowledged. -/
def Snd.copies (pos len : Nat) (fcs : List UInt8) (s : Snd) (retry : Nat) :
    List Recv → Option (Snd × Int)
  | [] =>
    let (s, ret) := s.copy sendRet pos len fcs
    if ret < 0 then some ({ s with answers := [] }, ret) else none
  | r :: answers =>
    let (s, ret) := s.copy sendRet pos len fcs
    if ret < 0 then some ({ s with answers := r :: answers }, ret)
    else
      match r with
      | .timeout => some ({ s with answers }, -1)
      | .error e => some ({ s with answers }, e)
      | .bytes bs =>
        if bs.length = 0 then some ({ s with answers }, 0)
        else
          let s := { s with pkt := s.pkt.storeBytes pos bs }
          if s.pkt pos = ACK then some ({ s with answers, seq := s.seq + 1 }, 0)
          else if s.pkt pos = CAN then (s.flush answers).map fun s => (s, -ECANCELED)
          else if s.pkt pos ≠ NAK then (s.flush answers).map fun s => (s, -EBADMSG)
          else if retry + 1 = 10 then (s.flush answers).map fun s => (s, -ECANCELED)
          else s.copies pos len fcs (retry + 1) answers

/-- The header of a packet is written, and the packet is sent. -/
def Snd.packet (pos len : Nat) (s : Snd) : Option (Snd × Int) :=
  let start := if len = 1024 then STX else SOH
  let s := { s with pkt := s.pkt.storeBytes pos [start, s.seq, ~~~ s.seq] }
  s.copies sendRet pos len (s.check (s.pkt.bytes (pos + 3) len)) 0 s.answers

/-- `xmodem_send_pkt`, for the data `len` bytes long at `pos + 3`. -/
def Snd.sendPkt (pos len : Nat) (s : Snd) : Option (Snd × Int) :=
  if s.state = .idle then
    (s.request pos s.answers).bind fun (s, ret) =>
      if ret < 0 then some (s, ret) else s.packet sendRet pos len
  else
    s.packet sendRet pos len

/-- The loop of `xmodem_snd_loop`: a round takes a byte at least, or sends a full buffer. -/
def Snd.sndRounds : Nat → Snd → List UInt8 → Option (Snd × Int)
  | 0, _, _ => none
  | fuel + 1, s, src =>
    let n := min src.length (s.dataMax - s.dataLen)
    let s := { s with pkt := s.pkt.storeBytes (3 + s.dataLen) (src.take n), dataLen := s.dataLen + n }
    if s.dataLen = s.dataMax then
      (s.sendPkt sendRet 0 s.dataLen).bind fun (s, ret) =>
        if ret < 0 then some (s, ret)
        else if src.length - n = 0 then some ({ s with dataLen := 0 }, 0)
        else { s with dataLen := 0 }.sndRounds fuel (src.drop n)
    else if src.length - n = 0 then some (s, 0)
    else s.sndRounds fuel (src.drop n)

/-- `xmodem_snd_loop` -/
def Snd.sndLoop (s : Snd) (src : List UInt8) : Option (Snd × Int) :=
  s.sndRounds sendRet (src.length + 1) src

/-- The loop of `xmodem_snd_eot`, with `dataLen` bytes left at `pos + 3`. -/
def Snd.eotRounds (dataMax : Nat) : Nat → Snd → (pos dataLen : Nat) → Option (Snd × Int)
  | 0, s, _, _ => some (s, 0)
  | fuel + 1, s, pos, dataLen =>
    if 0 < dataLen then
      let len := min dataLen dataMax
      -- padding
      let s := { s with pkt := s.pkt.storeBytes (pos + 3 + len) (List.replicate (dataMax - len) 0) }
      (s.sendPkt sendRet pos dataMax).bind fun (s, ret) =>
        if ret < 0 then some (s, ret) else s.eotRounds dataMax fuel (pos + len) (dataLen - len)
    else some (s, 0)

/-- `xmodem_snd_eot` -/
def Snd.sndEot (s : Snd) : Option (Snd × Int) :=
  let dataMax := if s.dataLen ≤ 1024 - 128 then 128 else s.dataMax
  (s.eotRounds sendRet dataMax s.dataLen 0 s.dataLen).bind fun (s, ret) =>
    if ret < 0 then some (s, ret)
    else
      let (s, ret) := s.send sendRet [EOT]
      some ({ s with dataMax := if s.oneK then 1024 else 128, dataLen := 0, seq := 1, state := .idle }, ret)

/-- Calls of `xmodem_snd_loop` and a call of `xmodem_snd_eot` that succeed. -/
def Snd.transmit (s : Snd) : List (List UInt8) → Option Snd
  | [] => (s.sndEot sendRet).bind fun (s, ret) => if ret < 0 then none else some s
  | src :: calls => (s.sndLoop sendRet src).bind fun (s, ret) => if ret < 0 then none else s.transmit calls

end

end Xmodem

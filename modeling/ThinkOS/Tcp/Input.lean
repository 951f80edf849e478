import ThinkOS.Tcp.Pcb

/-!
# Received segments

The model of `tcp_passive_open` and of `tcp_input` for a segment of an active connection. A result
`none` stands for `tcp_pcb_free`: the control block is gone. The segments that `tcp_respond` sends
and the scheduled calls of `tcp_output` do not show in the control block.
-/

namespace Tcp

/-- The part of a segment that is still to process: `ti_seq`, the data and `tiflags`. -/
structure Ti where
  seq : BitVec 32
  data : List UInt8
  flags : Flags

/-- `tcp_parse_options`: a maximum segment size below that of the connection is taken over. -/
def tcpParseOptions (tp : Pcb) (seg : Seg) : Pcb :=
  if seg.flags.syn then
    { tp with tMaxseg := seg.mss.foldl (fun m v => if v < m then v else m) tp.tMaxseg }
  else
    tp

/-- `tcp_passive_open` for a SYN, with the segment size `mss` of the route and the initial sequence
number `iss`. -/
def tcpPassiveOpen (mss : Nat) (iss : BitVec 32) (seg : Seg) : Pcb :=
  tcpParseOptions
    { tState := .synRcvd, acknow := true, delack := false, sentfin := false, tMaxseg := mss
      sndSeq := iss, sndOff := 0, sndMax := 0, sndWnd := seg.win, rcvAdvWnd := 0
      rcvNxt := seg.seq + 1, rcvQ := [], sndQ := [], rcvd := [], fins := 0, base := 0, top := 0
      wrapped := false } seg

/-- The flags that header prediction looks at: of SYN, FIN, RST, URG and ACK only ACK is set. -/
def Flags.onlyAck (f : Flags) : Bool :=
  f.ack && !f.syn && !f.fin && !f.rst && !f.urg

/-- Header prediction: `none` when the segment is left to the general path. -/
def predict (cfg : Config) (tp : Pcb) (seg : Seg) (room : Nat) : Option Pcb :=
  if tp.tState = .established ∧ seg.flags.onlyAck ∧ seg.seq = tp.rcvNxt ∧ seg.win ≠ 0 ∧
      seg.win = tp.sndWnd ∧ tp.sndNxt = tp.sndTop then
    if seg.data.length = 0 then
      if seqGt seg.ack tp.sndSeq ∧ seqLeq seg.ack tp.sndTop then
        let acked := (seg.ack - tp.sndSeq).toInt
        some ({ tp with sndQ := tp.sndQ.drop acked.toNat }.setSnd seg.ack tp.sndNxt tp.sndTop)
      else
        none
    else if seg.ack = tp.sndSeq ∧ (seg.data.length : Int) ≤ cfg.maxrcv - tp.rcvQ.length then
      let tp := tp.append seg.data room
      if (seg.data.take room).length ≠ seg.data.length then
        some { tp with acknow := true }
      else
        some { tp with delack := true }
    else
      none
  else
    none

/-- `todrop` leading bytes are dropped; when nothing is left behind them, the FIN as well. -/
def trimLead (tp : Pcb) (ti : Ti) (todrop : Int) : Pcb × Ti :=
  if todrop > ti.data.length ∨ todrop = ti.data.length ∧ ti.flags.fin = false then
    ({ tp with acknow := true },
      { seq := ti.seq + BitVec.ofNat 32 ti.data.length, data := []
        flags := { ti.flags with fin := false } })
  else
    (tp, { ti with seq := ti.seq + BitVec.ofInt 32 todrop, data := ti.data.drop todrop.toNat })

/-- The segment begins before `rcv_nxt`: a SYN, which takes one number, and leading data are
dropped. -/
def trimHead (tp : Pcb) (ti : Ti) : Pcb × Ti :=
  let todrop := (tp.rcvNxt - ti.seq).toInt
  if todrop > 0 then
    if ti.flags.syn then
      trimLead tp { ti with seq := ti.seq + 1, flags := { ti.flags with syn := false } } (todrop - 1)
    else
      trimLead tp ti todrop
  else
    (tp, ti)

/-- The segment ends after the window: trailing data, PSH and FIN are dropped. Without data left,
`none`: the segment is dropped and acknowledged. -/
def trimTail (tp : Pcb) (ti : Ti) (wnd : Nat) : Option (Pcb × Ti) :=
  let todrop :=
    ((ti.seq + BitVec.ofNat 32 ti.data.length) - (tp.rcvNxt + BitVec.ofNat 32 wnd)).toInt
  if todrop > 0 then
    let trimmed := { ti with
      data := ti.data.take (ti.data.length - todrop).toNat
      flags := { ti.flags with psh := false, fin := false } }
    if todrop ≥ ti.data.length then
      if wnd = 0 ∧ ti.seq = tp.rcvNxt then some ({ tp with acknow := true }, trimmed) else none
    else
      some (tp, trimmed)
  else
    some (tp, ti)

/-- How the processing of the acknowledgment ends: the segment is dropped, or goes on to `step6`. -/
inductive Ack where
  | drop (tp : Option Pcb)
  | go (tp : Pcb)

section
variable (tp : Pcb)

/-- `dropafterack` of a segment without RST -/
def dropAfterAck : Ack :=
  .drop (some { tp with acknow := true })

/-- The inner switch over the state, behind an acknowledgment of new data. -/
def ackState (ourFinIsAcked : Bool) : Ack :=
  match tp.tState with
  | .finWait1 => .go (if ourFinIsAcked then { tp with tState := .finWait2 } else tp)
  | .closing =>
    .go (if ourFinIsAcked then { tp.freeQueues with tState := .timeWait } else tp)
  | .lastAck => if ourFinIsAcked then .drop none else .go tp
  | .timeWait => dropAfterAck tp
  | _ => .go tp

/-- The acknowledgment `ack` against the locals `snd_una`, `snd_nxt` and `snd_max`. -/
def ackProcess (ack una nxt max : BitVec 32) : Ack :=
  if seqLeq ack una then
    .go tp
  else if seqGt ack max then
    dropAfterAck tp
  else
    let acked := (ack - una).toInt
    let ourFinIsAcked := decide (acked > tp.sndQ.length)
    let sndQ := if acked > tp.sndQ.length then [] else tp.sndQ.drop acked.toNat
    let nxt := if seqLt nxt ack then ack else nxt
    ackState ({ tp with sndQ }.setSnd ack nxt max) ourFinIsAcked

/-- The outer switch over the state. -/
def ackStage (ack : BitVec 32) : Ack :=
  let una := tp.sndSeq
  let nxt := tp.sndNxt
  let max := tp.sndTop
  match tp.tState with
  | .synRcvd =>
    if seqGt una ack ∨ seqGt ack max then
      .drop (some tp)
    else
      ackProcess ({ tp with tState := .established }.subSnd 1) ack una nxt max
  | .established | .finWait1 | .finWait2 | .closeWait | .closing | .lastAck | .timeWait =>
    ackProcess tp ack una nxt max
  | .closed | .listen | .synSent => .go tp

/-- The data of the segment goes to `rcv_q` in state ESTABLISHED when it is in order. The second
component is what is left of the FIN flag. -/
def dataStage (ti : Ti) (room : Nat) : Pcb × Bool :=
  if (ti.data.length ≠ 0 ∨ ti.flags.fin = true) ∧ tp.tState.haveRcvdFin = false then
    if ti.seq = tp.rcvNxt ∧ tp.tState = .established then
      ({ tp.append ti.data room with delack := true }, ti.flags.fin)
    else
      ({ tp with acknow := true }, ti.flags.fin)
  else
    (tp, false)

/-- FIN processing. -/
def finStage : Pcb :=
  let tp :=
    if tp.tState.haveRcvdFin then tp
    else { tp with acknow := true, rcvNxt := tp.rcvNxt + 1, fins := tp.fins + 1 }
  match tp.tState with
  | .synRcvd | .established => { tp with tState := .closeWait }
  | .finWait1 => { tp with tState := .closing }
  | .finWait2 => { tp.freeQueues with tState := .timeWait }
  | _ => tp

/-- From `step6` on: the window, the data, the FIN. -/
def step6 (ti : Ti) (win : BitVec 16) (room : Nat) : Pcb :=
  let tp := if ti.flags.ack = true ∧ win ≠ tp.sndWnd then { tp with sndWnd := win } else tp
  match dataStage tp ti room with
  | (tp, true) => finStage tp
  | (tp, false) => tp

/-- A segment in state SYN_SENT. -/
def synSentInput (seg : Seg) (room : Nat) : Option Pcb :=
  let closed : Pcb := { tp.freeQueues with tState := .closed }
  if seg.flags.rst then
    some closed
  else if seg.flags.syn = false then
    some closed
  else if seg.flags.ack = false then
    some closed
  else if seg.data.length ≠ 0 then
    some closed
  else
    let tp := { tp with sndSeq := tp.sndSeq + 1, base := tp.base + 1 }
    if tp.sndSeq ≠ seg.ack then
      some { tp.freeQueues with tState := .closed }
    else
      let tp := tcpParseOptions (tp.subSnd 1) seg
      let tp := { tp with
        rcvNxt := seg.seq + 1, sndWnd := seg.win, tState := .established, acknow := true }
      some (step6 tp { seq := seg.seq + 1, data := seg.data, flags := seg.flags } seg.win room)

/-- A segment with RST, by the state: `none` when the state has no case in the switch. -/
def rstStage : Option (Option Pcb) :=
  match tp.tState with
  | .synRcvd | .established | .closeWait => some (some { tp.freeQueues with tState := .closed })
  | .finWait1 | .finWait2 | .closing | .lastAck | .timeWait => some none
  | .closed | .listen | .synSent => none

/-- A trimmed segment that is within the window. -/
def windowInput (ti : Ti) (seg : Seg) (room : Nat) : Option Pcb :=
  match (if ti.flags.rst then rstStage tp else none) with
  | some r => r
  | none =>
    if ti.flags.syn then
      -- `dropwithreset`
      some tp
    else if ti.flags.ack = false then
      some tp
    else
      match ackStage tp seg.ack with
      | .drop r => r
      | .go tp => some (step6 tp ti seg.win room)

end

/-- The general path. -/
def slowInput (cfg : Config) (tp : Pcb) (seg : Seg) (room : Nat) : Option Pcb :=
  -- space left in the input queue, which the code does not let become negative
  let wnd := cfg.maxrcv - tp.rcvQ.length
  if tp.tState = .synSent then
    synSentInput tp seg room
  else
    let (tp, ti) := trimHead tp { seq := seg.seq, data := seg.data, flags := seg.flags }
    if tp.tState.num > TcpState.finWait1.num ∧ ti.data.length ≠ 0 then
      -- `dropwithreset`
      some tp
    else
      match trimTail tp ti wnd with
      | none => if ti.flags.rst then some tp else some { tp with acknow := true }
      | some (tp, ti) => windowInput tp ti seg room

/-- `tcp_input` for an active connection, built with or without header prediction. -/
def tcpInput (prediction : Bool) (cfg : Config) (tp : Pcb) (seg : Seg) (room : Nat) : Option Pcb :=
  match (if prediction then predict cfg tp seg room else none) with
  | some tp => some tp
  | none => slowInput cfg tp seg room

end Tcp

import ThinkOS.Tcp.Pcb

/-!
# Sending, timeouts and the calls of the application

The model of `tcp_output`, of the retransmission timeout, and of `tcp_connect`, `tcp_send`,
`tcp_recv` and `tcp_close`. Of a packet that `tcp_output` makes the control block keeps how far it
goes in the sequence.
-/

namespace Tcp

/-- `tcp_outflags` -/
def outFlags : TcpState → Flags
  | .closed => { rst := true, ack := true }
  | .listen => {}
  | .synSent => { syn := true }
  | .synRcvd => { syn := true, ack := true }
  | .established => { ack := true }
  | .closeWait => { ack := true }
  | .finWait1 => { fin := true, ack := true }
  | .closing => { fin := true, ack := true }
  | .lastAck => { fin := true, ack := true }
  | .finWait2 => { ack := true }
  | .timeWait => { ack := true }

/-- What `tcp_output` works on: the control block, and its locals `snd_nxt` and `snd_max`. The
local `snd_una` is `snd_seq` all the time. -/
structure Out where
  tp : Pcb
  nxt : BitVec 32
  max : BitVec 32

/-- The number of bytes to send, from the window and the queue: with a FIN on its way the queue has
-1 bytes left. -/
def outLen (o : Out) : Out × Int :=
  let off := (o.nxt - o.tp.sndSeq).toInt
  let wRem := o.tp.sndWnd.toNat - off
  let qRem := o.tp.sndQ.length - off
  let len := min wRem qRem
  if len < 0 then
    if wRem = 0 then
      ({ o with tp := { o.tp with sndOff := 0 }, nxt := o.tp.sndSeq }, 0)
    else
      (o, 0)
  else
    (o, len)

/-- There is a reason to send a segment of `len` bytes with these flags. -/
def outReason (cfg : Config) (idle : Bool) (o : Out) (qRem len : Int) (flags : Flags) : Bool :=
  let tp := o.tp
  let win : Int := cfg.maxrcv - tp.rcvQ.length
  let adv := min win (cfg.maxwin - tp.rcvAdvWnd.toNat)
  (len ≠ 0 ∧ (len = tp.tMaxseg ∨ idle = true ∧ len ≥ qRem ∨ len ≥ tp.sndWnd.toNat / 2 ∨
      seqLt o.nxt o.max = true)) ∨
    (win > 0 ∧ (adv ≥ 2 * tp.tMaxseg ∨ 2 * adv ≥ cfg.maxrcv)) ∨
    tp.acknow = true ∨ flags.syn = true ∨ flags.rst = true ∨
    (flags.fin = true ∧ (tp.sentfin = false ∨ o.nxt = tp.sndSeq))

/-- The window that is advertised. -/
def outWindow (cfg : Config) (tp : Pcb) : BitVec 16 :=
  let win : Int := cfg.maxrcv - tp.rcvQ.length
  let win := if win < cfg.maxrcv / 4 ∧ win < tp.tMaxseg then 0 else win
  BitVec.ofInt 16 (if win > cfg.maxwin then cfg.maxwin else win)

/-- `snd_nxt` behind a segment of `len` bytes: it goes on over SYN and FIN as well, but not over a
FIN that is sent once more. -/
def outNxt (o : Out) (len : Int) (flags : Flags) : BitVec 32 :=
  let nxt :=
    if flags.fin = true ∧ o.tp.sentfin = true ∧ o.nxt = o.max then o.nxt - 1 else o.nxt
  let nxt := if flags.syn then nxt + 1 else nxt
  let nxt := if flags.fin then nxt + 1 else nxt
  nxt + BitVec.ofInt 32 len

/-- A segment of `len` bytes has left. -/
def outSent (cfg : Config) (o : Out) (len : Int) (flags : Flags) : Out :=
  let tp := o.tp
  let nxt := outNxt o len flags
  let max := if seqGt nxt o.max then nxt else o.max
  let top :=
    if len ≠ 0 ∨ flags.syn = true ∨ flags.fin = true then
      Nat.max tp.top (tp.base + (nxt - tp.sndSeq).toNat)
    else
      tp.top
  { tp := { tp.setSnd tp.sndSeq nxt max with
      sentfin := tp.sentfin || flags.fin, top, rcvAdvWnd := outWindow cfg tp
      acknow := false, delack := false }
    nxt, max }

/-- The length of a segment within a packet of the interface and, with the options of a SYN, within
the segment size; whether the options have shortened it. -/
def outCut (cfg : Config) (tMaxseg : Nat) (flags : Flags) (len : Int) : Int × Bool :=
  let len := if 40 + len > cfg.mtu then ((cfg.mtu - 40 : Nat) : Int) else len
  let optlen := if flags.syn then 4 else 0
  -- the comparison is unsigned: below the size of the options nothing is cut
  if optlen ≤ tMaxseg ∧ len > tMaxseg - optlen then
    (tMaxseg - optlen, true)
  else
    (len, false)

/-- The choice of a pass behind the computation of `len`: the length, the flags, and `sendalot`. A
packet that the interface does not take (`ok` is false) ends the call. -/
def outChoice (cfg : Config) (idle : Bool) (o : Out) (qRem len : Int) (ok : Bool) :
    Option (Int × Flags × Bool) :=
  let alot := decide (len > o.tp.tMaxseg)
  let len := if len > o.tp.tMaxseg then (o.tp.tMaxseg : Int) else len
  let flags := outFlags o.tp.tState
  let flags :=
    if seqLt (o.nxt + BitVec.ofInt 32 len) (o.tp.sndSeq + BitVec.ofNat 32 o.tp.sndQ.length) then
      { flags with fin := false }
    else
      flags
  if outReason cfg idle o qRem len flags = true ∧ ok = true then
    let (len, cut) := outCut cfg o.tp.tMaxseg flags len
    some (len, flags, alot || cut)
  else
    none

/-- What a pass of `tcp_output` sends: the control block with `snd_nxt` and `snd_max`, the offset into
the queue, the number of bytes and the flags. -/
structure Emitted where
  out : Out
  off : Int
  len : Int
  flags : Flags

def outEmit (cfg : Config) (idle : Bool) (o : Out) (ok : Bool) : Option (Emitted × Bool) :=
  let off := (o.nxt - o.tp.sndSeq).toInt
  let qRem := o.tp.sndQ.length - off
  let r := outLen o
  (outChoice cfg idle r.1 qRem r.2 ok).map fun c => (⟨r.1, off, c.1, c.2.1⟩, c.2.2)

/-- One pass of `tcp_output`; the second component is `sendalot`. -/
def outPass (cfg : Config) (idle : Bool) (o : Out) (ok : Bool) : Out × Bool :=
  match outEmit cfg idle o ok with
  | some (e, sendalot) => (outSent cfg e.out e.len e.flags, sendalot)
  | none => ((outLen o).1, false)

/-- The passes of `tcp_output`, for the answers of the interface one after the other. -/
def outLoop (cfg : Config) (idle : Bool) (o : Out) : List Bool → Out
  | [] => o
  | ok :: net =>
    let pass := outPass cfg idle o ok
    if pass.2 then outLoop cfg idle pass.1 net else pass.1

/-- `tcp_output` -/
def tcpOutput (cfg : Config) (tp : Pcb) (net : List Bool) : Pcb :=
  (outLoop cfg (decide (tp.sndTop = tp.sndSeq)) ⟨tp, tp.sndNxt, tp.sndTop⟩ net).tp

/-- What `tcp_output` leaves alone. -/
def Pcb.steady (tp : Pcb) :
    TcpState × BitVec 32 × Nat × List UInt8 × BitVec 16 × BitVec 32 × List UInt8 × List UInt8 × Nat :=
  (tp.tState, tp.sndSeq, tp.base, tp.sndQ, tp.sndWnd, tp.rcvNxt, tp.rcvQ, tp.rcvd, tp.fins)

theorem outLen_steady {o : Out} : (outLen o).1.tp.steady = o.tp.steady := by
  simp only [outLen]
  split
  · split <;> rfl
  · rfl

theorem outSent_steady (cfg : Config) (o : Out) (len : Int) (flags : Flags) :
    (outSent cfg o len flags).tp.steady = o.tp.steady := by
  simp only [Pcb.steady, outSent, Pcb.setSnd, BitVec.sub_self, BitVec.toNat_ofNat, Nat.zero_mod,
    Nat.add_zero]

theorem outPass_steady (cfg : Config) (idle : Bool) (o : Out) (ok : Bool) :
    (outPass cfg idle o ok).1.tp.steady = o.tp.steady := by
  unfold outPass
  cases h : outEmit cfg idle o ok with
  | none => exact outLen_steady
  | some r =>
    simp only [outEmit, Option.map_eq_some_iff] at h
    obtain ⟨c, -, rfl⟩ := h
    exact (outSent_steady ..).trans outLen_steady

theorem outLoop_steady {cfg : Config} {idle : Bool} {net : List Bool} :
    ∀ o : Out, (outLoop cfg idle o net).tp.steady = o.tp.steady := by
  induction net with
  | nil =>
    intro o
    rw [outLoop]
  | cons ok net ih =>
    intro o
    rw [outLoop]
    split
    · exact (ih _).trans (outPass_steady cfg idle o ok)
    · exact outPass_steady cfg idle o ok

theorem tcpOutput_steady (cfg : Config) (tp : Pcb) (net : List Bool) :
    (tcpOutput cfg tp net).steady = tp.steady := by
  rw [tcpOutput, outLoop_steady]

theorem tcpOutput_tState (cfg : Config) (tp : Pcb) (net : List Bool) :
    (tcpOutput cfg tp net).tState = tp.tState :=
  congrArg Prod.fst (tcpOutput_steady cfg tp net)

/-- `tcp_rxmt_tmr` for a connection whose timer has run down. -/
def tcpRxmtTmr (tp : Pcb) : Pcb :=
  { tp with sndOff := 0, sentfin := false }

/-- `tcp_connect`, up to where it waits for the connection: the window of 1 is for the SYN. -/
def tcpConnect (mss : Nat) (iss : BitVec 32) : Pcb :=
  { tState := .synSent, acknow := false, delack := false, sentfin := false, tMaxseg := mss
    sndSeq := iss, sndOff := 0, sndMax := 0, sndWnd := 1, rcvAdvWnd := 0
    rcvNxt := 0, rcvQ := [], sndQ := [], rcvd := [], fins := 0, base := 0, top := 0
    wrapped := false }

/-- One turn of the loop of `tcp_send`: what the queue limit and the pool have room for is added, and
counted. -/
def sendTurn (cfg : Config) (tp : Pcb) (buf : List UInt8) (room : Nat) : Pcb × Nat :=
  if cfg.maxsnd ≤ tp.sndQ.length then
    ({ tp with acknow := true }, 0)
  else
    let n := min (min (cfg.maxsnd - tp.sndQ.length) buf.length) room
    ({ tp with sndQ := tp.sndQ ++ buf.take n }, n)

/-- A turn of `tcp_send`, and its end when no bytes are left; with `delay` the data is neither urgent nor
enough for a segment. In other states than ESTABLISHED nothing is added. -/
def tcpSend (cfg : Config) (tp : Pcb) (buf : List UInt8) (room : Nat) (delay : Bool) :
    Pcb × List UInt8 :=
  if tp.tState ≠ .established ∨ buf = [] then
    (tp, buf)
  else
    let (tp, n) := sendTurn cfg tp buf room
    let rest := buf.drop n
    ({ tp with delack := tp.delack || (delay && rest.isEmpty) }, rest)

/-- `tcp_recv`: the bytes removed from `rcv_q`. -/
def tcpRecv (tp : Pcb) (len : Nat) : Pcb × List UInt8 :=
  match tp.tState with
  | .closed | .timeWait | .closing | .lastAck => (tp, [])
  | .finWait1 | .finWait2 => ({ tp with rcvQ := tp.rcvQ.drop len }, tp.rcvQ.take len)
  | _ =>
    if tp.rcvQ = [] then
      (tp, [])
    else
      let rest := tp.rcvQ.drop len
      ({ tp with rcvQ := rest, acknow := tp.acknow || (rest.isEmpty && tp.delack) },
        tp.rcvQ.take len)

/-- `tcp_close`: `none` when the control block is freed. -/
def tcpClose (tp : Pcb) : Option Pcb :=
  match tp.tState with
  | .listen | .timeWait | .closed | .synSent => none
  | .synRcvd | .established => some { tp with tState := .finWait1, acknow := true }
  | .closeWait =>
    some { (tp.subSnd tp.sndQ.length).freeQueues with tState := .lastAck, acknow := true }
  | .finWait1 | .closing | .lastAck | .finWait2 => some tp

/-! ## The states behind the calls -/

/-- The states in which the data of an acceptable segment goes to `rcv_q`. -/
def TcpState.takesData : TcpState → Bool
  | .synRcvd | .established => true
  | _ => false

/-- The states in which `rcv_q` may have been discarded. -/
def TcpState.discarded : TcpState → Bool
  | .closed | .lastAck | .timeWait => true
  | _ => false

theorem sendTurn_cases (cfg : Config) (tp : Pcb) (buf : List UInt8) (room : Nat) :
    ∃ acknow data, (sendTurn cfg tp buf room).1 = { tp with sndQ := tp.sndQ ++ data, acknow } ∧
      (data ≠ [] → (tp.sndQ ++ data).length ≤ cfg.maxsnd) := by
  rw [sendTurn]
  split
  · exact ⟨true, [], by rw [List.append_nil], fun h => absurd rfl h⟩
  · refine ⟨tp.acknow, _, rfl, fun _ => ?_⟩
    rw [List.length_append, List.length_take]
    omega

/-- Bytes are added in ESTABLISHED only, and within the limit. -/
theorem tcpSend_cases (cfg : Config) (tp : Pcb) (buf : List UInt8) (room : Nat) (delay : Bool) :
    ∃ acknow delack data,
      (tcpSend cfg tp buf room delay).1 = { tp with sndQ := tp.sndQ ++ data, acknow, delack } ∧
      (data ≠ [] → tp.tState = .established ∧ (tp.sndQ ++ data).length ≤ cfg.maxsnd) := by
  rw [tcpSend]
  split
  · exact ⟨tp.acknow, tp.delack, [], by rw [List.append_nil], fun h => absurd rfl h⟩
  · rename_i hs
    rw [not_or, ne_eq, Decidable.not_not] at hs
    obtain ⟨acknow, data, heq, hle⟩ := sendTurn_cases cfg tp buf room
    refine ⟨acknow, tp.delack || (delay && (buf.drop (sendTurn cfg tp buf room).2).isEmpty), data, ?_,
      fun hdata => ⟨hs.1, hle hdata⟩⟩
    dsimp only
    rw [heq]

theorem tcpRecv_tState (tp : Pcb) (len : Nat) : (tcpRecv tp len).1.tState = tp.tState := by
  rw [tcpRecv]
  split <;> first | rfl | (split <;> rfl)

theorem tcpRecv_cases (tp : Pcb) (len : Nat) : tcpRecv tp len = (tp, []) ∨ tp.tState.discarded = false ∧
      ∃ acknow, tcpRecv tp len = ({ tp with rcvQ := tp.rcvQ.drop len, acknow }, tp.rcvQ.take len) := by
  rw [tcpRecv]
  split
  case h_5 hs => exact .inr ⟨by rw [hs]; rfl, tp.acknow, rfl⟩
  case h_6 hs => exact .inr ⟨by rw [hs]; rfl, tp.acknow, rfl⟩
  case h_7 hclosed htime hclosing hlast _ _ =>
    split
    · exact .inl rfl
    · refine .inr ⟨?_, _, rfl⟩
      revert hclosed htime hlast
      cases tp.tState <;> simp [TcpState.discarded]
  all_goals exact .inl rfl

theorem tcpClose_cases {tp tp' : Pcb} (h : tcpClose tp = some tp') : tp' = tp ∨
    (tp.tState.takesData = true ∧ tp' = { tp with tState := .finWait1, acknow := true }) ∨
    (tp.tState = .closeWait ∧ tp' =
      { (tp.subSnd tp.sndQ.length).freeQueues with tState := .lastAck, acknow := true }) := by
  cases hs : tp.tState <;> simp only [tcpClose, hs, Option.some.injEq, reduceCtorEq] at h <;>
    subst h <;> simp [TcpState.takesData]

end Tcp

import ThinkOS.Tcp.Run
import ThinkOS.Tcp.Sent

/-!
# Passive opens

A connection that `tcp_passive_open` has made waits in SYN_RCVD for the acknowledgment of its SYN.
The test of SYN_RCVD asks for a number that is not before `snd_una` and not after `snd_max`, and so
takes the initial sequence number itself as well.
-/

namespace Tcp

open Lib Option

/-- The states behind the handshake that no call of `tcp_close` leads to. -/
def TcpState.opened : TcpState → Bool
  | .established | .closeWait => true
  | _ => false

/-- A connection in SYN_RCVD: of the numbers from `iss` on as many were sent as `top` says. -/
structure Waiting (iss : BitVec 32) (tp : Pcb) : Prop where
  seq : tp.sndSeq = iss
  base : tp.base = 0
  queue : tp.sndQ = []
  sent : tp.sndMax.toNat ≤ tp.top
  top : tp.top ≤ 65536

/-- What holds of a passive open from the beginning. -/
def Opening (iss : BitVec 32) (tp : Pcb) : Prop :=
  tp.tState ≠ .synSent ∧ (tp.tState = .synRcvd → Waiting iss tp)

section
variable {cfg : Config} {iss : BitVec 32} {tp tp' : Pcb} {seg : Seg} {room : Nat} {c c' : Conn}
  {ev : Event}

theorem opening_tcpPassiveOpen {mss : Nat} {syn : Seg} :
    Opening iss (tcpPassiveOpen mss iss syn) := by
  rw [tcpPassiveOpen, tcpParseOptions]
  split
  · exact ⟨nofun, fun _ => ⟨rfl, rfl, rfl, Nat.le_refl 0, Nat.zero_le _⟩⟩
  · exact ⟨nofun, fun _ => ⟨rfl, rfl, rfl, Nat.le_refl 0, Nat.zero_le _⟩⟩

/-- A segment with SYN and no data, behind which `snd_nxt` is one further. -/
theorem Waiting.sent_syn {flags : Flags} {x : Nat} (h : Waiting iss tp) (hsyn : flags.syn = true)
    (hfin : flags.fin = false) (hx : x < 65536) : Waiting iss (tp.sent cfg flags tp.sndMax.toNat
      (outEnd tp.sentfin flags x tp.sndMax.toNat 0) 0) := by
  have hend : outEnd tp.sentfin flags x tp.sndMax.toNat 0 = x + 1 := by
    rw [outEnd, hsyn, hfin]
    rfl
  have hsent := h.sent
  have htop := h.top
  have hbase := h.base
  rw [hend]
  refine ⟨h.seq, h.base, h.queue, ?_, ?_⟩
  · simp only [Pcb.sent, hsyn, true_or, or_true, if_true, BitVec.toNat_ofNat]
    omega
  · simp only [Pcb.sent, hsyn, true_or, or_true, if_true]
    omega

theorem Waiting.tcpOutput (h : Waiting iss tp) (hs : tp.tState = .synRcvd) (net : List Bool) :
    Waiting iss (tcpOutput cfg tp net) := by
  have hoff : tp.sndOff.toNat < 65536 := tp.sndOff.isLt
  have hflags {flags : Flags} (hof : flags.Of tp.tState) : flags.syn = true ∧ flags.fin = false := by
    rw [hs] at hof
    exact ⟨hof.1, eq_false_of_ne_true fun hfin => Bool.false_ne_true (hof.2 hfin)⟩
  cases net with
  | nil => exact h
  | cons ok net =>
    rw [Tcp.tcpOutput, outLoop]
    have hout : PassOutcome cfg ⟨tp, tp.sndNxt, tp.sndTop⟩ tp.sndOff.toNat _ :=
      outPass_outcome (decide (tp.sndTop = tp.sndSeq)) ok tp.sndNxt_eq (by omega)
    generalize outPass cfg _ _ ok = pass at hout ⊢
    -- the queue is empty, so that there is one pass only
    cases hout with
    | kept => exact h
    | rewound => exact ⟨h.seq, h.base, h.queue, h.sent, h.top⟩
    | @sent l flags again _ hlen hof hagain =>
      have hagain' : again = false := by
        refine eq_false_of_ne_true fun htrue => ?_
        have hlt := hagain htrue
        rw [h.queue] at hlt
        exact absurd hlt (Nat.not_lt_zero _)
      rw [h.queue, List.length_nil, Nat.zero_sub, Nat.le_zero] at hlen
      obtain ⟨hsyn, hfin⟩ := hflags hof
      rw [hagain', hlen]
      have heq := outSent_eq cfg ⟨tp, tp.sndNxt, tp.sndTop⟩ (l := 0) flags
        tp.sndNxt_eq tp.sndTop_eq (by omega) (by omega) (by omega)
      rw [heq]
      exact h.sent_syn hsyn hfin hoff
    | @resent flags hlen hwnd hof =>
      obtain ⟨hsyn, hfin⟩ := hflags hof
      have hback : Waiting iss { tp with sndOff := 0 } := ⟨h.seq, h.base, h.queue, h.sent, h.top⟩
      have heq := outSent_eq cfg (Out.rewound ⟨tp, tp.sndNxt, tp.sndTop⟩) (x := 0)
        (l := 0) flags (BitVec.add_zero tp.sndSeq).symm tp.sndTop_eq (by omega) (by omega) (by omega)
      show Waiting iss (outSent cfg (Out.rewound ⟨tp, tp.sndNxt, tp.sndTop⟩) (0 : Nat) flags).tp
      rw [heq]
      exact hback.sent_syn hsyn hfin (by omega)

/-- A segment leaves a connection in SYN_RCVD only as it was. -/
theorem InputOutcome.opening (hne : tp.tState ≠ .synSent) (h : InputOutcome cfg tp seg room tp') :
    tp'.tState ≠ .synSent ∧ (tp'.tState = .synRcvd → ∃ acknow, tp' = { tp with acknow }) := by
  cases h with
  | predictedAck hstate =>
    rw [Pcb.acked_tState, hstate]
    exact ⟨nofun, nofun⟩
  | predictedData acknow delack hstate =>
    have hs : ({ tp.append seg.data room with acknow, delack } : Pcb).tState = .established := hstate
    rw [hs]
    exact ⟨nofun, nofun⟩
  | dropped acknow => exact ⟨hne, fun _ => ⟨acknow, rfl⟩⟩
  | reset => exact ⟨nofun, nofun⟩
  | refused acknow hstage =>
    rcases ackStage_drop hstage with rfl | ⟨hs, hsame⟩
    · exact ⟨hne, fun _ => ⟨acknow, rfl⟩⟩
    · rw [hsame]
      exact ⟨hne, fun hs' => absurd hs' hs⟩
  | @processed acknow ti tp1 _ _ _ hstage =>
    have hmid : tp1.tState ≠ .synSent ∧ tp1.tState ≠ .synRcvd := by
      rcases ackStage_go hstage with ⟨-, -, h⟩ | ⟨hs, h | ⟨-, h⟩ | ⟨-, h⟩⟩
      · rw [h]
        exact ⟨nofun, nofun⟩
      · rw [h]
        exact ⟨hne, hs⟩
      · rw [h]
        exact ⟨nofun, nofun⟩
      · rw [h]
        exact ⟨nofun, nofun⟩
    rcases step6_tState tp1 ti seg.win room with h | ⟨-, h⟩ | ⟨-, h⟩ | ⟨-, h⟩
    · rw [h]
      exact ⟨hmid.1, fun hs => absurd hs hmid.2⟩
    · rw [h]
      exact ⟨nofun, nofun⟩
    · rw [h]
      exact ⟨nofun, nofun⟩
    · rw [h]
      exact ⟨nofun, nofun⟩

/-- The segment that opens a connection: it comes in SYN_RCVD and passes the test there. -/
theorem InputOutcome.opened (h : InputOutcome cfg tp seg room tp')
    (hfrom : tp.tState.opened = false) (hto : tp'.tState.opened = true) :
    tp.tState = .synRcvd ∧ tp.InRange seg.ack ∧ seg.flags.ack = true := by
  have hsame (hs : tp'.tState = tp.tState) : False := by
    rw [hs, hfrom] at hto
    exact Bool.false_ne_true hto
  cases h with
  | predictedAck => exact (hsame rfl).elim
  | predictedData => exact (hsame rfl).elim
  | dropped => exact (hsame rfl).elim
  | reset => exact (Bool.false_ne_true hto).elim
  | refused acknow hstage =>
    rcases ackStage_drop hstage with rfl | ⟨-, hs⟩
    · exact (hsame rfl).elim
    · exact (hsame hs).elim
  | @processed acknow ti tp1 htrim hack _ hstage =>
    rcases ackStage_go hstage with ⟨hs, hrange, -⟩ | ⟨hne', hmid⟩
    · exact ⟨hs, hrange, (trimmed_ack htrim).symm.trans hack⟩
    · have hmid' : tp1.tState.opened = false ∧ tp1.tState ≠ .synRcvd := by
        rcases hmid with h | ⟨-, h⟩ | ⟨-, h⟩
        · rw [h]
          exact ⟨hfrom, hne'⟩
        · rw [h]
          exact ⟨rfl, nofun⟩
        · rw [h]
          exact ⟨rfl, nofun⟩
      obtain ⟨hclosed, hrcvd⟩ := hmid'
      rcases step6_tState tp1 ti seg.win room with h | ⟨hs | hs, -⟩ | ⟨-, h⟩ | ⟨-, h⟩
      · rw [h, hclosed] at hto
        exact (Bool.false_ne_true hto).elim
      · exact absurd hs hrcvd
      · rw [hs] at hclosed
        cases hclosed
      · rw [h] at hto
        cases hto
      · rw [h] at hto
        cases hto

/-! ## Whole runs -/

theorem tcpClose_tState (h : tcpClose tp = some tp') :
    tp'.tState ≠ .synSent ∧ tp'.tState ≠ .synRcvd ∧ tp'.tState.opened = false := by
  cases hs : tp.tState <;> simp only [tcpClose, hs, Option.some.injEq, reduceCtorEq] at h <;>
    subst h <;> simp [hs, TcpState.opened]

theorem Opening.step (h : Opening iss c.tp) (hstep : c.step cfg ev = some c') :
    Opening iss c'.tp := by
  obtain ⟨hne, hwait⟩ := h
  cases Conn.step_outcome hstep with
  | kept => exact ⟨hne, hwait⟩
  | input _ hin =>
    obtain ⟨hne', hsame⟩ := (tcpInput_outcome hne hin).opening hne
    refine ⟨hne', fun hs => ?_⟩
    obtain ⟨acknow, rfl⟩ := hsame hs
    have hold := hwait hs
    exact { hold with }
  | output net =>
    have hs := tcpOutput_tState cfg c.tp net
    refine ⟨?_, fun hs' => ?_⟩
    · rw [hs]
      exact hne
    · rw [hs] at hs'
      exact (hwait hs').tcpOutput hs' net
  | timeout =>
    exact ⟨hne, fun hs => ⟨(hwait hs).seq, (hwait hs).base, (hwait hs).queue, (hwait hs).sent,
      (hwait hs).top⟩⟩
  | @send _ data _ _ _ _ hdata =>
    refine ⟨hne, fun hs => ?_⟩
    have hold := hwait hs
    obtain rfl : data = [] := by
      by_contra hne'
      cases hs.symm.trans (hdata hne').1
    exact { hold with queue := (List.append_nil _).trans hold.queue }
  | recv =>
    exact ⟨hne, fun hs => ⟨(hwait hs).seq, (hwait hs).base, (hwait hs).queue, (hwait hs).sent,
      (hwait hs).top⟩⟩
  | close hclose =>
    obtain ⟨hsent, hrcvd, -⟩ := tcpClose_tState hclose
    exact ⟨hsent, fun hs => absurd hs hrcvd⟩

/-- Only a segment opens the connection. -/
theorem opened_step (hne : c.tp.tState ≠ .synSent) (hstep : c.step cfg ev = some c')
    (hfrom : c.tp.tState.opened = false) (hto : c'.tp.tState.opened = true) :
    ∃ seg room, ev = .input seg room ∧ c.tp.tState = .synRcvd ∧ c.tp.InRange seg.ack ∧
      seg.flags.ack = true := by
  have hsame {s : TcpState} (hs : s = c.tp.tState) (hto : s.opened = true) : False := by
    rw [hs, hfrom] at hto
    exact Bool.false_ne_true hto
  cases Conn.step_outcome hstep with
  | input _ hin => exact ⟨_, _, rfl, (tcpInput_outcome hne hin).opened hfrom hto⟩
  | output net => exact (hsame (tcpOutput_tState ..) hto).elim
  | close hclose =>
    rw [(tcpClose_tState hclose).2.2] at hto
    exact (Bool.false_ne_true hto).elim
  | _ => exact (hsame rfl hto).elim

/-- Which of the numbers that SYN_RCVD takes acknowledge something that was sent. -/
theorem Waiting.inRange_iff {ack : BitVec 32} (h : Waiting iss tp) (hrange : tp.InRange ack) :
    (∃ k, 0 < k ∧ k ≤ tp.top ∧ ack = iss + BitVec.ofNat 32 k) ↔ tp.sndMax ≠ 0 ∧ ack ≠ iss := by
  have hsent := h.sent
  have htop := h.top
  simp only [Pcb.InRange, not_or, seqGt, decide_eq_true_eq, not_lt, tp.sndTop_eq, h.seq] at hrange
  constructor
  · rintro ⟨k, hpos, hle, rfl⟩
    have hk : ((iss + BitVec.ofNat 32 k) - iss).toInt = k := toInt_add_sub (by omega)
    refine ⟨fun hzero => ?_, fun hsame => ?_⟩
    · have := hrange.2
      rw [hzero] at this
      have hzero' : iss + BitVec.ofNat 32 (0 : BitVec 16).toNat = iss := BitVec.add_zero iss
      rw [hzero', hk] at this
      omega
    · rw [hsame, sub_self] at hk
      have : (0 : BitVec 32).toInt = 0 := rfl
      omega
  · rintro ⟨hne, hack⟩
    have hpos : 0 < tp.sndMax.toNat := by
      refine Nat.pos_of_ne_zero fun hzero => hne ?_
      exact BitVec.eq_of_toNat_eq hzero
    obtain ⟨k, hk, hle, heq⟩ :=
      exists_between_of_not_gt hpos (by omega) hack hrange.1 hrange.2
    exact ⟨k, hk, Nat.le_trans hle hsent, heq⟩

/-- In every run of a passive open only a segment with ACK opens the connection. It acknowledges
the SYN, or more of what was sent, exactly if the SYN counts as sent (`snd_max` is not 0) and the
number is not the initial sequence number. -/
theorem passive_open_needs_ack (cfg : Config) (mss : Nat) (iss : BitVec 32) (syn : Seg)
    {c c' : Conn} {ev : Event}
    (hrun : (system cfg).Run (fun _ _ => True) ⟨tcpPassiveOpen mss iss syn, []⟩ c)
    (hstep : (system cfg).step c ev = some c') (hfrom : c.tp.tState.opened = false)
    (hto : c'.tp.tState.opened = true) : ∃ seg room, ev = .input seg room ∧ seg.flags.ack = true ∧
      ((∃ k, 0 < k ∧ k ≤ c.tp.top ∧ seg.ack = iss + BitVec.ofNat 32 k) ↔
        c.tp.sndMax ≠ 0 ∧ seg.ack ≠ iss) := by
  have hopening : Opening iss c.tp :=
    hrun.invariant (I := fun c => Opening iss c.tp) (fun _ _ _ h _ hs => h.step hs)
      opening_tcpPassiveOpen
  obtain ⟨seg, room, rfl, hs, hrange, hack⟩ := opened_step hopening.1 hstep hfrom hto
  exact ⟨seg, room, rfl, hack, (hopening.2 hs).inRange_iff hrange⟩

end

/-- A SYN with the sequence number 99. -/
def peerSyn : Seg :=
  { seq := 99, ack := 0, flags := { syn := true }, win := 1000, mss := [], data := []
    data_lt := nil_lt }

/-- The acknowledgment `ack` behind that SYN. -/
def peerAck (ack : BitVec 32) : Seg :=
  { seq := 100, ack, flags := { ack := true }, win := 1000, mss := [], data := []
    data_lt := nil_lt }

/-- A passive open with the initial sequence number 0x100000, whose SYN was sent. -/
def synIsSent : Conn :=
  ⟨tcpOutput stdConfig (tcpPassiveOpen 1460 0x100000 peerSyn) [true], []⟩

theorem run_synIsSent : (system stdConfig).Run (fun _ _ => True)
    ⟨tcpPassiveOpen 1460 0x100000 peerSyn, []⟩ synIsSent :=
  .snoc (e := .output [true]) .refl trivial rfl

theorem passive_open_acknowledged :
    ∃ c', (system stdConfig).step synIsSent (.input (peerAck 0x100001) 0) = some c' ∧
      c'.tp.tState.opened = true ∧
      ∃ seg room, Event.input (peerAck 0x100001) 0 = .input seg room ∧ seg.flags.ack = true ∧
        ((∃ k, 0 < k ∧ k ≤ synIsSent.tp.top ∧ seg.ack = 0x100000 + BitVec.ofNat 32 k) ↔
          synIsSent.tp.sndMax ≠ 0 ∧ seg.ack ≠ 0x100000) := by
  have hopen : (((system stdConfig).step synIsSent (.input (peerAck 0x100001) 0)).map
      fun c' => c'.tp.tState) = some .established := by decide
  obtain ⟨c', hstep, hs⟩ := map_eq_some_iff.mp hopen
  have hto : c'.tp.tState.opened = true := by rw [hs]; rfl
  exact ⟨c', hstep, hto, passive_open_needs_ack stdConfig 1460 0x100000 peerSyn run_synIsSent hstep
    (by decide) hto⟩

/-- A segment with the number of our own SYN opens the connection. -/
theorem unacknowledged_syn_opens :
    ∃ c c', (system stdConfig).Run (fun _ _ => True) ⟨tcpPassiveOpen 1460 0x100000 peerSyn, []⟩ c ∧
      (system stdConfig).step c (.input (peerAck 0x100000) 0) = some c' ∧
      c.tp.tState = .synRcvd ∧ c'.tp.tState = .established ∧
      ¬∃ k, 0 < k ∧ k ≤ c.tp.top ∧ (peerAck 0x100000).ack = 0x100000 + BitVec.ofNat 32 k := by
  have hopen : (((system stdConfig).step synIsSent (.input (peerAck 0x100000) 0)).map
      fun c' => c'.tp.tState) = some .established := by decide
  obtain ⟨c', hstep, hs⟩ := map_eq_some_iff.mp hopen
  refine ⟨synIsSent, c', run_synIsSent, hstep, by decide, hs, ?_⟩
  rintro ⟨k, hpos, hle, hack⟩
  have htop : synIsSent.tp.top = 1 := by decide
  obtain rfl : k = 1 := by omega
  exact absurd hack (by decide)

end Tcp

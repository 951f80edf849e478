import ThinkOS.Tcp.Ack

/-!
# Header prediction

What header prediction does with a segment is what the general path does with it.
-/

namespace Tcp

open Lib Bool BitVec

/-- The part of the control block that both paths have to agree on. -/
def Pcb.view (tp : Pcb) : List UInt8 × BitVec 32 × List UInt8 × BitVec 32 × BitVec 16 × BitVec 16 ×
    BitVec 16 × TcpState :=
  (tp.rcvQ, tp.rcvNxt, tp.sndQ, tp.sndSeq, tp.sndOff, tp.sndMax, tp.sndWnd, tp.tState)

section
variable {cfg : Config} {tp : Pcb} {seg : Seg} {room : Nat} {ti : Ti}

theorem trimHead_inOrder (h : ti.seq = tp.rcvNxt) : trimHead tp ti = (tp, ti) := by
  have hzero : ¬(tp.rcvNxt - ti.seq).toInt > 0 := by
    rw [h, sub_self]
    decide
  rw [trimHead, if_neg hzero]

theorem trimTail_inOrder {wnd : Nat} (h : ti.seq = tp.rcvNxt) (hlen : ti.data.length ≤ wnd)
    (hwnd : wnd < 65536) : trimTail tp ti wnd = some (tp, ti) := by
  have hle : ¬((ti.seq + BitVec.ofNat 32 ti.data.length) -
      (tp.rcvNxt + BitVec.ofNat 32 wnd)).toInt > 0 := by
    rw [h, toInt_add_sub_add _ (by omega) (by omega)]
    omega
  rw [trimTail, if_neg hle]

/-- The general path for a segment with ACK, in order and within the window. -/
theorem slowInput_inOrder (hstate : tp.tState = .established) (hflags : seg.flags.onlyAck = true)
    (hseq : seg.seq = tp.rcvNxt) (hlen : seg.data.length ≤ cfg.maxrcv - tp.rcvQ.length) :
    slowInput cfg tp seg room =
      match ackProcess tp seg.ack tp.sndSeq tp.sndNxt tp.sndTop with
      | .drop r => r
      | .go tp =>
        some (step6 tp { seq := seg.seq, data := seg.data, flags := seg.flags } seg.win room) := by
  have hwnd : cfg.maxrcv - tp.rcvQ.length < 65536 :=
    Nat.lt_of_le_of_lt (Nat.sub_le ..) cfg.maxrcv_lt
  simp only [Flags.onlyAck, and_eq_true, not_eq_true'] at hflags
  obtain ⟨⟨⟨⟨hack, hsyn⟩, hfin⟩, hrst⟩, hurg⟩ := hflags
  have hearly : ¬(tp.tState.num > TcpState.finWait1.num ∧ seg.data.length ≠ 0) := by
    rw [hstate]
    exact fun h => absurd h.1 (by decide)
  rw [slowInput, if_neg (by rw [hstate]; decide), trimHead_inOrder hseq]
  have htail : trimTail tp ⟨seg.seq, seg.data, seg.flags⟩ (cfg.maxrcv - tp.rcvQ.length) = _ :=
    trimTail_inOrder hseq hlen hwnd
  simp only [if_neg hearly, htail]
  simp only [windowInput, hrst, hsyn, hack, ackStage, hstate, if_false, false_eq_true]
  rfl

/-- `step6` without a FIN and a new window changes nothing but the receive queue. -/
theorem step6_quiet (hfin : ti.flags.fin = false) (hdata : ti.data.length = 0)
    (hwin : seg.win = tp.sndWnd) : step6 tp ti seg.win room = tp := by
  have hwin' : ¬(ti.flags.ack = true ∧ seg.win ≠ tp.sndWnd) := fun h => h.2 hwin
  have hnone : ¬((ti.data.length ≠ 0 ∨ ti.flags.fin = true) ∧ tp.tState.haveRcvdFin = false) := by
    rw [hdata, hfin]
    exact fun h => h.1.elim (absurd rfl) (nomatch ·)
  simp only [step6, if_neg hwin', dataStage, if_neg hnone]

theorem step6_data (hstate : tp.tState = .established) (hfin : ti.flags.fin = false)
    (hdata : ti.data.length ≠ 0) (hseq : ti.seq = tp.rcvNxt) (hwin : seg.win = tp.sndWnd) :
    step6 tp ti seg.win room = { tp.append ti.data room with delack := true } := by
  have hwin' : ¬(ti.flags.ack = true ∧ seg.win ≠ tp.sndWnd) := fun h => h.2 hwin
  have hsome : (ti.data.length ≠ 0 ∨ ti.flags.fin = true) ∧ tp.tState.haveRcvdFin = false :=
    ⟨.inl hdata, by rw [hstate]; decide⟩
  have hstage : dataStage tp ti room = ({ tp.append ti.data room with delack := true }, false) := by
    rw [dataStage, if_pos hsome, if_pos ⟨hseq, hstate⟩, hfin]
  simp only [step6, if_neg hwin', hstage]

theorem slowInput_ack (hstate : tp.tState = .established) (hflags : seg.flags.onlyAck = true)
    (hseq : seg.seq = tp.rcvNxt) (hwin : seg.win = tp.sndWnd) (hdata : seg.data.length = 0)
    (hgt : seqGt seg.ack tp.sndSeq = true) (hleq : seqLeq seg.ack tp.sndTop = true)
    (hall : tp.sndNxt = tp.sndTop) : slowInput cfg tp seg room =
      some ({ tp with sndQ := tp.sndQ.drop (seg.ack - tp.sndSeq).toInt.toNat }.setSnd seg.ack
        tp.sndNxt tp.sndTop) := by
  have hx := tp.sndOff.isLt
  have hy := tp.sndMax.isLt
  have hfin : seg.flags.fin = false := by
    simp only [Flags.onlyAck, and_eq_true, not_eq_true'] at hflags
    exact hflags.1.1.2
  simp only [seqGt, seqLeq, decide_eq_true_eq] at hgt hleq
  rw [slowInput_inOrder hstate hflags hseq (by omega)]
  have hoff := Pcb.off_eq_max hall
  rw [Pcb.sndNxt_eq, Pcb.sndTop_eq]
  rw [Pcb.sndTop_eq] at hleq
  rcases ackProcess_cases tp seg.ack tp.sndSeq hx hy with
    ⟨hold, -⟩ | ⟨hmuch, -⟩ | ⟨k, hpos, hle, hack, hrun⟩
  · simp only [seqLeq, decide_eq_true_eq] at hold
    omega
  · simp only [seqGt, decide_eq_true_eq] at hmuch
    omega
  · have hk : (seg.ack - tp.sndSeq).toInt.toNat = k := by
      rw [hack, toInt_add_sub (by omega), Int.toNat_natCast]
    rw [hrun, hk, Nat.max_eq_left (by omega : k ≤ tp.sndOff.toNat)]
    set tp' := Pcb.setSnd { tp with sndQ := tp.sndQ.drop k } seg.ack
      (tp.sndSeq + BitVec.ofNat 32 tp.sndOff.toNat) (tp.sndSeq + BitVec.ofNat 32 tp.sndMax.toNat)
    have hstate' : tp'.tState = .established := hstate
    rw [ackState_established hstate']
    exact congrArg some (step6_quiet hfin hdata hwin)

end

/-- A segment that passes the test of header prediction leaves the queues, the sequence numbers, the
window and the state as the general path leaves them. -/
theorem header_prediction_equiv (cfg : Config) (tp : Pcb) (seg : Seg) (room : Nat)
    (h : (predict cfg tp seg room).isSome = true) :
    ∃ fast slow, tcpInput true cfg tp seg room = some fast ∧
      tcpInput false cfg tp seg room = some slow ∧ fast.view = slow.view := by
  obtain ⟨fast, hfast⟩ := Option.isSome_iff_exists.mp h
  have hslow : tcpInput false cfg tp seg room = slowInput cfg tp seg room := rfl
  have hfast' : tcpInput true cfg tp seg room = some fast := by
    simp only [tcpInput, if_true, hfast]
  rw [hfast', hslow]
  simp only [predict] at hfast
  split at hfast
  case isFalse => cases hfast
  case isTrue htest =>
    obtain ⟨hstate, hflags, hseq, -, hwin, hall⟩ := htest
    split at hfast
    case isTrue hdata =>
      split at hfast
      case isFalse => cases hfast
      case isTrue hack =>
        cases hfast
        exact ⟨_, _, rfl, slowInput_ack hstate hflags hseq hwin hdata hack.1 hack.2 hall, rfl⟩
    case isFalse hdata =>
      split at hfast
      case isFalse => cases hfast
      case isTrue htest =>
        obtain ⟨hack, hroom⟩ := htest
        have hfin : seg.flags.fin = false := by
          simp only [Flags.onlyAck, and_eq_true, not_eq_true'] at hflags
          exact hflags.1.1.2
        have hold : seqLeq seg.ack tp.sndSeq = true := by
          rw [seqLeq, hack, sub_self]
          decide
        refine ⟨fast, { tp.append seg.data room with delack := true }, rfl, ?_, ?_⟩
        · rw [slowInput_inOrder hstate hflags hseq (by omega), ackProcess, if_pos hold]
          exact congrArg some (step6_data hstate hfin hdata hseq hwin)
        · split at hfast <;> cases hfast <;> rfl

/-- A connection that has sent two bytes. -/
def talking : Pcb :=
  { tState := .established, acknow := false, delack := false, sentfin := false, tMaxseg := 1460
    sndSeq := 0xfffffffe, sndOff := 2, sndMax := 2, sndWnd := 1000, rcvAdvWnd := 2920
    rcvNxt := 7, rcvQ := [], sndQ := [1, 2], rcvd := [], fins := 0, base := 1, top := 3
    wrapped := false }

/-- Both bytes are acknowledged, across the end of the number range. -/
def ackOfAll : Seg :=
  { seq := 7, ack := 0, flags := { ack := true }, win := 1000, mss := [], data := []
    data_lt := nil_lt }

theorem header_prediction_equiv_wrapping : (predict stdConfig talking ackOfAll 0).isSome = true ∧
    ∃ fast slow, tcpInput true stdConfig talking ackOfAll 0 = some fast ∧
      tcpInput false stdConfig talking ackOfAll 0 = some slow ∧ fast.view = slow.view :=
  ⟨by decide, header_prediction_equiv stdConfig talking ackOfAll 0 (by decide)⟩

end Tcp

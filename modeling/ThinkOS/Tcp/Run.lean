import ThinkOS.Lib.Transition
import ThinkOS.Tcp.Ack
import ThinkOS.Tcp.Output

/-!
# Connections at work

The events of a connection as a transition system, and what the processing of a segment can do: the
segment is predicted, dropped, or goes through the acknowledgment to `step6` with what trimming has
left of it.
-/

namespace Tcp

open Lib Option

inductive Event where
  /-- a segment arrives, with room for so many bytes in the buffer pool -/
  | input (seg : Seg) (room : Nat)
  /-- `tcp_output` runs, with the answers of the interface to its packets -/
  | output (net : List Bool)
  /-- the retransmission timer runs down -/
  | timeout
  | send (buf : List UInt8) (room : Nat) (delay : Bool)
  | recv (len : Nat)
  | close

/-- A connection, with the bytes that `tcp_recv` has handed out. -/
structure Conn where
  tp : Pcb
  taken : List UInt8

/-- One event: `none` when the control block is freed. -/
def Conn.step (cfg : Config) (c : Conn) : Event → Option Conn
  | .input seg room =>
    -- only the list of active connections is searched
    if c.tp.tState = .closed then
      some c
    else
      (tcpInput true cfg c.tp seg room).map fun tp => { c with tp }
  | .output net => some { c with tp := tcpOutput cfg c.tp net }
  | .timeout => if c.tp.tState = .closed then some c else some { c with tp := tcpRxmtTmr c.tp }
  | .send buf room delay => some { c with tp := (tcpSend cfg c.tp buf room delay).1 }
  | .recv len =>
    let r := tcpRecv c.tp len
    some { tp := r.1, taken := c.taken ++ r.2 }
  | .close => (tcpClose c.tp).map fun tp => { c with tp }

def system (cfg : Config) : System Conn Event where
  step := Conn.step cfg

/-- What an event can do to a connection. -/
inductive StepOutcome (cfg : Config) (c : Conn) : Event → Conn → Prop
  | kept {ev : Event} : StepOutcome cfg c ev c
  | input {seg : Seg} {room : Nat} {tp' : Pcb} (hopen : c.tp.tState ≠ .closed)
      (hin : tcpInput true cfg c.tp seg room = some tp') :
      StepOutcome cfg c (.input seg room) { c with tp := tp' }
  | output (net : List Bool) :
      StepOutcome cfg c (.output net) { c with tp := tcpOutput cfg c.tp net }
  | timeout : StepOutcome cfg c .timeout { c with tp := tcpRxmtTmr c.tp }
  | send {buf data : List UInt8} {room : Nat} {delay : Bool} (acknow delack : Bool)
      (hdata : data ≠ [] → c.tp.tState = .established ∧ (c.tp.sndQ ++ data).length ≤ cfg.maxsnd) :
      StepOutcome cfg c (.send buf room delay)
        { c with tp := { c.tp with sndQ := c.tp.sndQ ++ data, acknow, delack } }
  | recv {len : Nat} (acknow : Bool) (hs : c.tp.tState.discarded = false) :
      StepOutcome cfg c (.recv len) { tp := { c.tp with rcvQ := c.tp.rcvQ.drop len, acknow }
                                      taken := c.taken ++ c.tp.rcvQ.take len }
  | close {tp' : Pcb} (hclose : tcpClose c.tp = some tp') :
      StepOutcome cfg c .close { c with tp := tp' }

theorem Conn.step_outcome {cfg : Config} {c c' : Conn} {ev : Event} (h : c.step cfg ev = some c') :
    StepOutcome cfg c ev c' := by
  cases ev with
  | input seg room =>
    rw [step] at h
    split at h
    · cases h
      exact .kept
    · rename_i hopen
      obtain ⟨tp', hin, rfl⟩ := map_eq_some_iff.mp h
      exact .input hopen hin
  | output net =>
    cases h
    exact .output net
  | timeout =>
    rw [step] at h
    split at h
    · cases h
      exact .kept
    · cases h
      exact .timeout
  | send buf room delay =>
    cases h
    obtain ⟨acknow, delack, data, heq, hdata⟩ := tcpSend_cases cfg c.tp buf room delay
    rw [heq]
    exact .send acknow delack hdata
  | recv len =>
    cases h
    rcases tcpRecv_cases c.tp len with heq | ⟨hs, acknow, heq⟩
    · rw [heq, List.append_nil]
      exact .kept
    · rw [heq]
      exact .recv acknow hs
  | close =>
    obtain ⟨tp', hclose, rfl⟩ := map_eq_some_iff.mp h
    exact .close hclose

/-! ## What becomes of a segment -/

/-- What trimming leaves of a segment, `none` when the segment is dropped. -/
def trimmed (cfg : Config) (tp : Pcb) (seg : Seg) : Option Ti :=
  let ti := (trimHead tp { seq := seg.seq, data := seg.data, flags := seg.flags }).2
  if tp.tState.num > TcpState.finWait1.num ∧ ti.data.length ≠ 0 then
    none
  else
    (trimTail tp ti (cfg.maxrcv - tp.rcvQ.length)).map Prod.snd

section
variable {cfg : Config} {tp tp' : Pcb} {seg : Seg} {room : Nat} {ti : Ti} {ack : BitVec 32}

theorem trimLead_fst {todrop : Int} : ∃ b, (trimLead tp ti todrop).1 = { tp with acknow := b } := by
  rw [trimLead]
  split
  · exact ⟨true, rfl⟩
  · exact ⟨tp.acknow, rfl⟩

/-- Trimming the head may ask for an acknowledgment, and touches nothing else of the control
block. -/
theorem trimHead_fst (tp : Pcb) (ti : Ti) : ∃ b, (trimHead tp ti).1 = { tp with acknow := b } := by
  simp only [trimHead]
  split
  · split
    · exact trimLead_fst ..
    · exact trimLead_fst ..
  · exact ⟨tp.acknow, rfl⟩

theorem trimTail_acknow (tp : Pcb) (b : Bool) (ti : Ti) (wnd : Nat) :
    (trimTail tp ti wnd = none ∧ trimTail { tp with acknow := b } ti wnd = none) ∨
    ∃ b' ti', (trimTail tp ti wnd).map Prod.snd = some ti' ∧
      trimTail { tp with acknow := b } ti wnd = some ({ tp with acknow := b' }, ti') := by
  simp only [trimTail]
  split
  · split
    · split
      · exact .inr ⟨true, _, rfl, rfl⟩
      · exact .inl ⟨rfl, rfl⟩
    · exact .inr ⟨b, _, rfl, rfl⟩
  · exact .inr ⟨b, _, rfl, rfl⟩

/-- The general path, by what trimming leaves. -/
theorem slowInput_eq (cfg : Config) (seg : Seg) (room : Nat) (h : tp.tState ≠ .synSent) :
    ∃ b, slowInput cfg tp seg room =
      match trimmed cfg tp seg with
      | none => some { tp with acknow := b }
      | some ti => windowInput { tp with acknow := b } ti seg room := by
  obtain ⟨b, hhead⟩ := trimHead_fst tp { seq := seg.seq, data := seg.data, flags := seg.flags }
  set hd := trimHead tp { seq := seg.seq, data := seg.data, flags := seg.flags } with hhd
  have hpair : hd = ({ tp with acknow := b }, hd.2) := Prod.ext hhead rfl
  rw [slowInput, if_neg h, ← hhd, hpair]
  simp only [trimmed, ← hhd]
  by_cases hearly : tp.tState.num > TcpState.finWait1.num ∧ hd.2.data.length ≠ 0
  · simp only [if_pos hearly]
    exact ⟨b, rfl⟩
  · simp only [if_neg hearly]
    rcases trimTail_acknow tp b hd.2 (cfg.maxrcv - tp.rcvQ.length) with
      ⟨hnone, hnone'⟩ | ⟨b', ti', hsome, hsome'⟩
    · by_cases hrst : hd.2.flags.rst = true
      · exact ⟨b, by simp only [hnone, hnone', map_none, if_pos hrst]⟩
      · exact ⟨true, by simp only [hnone, hnone', map_none, if_neg hrst]⟩
    · rw [hsome, hsome']
      exact ⟨b', rfl⟩

theorem trimLead_ack {todrop : Int} : (trimLead tp ti todrop).2.flags.ack = ti.flags.ack := by
  rw [trimLead]
  split <;> rfl

theorem trimHead_ack : (trimHead tp ti).2.flags.ack = ti.flags.ack := by
  simp only [trimHead]
  split
  · split
    · exact trimLead_ack ..
    · exact trimLead_ack ..
  · rfl

theorem trimTail_ack {wnd : Nat} {r : Pcb × Ti} (h : trimTail tp ti wnd = some r) :
    r.2.flags.ack = ti.flags.ack := by
  simp only [trimTail] at h
  split at h
  · split at h
    · split at h
      · rw [← some.inj h]
      · cases h
    · rw [← some.inj h]
  · rw [← some.inj h]

theorem trimmed_ack (h : trimmed cfg tp seg = some ti) : ti.flags.ack = seg.flags.ack := by
  simp only [trimmed] at h
  split at h
  · cases h
  · obtain ⟨r, hr, rfl⟩ := map_eq_some_iff.mp h
    rw [trimTail_ack hr, trimHead_ack]

/-- A segment within the window ends with RST, is dropped, or is processed. -/
theorem windowInput_cases : (∃ r, rstStage tp = some r ∧ windowInput tp ti seg room = r) ∨
    windowInput tp ti seg room = some tp ∨
    (ti.flags.ack = true ∧ ti.flags.syn = false ∧
      ((∃ r, ackStage tp seg.ack = .drop r ∧ windowInput tp ti seg room = r) ∨
        ∃ tp', ackStage tp seg.ack = .go tp' ∧
          windowInput tp ti seg room = some (step6 tp' ti seg.win room))) := by
  rw [windowInput]
  cases hrst : (if ti.flags.rst then rstStage tp else none) with
  | some r =>
    by_cases h : ti.flags.rst = true
    · rw [if_pos h] at hrst
      exact .inl ⟨r, hrst, rfl⟩
    · rw [if_neg h] at hrst
      cases hrst
  | none =>
    by_cases hsyn : ti.flags.syn = true
    · exact .inr (.inl (if_pos hsyn))
    · by_cases hack : ti.flags.ack = false
      · exact .inr (.inl (by simp only [if_neg hsyn, if_pos hack]))
      · refine .inr (.inr ⟨eq_true_of_ne_false hack, eq_false_of_ne_true hsyn, ?_⟩)
        simp only [if_neg hsyn, if_neg hack]
        cases hstage : ackStage tp seg.ack with
        | drop r => exact .inl ⟨r, rfl, rfl⟩
        | go tp' => exact .inr ⟨tp', rfl, rfl⟩

/-- The ways a segment is taken in another state than SYN_SENT, by the control block they leave. -/
inductive InputOutcome (cfg : Config) (tp : Pcb) (seg : Seg) (room : Nat) : Pcb → Prop
  | predictedAck {k : Nat} (hstate : tp.tState = .established) (hnxt : tp.sndNxt = tp.sndTop)
      (hpos : 0 < k) (hle : k ≤ tp.sndMax.toNat) (hack : seg.ack = tp.sndSeq + BitVec.ofNat 32 k) :
      InputOutcome cfg tp seg room (tp.acked tp.sndOff.toNat tp.sndMax.toNat k)
  | predictedData (acknow delack : Bool) (hstate : tp.tState = .established)
      (hflags : seg.flags.onlyAck = true) (hseq : seg.seq = tp.rcvNxt) :
      InputOutcome cfg tp seg room { tp.append seg.data room with acknow, delack }
  | dropped (acknow : Bool) : InputOutcome cfg tp seg room { tp with acknow }
  | reset (acknow : Bool) :
      InputOutcome cfg tp seg room { tp.freeQueues with tState := .closed, acknow }
  | refused (acknow : Bool) {tp' : Pcb}
      (hstage : ackStage { tp with acknow } seg.ack = .drop (some tp')) :
      InputOutcome cfg tp seg room tp'
  | processed (acknow : Bool) {ti : Ti} {tp' : Pcb} (htrim : trimmed cfg tp seg = some ti)
      (hack : ti.flags.ack = true) (hsyn : ti.flags.syn = false)
      (hstage : ackStage { tp with acknow } seg.ack = .go tp') :
      InputOutcome cfg tp seg room (step6 tp' ti seg.win room)

/-- The counters behind a predicted acknowledgment, which agrees with the general path. -/
theorem predictedAck_eq (hnxt : tp.sndNxt = tp.sndTop)
    (hack : seqGt seg.ack tp.sndSeq = true ∧ seqLeq seg.ack tp.sndTop = true) :
    ∃ k, 0 < k ∧ k ≤ tp.sndMax.toNat ∧ seg.ack = tp.sndSeq + BitVec.ofNat 32 k ∧
      { tp with sndQ := tp.sndQ.drop (seg.ack - tp.sndSeq).toInt.toNat }.setSnd seg.ack tp.sndNxt
        tp.sndTop = tp.acked tp.sndOff.toNat tp.sndMax.toNat k := by
  have hx := tp.sndOff.isLt
  have hy := tp.sndMax.isLt
  have hoff := Pcb.off_eq_max hnxt
  obtain ⟨hgt, hleq⟩ := hack
  simp only [seqGt, seqLeq, decide_eq_true_eq, tp.sndTop_eq] at hgt hleq
  obtain ⟨k, hpos, hle, hk⟩ := exists_between (by omega : tp.sndMax.toNat < 2 ^ 31) hgt hleq
  have hdrop : (seg.ack - tp.sndSeq).toInt.toNat = k := by
    rw [hk, toInt_add_sub (by omega), Int.toNat_natCast]
  have hset : ({ tp with sndQ := tp.sndQ.drop k } : Pcb).setSnd (tp.sndSeq + BitVec.ofNat 32 k)
      (tp.sndSeq + BitVec.ofNat 32 tp.sndOff.toNat)
      (tp.sndSeq + BitVec.ofNat 32 tp.sndMax.toNat) = _ :=
    setSnd_ack rfl (by omega) hle hx hy
  refine ⟨k, hpos, hle, hk, ?_⟩
  rw [hdrop, hk, tp.sndNxt_eq, tp.sndTop_eq, hset, Pcb.acked,
    Nat.max_eq_left (by omega : k ≤ tp.sndOff.toNat)]

theorem predict_outcome (h : predict cfg tp seg room = some tp') :
    InputOutcome cfg tp seg room tp' := by
  rw [predict] at h
  split at h
  case isFalse => cases h
  case isTrue hpred =>
    obtain ⟨hstate, hflags, hseq, -, -, hnxt⟩ := hpred
    split at h
    · split at h
      case isFalse => cases h
      case isTrue hack =>
        obtain ⟨k, hpos, hle, hk, heq⟩ := predictedAck_eq hnxt hack
        rw [← some.inj h, heq]
        exact .predictedAck hstate hnxt hpos hle hk
    · split at h
      case isFalse => cases h
      case isTrue =>
        split at h
        · rw [← some.inj h]
          exact .predictedData true tp.delack hstate hflags hseq
        · rw [← some.inj h]
          exact .predictedData tp.acknow true hstate hflags hseq

theorem rstStage_some (h : rstStage tp = some (some tp')) :
    tp' = { tp.freeQueues with tState := .closed } := by
  rw [rstStage] at h
  split at h <;> first
    | exact (some.inj (some.inj h)).symm
    | exact nomatch some.inj h
    | cases h

theorem slowInput_outcome (hs : tp.tState ≠ .synSent) (h : slowInput cfg tp seg room = some tp') :
    InputOutcome cfg tp seg room tp' := by
  obtain ⟨acknow, heq⟩ := slowInput_eq cfg seg room hs
  rw [heq] at h
  cases htrim : trimmed cfg tp seg with
  | none =>
    rw [htrim] at h
    rw [← some.inj h]
    exact .dropped acknow
  | some ti =>
    rw [htrim] at h
    rcases windowInput_cases with
      ⟨r, hrst, hr⟩ | hdrop | ⟨hack, hsyn, ⟨r, hstage, hr⟩ | ⟨tp1, hstage, hr⟩⟩
    · have hr' : r = some tp' := hr.symm.trans h
      rw [hr'] at hrst
      rw [rstStage_some hrst]
      exact .reset acknow
    · rw [← some.inj (hdrop.symm.trans h)]
      exact .dropped acknow
    · have hr' : r = some tp' := hr.symm.trans h
      rw [hr'] at hstage
      exact .refused acknow hstage
    · rw [← some.inj (hr.symm.trans h)]
      exact .processed acknow htrim hack hsyn hstage

theorem tcpInput_outcome (hs : tp.tState ≠ .synSent)
    (h : tcpInput true cfg tp seg room = some tp') : InputOutcome cfg tp seg room tp' := by
  rw [tcpInput, if_pos rfl] at h
  cases hpred : predict cfg tp seg room with
  | none =>
    rw [hpred] at h
    exact slowInput_outcome hs h
  | some tp1 =>
    rw [hpred] at h
    rw [← some.inj h]
    exact predict_outcome hpred

/-- A connection in SYN_SENT behind the SYN of the peer that acknowledges its own. -/
def Pcb.synced (tp : Pcb) (seg : Seg) : Pcb :=
  { tcpParseOptions (({ tp with sndSeq := tp.sndSeq + 1, base := tp.base + 1 } : Pcb).subSnd 1) seg
      with rcvNxt := seg.seq + 1, sndWnd := seg.win, tState := .established, acknow := true }

/-- A segment in SYN_SENT closes the connection, or it is a SYN without data and establishes it. -/
theorem tcpInput_synSent (hs : tp.tState = .synSent)
    (h : tcpInput true cfg tp seg room = some tp') :
    (tp'.tState = .closed ∧ tp'.fins = tp.fins ∧ tp'.rcvd = tp.rcvd ∧ tp'.rcvQ = [] ∧
      tp'.sndQ = []) ∨
    (seg.flags.syn = true ∧ seg.data = [] ∧ seg.ack = tp.sndSeq + 1 ∧
      tp' = step6 (tp.synced seg) { seq := seg.seq + 1, data := seg.data, flags := seg.flags } seg.win
        room) := by
  have hpred : predict cfg tp seg room = none := by
    rw [predict, if_neg]
    rintro ⟨hest, -⟩
    rw [hs] at hest
    cases hest
  rw [tcpInput, if_pos rfl, hpred] at h
  simp only [slowInput, if_pos hs, synSentInput] at h
  split at h
  · rw [← some.inj h]
    exact .inl ⟨rfl, rfl, rfl, rfl, rfl⟩
  · split at h
    · rw [← some.inj h]
      exact .inl ⟨rfl, rfl, rfl, rfl, rfl⟩
    · rename_i hsyn
      split at h
      · rw [← some.inj h]
        exact .inl ⟨rfl, rfl, rfl, rfl, rfl⟩
      · split at h
        · rw [← some.inj h]
          exact .inl ⟨rfl, rfl, rfl, rfl, rfl⟩
        · rename_i hdata
          split at h
          · rw [← some.inj h]
            exact .inl ⟨rfl, rfl, rfl, rfl, rfl⟩
          · rename_i hack
            exact .inr ⟨eq_true_of_ne_false hsyn,
              List.length_eq_zero_iff.mp (Decidable.not_not.mp hdata),
              (Decidable.not_not.mp hack).symm, (some.inj h).symm⟩

/-! ## The states behind it -/

theorem Pcb.acked_tState {x y k : Nat} : (tp.acked x y k).tState = tp.tState := rfl

theorem ackStage_go (h : ackStage tp ack = .go tp') :
    (tp.tState = .synRcvd ∧ tp.InRange ack ∧ tp'.tState = .established) ∨
    (tp.tState ≠ .synRcvd ∧ (tp'.tState = tp.tState ∨
      (tp.tState = .finWait1 ∧ tp'.tState = .finWait2) ∨
      (tp.tState = .closing ∧ tp'.tState = .timeWait))) := by
  have hout := ackStage_outcome tp ack
  generalize ackStage tp ack = r at h hout
  cases hout with
  | passed hnum =>
    refine .inr ⟨fun hs => ?_, .inl (by rw [Ack.go.inj h])⟩
    rw [hs] at hnum
    exact Nat.lt_irrefl _ hnum
  | refused => cases h
  | much => cases h
  | old _ hopen =>
    by_cases hs : tp.tState = .synRcvd
    · exact .inl ⟨hs, hopen hs, by rw [← Ack.go.inj h, Pcb.accepted_tState hs]⟩
    · exact .inr ⟨hs, .inl (by rw [← Ack.go.inj h, Pcb.accepted_of_ne hs])⟩
  | new _ hopen _ _ _ =>
    have hgo := ackState_go h
    rw [Pcb.acked_tState] at hgo
    by_cases hs : tp.tState = .synRcvd
    · rw [Pcb.accepted_tState hs] at hgo
      rcases hgo with rfl | ⟨hfin, -, -⟩ | ⟨hfin, -, -⟩
      · exact .inl ⟨hs, hopen hs, by rw [Pcb.acked_tState, Pcb.accepted_tState hs]⟩
      · cases hfin
      · cases hfin
    · rw [Pcb.accepted_of_ne hs] at hgo
      refine .inr ⟨hs, ?_⟩
      rcases hgo with rfl | ⟨hfin, -, rfl⟩ | ⟨hfin, -, rfl⟩
      · exact .inl rfl
      · exact .inr (.inl ⟨hfin, rfl⟩)
      · exact .inr (.inr ⟨hfin, rfl⟩)

theorem ackStage_drop (h : ackStage tp ack = .drop (some tp')) :
    tp' = tp ∨ (tp.tState ≠ .synRcvd ∧ tp'.tState = tp.tState) := by
  have hout := ackStage_outcome tp ack
  generalize ackStage tp ack = r at h hout
  cases hout with
  | passed => cases h
  | refused => exact .inl (some.inj (Ack.drop.inj h)).symm
  | much hnum =>
    refine .inr ⟨fun hs => ?_, by rw [← some.inj (Ack.drop.inj h)]⟩
    rw [hs] at hnum
    exact Nat.lt_irrefl _ hnum
  | old => cases h
  | new =>
    obtain ⟨hstate, rfl⟩ := ackState_drop h
    rw [Pcb.acked_tState] at hstate
    have hs : tp.tState ≠ .synRcvd := by
      intro hs
      rw [Pcb.accepted_tState hs] at hstate
      cases hstate
    refine .inr ⟨hs, ?_⟩
    rw [Pcb.acked_tState, Pcb.accepted_of_ne hs]

theorem dataStage_tState (tp : Pcb) (ti : Ti) (room : Nat) :
    (dataStage tp ti room).1.tState = tp.tState := by
  rw [dataStage]
  split
  · split <;> rfl
  · rfl

theorem finStage_tState (tp : Pcb) : (finStage tp).tState = tp.tState ∨
    ((tp.tState = .synRcvd ∨ tp.tState = .established) ∧ (finStage tp).tState = .closeWait) ∨
    (tp.tState = .finWait1 ∧ (finStage tp).tState = .closing) ∨
    (tp.tState = .finWait2 ∧ (finStage tp).tState = .timeWait) := by
  rw [finStage]
  have hkeep : (if tp.tState.haveRcvdFin = true then tp else
      { tp with acknow := true, rcvNxt := tp.rcvNxt + 1, fins := tp.fins + 1 }).tState = tp.tState := by
    split <;> rfl
  generalize (if tp.tState.haveRcvdFin = true then tp else
    { tp with acknow := true, rcvNxt := tp.rcvNxt + 1, fins := tp.fins + 1 }) = tp' at hkeep ⊢
  rw [← hkeep]
  split <;> rename_i hs <;> simp_all

theorem step6_tState (tp : Pcb) (ti : Ti) (win : BitVec 16) (room : Nat) :
    (step6 tp ti win room).tState = tp.tState ∨
    ((tp.tState = .synRcvd ∨ tp.tState = .established) ∧
      (step6 tp ti win room).tState = .closeWait) ∨
    (tp.tState = .finWait1 ∧ (step6 tp ti win room).tState = .closing) ∨
    (tp.tState = .finWait2 ∧ (step6 tp ti win room).tState = .timeWait) := by
  simp only [step6]
  have hkeep : (if ti.flags.ack = true ∧ win ≠ tp.sndWnd then { tp with sndWnd := win } else
      tp).tState = tp.tState := by
    split <;> rfl
  generalize (if ti.flags.ack = true ∧ win ≠ tp.sndWnd then { tp with sndWnd := win } else tp) = tq
    at hkeep ⊢
  have hdata := dataStage_tState tq ti room
  rw [hkeep] at hdata
  split
  · rename_i tr heq
    rw [heq] at hdata
    have hfin := finStage_tState tr
    rw [← hdata]
    exact hfin
  · rename_i tr heq
    rw [heq] at hdata
    exact .inl hdata

/-- Where a segment can take a connection, apart from CLOSED. -/
def TcpState.next : TcpState → List TcpState
  | .synRcvd => [.established, .closeWait]
  | .established => [.closeWait]
  | .finWait1 => [.finWait2, .closing, .timeWait]
  | .finWait2 => [.timeWait]
  | .closing => [.timeWait]
  | _ => []

theorem InputOutcome.moves (h : InputOutcome cfg tp seg room tp') :
    tp'.tState = tp.tState ∨ tp'.tState = .closed ∨ tp'.tState ∈ tp.tState.next := by
  cases h with
  | predictedAck => exact .inl rfl
  | predictedData => exact .inl rfl
  | dropped => exact .inl rfl
  | reset => exact .inr (.inl rfl)
  | refused acknow hstage =>
    rcases ackStage_drop hstage with rfl | ⟨-, hs⟩
    · exact .inl rfl
    · exact .inl hs
  | @processed acknow ti tp1 _ _ _ hstage =>
    have hgo : _ ∨ _ := ackStage_go hstage
    have hstep := step6_tState tp1 ti seg.win room
    generalize (step6 tp1 ti seg.win room).tState = s' at hstep ⊢
    rcases hgo with ⟨hs, -, hmid⟩ | ⟨-, hmid | ⟨hs, hmid⟩ | ⟨hs, hmid⟩⟩
    · rw [hmid] at hstep
      rw [(hs : tp.tState = .synRcvd)]
      rcases hstep with rfl | ⟨-, rfl⟩ | ⟨h, -⟩ | ⟨h, -⟩
      · exact .inr (.inr (by decide))
      · exact .inr (.inr (by decide))
      · cases h
      · cases h
    · rw [(hmid : tp1.tState = tp.tState)] at hstep
      rcases hstep with rfl | ⟨hs | hs, rfl⟩ | ⟨hs, rfl⟩ | ⟨hs, rfl⟩
      · exact .inl rfl
      · exact .inr (.inr (by rw [hs]; decide))
      · exact .inr (.inr (by rw [hs]; decide))
      · exact .inr (.inr (by rw [hs]; decide))
      · exact .inr (.inr (by rw [hs]; decide))
    · rw [hmid] at hstep
      rw [(hs : tp.tState = .finWait1)]
      rcases hstep with rfl | ⟨h | h, -⟩ | ⟨h, -⟩ | ⟨-, rfl⟩
      · exact .inr (.inr (by decide))
      · cases h
      · cases h
      · cases h
      · exact .inr (.inr (by decide))
    · rw [hmid] at hstep
      rw [(hs : tp.tState = .closing)]
      rcases hstep with rfl | ⟨h | h, -⟩ | ⟨h, -⟩ | ⟨h, -⟩
      · exact .inr (.inr (by decide))
      · cases h
      · cases h
      · cases h
      · cases h

end

end Tcp

import ThinkOS.Tcp.Deliver

/-!
# The end of the stream

A peer sends its FIN behind the last byte. The FIN flag survives in a segment that is out of order,
whose data is not taken, or taken only in part: then the connection takes the stream for ended
before it has received all of it. Apart from such segments the end is never early.
-/

namespace Tcp

open Lib Bool List Option

/-- A segment of a peer that begins at `irs` and sends FIN behind the last byte of the stream. -/
def Seg.Consistent (irs : BitVec 32) (stream : List UInt8) (tp : Pcb) (seg : Seg) : Prop :=
  (tp.tState = .synSent → seg.flags.syn = true → seg.seq = irs) ∧
  Agrees stream (seg.place irs tp.rcvd) seg.data ∧
  (seg.flags.fin = true → seg.place irs tp.rcvd + seg.data.length = stream.length)

/-- A FIN that trimming leaves is in order, and all the data before it is taken. -/
def FinInOrder (cfg : Config) (tp : Pcb) (seg : Seg) (room : Nat) : Prop :=
  tp.tState ≠ .synSent → ∀ ti, trimmed cfg tp seg = some ti → ti.flags.syn = false →
    ti.flags.fin = true →
      ti.seq = tp.rcvNxt ∧ (ti.data = [] ∨ tp.tState.takesData = true ∧ ti.data.length ≤ room)

def Event.EndsInOrder (cfg : Config) (irs : BitVec 32) (stream : List UInt8) (c : Conn) :
    Event → Prop
  | .input seg room => seg.Consistent irs stream c.tp ∧ FinInOrder cfg c.tp seg room
  | _ => True

/-- Before and behind the end of the stream. -/
structure Ending (irs : BitVec 32) (stream : List UInt8) (c : Conn) : Prop where
  received : Received irs stream c
  ends : (c.tp.fins = 0 ∧ (c.tp.tState.receiving = true ∨ c.tp.tState = .closed)) ∨
    (c.tp.fins = 1 ∧ c.tp.rcvd = stream)

section
variable {cfg : Config} {irs : BitVec 32} {stream : List UInt8} {c c' : Conn} {tp tp' : Pcb}
  {seg : Seg} {room : Nat} {ev : Event}

/-- Without a FIN a connection goes on receiving, or is reset. -/
theorem InputOutcome.stays (h : InputOutcome cfg tp seg room tp') (hfins : tp'.fins = tp.fins)
    (hs : tp.tState.receiving = true) : tp'.tState.receiving = true ∨ tp'.tState = .closed := by
  cases h with
  | predictedAck => exact .inl hs
  | predictedData => exact .inl hs
  | dropped => exact .inl hs
  | reset => exact .inr rfl
  | refused acknow hstage =>
    rcases ackStage_drop hstage with rfl | ⟨-, hs'⟩
    · exact .inl hs
    · rw [hs']
      exact .inl hs
  | @processed acknow ti tq htrim hack hsyn hstage =>
    obtain ⟨hrcv, hstate⟩ := step6_receives tq ti seg.win room
    have hfin : finTaken tq ti = false := by
      have hmid : tq.fins = tp.fins := (ackStage_go_receives hstage).fins
      have hsum := hrcv.fins
      rw [hfins, hmid] at hsum
      cases hf : finTaken tq ti with
      | false => rfl
      | true =>
        rw [hf, Bool.toNat_true] at hsum
        omega
    rw [hstate, hfin, if_neg Bool.false_ne_true]
    rcases ackStage_go hstage with ⟨-, -, hmid⟩ | ⟨-, hmid | ⟨-, hmid⟩ | ⟨hs', -⟩⟩
    · exact .inl (by rw [hmid]; rfl)
    · exact .inl (by rw [hmid]; exact hs)
    · exact .inl (by rw [hmid]; rfl)
    · rw [(hs' : tp.tState = .closing)] at hs
      cases hs

/-! ## Where the FIN of the peer is -/

section
variable (h : Received irs stream c) (hcons : seg.Consistent irs stream c.tp)
include h hcons

/-- Before the end, by the bytes that are still to come. -/
theorem Received.fin_distance (hopen : c.tp.fins = 0) (hfin : seg.flags.fin = true) :
    c.tp.rcvd.length + (seg.first - c.tp.rcvNxt).toInt + seg.data.length = stream.length := by
  have hend := hcons.2.2 hfin
  have hnxt := h.nxt
  rw [hopen, Nat.add_zero] at hnxt
  rw [Seg.place, ← hnxt] at hend
  exact hend

/-- Behind the end the whole segment has been received. -/
theorem Received.fin_behind (hfins : c.tp.fins = 1) (hall : c.tp.rcvd = stream)
    (hfin : seg.flags.fin = true) :
    (seg.first - c.tp.rcvNxt).toInt = -((seg.data.length : Int) + 1) ∧
      (c.tp.rcvNxt - seg.first).toInt = seg.data.length + 1 := by
  have hlen := seg.data_lt
  have hend := hcons.2.2 hfin
  rw [Seg.place, hall] at hend
  set d := seg.first - (irs + 1 + BitVec.ofNat 32 stream.length) with hd
  have hd' : d = BitVec.ofInt 32 (-(seg.data.length : Int)) := by
    rw [← BitVec.ofInt_toInt (x := d)]
    congr 1
    omega
  have hnxt : c.tp.rcvNxt = irs + 1 + BitVec.ofNat 32 stream.length + 1 := by
    rw [h.nxt, hfins, hall, BitVec.ofNat_add, ← BitVec.add_assoc]
    rfl
  have hone : BitVec.ofInt 32 1 = 1 := rfl
  have hback : seg.first - c.tp.rcvNxt = BitVec.ofInt 32 (-((seg.data.length : Int) + 1)) := by
    rw [Int.neg_add, BitVec.ofInt_add, ← hd', BitVec.ofInt_neg, hone, hnxt, hd]
    ring
  have hforth : c.tp.rcvNxt - seg.first = BitVec.ofInt 32 ((seg.data.length : Int) + 1) := by
    rw [← neg_sub, hback, BitVec.ofInt_neg, neg_neg]
  rw [hback, hforth, BitVec.toInt_ofInt_eq_self (by decide) (by omega) (by omega),
    BitVec.toInt_ofInt_eq_self (by decide) (by omega) (by omega)]
  exact ⟨rfl, rfl⟩

/-- A FIN that comes again is trimmed away. -/
theorem Received.fin_again {ti : Ti} (hfins : c.tp.fins = 1) (hall : c.tp.rcvd = stream)
    (htrim : trimmed cfg c.tp seg = some ti) (hsyn : ti.flags.syn = false) : ti.flags.fin = false := by
  refine eq_false_of_ne_true fun hfin => ?_
  by_cases hseq : ti.seq = c.tp.rcvNxt
  · rcases trimmed_inOrder htrim hsyn hseq with ⟨-, hnone⟩ | ⟨t, hle, hfirst, -, hrest⟩
    · exact false_ne_true (hnone.symm.trans hfin)
    · have hback := (h.fin_behind hcons hfins hall (hrest hfin).1).1
      omega
  · obtain ⟨hfin', -, hahead⟩ := trimmed_ahead htrim hsyn hseq hfin
    have hforth := (h.fin_behind hcons hfins hall hfin').2
    omega

/-- A FIN in order behind all the data: the stream is complete. -/
theorem Received.fin_complete {ti : Ti} {new : List UInt8} (hopen : c.tp.fins = 0)
    (htrim : trimmed cfg c.tp seg = some ti) (hsyn : ti.flags.syn = false) (hfin : ti.flags.fin = true)
    (hseq : ti.seq = c.tp.rcvNxt) (hnew : new = ti.data) : (c.tp.rcvd ++ new).length = stream.length := by
  rcases trimmed_inOrder htrim hsyn hseq with ⟨-, hnone⟩ | ⟨t, hle, hfirst, -, hrest⟩
  · exact absurd (hnone.symm.trans hfin) false_ne_true
  · obtain ⟨hfin', hdata⟩ := hrest hfin
    have hend := h.fin_distance hcons hopen hfin'
    rw [hnew, hdata, length_append, length_drop]
    omega

/-- Conversely, when the stream is complete behind a FIN, it came in order with all the data. -/
theorem Received.fin_inOrder {ti : Ti} {new : List UInt8} (hopen : c.tp.fins = 0)
    (htrim : trimmed cfg c.tp seg = some ti) (hsyn : ti.flags.syn = false) (hfin : ti.flags.fin = true)
    (hnew : new = if ti.seq = c.tp.rcvNxt ∧ c.tp.tState.takesData = true then ti.data.take room
      else []) (hall : (c.tp.rcvd ++ new).length = stream.length) : ti.seq = c.tp.rcvNxt ∧
      (ti.data = [] ∨ c.tp.tState.takesData = true ∧ ti.data.length ≤ room) := by
  have hlen := seg.data_lt
  by_cases hseq : ti.seq = c.tp.rcvNxt
  · have hdata := h.fin_complete hcons hopen htrim hsyn hfin hseq rfl
    rw [← hall, List.length_append, List.length_append] at hdata
    by_cases htakes : c.tp.tState.takesData = true
    · rw [hnew, if_pos ⟨hseq, htakes⟩, List.length_take] at hdata
      exact ⟨hseq, .inr ⟨htakes, by omega⟩⟩
    · rw [hnew, if_neg fun h => htakes h.2] at hdata
      exact ⟨hseq, .inl (List.length_eq_zero_iff.mp (Nat.add_left_cancel hdata))⟩
  · -- nothing was appended, so the FIN would be at `rcv_nxt`
    obtain ⟨hfin', hne, hahead⟩ := trimmed_ahead htrim hsyn hseq hfin
    have hdist := h.fin_distance hcons hopen hfin'
    rw [hnew, if_neg fun h => hseq h.1, List.append_nil] at hall
    have hback : seg.first - c.tp.rcvNxt = BitVec.ofInt 32 (-(seg.data.length : Int)) := by
      rw [← BitVec.ofInt_toInt (x := seg.first - c.tp.rcvNxt)]
      congr 1
      omega
    have hforth : c.tp.rcvNxt - seg.first = BitVec.ofInt 32 (seg.data.length : Int) := by
      rw [← neg_sub, hback, BitVec.ofInt_neg, neg_neg]
    rw [hforth, BitVec.toInt_ofInt_eq_self (by decide) (by omega) (by omega)] at hahead
    have hzero : seg.data.length = 0 := by omega
    rw [hzero] at hback
    exact absurd (sub_eq_zero.mp hback) hne

/-! ## A segment of the peer -/

/-- Behind the end nothing more is received. -/
theorem Ending.input_behind (hfins : c.tp.fins = 1) (hall : c.tp.rcvd = stream)
    (hin : InputOutcome cfg c.tp seg room tp') : tp'.fins = 1 ∧ tp'.rcvd = stream := by
  obtain ⟨new, fin, hrcv, hnew, hfin⟩ := hin.receives
  have hnone : new = [] := by
    rcases hnew with hnew | ⟨htakes, -⟩
    · exact hnew
    · have := h.fins (takesData_receiving htakes)
      omega
  have hnofin : fin = false := by
    refine eq_false_of_ne_true fun htrue => ?_
    obtain ⟨-, ti, htrim, hfinti, hsyn, -⟩ := hfin htrue
    exact false_ne_true ((h.fin_again hcons hfins hall htrim hsyn).symm.trans hfinti)
  rw [hrcv.fins, hrcv.rcvd, hnone, hnofin, append_nil]
  exact ⟨hfins, hall⟩

/-- An accepted FIN completes the stream exactly if it was in order. -/
theorem Received.fin_iff (hopen : c.tp.fins = 0) (hin : InputOutcome cfg c.tp seg room tp')
    (hfins : tp'.fins ≠ c.tp.fins) :
    tp'.fins = 1 ∧ (tp'.rcvd = stream ↔ FinInOrder cfg c.tp seg room) := by
  have hpre : tp'.rcvd <+: stream := (h.input hcons.2.1 hin).stream
  obtain ⟨new, fin, hrcv, -, hfin⟩ := hin.receives
  have htrue : fin = true := by
    refine eq_true_of_ne_false fun hfalse => hfins ?_
    rw [hrcv.fins, hfalse]
    rfl
  obtain ⟨-, ti, htrim, hfinti, hsyn, hnew⟩ := hfin htrue
  refine ⟨by rw [hrcv.fins, hopen, htrue]; rfl, fun hall => ?_, fun horder => ?_⟩
  · intro _ ti' htrim' _ _
    obtain rfl : ti = ti' := some.inj (htrim.symm.trans htrim')
    refine h.fin_inOrder hcons hopen htrim hsyn hfinti hnew ?_
    rw [← hrcv.rcvd, hall]
  · obtain ⟨hseq, hdata⟩ := horder h.synced ti htrim hsyn hfinti
    have hnew' : new = ti.data := by
      rcases hdata with hdata | ⟨htakes, hroom⟩
      · rw [hnew, hdata, take_nil, ite_self]
      · rw [hnew, if_pos ⟨hseq, htakes⟩, take_of_length_le hroom]
    refine hpre.eq_of_length ?_
    rw [hrcv.rcvd]
    exact h.fin_complete hcons hopen htrim hsyn hfinti hseq hnew'

end

theorem Ending.input (h : Ending irs stream c) (hne : c.tp.tState ≠ .closed)
    (hcons : seg.Consistent irs stream c.tp) (horder : FinInOrder cfg c.tp seg room)
    (hin : InputOutcome cfg c.tp seg room tp') : Ending irs stream { c with tp := tp' } := by
  refine ⟨h.received.input hcons.2.1 hin, ?_⟩
  rcases h.ends with ⟨hopen, hs⟩ | ⟨hfins, hall⟩
  · by_cases hsame : tp'.fins = c.tp.fins
    · exact .inl ⟨hsame.trans hopen, hin.stays hsame (hs.resolve_right hne)⟩
    · obtain ⟨hone, hiff⟩ := h.received.fin_iff hcons hopen hin hsame
      exact .inr ⟨hone, hiff.mpr horder⟩
  · exact .inr (input_behind h.received hcons hfins hall hin)

/-! ## The answer to an active open -/

theorem synced_rcvSide (tp : Pcb) (seg : Seg) :
    (tp.synced seg).rcvSide = (seg.seq + 1, tp.rcvQ, tp.rcvd, tp.fins) := by
  rw [Pcb.synced, tcpParseOptions]
  split <;> rfl

/-- A connection that has not heard of its peer, or was closed before. -/
structure Unsynced (c : Conn) : Prop where
  state : c.tp.tState = .synSent ∨ c.tp.tState = .closed
  fins : c.tp.fins = 0
  rcvd : c.tp.rcvd = []
  taken : c.taken = []
  queue : c.tp.rcvQ = []

theorem Unsynced.input (h : Unsynced c) (hs : c.tp.tState = .synSent)
    (hcons : seg.Consistent irs stream c.tp) (hin : tcpInput true cfg c.tp seg room = some tp') :
    Ending irs stream { c with tp := tp' } ∨ Unsynced { c with tp := tp' } := by
  rcases tcpInput_synSent hs hin with
    ⟨hs', hfins, hrcvd, hq, -⟩ | ⟨hsyn, hdata, -, rfl⟩
  · exact .inr ⟨.inr hs', hfins.trans h.fins, hrcvd.trans h.rcvd, h.taken, hq⟩
  · have hseq : seg.seq = irs := hcons.1 hs hsyn
    have hside := synced_rcvSide c.tp seg
    simp only [Pcb.rcvSide, Prod.mk.injEq] at hside
    obtain ⟨hnxt, hq, hrcvd, hfins⟩ := hside
    have hest : (c.tp.synced seg).tState = .established := rfl
    generalize c.tp.synced seg = tq at hnxt hq hrcvd hfins hest
    obtain ⟨hrcv, hstate⟩ := step6_receives tq
      { seq := seg.seq + 1, data := seg.data, flags := seg.flags } seg.win room
    set ti : Ti := { seq := seg.seq + 1, data := seg.data, flags := seg.flags } with hti
    have hnew : appended tq ti room = [] := by
      rw [appended, hti, hdata, List.take_nil, ite_self]
    have hrcvd' : (step6 tq ti seg.win room).rcvd = [] := by
      rw [hrcv.rcvd, hrcvd, h.rcvd, hnew, List.append_nil]
    have hfins' : (step6 tq ti seg.win room).fins = (finTaken tq ti).toNat := by
      rw [hrcv.fins, hfins, h.fins, Nat.zero_add]
    have hqueue : (step6 tq ti seg.win room).rcvQ = [] := by
      rcases hrcv.queue with hq' | ⟨hq', -⟩
      · rw [hq', hq, h.queue, hnew, List.append_nil]
      · exact hq'
    have hnxt' : (step6 tq ti seg.win room).rcvNxt =
        irs + 1 + BitVec.ofNat 32 (finTaken tq ti).toNat := by
      rw [hrcv.nxt, hnxt, hseq, hnew, List.length_nil, Nat.zero_add]
    rw [hest] at hstate
    refine .inl ⟨⟨?_, ?_, ?_, ?_, .inl ?_⟩, ?_⟩
    · show (step6 tq ti seg.win room).tState ≠ .synSent
      rw [hstate]
      cases finTaken tq ti <;> decide
    · show (step6 tq ti seg.win room).rcvd <+: stream
      rw [hrcvd']
      exact List.nil_prefix
    · show (step6 tq ti seg.win room).rcvNxt = _
      rw [hnxt', hrcvd', hfins', List.length_nil, Nat.zero_add]
    · show (step6 tq ti seg.win room).tState.receiving = true → (step6 tq ti seg.win room).fins = 0
      rw [hstate, hfins']
      cases finTaken tq ti <;> decide
    · show c.taken ++ (step6 tq ti seg.win room).rcvQ = (step6 tq ti seg.win room).rcvd
      rw [h.taken, hqueue, hrcvd']
      rfl
    · show (((step6 tq ti seg.win room).fins = 0 ∧ _) ∨
        ((step6 tq ti seg.win room).fins = 1 ∧ (step6 tq ti seg.win room).rcvd = stream))
      cases hfin : finTaken tq ti with
      | false =>
        refine .inl ⟨by rw [hfins', hfin]; rfl, .inl ?_⟩
        rw [hstate, hfin]
        rfl
      | true =>
        refine .inr ⟨by rw [hfins', hfin]; rfl, ?_⟩
        have hend := hcons.2.2 ((Bool.and_eq_true _ _).mp hfin).1
        have hfirst : seg.first = irs + 1 := by rw [Seg.first, if_pos hsyn, hseq]
        rw [Seg.place, h.rcvd, hdata, hfirst, List.length_nil, BitVec.ofNat_eq_ofNat,
          BitVec.add_zero, sub_self] at hend
        have hzero : (0 : BitVec 32).toInt = 0 := rfl
        rw [hrcvd']
        exact (List.length_eq_zero_iff.mp (by omega)).symm

/-! ## Whole runs -/

/-- The states behind events other than segments. -/
theorem Conn.step_tState (hev : ∀ seg room, ev ≠ .input seg room)
    (hstep : c.step cfg ev = some c') :
    c'.tp.tState = c.tp.tState ∨ (c.tp.tState.takesData = true ∧ c'.tp.tState = .finWait1) ∨
      (c.tp.tState = .closeWait ∧ c'.tp.tState = .lastAck) := by
  cases step_outcome hstep with
  | input => exact absurd rfl (hev _ _)
  | output net => exact .inl (tcpOutput_tState ..)
  | close hclose =>
    rcases tcpClose_cases hclose with rfl | ⟨hs, rfl⟩ | ⟨hs, rfl⟩
    · exact .inl rfl
    · exact .inr (.inl ⟨hs, rfl⟩)
    · exact .inr (.inr ⟨hs, rfl⟩)
  | _ => exact .inl rfl

theorem Ending.quiet (h : Ending irs stream c) (hev : ∀ seg room, ev ≠ .input seg room)
    (hstep : c.step cfg ev = some c') : Ending irs stream c' := by
  have hfits : ev.Fits irs stream c := by
    cases ev with
    | input seg room => exact absurd rfl (hev seg room)
    | _ => trivial
  obtain ⟨-, hrcvd, hfins⟩ := Conn.step_quiet hev hstep
  refine ⟨h.received.step hfits hstep, ?_⟩
  rw [hrcvd, hfins]
  rcases h.ends with ⟨hopen, hs⟩ | hend
  · refine .inl ⟨hopen, ?_⟩
    rcases Conn.step_tState hev hstep with hs' | ⟨-, hs'⟩ | ⟨hwait, -⟩
    · rw [hs']
      exact hs
    · exact .inl (by rw [hs']; rfl)
    · rw [hwait] at hs
      exact hs.elim nofun nofun
  · exact .inr hend

theorem Unsynced.quiet (h : Unsynced c) (hev : ∀ seg room, ev ≠ .input seg room)
    (hstep : c.step cfg ev = some c') : Unsynced c' := by
  obtain ⟨-, hrcvd, hfins⟩ := Conn.step_quiet hev hstep
  have hstate : c'.tp.tState = .synSent ∨ c'.tp.tState = .closed := by
    rcases Conn.step_tState hev hstep with hs' | ⟨htakes, -⟩ | ⟨hwait, -⟩
    · rw [hs']
      exact h.state
    · rcases h.state with hs | hs <;> rw [hs] at htakes <;> cases htakes
    · rcases h.state with hs | hs <;> rw [hs] at hwait <;> cases hwait
  have hkeep : c'.taken = c.taken ∧ c'.tp.rcvQ = c.tp.rcvQ := by
    cases Conn.step_outcome hstep with
    | input => exact absurd rfl (hev _ _)
    | output net => exact ⟨rfl, congrArg (fun side => side.2.1) tcpOutput_rcvSide.1⟩
    | recv acknow =>
      rw [h.queue, take_nil, drop_nil]
      exact ⟨append_nil _, rfl⟩
    | close hclose =>
      rcases tcpClose_cases hclose with rfl | ⟨-, rfl⟩ | ⟨hs, -⟩
      · exact ⟨rfl, rfl⟩
      · exact ⟨rfl, rfl⟩
      · rcases h.state with hs' | hs' <;> cases hs.symm.trans hs'
    | _ => exact ⟨rfl, rfl⟩
  exact ⟨hstate, hfins.trans h.fins, hrcvd.trans h.rcvd, hkeep.1.trans h.taken,
    hkeep.2.trans h.queue⟩

theorem ending_step (h : Ending irs stream c ∨ Unsynced c) (hev : ev.EndsInOrder cfg irs stream c)
    (hstep : c.step cfg ev = some c') : Ending irs stream c' ∨ Unsynced c' := by
  by_cases hinput : ∃ seg room, ev = .input seg room
  · obtain ⟨seg, room, rfl⟩ := hinput
    cases Conn.step_outcome hstep with
    | kept => exact h
    | input hne hin =>
      rcases h with h | h
      · exact .inl (h.input hne hev.1 hev.2 (tcpInput_outcome h.received.synced hin))
      · exact h.input (h.state.resolve_right hne) hev.1 hin
  · have hquiet : ∀ seg room, ev ≠ .input seg room := fun seg room heq => hinput ⟨seg, room, heq⟩
    rcases h with h | h
    · exact .inl (h.quiet hquiet hstep)
    · exact .inr (h.quiet hquiet hstep)

end

/-- The states behind a FIN of the peer. -/
def TcpState.ended : TcpState → Bool
  | .closeWait | .closing | .lastAck | .timeWait => true
  | _ => false

/-- A connection to begin with: it has sent its SYN, or has received a part of the stream. -/
structure Begins (irs : BitVec 32) (stream : List UInt8) (c : Conn) : Prop where
  fins : c.tp.fins = 0
  stream : c.tp.rcvd <+: stream
  queue : c.taken ++ c.tp.rcvQ = c.tp.rcvd
  state : (c.tp.tState = .synSent ∧ c.tp.rcvd = []) ∨ (c.tp.tState.receiving = true ∧
      c.tp.rcvNxt = irs + 1 + BitVec.ofNat 32 c.tp.rcvd.length)

theorem Begins.ending {irs : BitVec 32} {stream : List UInt8} {c : Conn}
    (h : Begins irs stream c) : Ending irs stream c ∨ Unsynced c := by
  rcases h.state with ⟨hs, hrcvd⟩ | ⟨hs, hnxt⟩
  · obtain ⟨htaken, hqueue⟩ := append_eq_nil_iff.mp (h.queue.trans hrcvd)
    exact .inr ⟨.inl hs, h.fins, hrcvd, htaken, hqueue⟩
  · refine .inl ⟨⟨fun hs' => ?_, h.stream, ?_, fun _ => h.fins, .inl h.queue⟩, .inl ⟨h.fins, .inl hs⟩⟩
    · rw [hs'] at hs
      cases hs
    · rw [hnxt, h.fins, Nat.add_zero]

/-- The byte 7 with a FIN behind it. -/
def peerLast : Seg :=
  { peerByte with flags := { ack := true, fin := true } }

theorem begins_idleConn {stream : List UInt8} : Begins 100 stream idleConn :=
  ⟨rfl, nil_prefix, rfl, .inr ⟨rfl, rfl⟩⟩

end Tcp

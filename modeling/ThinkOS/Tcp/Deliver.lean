import ThinkOS.Tcp.Trim

/-!
# Delivery in order

The bytes that `tcp_input` appends to `rcv_q` are a prefix of the peer's stream, and `rcv_nxt` counts
them, whatever the order in which the segments arrive. An accepted FIN counts as well.
-/

namespace Tcp

open Lib BitVec Bool List Option

/-! ## What `step6` does to the receive side -/

/-- The bytes that `step6` appends to `rcv_q`. -/
def appended (tp : Pcb) (ti : Ti) (room : Nat) : List UInt8 :=
  if ti.seq = tp.rcvNxt ∧ tp.tState = .established then ti.data.take room else []

/-- `step6` advances `rcv_nxt` over a FIN. -/
def finTaken (tp : Pcb) (ti : Ti) : Bool :=
  ti.flags.fin && !tp.tState.haveRcvdFin

/-- The state behind an accepted FIN. -/
def TcpState.behindFin : TcpState → TcpState
  | .synRcvd | .established => .closeWait
  | .finWait1 => .closing
  | .finWait2 => .timeWait
  | s => s

/-- The receive side behind `new` bytes and, if `fin` is set, a FIN. -/
structure Receives (tp : Pcb) (new : List UInt8) (fin : Bool) (tp' : Pcb) : Prop where
  rcvd : tp'.rcvd = tp.rcvd ++ new
  nxt : tp'.rcvNxt = tp.rcvNxt + BitVec.ofNat 32 (new.length + fin.toNat)
  fins : tp'.fins = tp.fins + fin.toNat
  queue : tp'.rcvQ = tp.rcvQ ++ new ∨ tp'.rcvQ = [] ∧
    (tp'.tState = .timeWait ∨ tp'.tState = .closed)

section
variable {cfg : Config} {tp tp' tq : Pcb} {seg : Seg} {ti : Ti} {room : Nat} {ack : BitVec 32}
  {new : List UInt8} {fin : Bool}

theorem Receives.refl (tp : Pcb) : Receives tp [] false tp :=
  ⟨(append_nil _).symm, (add_zero _).symm, rfl, .inl (append_nil _).symm⟩

/-- The fields of the receive side. -/
def Pcb.rcvSide (tp : Pcb) : BitVec 32 × List UInt8 × List UInt8 × Nat :=
  (tp.rcvNxt, tp.rcvQ, tp.rcvd, tp.fins)

theorem Receives.congr (h : Receives tq new fin tp') (hside : tq.rcvSide = tp.rcvSide) :
    Receives tp new fin tp' := by
  simp only [Pcb.rcvSide, Prod.mk.injEq] at hside
  obtain ⟨hnxt, hq, hrcvd, hfins⟩ := hside
  exact ⟨hrcvd ▸ h.rcvd, hnxt ▸ h.nxt, hfins ▸ h.fins, hq ▸ h.queue⟩

theorem finStage_receives (h : tp.tState.haveRcvdFin = false) :
    Receives tp [] true (finStage tp) ∧ (finStage tp).tState = tp.tState.behindFin := by
  have hkeep (s : TcpState) : Receives tp [] true
      { tp with tState := s, acknow := true, rcvNxt := tp.rcvNxt + 1, fins := tp.fins + 1 } :=
    ⟨(append_nil _).symm, rfl, rfl, .inl (append_nil _).symm⟩
  rw [finStage, h]
  cases hs : tp.tState
  case finWait2 =>
    exact ⟨⟨(append_nil _).symm, rfl, rfl, .inr ⟨rfl, .inl rfl⟩⟩, rfl⟩
  case timeWait =>
    rw [hs] at h
    cases h
  all_goals exact ⟨hkeep _, rfl⟩

theorem Receives.trans (h : Receives tp new false tq) (hq : tq.rcvQ = tp.rcvQ ++ new)
    (h' : Receives tq [] fin tp') : Receives tp new fin tp' where
  rcvd := by rw [h'.rcvd, h.rcvd, append_nil]
  nxt := by
    rw [h'.nxt, h.nxt, add_assoc, ← ofNat_add]
    simp
  fins := by rw [h'.fins, h.fins]; simp
  queue := by
    rcases h'.queue with hq' | hq'
    · exact .inl (by rw [hq', hq, append_nil])
    · exact .inr hq'

theorem dataStage_receives (tp : Pcb) (ti : Ti) (room : Nat) :
    Receives tp (appended tp ti room) false (dataStage tp ti room).1 ∧
    (dataStage tp ti room).1.rcvQ = tp.rcvQ ++ appended tp ti room ∧
    (dataStage tp ti room).2 = finTaken tp ti := by
  rw [dataStage]
  split
  case isTrue h =>
    have hfin : ti.flags.fin = finTaken tp ti := by
      rw [finTaken, h.2, Bool.not_false, Bool.and_true]
    split
    · rename_i horder
      rw [appended, if_pos horder]
      exact ⟨⟨rfl, rfl, rfl, .inl rfl⟩, rfl, hfin⟩
    · rename_i horder
      rw [appended, if_neg horder, List.append_nil]
      exact ⟨⟨(List.append_nil _).symm, (BitVec.add_zero _).symm, rfl, .inl (List.append_nil _).symm⟩,
        rfl, hfin⟩
  case isFalse h =>
    -- neither data nor a FIN, or a FIN was received before
    have hnone : appended tp ti room = [] := by
      rw [appended]
      split
      · rename_i horder
        have hopen : tp.tState.haveRcvdFin = false := by rw [horder.2]; rfl
        have hdata : ti.data.length = 0 := by
          by_contra hne
          exact h ⟨.inl hne, hopen⟩
        rw [List.length_eq_zero_iff.mp hdata, List.take_nil]
      · rfl
    have hfin : false = finTaken tp ti := by
      rw [finTaken]
      cases hf : ti.flags.fin with
      | false => rfl
      | true =>
        cases hr : tp.tState.haveRcvdFin with
        | false => exact absurd ⟨.inr hf, hr⟩ h
        | true => rfl
    rw [hnone, List.append_nil]
    exact ⟨.refl tp, rfl, hfin⟩

theorem step6_receives (tp : Pcb) (ti : Ti) (win : BitVec 16) (room : Nat) :
    Receives tp (appended tp ti room) (finTaken tp ti) (step6 tp ti win room) ∧
    (step6 tp ti win room).tState =
      if finTaken tp ti then tp.tState.behindFin else tp.tState := by
  have hwin : ∃ w, (if ti.flags.ack = true ∧ win ≠ tp.sndWnd then { tp with sndWnd := win } else tp) =
      { tp with sndWnd := w } := by
    split
    · exact ⟨win, rfl⟩
    · exact ⟨tp.sndWnd, rfl⟩
  obtain ⟨w, hw⟩ := hwin
  obtain ⟨hdata, hqueue, hfin⟩ := dataStage_receives { tp with sndWnd := w } ti room
  have hstate := dataStage_tState { tp with sndWnd := w } ti room
  have hdata' : Receives tp (appended tp ti room) false _ :=
    ⟨hdata.rcvd, hdata.nxt, hdata.fins, hdata.queue⟩
  rw [step6, hw]
  generalize dataStage { tp with sndWnd := w } ti room = r at hdata' hqueue hfin hstate
  obtain ⟨tq, fin⟩ := r
  have hfin' : fin = finTaken tp ti := hfin
  rw [← hfin']
  cases fin with
  | false => exact ⟨hdata', hstate⟩
  | true =>
    have hopen : tq.tState.haveRcvdFin = false := by
      have htaken : (ti.flags.fin && !tp.tState.haveRcvdFin) = true := hfin'.symm
      rw [and_eq_true, not_eq_true'] at htaken
      rw [hstate]
      exact htaken.2
    obtain ⟨hrcv, hbehind⟩ := finStage_receives hopen
    refine ⟨hdata'.trans hqueue hrcv, hbehind.trans ?_⟩
    rw [hstate]
    rfl

/-! ## What a segment does to the receive side -/

/-- The states before a FIN from the peer, in which the connection may still receive. -/
def TcpState.receiving : TcpState → Bool
  | .synRcvd | .established | .finWait1 | .finWait2 => true
  | _ => false

theorem ackState_receives {b : Bool} (h : ackState tp b = .go tp') : Receives tp [] false tp' := by
  rcases ackState_go h with rfl | ⟨-, -, rfl⟩ | ⟨-, -, rfl⟩
  · exact .refl _
  · exact ⟨(append_nil _).symm, (add_zero _).symm, rfl, .inl (append_nil _).symm⟩
  · exact ⟨(append_nil _).symm, (add_zero _).symm, rfl, .inr ⟨rfl, .inl rfl⟩⟩

theorem Pcb.accepted_rcvSide (tp : Pcb) : tp.accepted.rcvSide = tp.rcvSide := by
  rw [accepted]
  split <;> rfl

theorem ackStage_go_receives (h : ackStage tp ack = .go tp') : Receives tp [] false tp' := by
  have hout := ackStage_outcome tp ack
  generalize ackStage tp ack = r at h hout
  cases hout with
  | passed =>
    rw [← Ack.go.inj h]
    exact .refl tp
  | refused => cases h
  | much => cases h
  | old =>
    rw [← Ack.go.inj h]
    exact (Receives.refl _).congr tp.accepted_rcvSide
  | new => exact (ackState_receives h).congr tp.accepted_rcvSide

theorem ackStage_drop_receives (h : ackStage tp ack = .drop (some tp')) :
    Receives tp [] false tp' := by
  have hout := ackStage_outcome tp ack
  generalize ackStage tp ack = r at h hout
  cases hout with
  | passed => cases h
  | refused =>
    rw [← some.inj (Ack.drop.inj h)]
    exact .refl tp
  | much =>
    rw [← some.inj (Ack.drop.inj h)]
    exact (Receives.refl _).congr rfl
  | old => cases h
  | new =>
    obtain ⟨-, rfl⟩ := ackState_drop h
    exact (Receives.refl _).congr tp.accepted_rcvSide

/-- `step6` behind an acknowledgment, which may have discarded the queue on the way to TIME_WAIT. -/
theorem Receives.step6 (h : Receives tp [] false tq) (ti : Ti) (win : BitVec 16) (room : Nat) :
    Receives tp (appended tq ti room) (finTaken tq ti) (step6 tq ti win room) := by
  obtain ⟨hrcv, hstate⟩ := step6_receives tq ti win room
  have hnxt : tq.rcvNxt = tp.rcvNxt := h.nxt.trans (add_zero _)
  refine ⟨?_, ?_, ?_, ?_⟩
  · rw [hrcv.rcvd, h.rcvd, append_nil]
  · rw [hrcv.nxt, hnxt]
  · rw [hrcv.fins, h.fins]
    rfl
  · rcases h.queue with hq | ⟨hq, hs⟩
    · rw [append_nil] at hq
      rw [← hq]
      exact hrcv.queue
    · have hnone : appended tq ti room = [] := by
        refine if_neg fun horder => ?_
        rw [horder.2] at hs
        exact hs.elim nofun nofun
      have hstay : (Tcp.step6 tq ti win room).tState = tq.tState := by
        rw [hstate]
        rcases hs with hs | hs <;> rw [hs] <;> exact ite_self _
      rw [hstay]
      refine .inr ⟨?_, hs⟩
      rcases hrcv.queue with hq' | ⟨hq', -⟩
      · rw [hq', hnone, hq, append_nil]
      · exact hq'

theorem ackStage_go_established (h : ackStage tp ack = .go tp') :
    tp'.tState = .established ↔ tp.tState.takesData = true := by
  rcases ackStage_go h with ⟨hs, -, hmid⟩ | ⟨hne, hmid | ⟨hs, hmid⟩ | ⟨hs, hmid⟩⟩
  · rw [hs, hmid]
    exact ⟨fun _ => rfl, fun _ => rfl⟩
  · rw [hmid]
    revert hne
    cases tp.tState <;> decide
  · rw [hs, hmid]
    decide
  · rw [hs, hmid]
    decide

theorem behindFin_receiving {s : TcpState} : s.behindFin.receiving = false := by
  cases s <;> rfl

/-- The data and the FIN that a segment brings, by what trimming has left of it. -/
theorem InputOutcome.receives (h : InputOutcome cfg tp seg room tp') :
    ∃ new fin, Receives tp new fin tp' ∧
      (new = [] ∨ tp.tState.takesData = true ∧ ∃ t, t ≤ seg.data.length ∧
        (seg.first - tp.rcvNxt).toInt = -(t : Int) ∧ new <+: seg.data.drop t) ∧
      (fin = true → tp'.tState.receiving = false ∧
        ∃ ti, trimmed cfg tp seg = some ti ∧ ti.flags.fin = true ∧ ti.flags.syn = false ∧
          new = if ti.seq = tp.rcvNxt ∧ tp.tState.takesData = true then ti.data.take room else []) := by
  cases h with
  | predictedAck => exact ⟨[], false, (Receives.refl _).congr rfl, .inl rfl, nofun⟩
  | predictedData acknow delack hstate hflags hseq =>
    refine ⟨seg.data.take room, false, ⟨rfl, rfl, rfl, .inl rfl⟩, .inr ⟨?_, 0, Nat.zero_le _, ?_,
      List.take_prefix ..⟩, nofun⟩
    · rw [hstate]
      rfl
    · have hsyn : seg.flags.syn = false := by
        simp only [Flags.onlyAck, Bool.and_eq_true, Bool.not_eq_true'] at hflags
        exact hflags.1.1.1.2
      rw [Seg.first, hsyn, if_neg Bool.false_ne_true, hseq, sub_self]
      rfl
  | dropped => exact ⟨[], false, (Receives.refl _).congr rfl, .inl rfl, nofun⟩
  | reset =>
    exact ⟨[], false, ⟨(List.append_nil _).symm, (BitVec.add_zero _).symm, rfl,
      .inr ⟨rfl, .inr rfl⟩⟩, .inl rfl, nofun⟩
  | refused acknow hstage =>
    exact ⟨[], false, (ackStage_drop_receives hstage).congr rfl, .inl rfl, nofun⟩
  | @processed acknow ti tq htrim hack hsyn hstage =>
    have hgo : Receives tp [] false tq := (ackStage_go_receives hstage).congr rfl
    have hnxt : tq.rcvNxt = tp.rcvNxt := hgo.nxt.trans (BitVec.add_zero _)
    have hnew : appended tq ti room =
        if ti.seq = tp.rcvNxt ∧ tp.tState.takesData = true then ti.data.take room else [] := by
      simp only [appended, hnxt, ackStage_go_established hstage]
    refine ⟨_, _, hgo.step6 ti seg.win room, ?_, fun hfin => ⟨?_, ti, htrim, ?_, hsyn, hnew⟩⟩
    · rw [hnew]
      split
      · rename_i horder
        rcases trimmed_inOrder htrim hsyn horder.1 with ⟨hdata, -⟩ | ⟨t, hle, hfirst, hpre, -⟩
        · exact .inl (by rw [hdata, List.take_nil])
        · exact .inr ⟨horder.2, t, hle, hfirst, (List.take_prefix ..).trans hpre⟩
      · exact .inl rfl
    · rw [(step6_receives tq ti seg.win room).2, if_pos hfin]
      exact behindFin_receiving
    · exact (Bool.and_eq_true _ _).mp hfin |>.1

end

/-! ## The stream of the peer -/

/-- The place of a segment's data in the stream behind the initial sequence number `irs`: the
distance to the next byte to receive is that of the sequence numbers. -/
def Seg.place (irs : BitVec 32) (rcvd : List UInt8) (seg : Seg) : Int :=
  rcvd.length + (seg.first - (irs + 1 + BitVec.ofNat 32 rcvd.length)).toInt

/-- Data at the place `p` is that of the stream; what lies before its beginning does not matter. -/
def Agrees (stream : List UInt8) (p : Int) (data : List UInt8) : Prop :=
  ∀ i (h : i < data.length), 0 ≤ p + i → stream[(p + i).toNat]? = some data[i]

/-- The receive side of a connection, against the stream. -/
structure Received (irs : BitVec 32) (stream : List UInt8) (c : Conn) : Prop where
  synced : c.tp.tState ≠ .synSent
  stream : c.tp.rcvd <+: stream
  nxt : c.tp.rcvNxt = irs + 1 + BitVec.ofNat 32 (c.tp.rcvd.length + c.tp.fins)
  fins : c.tp.tState.receiving = true → c.tp.fins = 0
  queue : c.taken ++ c.tp.rcvQ = c.tp.rcvd ∨
    c.tp.rcvQ = [] ∧ c.taken <+: c.tp.rcvd ∧ c.tp.tState.discarded = true

section
variable {cfg : Config} {irs : BitVec 32} {stream : List UInt8} {c c' : Conn} {tp' tp : Pcb}
  {seg : Seg} {room t : Nat} {ev : Event} {s : TcpState}

/-- The bytes of a segment from the next one to receive on extend the prefix of the stream. -/
theorem Agrees.extend {rcvd data new : List UInt8} (hpre : rcvd <+: stream)
    (h : Agrees stream (rcvd.length - t) data) (hnew : new <+: data.drop t) :
    rcvd ++ new <+: stream := by
  obtain ⟨rest, rfl⟩ := hpre
  refine (prefix_append_right_inj rcvd).mpr (hnew.trans ?_)
  rw [prefix_iff_getElem?]
  intro i hi
  have hlen : t + i < data.length := by
    rw [length_drop] at hi
    omega
  have hat := h (t + i) hlen (by omega)
  have hidx : ((rcvd.length : Int) - t + ((t + i : Nat) : Int)).toNat = rcvd.length + i := by omega
  rw [hidx, getElem?_append_right (Nat.le_add_right ..), Nat.add_sub_cancel_left] at hat
  rw [hat, getElem_drop]

theorem takesData_receiving (h : s.takesData = true) : s.receiving = true := by
  revert h
  cases s <;> decide

/-- The place of a segment, by its distance from `rcv_nxt`. -/
theorem Received.place_eq (h : Received irs stream c) (hopen : c.tp.fins = 0)
    (hfirst : (seg.first - c.tp.rcvNxt).toInt = -(t : Int)) :
    seg.place irs c.tp.rcvd = c.tp.rcvd.length - t := by
  have hnxt := h.nxt
  rw [hopen, Nat.add_zero] at hnxt
  rw [Seg.place, ← hnxt, hfirst]
  omega

section
variable (h : InputOutcome cfg tp seg room tp')
include h

theorem InputOutcome.receiving_of (hs : tp'.tState.receiving = true) : tp.tState.receiving = true := by
  have hmoves := h.moves
  revert hmoves hs
  cases tp.tState <;> cases tp'.tState <;> decide

theorem InputOutcome.discarded (hs : tp.tState.discarded = true) : tp'.tState.discarded = true := by
  have hmoves := h.moves
  revert hmoves hs
  cases tp.tState <;> cases tp'.tState <;> decide

theorem InputOutcome.synced (hs : tp.tState ≠ .synSent) : tp'.tState ≠ .synSent := by
  have hmoves := h.moves
  revert hmoves hs
  cases tp.tState <;> cases tp'.tState <;> decide

end

theorem discarded_takesData (h : s.discarded = true) : s.takesData = false := by
  revert h
  cases s <;> decide

section
variable (h : Received irs stream c)
include h

theorem Received.input (hagree : Agrees stream (seg.place irs c.tp.rcvd) seg.data)
    (hin : InputOutcome cfg c.tp seg room tp') : Received irs stream { c with tp := tp' } := by
  obtain ⟨new, fin, hrcv, hnew, hfin⟩ := hin.receives
  refine ⟨hin.synced h.synced, ?_, ?_, fun hs => ?_, ?_⟩
  · show tp'.rcvd <+: stream
    rw [hrcv.rcvd]
    rcases hnew with rfl | ⟨htakes, t, -, hfirst, hpre⟩
    · rw [List.append_nil]
      exact h.stream
    · rw [h.place_eq (h.fins (takesData_receiving htakes)) hfirst] at hagree
      exact hagree.extend h.stream hpre
  · show tp'.rcvNxt = irs + 1 + BitVec.ofNat 32 (tp'.rcvd.length + tp'.fins)
    rw [hrcv.nxt, h.nxt, hrcv.rcvd, hrcv.fins, BitVec.add_assoc, ← BitVec.ofNat_add,
      List.length_append]
    congr 2
    omega
  · have hnofin : fin = false := by
      refine eq_false_of_ne_true fun htrue => ?_
      exact Bool.false_ne_true ((hfin htrue).1.symm.trans hs)
    rw [hrcv.fins, hnofin, h.fins (hin.receiving_of hs)]
    rfl
  · show c.taken ++ tp'.rcvQ = tp'.rcvd ∨
      tp'.rcvQ = [] ∧ c.taken <+: tp'.rcvd ∧ tp'.tState.discarded = true
    rw [hrcv.rcvd]
    rcases h.queue with hq | ⟨hq, hpre, hs⟩
    · rcases hrcv.queue with hq' | ⟨hq', hs'⟩
      · exact .inl (by rw [hq', ← List.append_assoc, hq])
      · refine .inr ⟨hq', ?_, ?_⟩
        · rw [← hq, List.append_assoc]
          exact List.prefix_append ..
        · rcases hs' with hs' | hs' <;> rw [hs'] <;> rfl
    · have hnone : new = [] := by
        rcases hnew with hnew | ⟨htakes, -⟩
        · exact hnew
        · rw [discarded_takesData hs] at htakes
          cases htakes
      rw [hnone, List.append_nil]
      refine .inr ⟨?_, hpre, hin.discarded hs⟩
      rcases hrcv.queue with hq' | ⟨hq', -⟩
      · rw [hq', hq, hnone, List.append_nil]
      · exact hq'

/-- An event that leaves the receive side and the state alone. -/
theorem Received.congr (hside : tp'.rcvSide = c.tp.rcvSide)
    (hstate : tp'.tState = c.tp.tState) : Received irs stream { c with tp := tp' } := by
  simp only [Pcb.rcvSide, Prod.mk.injEq] at hside
  obtain ⟨hnxt, hq, hrcvd, hfins⟩ := hside
  obtain ⟨h0, h1, h2, h3, h4⟩ := h
  rw [← hstate] at h0
  rw [← hnxt, ← hrcvd, ← hfins] at h2
  rw [← hrcvd] at h1 h4
  rw [← hq, ← hstate] at h4
  rw [← hstate, ← hfins] at h3
  exact ⟨h0, h1, h2, h3, h4⟩

theorem Received.recv (len : Nat) (acknow : Bool) (hs : c.tp.tState.discarded = false) :
    Received irs stream { tp := { c.tp with rcvQ := c.tp.rcvQ.drop len, acknow }
                          taken := c.taken ++ c.tp.rcvQ.take len } := by
  refine ⟨h.synced, h.stream, h.nxt, h.fins, .inl ?_⟩
  rcases h.queue with hq | ⟨-, -, hs'⟩
  · show c.taken ++ c.tp.rcvQ.take len ++ c.tp.rcvQ.drop len = c.tp.rcvd
    rw [List.append_assoc, List.take_append_drop, hq]
  · exact absurd (hs.symm.trans hs') Bool.false_ne_true

theorem Received.close (hclose : tcpClose c.tp = some tp') :
    Received irs stream { c with tp := tp' } := by
  rcases tcpClose_cases hclose with rfl | ⟨hs, rfl⟩ | ⟨-, rfl⟩
  · exact h
  · refine ⟨nofun, h.stream, h.nxt, fun _ => h.fins (takesData_receiving hs), .inl ?_⟩
    rcases h.queue with hq | ⟨-, -, hs'⟩
    · exact hq
    · rw [discarded_takesData hs'] at hs
      cases hs
  · refine ⟨nofun, h.stream, h.nxt, nofun, .inr ⟨rfl, ?_, rfl⟩⟩
    rcases h.queue with hq | ⟨-, hpre, -⟩
    · exact ⟨_, hq⟩
    · exact hpre

end

theorem tcpOutput_rcvSide {net : List Bool} :
    (tcpOutput cfg tp net).rcvSide = tp.rcvSide ∧ (tcpOutput cfg tp net).tState = tp.tState := by
  have h := tcpOutput_steady cfg tp net
  simp only [Pcb.steady, Prod.mk.injEq] at h
  obtain ⟨hs, -, -, -, -, hnxt, hq, hrcvd, hfins⟩ := h
  rw [Pcb.rcvSide, hnxt, hq, hrcvd, hfins]
  exact ⟨rfl, hs⟩

/-- A segment that arrives agrees with the stream. -/
def Event.Fits (irs : BitVec 32) (stream : List UInt8) (c : Conn) : Event → Prop
  | .input seg _ => Agrees stream (seg.place irs c.tp.rcvd) seg.data
  | _ => True

theorem Received.step (h : Received irs stream c) (hev : ev.Fits irs stream c)
    (hstep : c.step cfg ev = some c') : Received irs stream c' := by
  cases Conn.step_outcome hstep with
  | kept => exact h
  | input _ hin => exact h.input hev (tcpInput_outcome h.synced hin)
  | output net => exact h.congr (tcpOutput_rcvSide ..).1 (tcpOutput_rcvSide ..).2
  | timeout => exact h.congr rfl rfl
  | send => exact h.congr rfl rfl
  | recv acknow hs => exact h.recv _ acknow hs
  | close hclose => exact h.close hclose

/-- Segments arrive before a FIN was accepted, and agree with the stream. -/
def Event.Delivers (irs : BitVec 32) (stream : List UInt8) (c : Conn) : Event → Prop
  | .input seg _ =>
    c.tp.tState.receiving = true ∧ Agrees stream (seg.place irs c.tp.rcvd) seg.data
  | _ => True

theorem Event.Delivers.fits (h : ev.Delivers irs stream c) : ev.Fits irs stream c := by
  cases ev with
  | input => exact h.2
  | _ => trivial

/-- Only a segment appends bytes or advances `rcv_nxt`. -/
theorem Conn.step_quiet (hev : ∀ seg room, ev ≠ .input seg room) (hstep : c.step cfg ev = some c') :
    c'.tp.rcvNxt = c.tp.rcvNxt ∧ c'.tp.rcvd = c.tp.rcvd ∧ c'.tp.fins = c.tp.fins := by
  cases step_outcome hstep with
  | input => exact absurd rfl (hev _ _)
  | output net =>
    have h : (tcpOutput cfg c.tp net).rcvSide = c.tp.rcvSide := tcpOutput_rcvSide.1
    simp only [Pcb.rcvSide, Prod.mk.injEq] at h
    exact ⟨h.1, h.2.2⟩
  | close hclose =>
    rcases tcpClose_cases hclose with rfl | ⟨-, rfl⟩ | ⟨-, rfl⟩ <;> exact ⟨rfl, rfl, rfl⟩
  | _ => exact ⟨rfl, rfl, rfl⟩

/-- A segment that arrives before a FIN was accepted brings one FIN at most. -/
theorem Received.fins_le (h : Received irs stream c) (hle : c.tp.fins ≤ 1)
    (hev : ev.Delivers irs stream c) (hstep : c.step cfg ev = some c') : c'.tp.fins ≤ 1 := by
  by_cases hinput : ∃ seg room, ev = .input seg room
  · obtain ⟨seg, room, rfl⟩ := hinput
    cases Conn.step_outcome hstep with
    | kept => exact hle
    | input _ hin =>
      obtain ⟨new, fin, hrcv, -⟩ := (tcpInput_outcome h.synced hin).receives
      rw [hrcv.fins, h.fins hev.1, Nat.zero_add]
      exact toNat_le fin
  · have hquiet := Conn.step_quiet (fun seg room heq => hinput ⟨seg, room, heq⟩) hstep
    rw [hquiet.2.2]
    exact hle

/-- In every run whose segments agree with the stream, `rcv_nxt` counts the bytes that were appended
to `rcv_q` and an accepted FIN. These bytes are a prefix of the stream; they are the ones removed by
`tcp_recv` and those still in `rcv_q`, unless the queue was discarded. -/
theorem delivered_in_order (cfg : Config) (irs : BitVec 32) (stream : List UInt8)
    (hopen : c.tp.tState.receiving = true) (hfins : c.tp.fins = 0)
    (hqueue : c.taken ++ c.tp.rcvQ = c.tp.rcvd) (hpre : c.tp.rcvd <+: stream)
    (hnxt : c.tp.rcvNxt = irs + 1 + BitVec.ofNat 32 c.tp.rcvd.length)
    (hrun : (system cfg).Run (fun c ev => ev.Delivers irs stream c) c c') :
    c'.taken ++ c'.tp.rcvQ <+: stream ∧ c'.tp.rcvd <+: stream ∧
      c'.tp.rcvNxt = irs + 1 + BitVec.ofNat 32 (c'.tp.rcvd.length + c'.tp.fins) ∧
      c'.tp.fins ≤ 1 ∧ (c'.tp.tState.receiving = true → c'.tp.fins = 0) ∧
      (c'.tp.tState.discarded = false → c'.tp.rcvd = c'.taken ++ c'.tp.rcvQ) := by
  have hstart : Received irs stream c := by
    refine ⟨fun hs => ?_, hpre, by rw [hnxt, hfins, Nat.add_zero], fun _ => hfins, .inl hqueue⟩
    rw [hs] at hopen
    cases hopen
  obtain ⟨hrcv, hle⟩ := hrun.invariant (I := fun c => Received irs stream c ∧ c.tp.fins ≤ 1)
    (fun _ _ _ h hev hs => ⟨h.1.step hev.fits hs, h.1.fins_le h.2 hev hs⟩)
    ⟨hstart, by rw [hfins]; exact Nat.zero_le 1⟩
  refine ⟨?_, hrcv.stream, hrcv.nxt, hle, hrcv.fins, fun hs => ?_⟩
  · rcases hrcv.queue with hq | ⟨hq, htaken, -⟩
    · rw [hq]
      exact hrcv.stream
    · rw [hq, append_nil]
      exact htaken.trans hrcv.stream
  · rcases hrcv.queue with hq | ⟨-, -, hs'⟩
    · exact hq.symm
    · exact absurd (hs.symm.trans hs') false_ne_true

end

/-! ## A run -/

instance (stream : List UInt8) (p : Int) (data : List UInt8) : Decidable (Agrees stream p data) :=
  inferInstanceAs (Decidable (∀ i (h : i < data.length), _ → stream[(p + i).toNat]? = some data[i]))

instance (irs : BitVec 32) (stream : List UInt8) (c : Conn) (ev : Event) :
    Decidable (ev.Delivers irs stream c) :=
  match ev with
  | .input _ _ => inferInstanceAs (Decidable (_ ∧ _))
  | .output _ | .timeout | .send _ _ _ | .recv _ | .close => inferInstanceAs (Decidable True)

/-- An established connection whose peer began at 100. -/
def idleConn : Conn where
  tp :=
    { tState := .established, acknow := false, delack := false, sentfin := false, tMaxseg := 1460
      sndSeq := 1, sndOff := 0, sndMax := 0, sndWnd := 1000, rcvAdvWnd := 2920
      rcvNxt := 101, rcvQ := [], sndQ := [], rcvd := [], fins := 0, base := 1, top := 1
      wrapped := false }
  taken := []

/-- A segment of the peer with the byte 7. -/
def peerByte : Seg :=
  { seq := 101, ack := 1, flags := { ack := true }, win := 1000, mss := [], data := [7]
    data_lt := by decide }

/-- A segment of the peer behind this byte, without data. -/
def peerBare (seq ack : BitVec 32) (fin : Bool) : Seg :=
  { seq, ack, flags := { ack := true, fin }, win := 1000, mss := [], data := []
    data_lt := nil_lt }

theorem delivered_in_order_byte :
    ∃ c', (system stdConfig).Run (fun c ev => ev.Delivers 100 [7] c) idleConn c' ∧ c'.taken = [7] ∧
      (c'.taken ++ c'.tp.rcvQ <+: [7] ∧ c'.tp.rcvd <+: [7] ∧
        c'.tp.rcvNxt = 100 + 1 + BitVec.ofNat 32 (c'.tp.rcvd.length + c'.tp.fins) ∧
        c'.tp.fins ≤ 1 ∧ (c'.tp.tState.receiving = true → c'.tp.fins = 0) ∧
        (c'.tp.tState.discarded = false → c'.tp.rcvd = c'.taken ++ c'.tp.rcvQ)) := by
  obtain ⟨c', hrun, htaken⟩ := System.exists_run_of_exec (M := system stdConfig)
    (P := fun c ev => Event.Delivers 100 [7] c ev) (fun c => c.taken = [7])
    [.input peerByte 100, .recv 1] idleConn (by decide)
  exact ⟨c', hrun, htaken, delivered_in_order stdConfig 100 [7] rfl rfl rfl nil_prefix rfl hrun⟩

/-- A FIN in FIN_WAIT_2 discards a byte that was not read, which `rcv_nxt` goes on counting. -/
theorem fin_discards_unread :
    ∃ c', (system stdConfig).Run (fun c ev => ev.Delivers 100 [7] c) idleConn c' ∧
      c'.tp.tState = .timeWait ∧ c'.tp.fins = 1 ∧
      c'.tp.rcvNxt ≠ 100 + 1 + BitVec.ofNat 32 ((c'.taken ++ c'.tp.rcvQ).length + c'.tp.fins) :=
  System.exists_run_of_exec (M := system stdConfig)
    (P := fun c ev => Event.Delivers 100 [7] c ev)
    (fun c => c.tp.tState = .timeWait ∧ c.tp.fins = 1 ∧
      c.tp.rcvNxt ≠ 100 + 1 + BitVec.ofNat 32 ((c.taken ++ c.tp.rcvQ).length + c.tp.fins))
    [.input peerByte 100, .close, .output [true], .input (peerBare 102 2 false) 0,
      .input (peerBare 102 2 true) 0] idleConn (by decide)

end Tcp

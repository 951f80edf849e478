import ThinkOS.Tcp.Deliver
import ThinkOS.Tcp.Open

/-!
# The send window

`snd_off` and `snd_max` count from `snd_seq` on what was sent and how far it went. Between them and
the queue there is a phantom byte: the SYN before the connection is established, the FIN behind
`tcp_close`. As long as the SYN is sent once and acknowledged behind that, and `tcp_close` finds
nothing unsent, the counters keep their order and stay in the range of 16 bits.
-/

namespace Tcp

open Lib BitVec Bool List Option

variable {s : TcpState} {ack : BitVec 32} {l : Nat}

/-- The phantom byte that may be outstanding. -/
def TcpState.extra : TcpState → Nat
  | .synSent | .synRcvd | .finWait1 | .closing | .lastAck => 1
  | _ => 0

/-- The states in which nothing is in the send queue. -/
def TcpState.drained : TcpState → Bool
  | .synSent | .synRcvd | .finWait2 | .timeWait => true
  | _ => false

/-- The states in which our FIN is on its way. -/
def TcpState.finishing : TcpState → Bool
  | .finWait1 | .closing | .lastAck => true
  | _ => false

/-- The states before the handshake is complete. -/
def TcpState.opening : TcpState → Bool
  | .synSent | .synRcvd => true
  | _ => false

/-- The states of an active connection. -/
def TcpState.active : TcpState → Bool
  | .closed | .listen => false
  | _ => true

/-- The counters of the send window of an active connection. -/
structure Windowed (cfg : Config) (iss : BitVec 32) (tp : Pcb) : Prop where
  active : tp.tState.active = true
  seq : tp.sndSeq = iss + BitVec.ofNat 32 tp.base
  queue : tp.sndQ.length ≤ cfg.maxsnd
  drained : tp.tState.drained = true → tp.sndQ = []
  off_le : tp.sndOff.toNat ≤ tp.sndMax.toNat
  max_le : tp.sndMax.toNat ≤ tp.sndQ.length + tp.tState.extra
  sent : tp.base + tp.sndMax.toNat ≤ tp.top
  fin : tp.tState.finishing = true → tp.sndOff.toNat = tp.sndQ.length + 1 → tp.sentfin = true
  fits : tp.wrapped = false

/-- The fields of the send side, apart from the queue. -/
def Pcb.sndSide (tp : Pcb) : Bool × BitVec 32 × BitVec 16 × BitVec 16 × Nat × Nat × Bool :=
  (tp.sentfin, tp.sndSeq, tp.sndOff, tp.sndMax, tp.base, tp.top, tp.wrapped)

section
variable {cfg : Config} {iss : BitVec 32} {tp tp' : Pcb} {k : Nat}

section
variable (h : Windowed cfg iss tp) (hside : tp'.sndSide = tp.sndSide)
  (hq : tp'.sndQ = tp.sndQ)
include h hside hq

theorem Windowed.congr (hactive : tp'.tState.active = true)
    (hextra : tp'.tState.extra = tp.tState.extra)
    (hdrained : tp'.tState.drained = true → tp.tState.drained = true)
    (hfin : tp'.tState.finishing = true → tp.tState.finishing = true) : Windowed cfg iss tp' := by
  simp only [Pcb.sndSide, Prod.mk.injEq] at hside
  obtain ⟨hsentfin, hseq, hoff, hmax, hbase, htop, hwrapped⟩ := hside
  refine ⟨hactive, ?_, ?_, fun hs => ?_, ?_, ?_, ?_, fun hs => ?_, ?_⟩
  · rw [hseq, hbase]
    exact h.seq
  · rw [hq]
    exact h.queue
  · rw [hq]
    exact h.drained (hdrained hs)
  · rw [hoff, hmax]
    exact h.off_le
  · rw [hmax, hq, hextra]
    exact h.max_le
  · rw [hbase, hmax, htop]
    exact h.sent
  · rw [hoff, hq, hsentfin]
    exact h.fin (hfin hs)
  · rw [hwrapped]
    exact h.fits

theorem Windowed.same (hs : tp'.tState = tp.tState) : Windowed cfg iss tp' :=
  h.congr hside hq (by rw [hs]; exact h.active) (by rw [hs]) (by rw [hs]; exact id)
    (by rw [hs]; exact id)

end

/-! ## Acknowledgments -/

theorem toNat_ofNat16 (hk : k < 65536) : (BitVec.ofNat 16 k).toNat = k := by
  rw [toNat_ofNat, Nat.mod_eq_of_lt hk]

theorem finishing_extra (h : s.finishing = true) : s.extra = 1 := by
  revert h
  cases s <;> decide

section
variable (h : Windowed cfg iss tp)
include h

theorem Windowed.acked (hle : k ≤ tp.sndMax.toNat) :
    Windowed cfg iss (tp.acked tp.sndOff.toNat tp.sndMax.toNat k) := by
  have hoff := h.off_le
  have hle' := h.max_le
  have hoff' : (tp.acked tp.sndOff.toNat tp.sndMax.toNat k).sndOff.toNat =
      max tp.sndOff.toNat k - k := toNat_ofNat16 (by omega)
  have hmax' : (tp.acked tp.sndOff.toNat tp.sndMax.toNat k).sndMax.toNat = tp.sndMax.toNat - k :=
    toNat_ofNat16 (by omega)
  have hlen : (tp.acked tp.sndOff.toNat tp.sndMax.toNat k).sndQ.length = tp.sndQ.length - k :=
    length_drop ..
  refine ⟨h.active, ?_, ?_, fun hs => ?_, ?_, ?_, ?_, fun hs hend => ?_, h.fits⟩
  · show tp.sndSeq + BitVec.ofNat 32 k = iss + BitVec.ofNat 32 (tp.base + k)
    rw [h.seq, ofNat_add, add_assoc]
  · have := h.queue
    omega
  · show tp.sndQ.drop k = []
    rw [h.drained hs, drop_nil]
  · omega
  · rw [hmax', hlen, Pcb.acked_tState]
    omega
  · have := h.sent
    show tp.base + k + _ ≤ tp.top
    omega
  · have hextra := finishing_extra hs
    rw [Pcb.acked_tState] at hextra
    exact h.fin hs (by omega)

/-- An acknowledgment of our FIN leaves nothing behind. -/
theorem acked_all (hlen : tp.sndQ.length < k) (hle : k ≤ tp.sndMax.toNat)
    (hs : tp.tState.finishing = true) : (tp.acked tp.sndOff.toNat tp.sndMax.toNat k).sndQ = [] ∧
      (tp.acked tp.sndOff.toNat tp.sndMax.toNat k).sndMax.toNat = 0 := by
  have hle' := h.max_le
  rw [finishing_extra hs] at hle'
  refine ⟨drop_eq_nil_of_le (by omega), ?_⟩
  have hmax' : (tp.acked tp.sndOff.toNat tp.sndMax.toNat k).sndMax.toNat = tp.sndMax.toNat - k :=
    toNat_ofNat16 (by omega)
  omega

/-- With nothing left, the states behind our FIN are reached. -/
theorem Windowed.drain (hmax : tp.sndMax.toNat = 0) (hs : s.active = true)
    (hfin : s.finishing = false) (hside : tp'.sndSide = tp.sndSide) (hq : tp'.sndQ = [])
    (hs' : tp'.tState = s) : Windowed cfg iss tp' := by
  simp only [Pcb.sndSide, Prod.mk.injEq] at hside
  obtain ⟨-, hseq, hoff, hmax', hbase, htop, hwrapped⟩ := hside
  have hle := h.off_le
  have hsent := h.sent
  refine ⟨by rw [hs']; exact hs, ?_, ?_, fun _ => hq, ?_, ?_, ?_, fun hf => ?_, ?_⟩
  · rw [hseq, hbase]
    exact h.seq
  · rw [hq]
    exact Nat.zero_le _
  · rw [hoff, hmax']
    exact hle
  · rw [hmax', hmax]
    exact Nat.zero_le _
  · rw [hbase, hmax', htop]
    exact hsent
  · rw [hs', hfin] at hf
    cases hf
  · rw [hwrapped]
    exact h.fits

/-- Before the handshake is complete, with our SYN sent, both counters are 1. -/
theorem Windowed.syn (hs : tp.tState.opening = true) (hoff : tp.sndOff.toNat = 1) :
    tp.sndQ = [] ∧ tp.sndOff = 1 ∧ tp.sndMax = 1 := by
  have hdrained : tp.tState.drained = true ∧ tp.tState.extra = 1 := by
    revert hs
    cases tp.tState <;> decide
  have hq := h.drained hdrained.1
  have hle := h.max_le
  have hle' := h.off_le
  rw [hq, hdrained.2, length_nil] at hle
  refine ⟨hq, eq_of_toNat_eq hoff, eq_of_toNat_eq ?_⟩
  show tp.sndMax.toNat = 1
  omega

omit h in
theorem subSnd_syn (hfits : tp.wrapped = false) (hoff : tp.sndOff = 1) (hmax : tp.sndMax = 1) :
    tp.subSnd 1 = { tp with sndOff := 0, sndMax := 0 } := by
  rw [Pcb.subSnd, hoff, hmax, hfits]
  rfl

theorem Windowed.accepted (hs : tp.tState = .synRcvd) (hoff : tp.sndOff.toNat = 1) :
    Windowed cfg iss tp.accepted := by
  obtain ⟨hq, hoff', hmax'⟩ := h.syn (by rw [hs]; rfl) hoff
  have hsent := h.sent
  have heq : tp.accepted = { tp with tState := .established, sndOff := 0, sndMax := 0 } := by
    rw [Pcb.accepted, if_pos hs]
    have hsub : ({ tp with tState := .established } : Pcb).subSnd 1 = _ :=
      subSnd_syn h.fits hoff' hmax'
    exact hsub
  rw [heq]
  refine ⟨rfl, h.seq, h.queue, by rintro ⟨⟩, Nat.le_refl 0, Nat.zero_le _, ?_, by rintro ⟨⟩, h.fits⟩
  show tp.base + 0 ≤ tp.top
  omega

theorem Windowed.acceptedAcked (hs : tp.tState = .synRcvd) (hoff : tp.sndOff.toNat = 1)
    (hpos : 0 < k) (hle : k ≤ tp.sndMax.toNat) :
    Windowed cfg iss (tp.accepted.acked tp.sndOff.toNat tp.sndMax.toNat k) := by
  have hacc := h.accepted hs hoff
  obtain ⟨hq, hoff', hmax'⟩ := h.syn (by rw [hs]; rfl) hoff
  have hmax : tp.sndMax.toNat = 1 := by rw [hmax']; rfl
  obtain rfl : k = 1 := by omega
  have hsent := h.sent
  have hbase : tp.accepted.base = tp.base ∧ tp.accepted.top = tp.top := by
    rw [Pcb.accepted, if_pos hs]
    exact ⟨rfl, rfl⟩
  have hs' := Pcb.accepted_tState hs
  rw [hoff, hmax]
  refine ⟨hacc.active, ?_, ?_, ?_, le_rfl, Nat.zero_le _, ?_, ?_, hacc.fits⟩
  · show tp.accepted.sndSeq + BitVec.ofNat 32 1 = iss + BitVec.ofNat 32 (tp.accepted.base + 1)
    rw [hacc.seq, ofNat_add, add_assoc]
  · show (tp.accepted.sndQ.drop 1).length ≤ _
    rw [Pcb.accepted_sndQ, hq]
    exact Nat.zero_le _
  · show tp.accepted.tState.drained = true → _
    rw [hs']
    rintro ⟨⟩
  · show tp.accepted.base + 1 + 0 ≤ tp.accepted.top
    rw [hbase.1, hbase.2]
    omega
  · show tp.accepted.tState.finishing = true → _
    rw [hs']
    rintro ⟨⟩

/-- The counters behind the processing of an acknowledgment. -/
theorem Windowed.ackGo (hopen : tp.tState = .synRcvd → tp.InRange ack → tp.sndOff.toNat = 1)
    (hgo : ackStage tp ack = .go tp') : Windowed cfg iss tp' := by
  have hout := ackStage_outcome tp ack
  generalize ackStage tp ack = r at hgo hout
  cases hout with
  | passed =>
    rw [← Ack.go.inj hgo]
    exact h
  | refused => cases hgo
  | much => cases hgo
  | old _ hrange =>
    rw [← Ack.go.inj hgo]
    by_cases hs : tp.tState = .synRcvd
    · exact h.accepted hs (hopen hs (hrange hs))
    · rw [Pcb.accepted_of_ne hs]
      exact h
  | @new k _ hrange hpos hle hack =>
    by_cases hs : tp.tState = .synRcvd
    · have hacked := h.acceptedAcked hs (hopen hs (hrange hs)) hpos hle
      rcases ackState_go hgo with rfl | ⟨hs', -, -⟩ | ⟨hs', -, -⟩
      · exact hacked
      · rw [Pcb.acked_tState, Pcb.accepted_tState hs] at hs'
        cases hs'
      · rw [Pcb.acked_tState, Pcb.accepted_tState hs] at hs'
        cases hs'
    · rw [Pcb.accepted_of_ne hs] at hgo
      have hacked := h.acked hle
      rcases ackState_go hgo with rfl | ⟨hs', hall, rfl⟩ | ⟨hs', hall, rfl⟩
      · exact hacked
      · rw [Pcb.acked_tState] at hs'
        obtain ⟨hq, hmax⟩ := acked_all h (of_decide_eq_true hall) hle (by rw [hs']; rfl)
        exact hacked.drain hmax rfl rfl rfl hq rfl
      · rw [Pcb.acked_tState] at hs'
        obtain ⟨hq, hmax⟩ := acked_all h (of_decide_eq_true hall) hle (by rw [hs']; rfl)
        exact hacked.drain hmax rfl rfl rfl rfl rfl

theorem Windowed.ackDrop (hdrop : ackStage tp ack = .drop (some tp')) : Windowed cfg iss tp' := by
  have hout := ackStage_outcome tp ack
  generalize ackStage tp ack = r at hdrop hout
  cases hout with
  | passed => cases hdrop
  | refused =>
    rw [← some.inj (Ack.drop.inj hdrop)]
    exact h
  | much =>
    rw [← some.inj (Ack.drop.inj hdrop)]
    exact h.same rfl rfl rfl
  | old => cases hdrop
  | new _ _ _ hle =>
    obtain ⟨hs, rfl⟩ := ackState_drop hdrop
    rw [Pcb.acked_tState] at hs
    have hne : tp.tState ≠ .synRcvd := by
      intro hs'
      rw [Pcb.accepted_tState hs'] at hs
      cases hs
    rw [Pcb.accepted_of_ne hne]
    exact (h.acked hle).same rfl rfl rfl

end

/-! ## Segments -/

theorem dataStage_snd (tp : Pcb) (ti : Ti) (room : Nat) :
    (dataStage tp ti room).1.sndSide = tp.sndSide ∧ (dataStage tp ti room).1.sndQ = tp.sndQ := by
  rw [dataStage]
  split
  · split <;> exact ⟨rfl, rfl⟩
  · exact ⟨rfl, rfl⟩

theorem finStage_snd (tp : Pcb) : (finStage tp).sndSide = tp.sndSide ∧
      ((finStage tp).sndQ = tp.sndQ ∨ tp.tState = .finWait2 ∧ (finStage tp).sndQ = []) := by
  rw [finStage]
  have hkeep : ∃ a n f, (if tp.tState.haveRcvdFin = true then tp else
      { tp with acknow := true, rcvNxt := tp.rcvNxt + 1, fins := tp.fins + 1 }) =
        { tp with acknow := a, rcvNxt := n, fins := f } := by
    split <;> exact ⟨_, _, _, rfl⟩
  obtain ⟨a, n, f, heq⟩ := hkeep
  rw [heq]
  cases hs : tp.tState
  case finWait2 => exact ⟨rfl, .inr ⟨rfl, rfl⟩⟩
  all_goals exact ⟨rfl, .inl rfl⟩

theorem step6_snd (tp : Pcb) (ti : Ti) (win : BitVec 16) (room : Nat) :
    (step6 tp ti win room).sndSide = tp.sndSide ∧ ((step6 tp ti win room).sndQ = tp.sndQ ∨
        tp.tState = .finWait2 ∧ (step6 tp ti win room).sndQ = []) := by
  have hwin : ∃ w, (if ti.flags.ack = true ∧ win ≠ tp.sndWnd then { tp with sndWnd := win } else tp) =
      { tp with sndWnd := w } := by
    split <;> exact ⟨_, rfl⟩
  obtain ⟨w, hw⟩ := hwin
  obtain ⟨hside, hq⟩ := dataStage_snd { tp with sndWnd := w } ti room
  have hstate := dataStage_tState { tp with sndWnd := w } ti room
  rw [step6, hw]
  generalize dataStage { tp with sndWnd := w } ti room = r at hside hq hstate
  obtain ⟨tq, fin⟩ := r
  cases fin with
  | false => exact ⟨hside, .inl hq⟩
  | true =>
    obtain ⟨hside', hq'⟩ := finStage_snd tq
    refine ⟨hside'.trans hside, ?_⟩
    rcases hq' with hq' | ⟨hs, hq'⟩
    · exact .inl (hq'.trans hq)
    · exact .inr ⟨hstate.symm.trans hs, hq'⟩

theorem Windowed.step6 (h : Windowed cfg iss tp) (hne : tp.tState.opening = false) (ti : Ti)
    (win : BitVec 16) (room : Nat) : Windowed cfg iss (step6 tp ti win room) := by
  obtain ⟨hside, hq⟩ := step6_snd tp ti win room
  have hq' : (Tcp.step6 tp ti win room).sndQ = tp.sndQ := by
    rcases hq with hq | ⟨hs, hq⟩
    · exact hq
    · rw [hq, h.drained (by rw [hs]; rfl)]
  rcases step6_tState tp ti win room with hs | ⟨hs, hs'⟩ | ⟨hs, hs'⟩ | ⟨hs, hs'⟩
  · exact h.same hside hq' hs
  · rcases hs with hs | hs
    · rw [hs] at hne
      cases hne
    · apply h.congr hside hq' <;> rw [hs'] <;> (try rw [hs]) <;> decide
  · apply h.congr hside hq' <;> rw [hs'] <;> (try rw [hs]) <;> decide
  · apply h.congr hside hq' <;> rw [hs'] <;> (try rw [hs]) <;> decide

end

/-! ## Output -/

section
variable {cfg : Config} {iss : BitVec 32} {tp : Pcb} {o : Out} {flags : Flags}

theorem outFlags_eq (s : TcpState) : (outFlags s).syn = s.opening ∧ (outFlags s).fin = s.finishing ∧
      s.extra = (s.opening || s.finishing).toNat := by
  cases s <;> exact ⟨rfl, rfl, rfl⟩

theorem opening_finishing (h : s.opening = true) : s.finishing = false ∧ s.drained = true := by
  revert h
  cases s <;> decide

theorem Windowed.segment {z : Nat} (h : Windowed cfg iss tp)
    (hz : z ≤ tp.sndQ.length + tp.tState.extra)
    (htop : (l ≠ 0 ∨ flags.syn = true ∨ flags.fin = true) ∨ z ≤ tp.sndMax.toNat)
    (hfin : tp.tState.finishing = true → z = tp.sndQ.length + 1 →
      (tp.sentfin || flags.fin) = true) : Windowed cfg iss (tp.sent cfg flags tp.sndMax.toNat z l) ∧
      (tp.sent cfg flags tp.sndMax.toNat z l).sndOff.toNat = z ∧
      (tp.sent cfg flags tp.sndMax.toNat z l).sndMax.toNat = max z tp.sndMax.toNat := by
  have hextra : tp.tState.extra ≤ 1 := by
    rw [(outFlags_eq tp.tState).2.2]
    exact toNat_le _
  have hmaxsnd := cfg.maxsnd_lt
  have hqueue := h.queue
  have hle := h.max_le
  have hsent := h.sent
  have hoff' : (tp.sent cfg flags tp.sndMax.toNat z l).sndOff.toNat = z := toNat_ofNat16 (by omega)
  have hmax' : (tp.sent cfg flags tp.sndMax.toNat z l).sndMax.toNat = max z tp.sndMax.toNat :=
    toNat_ofNat16 (by omega)
  refine ⟨⟨h.active, h.seq, h.queue, h.drained, ?_, ?_, ?_, fun hs hend => ?_, ?_⟩, hoff', hmax'⟩
  · omega
  · rw [hmax']
    exact Nat.max_le.mpr ⟨hz, hle⟩
  · show tp.base + _ ≤ (if l ≠ 0 ∨ flags.syn = true ∨ flags.fin = true then max tp.top (tp.base + z)
      else tp.top)
    rw [hmax']
    split
    · omega
    · rename_i hnone
      have := htop.resolve_left hnone
      omega
  · rw [hoff'] at hend
    exact hfin hs hend
  · show (tp.wrapped || decide (65536 ≤ z) || decide (65536 ≤ max z tp.sndMax.toNat)) = false
    rw [h.fits, decide_eq_false (by omega), decide_eq_false (by omega)]
    rfl

/-- A segment ends within the queue and its phantom byte. -/
theorem Windowed.outEnd_bounds (h : Windowed cfg iss tp)
    (hopen : tp.tState.opening = true → tp.sndOff.toNat = 0) (hflags : flags.Of tp.tState)
    (hl : l ≤ tp.sndQ.length - tp.sndOff.toNat) :
    outEnd tp.sentfin flags tp.sndOff.toNat tp.sndMax.toNat l ≤ tp.sndQ.length + tp.tState.extra ∧
    ((l ≠ 0 ∨ flags.syn = true ∨ flags.fin = true) ∨
      outEnd tp.sentfin flags tp.sndOff.toNat tp.sndMax.toNat l ≤ tp.sndMax.toNat) ∧
    (tp.tState.finishing = true →
      outEnd tp.sentfin flags tp.sndOff.toNat tp.sndMax.toNat l = tp.sndQ.length + 1 →
        (tp.sentfin || flags.fin) = true) := by
  obtain ⟨hsyn, hfin, hextra⟩ := outFlags_eq tp.tState
  obtain ⟨hsyn', hfin'⟩ := hflags
  rw [hsyn] at hsyn'
  rw [hfin] at hfin'
  have hoff := h.off_le
  have hle := h.max_le
  by_cases hs : tp.tState.opening = true
  · -- the SYN, with nothing in the queue
    obtain ⟨hnofin, hdrained⟩ := opening_finishing hs
    have hnofin' : flags.fin = false := by
      refine eq_false_of_ne_true fun htrue => ?_
      rw [hnofin] at hfin'
      exact Bool.false_ne_true (hfin' htrue)
    rw [hs] at hsyn'
    rw [hopen hs, h.drained hdrained, List.length_nil] at hl
    have hzero : l = 0 := by omega
    rw [hopen hs, hextra, hs, outEnd, hsyn', hnofin', hzero, hnofin]
    exact ⟨Nat.le_add_left .., .inl (.inr (.inl rfl)), by rintro ⟨⟩⟩
  · have hs' := eq_false_of_ne_true hs
    rw [hs'] at hsyn' hextra
    rw [hextra, Bool.false_or] at hle ⊢
    rw [outEnd, hsyn', Bool.toNat_false, Nat.add_zero]
    cases hf : flags.fin with
    | false =>
      -- data only
      rw [Bool.false_and, Bool.toNat_false, Nat.add_zero, Bool.or_false]
      refine ⟨by omega, ?_, fun hs'' hend => h.fin hs'' (by omega)⟩
      by_cases hzero : l = 0
      · exact .inr (by omega)
      · exact .inl (.inl hzero)
    | true =>
      rw [hfin' hf, Bool.toNat_true] at hle ⊢
      rw [Bool.true_and, Bool.or_true]
      refine ⟨?_, .inl (.inr (.inr rfl)), fun _ _ => rfl⟩
      by_cases hall : tp.sndOff.toNat = tp.sndQ.length + 1
      · -- a FIN that was sent before does not count again
        have hmax : tp.sndOff.toNat = tp.sndMax.toNat := by omega
        rw [h.fin (hfin' hf) hall, decide_eq_true hmax, Bool.true_and, Bool.not_true,
          Bool.toNat_false]
        omega
      · have := Bool.toNat_le !(tp.sentfin && decide (tp.sndOff.toNat = tp.sndMax.toNat))
        omega

/-- The locals of `tcp_output` are the counters. -/
structure Placed (o : Out) : Prop where
  nxt : o.nxt = o.tp.sndSeq + BitVec.ofNat 32 o.tp.sndOff.toNat
  max : o.max = o.tp.sndSeq + BitVec.ofNat 32 o.tp.sndMax.toNat

section
variable (h : Windowed cfg iss o.tp) (hp : Placed o)
include h hp

theorem Windowed.outSent
    (hopen : o.tp.tState.opening = true → o.tp.sndOff.toNat = 0) (hflags : flags.Of o.tp.tState)
    (hl : l ≤ o.tp.sndQ.length - o.tp.sndOff.toNat) :
    Windowed cfg iss (outSent cfg o l flags).tp ∧ Placed (outSent cfg o l flags) := by
  have hqueue := h.queue
  have hmaxsnd := cfg.maxsnd_lt
  have heq := outSent_eq cfg o flags hp.nxt hp.max (by omega) (by omega) (by omega : l < 65536)
  set z := outEnd o.tp.sentfin flags o.tp.sndOff.toNat o.tp.sndMax.toNat l with hz
  obtain ⟨hend, htop, hfin⟩ := h.outEnd_bounds hopen hflags hl
  obtain ⟨hwin, hoff', hmax'⟩ := h.segment hend htop hfin
  rw [heq]
  refine ⟨hwin, ⟨?_, ?_⟩⟩
  · show o.tp.sndSeq + BitVec.ofNat 32 z = o.tp.sndSeq + BitVec.ofNat 32 _
    rw [hoff']
  · show o.tp.sndSeq + BitVec.ofNat 32 (max z o.tp.sndMax.toNat) = o.tp.sndSeq + BitVec.ofNat 32 _
    rw [hmax']

theorem Windowed.rewound : Windowed cfg iss o.rewound.tp ∧ Placed o.rewound := by
  refine ⟨{ h with off_le := Nat.zero_le _, fin := fun _ hend => ?_ }, ⟨(add_zero _).symm, hp.max⟩⟩
  exact absurd hend (Nat.succ_ne_zero _).symm

/-- A pass of `tcp_output`. Before the handshake is complete there is no other pass behind it. -/
theorem Windowed.outPass
    (hopen : o.tp.tState.opening = true → o.tp.sndOff.toNat = 0 ∨ o.tp.sndWnd = o.tp.sndOff)
    (idle ok : Bool) :
    Windowed cfg iss (outPass cfg idle o ok).1.tp ∧ Placed (outPass cfg idle o ok).1 ∧
      ((outPass cfg idle o ok).2 = true → (outPass cfg idle o ok).1.tp.tState.opening = false) := by
  have hout : PassOutcome cfg o o.tp.sndOff.toNat (Tcp.outPass cfg idle o ok) :=
    outPass_outcome idle ok hp.nxt (by omega)
  generalize Tcp.outPass cfg idle o ok = r at hout
  cases hout with
  | kept => exact ⟨h, hp, nofun⟩
  | rewound => exact ⟨(h.rewound hp).1, (h.rewound hp).2, nofun⟩
  | @sent l flags again hstay hlen hflags hagain =>
    have hzero (hs : o.tp.tState.opening = true) : o.tp.sndOff.toNat = 0 := by
      rw [h.drained (opening_finishing hs).2, length_nil] at hstay
      rcases hopen hs with hzero | hwnd
      · exact hzero
      · rw [hwnd] at hstay
        omega
    obtain ⟨hwin, hplaced⟩ := h.outSent hp hzero hflags hlen
    refine ⟨hwin, hplaced, fun htrue => eq_false_of_ne_true fun hs => ?_⟩
    have hs' : (Tcp.outSent cfg o l flags).tp.tState = o.tp.tState :=
      congrArg Prod.fst (outSent_steady cfg o l flags)
    rw [hs'] at hs
    have hlt := hagain htrue
    rw [h.drained (opening_finishing hs).2] at hlt
    exact absurd hlt (Nat.not_lt_zero _)
  | resent hlen hwnd hflags =>
    obtain ⟨hwin, hplaced⟩ := h.rewound hp
    obtain ⟨hwin', hplaced'⟩ := hwin.outSent (l := 0) hplaced (fun _ => rfl) hflags (Nat.zero_le _)
    exact ⟨hwin', hplaced', nofun⟩

end

theorem Windowed.outLoop (idle : Bool) (net : List Bool) :
    ∀ o : Out, Windowed cfg iss o.tp → Placed o →
      (o.tp.tState.opening = true → o.tp.sndOff.toNat = 0 ∨ o.tp.sndWnd = o.tp.sndOff) →
        Windowed cfg iss (outLoop cfg idle o net).tp := by
  induction net with
  | nil =>
    intro o h _ _
    rw [Tcp.outLoop]
    exact h
  | cons ok net ih =>
    intro o h hp hopen
    obtain ⟨hwin, hplaced, hagain⟩ := h.outPass hp hopen idle ok
    rw [Tcp.outLoop]
    split
    · rename_i htrue
      refine ih _ hwin hplaced fun hs => ?_
      exact absurd ((hagain htrue).symm.trans hs) false_ne_true
    · exact hwin

theorem Windowed.tcpOutput (h : Windowed cfg iss tp)
    (hopen : tp.tState.opening = true → tp.sndOff.toNat = 0 ∨ tp.sndWnd = tp.sndOff)
    (net : List Bool) : Windowed cfg iss (tcpOutput cfg tp net) :=
  Windowed.outLoop _ net _ h ⟨tp.sndNxt_eq, tp.sndTop_eq⟩ hopen

end

/-! ## Whole runs -/

/-- The handshake and `tcp_close` find the counters as they expect them: a segment that passes the
test of SYN_SENT or SYN_RCVD comes when our SYN was sent last, `tcp_output` in SYN_RCVD does not
find it sent already (unless the window makes it start again), and `tcp_close` comes before our SYN
was sent, or in CLOSE_WAIT when all the data was sent. -/
def Event.Orderly (c : Conn) : Event → Prop
  | .input seg _ =>
    (c.tp.tState = .synRcvd → c.tp.InRange seg.ack → c.tp.sndOff.toNat = 1) ∧
    (c.tp.tState = .synSent → seg.ack = c.tp.sndSeq + 1 → c.tp.sndOff.toNat = 1)
  | .output _ => c.tp.tState = .synRcvd → c.tp.sndOff.toNat = 0 ∨ c.tp.sndWnd = c.tp.sndOff
  | .close =>
    (c.tp.tState = .synRcvd → c.tp.sndOff.toNat = 0) ∧
    (c.tp.tState = .closeWait → c.tp.sndOff.toNat = c.tp.sndQ.length)
  | _ => True

/-- What holds in every state: the window in SYN_SENT is that of the SYN. -/
def Sending (cfg : Config) (iss : BitVec 32) (tp : Pcb) : Prop :=
  (tp.tState.active = true → Windowed cfg iss tp) ∧ (tp.tState = .synSent → tp.sndWnd = 1)

section
variable {cfg : Config} {iss : BitVec 32} {tp tp' : Pcb} {seg : Seg} {room : Nat} {c c' : Conn}

theorem InputOutcome.active_of (h : InputOutcome cfg tp seg room tp')
    (hs : tp'.tState.active = true) : tp.tState.active = true := by
  have hmoves := h.moves
  revert hmoves hs
  cases tp.tState <;> cases tp'.tState <;> decide

section
variable (h : Windowed cfg iss tp)
include h

theorem Windowed.input (hne : tp.tState ≠ .synSent)
    (hopen : tp.tState = .synRcvd → tp.InRange seg.ack → tp.sndOff.toNat = 1)
    (hin : InputOutcome cfg tp seg room tp') (hs : tp'.tState.active = true) :
    Windowed cfg iss tp' := by
  cases hin with
  | predictedAck hstate hnxt hpos hle => exact h.acked hle
  | predictedData => exact h.same rfl rfl rfl
  | dropped => exact h.same rfl rfl rfl
  | reset => cases hs
  | refused acknow hstage =>
    have h' : Windowed cfg iss { tp with acknow } := h.same rfl rfl rfl
    exact h'.ackDrop hstage
  | @processed acknow ti tq _ _ _ hstage =>
    have h' : Windowed cfg iss { tp with acknow } := h.same rfl rfl rfl
    refine (h'.ackGo hopen hstage).step6 ?_ ti seg.win room
    rcases ackStage_go hstage with ⟨-, -, hmid⟩ | ⟨hne', hmid | ⟨-, hmid⟩ | ⟨-, hmid⟩⟩
    · rw [hmid]
      rfl
    · rw [hmid]
      revert hne hne'
      cases tp.tState <;> simp [TcpState.opening]
    · rw [hmid]
      rfl
    · rw [hmid]
      rfl

/-- The SYN of the peer in SYN_SENT. -/
theorem Windowed.synced (hs : tp.tState = .synSent) (hoff : tp.sndOff.toNat = 1) (seg : Seg) :
    Windowed cfg iss (tp.synced seg) := by
  obtain ⟨hq, hoff', hmax'⟩ := h.syn (by rw [hs]; rfl) hoff
  have hsent := h.sent
  have hmax : tp.sndMax.toNat = 1 := by rw [hmax']; rfl
  have hsub : ({ tp with sndSeq := tp.sndSeq + 1, base := tp.base + 1 } : Pcb).subSnd 1 = _ :=
    subSnd_syn h.fits hoff' hmax'
  have hside : (tp.synced seg).sndSide =
      (tp.sentfin, tp.sndSeq + 1, 0, 0, tp.base + 1, tp.top, tp.wrapped) ∧
      (tp.synced seg).sndQ = tp.sndQ := by
    rw [Pcb.synced, hsub, tcpParseOptions]
    split <;> exact ⟨rfl, rfl⟩
  obtain ⟨hside, hq'⟩ := hside
  simp only [Pcb.sndSide, Prod.mk.injEq] at hside
  obtain ⟨-, hseq, hoff0, hmax0, hbase, htop, hwrapped⟩ := hside
  refine ⟨rfl, ?_, ?_, by rintro ⟨⟩, ?_, ?_, ?_, by rintro ⟨⟩, ?_⟩
  · rw [hseq, hbase, h.seq, ofNat_add, add_assoc]
    rfl
  · rw [hq']
    exact h.queue
  · rw [hoff0, hmax0]
  · rw [hmax0]
    exact Nat.zero_le _
  · rw [hbase, hmax0, htop]
    show tp.base + 1 + 0 ≤ tp.top
    omega
  · rw [hwrapped]
    exact h.fits

omit h in
/-- Nothing is left in the queue or behind it when all of it was sent. -/
theorem subSnd_all (hfits : tp.wrapped = false) (hoff : tp.sndOff.toNat = tp.sndQ.length)
    (hmax : tp.sndMax.toNat = tp.sndQ.length) :
    tp.subSnd tp.sndQ.length = { tp with sndOff := 0, sndMax := 0 } := by
  have hlt : tp.sndQ.length < 2 ^ 16 := by
    rw [← hoff]
    exact tp.sndOff.isLt
  have hoff' : tp.sndOff = BitVec.ofNat 16 tp.sndQ.length :=
    eq_of_toNat_eq (by rw [hoff, toNat_ofNat16 hlt])
  have hmax' : tp.sndMax = BitVec.ofNat 16 tp.sndQ.length :=
    eq_of_toNat_eq (by rw [hmax, toNat_ofNat16 hlt])
  have hnot : decide (tp.sndQ.length < tp.sndQ.length) = false :=
    decide_eq_false (Nat.lt_irrefl _)
  rw [Pcb.subSnd, hoff, hmax, hfits, hnot, hoff', hmax', sub_self]
  rfl

theorem Windowed.close (hopen : tp.tState = .synRcvd → tp.sndOff.toNat = 0)
    (hwait : tp.tState = .closeWait → tp.sndOff.toNat = tp.sndQ.length)
    (hclose : tcpClose tp = some tp') : Windowed cfg iss tp' := by
  have hoff := h.off_le
  have hle := h.max_le
  have hsent := h.sent
  rcases tcpClose_cases hclose with rfl | ⟨hs, rfl⟩ | ⟨hs, rfl⟩
  · exact h
  · have hbound : tp.sndMax.toNat ≤ tp.sndQ.length + 1 ∧ tp.sndOff.toNat ≠ tp.sndQ.length + 1 := by
      cases hs' : tp.tState <;> rw [hs'] at hs hle
      case synRcvd =>
        have hzero := hopen hs'
        exact ⟨hle, by omega⟩
      case established =>
        have hle' : tp.sndMax.toNat ≤ tp.sndQ.length + 0 := hle
        exact ⟨by omega, by omega⟩
      all_goals cases hs
    exact ⟨rfl, h.seq, h.queue, nofun, hoff, hbound.1, hsent,
      fun _ hend => absurd hend hbound.2, h.fits⟩
  · rw [hs] at hle
    have hle' : tp.sndMax.toNat ≤ tp.sndQ.length + 0 := hle
    have hall := hwait hs
    rw [subSnd_all h.fits hall (by omega)]
    refine ⟨rfl, h.seq, Nat.zero_le _, nofun, Nat.le_refl 0, Nat.zero_le _, ?_, nofun, h.fits⟩
    show tp.base + 0 ≤ tp.top
    omega

theorem Windowed.send {data : List UInt8} (acknow delack : Bool)
    (hdata : data ≠ [] → tp.tState = .established ∧ (tp.sndQ ++ data).length ≤ cfg.maxsnd) :
    Windowed cfg iss { tp with sndQ := tp.sndQ ++ data, acknow, delack } := by
  by_cases hnil : data = []
  · exact h.same rfl (by rw [hnil, append_nil]) rfl
  · obtain ⟨hs, hle⟩ := hdata hnil
    have hmax := h.max_le
    have hlen : (tp.sndQ ++ data).length = tp.sndQ.length + data.length := length_append
    refine ⟨h.active, h.seq, hle, ?_, h.off_le, ?_, h.sent, ?_, h.fits⟩
    · show tp.tState.drained = true → _
      rw [hs]
      rintro ⟨⟩
    · show tp.sndMax.toNat ≤ (tp.sndQ ++ data).length + tp.tState.extra
      omega
    · show tp.tState.finishing = true → _
      rw [hs]
      rintro ⟨⟩

theorem Windowed.timeout : Windowed cfg iss (tcpRxmtTmr tp) := by
  refine { h with off_le := Nat.zero_le _, fin := fun _ hend => ?_ }
  exact absurd hend (Nat.succ_ne_zero _).symm

end

theorem Sending.input (h : Sending cfg iss tp)
    (hopen : tp.tState = .synRcvd → tp.InRange seg.ack → tp.sndOff.toNat = 1)
    (hsent : tp.tState = .synSent → seg.ack = tp.sndSeq + 1 → tp.sndOff.toNat = 1)
    (hin : tcpInput true cfg tp seg room = some tp') : Sending cfg iss tp' := by
  by_cases hs : tp.tState = .synSent
  · rcases tcpInput_synSent hs hin with ⟨hs', -⟩ | ⟨-, -, hack, rfl⟩
    · rw [Sending, hs']
      exact ⟨nofun, nofun⟩
    · have hwin := (h.1 (by rw [hs]; rfl)).synced hs (hsent hs hack) seg
      refine ⟨fun _ => hwin.step6 rfl _ _ _, fun hs' => ?_⟩
      rcases step6_tState (tp.synced seg) { seq := seg.seq + 1, data := seg.data, flags := seg.flags }
        seg.win room with hmid | ⟨-, hmid⟩ | ⟨-, hmid⟩ | ⟨-, hmid⟩ <;>
        exact nomatch hmid.symm.trans hs'
  · have hout := tcpInput_outcome hs hin
    exact ⟨fun hs' => (h.1 (hout.active_of hs')).input hs hopen hout hs',
      fun hs' => absurd hs' (hout.synced hs)⟩

theorem Sending.output (h : Sending cfg iss tp)
    (hopen : tp.tState = .synRcvd → tp.sndOff.toNat = 0 ∨ tp.sndWnd = tp.sndOff)
    {net : List Bool} : Sending cfg iss (tcpOutput cfg tp net) := by
  have hsteady := tcpOutput_steady cfg tp net
  simp only [Pcb.steady, Prod.mk.injEq] at hsteady
  obtain ⟨hs, -, -, -, hwnd, -⟩ := hsteady
  rw [Sending, hs, hwnd]
  refine ⟨fun hactive => ?_, h.2⟩
  have hwin := h.1 hactive
  refine hwin.tcpOutput (fun hs' => ?_) net
  by_cases hsent : tp.tState = .synSent
  · by_cases hzero : tp.sndOff.toNat = 0
    · exact .inl hzero
    · -- the SYN was sent, and the window is that of the SYN
      have hle := hwin.max_le
      have hle' := hwin.off_le
      rw [hwin.drained (opening_finishing hs').2, hsent] at hle
      have hone : tp.sndMax.toNat ≤ 0 + 1 := hle
      refine .inr ?_
      rw [h.2 hsent]
      refine eq_of_toNat_eq ?_
      show 1 = tp.sndOff.toNat
      omega
  · refine hopen ?_
    revert hs' hsent
    cases tp.tState <;> simp [TcpState.opening]

theorem Sending.step {ev : Event} (h : Sending cfg iss c.tp) (hev : ev.Orderly c)
    (hstep : c.step cfg ev = some c') : Sending cfg iss c'.tp := by
  cases Conn.step_outcome hstep with
  | kept => exact h
  | input _ hin => exact h.input hev.1 hev.2 hin
  | output net => exact h.output hev
  | timeout => exact ⟨fun hs => (h.1 hs).timeout, h.2⟩
  | send acknow delack hdata => exact ⟨fun hs => (h.1 hs).send acknow delack hdata, h.2⟩
  | recv => exact ⟨fun hs => (h.1 hs).same rfl rfl rfl, h.2⟩
  | close hclose =>
    have hactive : c.tp.tState.active = true := by
      cases hs : c.tp.tState <;> simp only [tcpClose, hs, reduceCtorEq] at hclose <;> rfl
    have hwin := (h.1 hactive).close hev.1 hev.2 hclose
    refine ⟨fun _ => hwin, fun hs => ?_⟩
    rcases tcpClose_cases hclose with rfl | ⟨-, rfl⟩ | ⟨-, rfl⟩
    · exact h.2 hs
    · cases hs
    · cases hs

/-- A connection at its beginning: `tcp_connect` or `tcp_passive_open` has just made it. -/
def Starts (iss : BitVec 32) (tp : Pcb) : Prop :=
  (∃ mss, tp = tcpConnect mss iss) ∨ ∃ mss syn, tp = tcpPassiveOpen mss iss syn

theorem Starts.sending (h : Starts iss tp) : Sending cfg iss tp := by
  have hzero : iss = iss + BitVec.ofNat 32 0 := (add_zero iss).symm
  rcases h with ⟨mss, rfl⟩ | ⟨mss, syn, rfl⟩
  · exact ⟨fun _ => ⟨rfl, hzero, Nat.zero_le _, fun _ => rfl, Nat.le_refl 0, Nat.zero_le _,
      Nat.le_refl 0, by rintro ⟨⟩, rfl⟩, fun _ => rfl⟩
  · rw [tcpPassiveOpen, tcpParseOptions]
    split
    · exact ⟨fun _ => ⟨rfl, hzero, Nat.zero_le _, fun _ => rfl, Nat.le_refl 0, Nat.zero_le _,
        Nat.le_refl 0, by rintro ⟨⟩, rfl⟩, by rintro ⟨⟩⟩
    · exact ⟨fun _ => ⟨rfl, hzero, Nat.zero_le _, fun _ => rfl, Nat.le_refl 0, Nat.zero_le _,
        Nat.le_refl 0, by rintro ⟨⟩, rfl⟩, by rintro ⟨⟩⟩

/-- In every orderly run `snd_off` is at most `snd_max`, which is at most one more than the queue has
bytes, what `snd_max` counts was sent, and no update of the two left the range of 16 bits. -/
theorem send_window_kept (cfg : Config) (iss : BitVec 32) (hstart : Starts iss c.tp)
    (hrun : (system cfg).Run (fun c ev => ev.Orderly c) c c')
    (hactive : c'.tp.tState.active = true) :
    c'.tp.sndOff.toNat ≤ c'.tp.sndMax.toNat ∧ c'.tp.sndMax.toNat ≤ c'.tp.sndQ.length + 1 ∧
      c'.tp.sndSeq = iss + BitVec.ofNat 32 c'.tp.base ∧
      c'.tp.base + c'.tp.sndMax.toNat ≤ c'.tp.top ∧ c'.tp.wrapped = false := by
  have hsending := hrun.invariant (I := fun c => Sending cfg iss c.tp)
    (fun _ _ _ h hev hs => h.step hev hs) hstart.sending
  have hwin := hsending.1 hactive
  have hextra : c'.tp.tState.extra ≤ 1 := by
    rw [(outFlags_eq c'.tp.tState).2.2]
    exact toNat_le _
  have hle := hwin.max_le
  exact ⟨hwin.off_le, by omega, hwin.seq, hwin.sent, hwin.fits⟩

end

instance (tp : Pcb) (ack : BitVec 32) : Decidable (tp.InRange ack) :=
  inferInstanceAs (Decidable (¬_))

instance (c : Conn) (ev : Event) : Decidable (ev.Orderly c) :=
  match ev with
  | .input _ _ => inferInstanceAs (Decidable (_ ∧ _))
  | .output _ => inferInstanceAs (Decidable (_ → _))
  | .close => inferInstanceAs (Decidable (_ ∧ _))
  | .timeout | .send _ _ _ | .recv _ => inferInstanceAs (Decidable True)

theorem send_window_kept_sending : ∃ c', (system stdConfig).Run (fun c ev => ev.Orderly c)
        ⟨tcpPassiveOpen 1460 0x100000 peerSyn, []⟩ c' ∧
      (c'.tp.tState.active = true ∧ c'.tp.sndMax = 3) ∧
      (c'.tp.sndOff.toNat ≤ c'.tp.sndMax.toNat ∧ c'.tp.sndMax.toNat ≤ c'.tp.sndQ.length + 1 ∧
        c'.tp.sndSeq = 0x100000 + BitVec.ofNat 32 c'.tp.base ∧
        c'.tp.base + c'.tp.sndMax.toNat ≤ c'.tp.top ∧ c'.tp.wrapped = false) := by
  obtain ⟨c', hrun, hs⟩ := System.exists_run_of_exec (M := system stdConfig)
    (P := fun c ev => Event.Orderly c ev)
    (fun c => c.tp.tState.active = true ∧ c.tp.sndMax = 3)
    [.output [true], .input (peerAck 0x100001) 0, .send [1, 2, 3] 100 false, .output [true]]
    ⟨tcpPassiveOpen 1460 0x100000 peerSyn, []⟩ (by decide)
  exact ⟨c', hrun, hs, send_window_kept stdConfig 0x100000 (.inr ⟨1460, peerSyn, rfl⟩) hrun hs.1⟩

/-- `tcp_close` in CLOSE_WAIT with three bytes that were not sent makes both counters wrap. -/
theorem close_wraps_counters :
    ∃ c', (system stdConfig).Run (fun _ _ => True) ⟨tcpPassiveOpen 1460 0x100000 peerSyn, []⟩ c' ∧
      c'.tp.tState = .lastAck ∧ c'.tp.wrapped = true ∧ c'.tp.sndOff = 65533 ∧
      c'.tp.sndMax = 65533 ∧ c'.tp.sndQ = [] :=
  System.exists_run_of_exec (M := system stdConfig) (P := fun _ _ => True)
    (fun c => c.tp.tState = .lastAck ∧ c.tp.wrapped = true ∧ c.tp.sndOff = 65533 ∧
      c.tp.sndMax = 65533 ∧ c.tp.sndQ = [])
    [.output [true], .input (peerAck 0x100001) 0, .send [1, 2, 3] 100 false,
      .input (peerBare 100 0x100001 true) 0, .close] ⟨tcpPassiveOpen 1460 0x100000 peerSyn, []⟩ (by decide)

/-- A second SYN in SYN_RCVD counts again. -/
example : (tcpOutput stdConfig synIsSent.tp [true]).sndMax = 2 := by decide

end Tcp

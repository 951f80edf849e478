import ThinkOS.Lib.Serial
import ThinkOS.Tcp.Input

/-!
# Acknowledgments

`tcp_input` compares an acknowledgment with `snd_una` and `snd_max` by the signs of differences.
Since `snd_off` and `snd_max` are small, an acknowledgment of new data acknowledges a number of
bytes between one and `snd_max`.
-/

namespace Tcp

open Lib BitVec

section
variable {tp : Pcb} {ack una : BitVec 32} {x y k : Nat}

theorem Pcb.sndNxt_eq (tp : Pcb) : tp.sndNxt = tp.sndSeq + BitVec.ofNat 32 tp.sndOff.toNat := by
  rw [Pcb.sndNxt, ofNat_toNat]

theorem Pcb.sndTop_eq (tp : Pcb) : tp.sndTop = tp.sndSeq + BitVec.ofNat 32 tp.sndMax.toNat := by
  rw [Pcb.sndTop, ofNat_toNat]

/-- An acknowledgment of nothing new, of too much, or of `k` bytes. -/
theorem ackProcess_cases (tp : Pcb) (ack una : BitVec 32) (hx : x < 65536) (hy : y < 65536) :
    (seqLeq ack una = true ∧ ackProcess tp ack una (una + BitVec.ofNat 32 x)
        (una + BitVec.ofNat 32 y) = .go tp) ∨
    (seqGt ack (una + BitVec.ofNat 32 y) = true ∧ ackProcess tp ack una (una + BitVec.ofNat 32 x)
        (una + BitVec.ofNat 32 y) = dropAfterAck tp) ∨
    ∃ k, 0 < k ∧ k ≤ y ∧ ack = una + BitVec.ofNat 32 k ∧
      ackProcess tp ack una (una + BitVec.ofNat 32 x) (una + BitVec.ofNat 32 y) =
        ackState ({ tp with sndQ := tp.sndQ.drop k }.setSnd ack
          (una + BitVec.ofNat 32 (max x k)) (una + BitVec.ofNat 32 y))
          (decide (tp.sndQ.length < k)) := by
  by_cases hold : seqLeq ack una = true
  · exact .inl ⟨hold, by rw [ackProcess, if_pos hold]⟩
  · by_cases hmuch : seqGt ack (una + BitVec.ofNat 32 y) = true
    · exact .inr (.inl ⟨hmuch, by rw [ackProcess, if_neg hold, if_pos hmuch]⟩)
    · refine .inr (.inr ?_)
      simp only [seqLeq, seqGt, decide_eq_true_eq, not_le, not_lt] at hold hmuch
      obtain ⟨k, hpos, hle, rfl⟩ := exists_between (by omega : y < 2 ^ 31) hold hmuch
      refine ⟨k, hpos, hle, rfl, ?_⟩
      have hacked : ((una + BitVec.ofNat 32 k) - una).toInt = k := toInt_add_sub (by omega)
      have hold' : ¬seqLeq (una + BitVec.ofNat 32 k) una = true := by
        simp only [seqLeq, hacked, decide_eq_true_eq]
        omega
      have hmuch' : ¬seqGt (una + BitVec.ofNat 32 k) (una + BitVec.ofNat 32 y) = true := by
        simp only [seqGt, decide_eq_true_eq]
        omega
      have hqueue : (if (k : Int) > tp.sndQ.length then [] else tp.sndQ.drop (k : Int).toNat) =
          tp.sndQ.drop k := by
        split
        · exact (List.drop_eq_nil_of_le (by omega)).symm
        · rw [Int.toNat_natCast]
      have hnxt : (if seqLt (una + BitVec.ofNat 32 x) (una + BitVec.ofNat 32 k) = true
          then una + BitVec.ofNat 32 k else una + BitVec.ofNat 32 x) =
            una + BitVec.ofNat 32 (max x k) := by
        simp only [seqLt, toInt_add_sub_add una (by omega : x < 2 ^ 31) (by omega : k < 2 ^ 31),
          decide_eq_true_eq]
        split
        · rw [Nat.max_eq_right (by omega)]
        · rw [Nat.max_eq_left (by omega)]
      have hfin : decide ((k : Int) > tp.sndQ.length) = decide (tp.sndQ.length < k) := by
        simp only [gt_iff_lt, Int.ofNat_lt]
      rw [ackProcess, if_neg hold', if_neg hmuch']
      simp only [hacked, hqueue, hnxt, hfin]

theorem toNat_ofNat_of_lt (hk : k < 65536) : (BitVec.ofNat 32 k).toNat = k := by
  rw [toNat_ofNat, Nat.mod_eq_of_lt (by omega)]

theorem Pcb.off_eq_max (h : tp.sndNxt = tp.sndTop) : tp.sndOff.toNat = tp.sndMax.toNat := by
  rw [sndNxt_eq, sndTop_eq] at h
  have hnat := congrArg BitVec.toNat (add_left_cancel h)
  rwa [toNat_ofNat_of_lt tp.sndOff.isLt, toNat_ofNat_of_lt tp.sndMax.isLt] at hnat

theorem ackState_established (h : tp.tState = .established) {b : Bool} :
    ackState tp b = .go tp := by
  rw [ackState, h]

/-- The counters behind an acknowledgment of `k` bytes, which do not leave their range. -/
theorem setSnd_ack (hseq : tp.sndSeq = una) (hx : k ≤ x) (hy : k ≤ y) (hx' : x < 65536)
    (hy' : y < 65536) :
    (tp.setSnd (una + BitVec.ofNat 32 k) (una + BitVec.ofNat 32 x) (una + BitVec.ofNat 32 y)) =
      { tp with
        sndSeq := una + BitVec.ofNat 32 k
        base := tp.base + k
        sndOff := BitVec.ofNat 16 (x - k)
        sndMax := BitVec.ofNat 16 (y - k) } := by
  have hoff : ¬65536 ≤ x - k := by omega
  have hmax : ¬65536 ≤ y - k := by omega
  have hset (z : Nat) : (BitVec.ofNat 32 z).setWidth 16 = BitVec.ofNat 16 z := by
    rw [setWidth_ofNat_of_le (by decide)]
  have hbase : (una + BitVec.ofNat 32 k) - una = BitVec.ofNat 32 k := add_sub_cancel_left ..
  simp only [Pcb.setSnd, hseq, hbase, toNat_ofNat_of_lt (by omega : k < 65536),
    add_sub_add_of_le una hx, add_sub_add_of_le una hy, hset,
    toNat_ofNat_of_lt (by omega : x - k < 65536), toNat_ofNat_of_lt (by omega : y - k < 65536),
    hoff, hmax, decide_false, Bool.or_false]

end

/-! ## What an acknowledgment does -/

/-- What an acceptable acknowledgment finds: in SYN_RCVD it opens the connection, and the SYN no
longer counts. -/
def Pcb.accepted (tp : Pcb) : Pcb :=
  if tp.tState = .synRcvd then { tp with tState := .established }.subSnd 1 else tp

/-- Behind an acknowledgment of `k` bytes, when `snd_off` was `x` and `snd_max` was `y`. -/
def Pcb.acked (tp : Pcb) (x y k : Nat) : Pcb :=
  { tp with
    sndQ := tp.sndQ.drop k
    sndSeq := tp.sndSeq + BitVec.ofNat 32 k
    base := tp.base + k
    sndOff := BitVec.ofNat 16 (max x k - k)
    sndMax := BitVec.ofNat 16 (y - k) }

/-- The acknowledgment number is in the range that SYN_RCVD asks for. -/
def Pcb.InRange (tp : Pcb) (ack : BitVec 32) : Prop :=
  ¬(seqGt tp.sndSeq ack = true ∨ seqGt ack tp.sndTop = true)

/-- The ends of the processing of an acknowledgment. -/
inductive AckOutcome (tp : Pcb) (ack : BitVec 32) : Ack → Prop
  | passed (h : tp.tState.num < TcpState.synRcvd.num) : AckOutcome tp ack (.go tp)
  | refused (h : tp.tState = .synRcvd) : AckOutcome tp ack (.drop (some tp))
  | old (h : TcpState.synRcvd.num ≤ tp.tState.num) (hopen : tp.tState = .synRcvd → tp.InRange ack) :
      AckOutcome tp ack (.go tp.accepted)
  | much (h : TcpState.synRcvd.num < tp.tState.num) : AckOutcome tp ack (dropAfterAck tp)
  | new {k : Nat} (h : TcpState.synRcvd.num ≤ tp.tState.num)
      (hopen : tp.tState = .synRcvd → tp.InRange ack) (hpos : 0 < k) (hle : k ≤ tp.sndMax.toNat)
      (hack : ack = tp.sndSeq + BitVec.ofNat 32 k) :
      AckOutcome tp ack (ackState (tp.accepted.acked tp.sndOff.toNat tp.sndMax.toNat k)
        (decide (tp.sndQ.length < k)))

section
variable {tp tp' : Pcb} {ack : BitVec 32} {b : Bool}

theorem Pcb.accepted_sndSeq (tp : Pcb) : tp.accepted.sndSeq = tp.sndSeq := by
  rw [accepted]
  split <;> rfl

theorem Pcb.accepted_sndQ (tp : Pcb) : tp.accepted.sndQ = tp.sndQ := by
  rw [accepted]
  split <;> rfl

/-- The processing behind the test of SYN_RCVD. -/
theorem ackProcess_outcome (ack : BitVec 32) (h : TcpState.synRcvd.num ≤ tp.tState.num)
    (hopen : tp.tState = .synRcvd → tp.InRange ack) :
    AckOutcome tp ack (ackProcess tp.accepted ack tp.sndSeq tp.sndNxt tp.sndTop) := by
  have hoff : tp.sndOff.toNat < 65536 := tp.sndOff.isLt
  have hmax : tp.sndMax.toNat < 65536 := tp.sndMax.isLt
  have hcases := ackProcess_cases tp.accepted ack tp.sndSeq hoff hmax
  rw [← tp.sndNxt_eq, ← tp.sndTop_eq] at hcases
  rcases hcases with ⟨-, heq⟩ | ⟨hmuch, heq⟩ | ⟨k, hpos, hle, rfl, heq⟩
  · rw [heq]
    exact .old h hopen
  · have hne : tp.tState ≠ .synRcvd := fun hs => hopen hs (.inr hmuch)
    have hlt : TcpState.synRcvd.num < tp.tState.num := by
      refine Nat.lt_of_le_of_ne h fun hnum => hne ?_
      revert hnum
      cases tp.tState <;> decide
    rw [heq, Pcb.accepted, if_neg hne]
    exact .much hlt
  · have hset : ({ tp.accepted with sndQ := tp.accepted.sndQ.drop k } : Pcb).setSnd
        (tp.sndSeq + BitVec.ofNat 32 k) (tp.sndSeq + BitVec.ofNat 32 (max tp.sndOff.toNat k))
        (tp.sndSeq + BitVec.ofNat 32 tp.sndMax.toNat) = _ :=
      setSnd_ack tp.accepted_sndSeq (Nat.le_max_right ..) hle (by omega) hmax
    rw [heq, tp.sndTop_eq, hset, tp.accepted_sndQ]
    have hnew := AckOutcome.new h hopen hpos hle rfl
    rw [Pcb.acked, tp.accepted_sndSeq, tp.accepted_sndQ] at hnew
    exact hnew

theorem ackStage_outcome (tp : Pcb) (ack : BitVec 32) : AckOutcome tp ack (ackStage tp ack) := by
  by_cases hrcvd : tp.tState = .synRcvd
  · have hnum : TcpState.synRcvd.num ≤ tp.tState.num := by rw [hrcvd]
    rw [ackStage]
    simp only [hrcvd]
    split
    · exact .refused hrcvd
    · rename_i hrange
      have hout := ackProcess_outcome ack hnum fun _ => hrange
      rw [Pcb.accepted, if_pos hrcvd] at hout
      exact hout
  · by_cases hnum : TcpState.synRcvd.num ≤ tp.tState.num
    · have hout := ackProcess_outcome ack hnum fun h => absurd h hrcvd
      rw [Pcb.accepted, if_neg hrcvd] at hout
      have heq : ackStage tp ack = ackProcess tp ack tp.sndSeq tp.sndNxt tp.sndTop := by
        simp only [ackStage]
        cases hs : tp.tState <;> rw [hs] at hnum hrcvd <;> first
          | rfl
          | exact absurd hnum (by decide)
          | exact absurd rfl hrcvd
      rw [heq]
      exact hout
    · have heq : ackStage tp ack = .go tp := by
        simp only [ackStage]
        cases hs : tp.tState <;> rw [hs] at hnum <;> first
          | rfl
          | exact absurd (by decide) hnum
      rw [heq]
      exact .passed (Nat.lt_of_not_le hnum)

/-! ## The states behind it -/

theorem Pcb.accepted_of_ne (h : tp.tState ≠ .synRcvd) : tp.accepted = tp := if_neg h

theorem Pcb.accepted_tState (h : tp.tState = .synRcvd) : tp.accepted.tState = .established := by
  rw [accepted, if_pos h, subSnd]

theorem ackState_go (h : ackState tp b = .go tp') :
    tp' = tp ∨ (tp.tState = .finWait1 ∧ b = true ∧ tp' = { tp with tState := .finWait2 }) ∨
      (tp.tState = .closing ∧ b = true ∧ tp' = { tp.freeQueues with tState := .timeWait }) := by
  rw [ackState] at h
  split at h
  · rename_i hs
    cases b with
    | false => exact .inl (Ack.go.inj h).symm
    | true => exact .inr (.inl ⟨hs, rfl, (Ack.go.inj h).symm⟩)
  · rename_i hs
    cases b with
    | false => exact .inl (Ack.go.inj h).symm
    | true => exact .inr (.inr ⟨hs, rfl, (Ack.go.inj h).symm⟩)
  · split at h
    · cases h
    · exact .inl (Ack.go.inj h).symm
  · cases h
  · exact .inl (Ack.go.inj h).symm

theorem ackState_drop (h : ackState tp b = .drop (some tp')) :
    tp.tState = .timeWait ∧ tp' = { tp with acknow := true } := by
  rw [ackState] at h
  split at h
  · cases h
  · cases h
  · split at h
    · exact nomatch Ack.drop.inj h
    · cases h
  · rename_i hs
    exact ⟨hs, (Option.some.inj (Ack.drop.inj h)).symm⟩
  · cases h

end

end Tcp

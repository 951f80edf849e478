import ThinkOS.Tcp.Run

/-!
# What trimming leaves

Of a segment that begins before `rcv_nxt` the part from `rcv_nxt` on is left, and of that the part
within the window. A FIN is left only together with all the data behind `rcv_nxt`.
-/

namespace Tcp

open Lib BitVec List Option

/-- The number of the first byte of data: a SYN takes the one before. -/
def Seg.first (seg : Seg) : BitVec 32 :=
  if seg.flags.syn then seg.seq + 1 else seg.seq

/-- What the first trimming leaves. -/
inductive HeadOutcome (tp : Pcb) (seg : Seg) : Ti → Prop
  /-- the segment begins at `rcv_nxt` or behind -/
  | ahead (h : (tp.rcvNxt - seg.seq).toInt ≤ 0) :
      HeadOutcome tp seg { seq := seg.seq, data := seg.data, flags := seg.flags }
  | gone {ti : Ti} (hdata : ti.data = []) (hfin : ti.flags.fin = false) : HeadOutcome tp seg ti
  | cut {t : Nat} (hle : t ≤ seg.data.length) (hfirst : (seg.first - tp.rcvNxt).toInt = -(t : Int)) :
      HeadOutcome tp seg
        { seq := tp.rcvNxt, data := seg.data.drop t, flags := { seg.flags with syn := false } }

section
variable {cfg : Config} {tp : Pcb} {seg : Seg} {ti : Ti}

theorem trimLead_outcome {t : Nat} (ht : t < 2 ^ 31)
    (hnxt : seg.first + BitVec.ofNat 32 t = tp.rcvNxt) :
    HeadOutcome tp seg (trimLead tp { seq := seg.first, data := seg.data
                                      flags := { seg.flags with syn := false } } t).2 := by
  rw [trimLead]
  split
  · exact .gone rfl rfl
  · rename_i h
    dsimp only at h ⊢
    have hneg : seg.first - tp.rcvNxt = BitVec.ofInt 32 (-(t : Int)) := by
      rw [← hnxt, ofInt_neg, ofInt_natCast]
      ring
    rw [ofInt_natCast, hnxt, Int.toNat_natCast]
    refine .cut (by omega) ?_
    rw [hneg, toInt_ofInt_eq_self (by decide) (by omega) (by omega)]

theorem trimHead_outcome : HeadOutcome tp seg
      (trimHead tp { seq := seg.seq, data := seg.data, flags := seg.flags }).2 := by
  simp only [trimHead]
  split
  case isFalse h => exact .ahead (by omega)
  case isTrue h =>
    obtain ⟨hd, hlt⟩ := ofNat_toNat_of_pos h
    have hint : ((tp.rcvNxt - seg.seq).toInt.toNat : Int) = (tp.rcvNxt - seg.seq).toInt :=
      Int.toNat_of_nonneg (Int.le_of_lt h)
    have hnxt : seg.seq + BitVec.ofNat 32 (tp.rcvNxt - seg.seq).toInt.toNat = tp.rcvNxt := by
      rw [← hd]
      ring
    generalize (tp.rcvNxt - seg.seq).toInt.toNat = t at hlt hint hnxt
    rw [← hint] at h ⊢
    by_cases hsyn : seg.flags.syn = true
    · have hfirst : seg.first = seg.seq + 1 := if_pos hsyn
      have hnxt' : seg.first + BitVec.ofNat 32 (t - 1) = tp.rcvNxt := by
        have hsucc : BitVec.ofNat 32 t = BitVec.ofNat 32 (t - 1) + 1 := by
          conv_lhs => rw [show t = t - 1 + 1 by omega, ofNat_add]
          rfl
        rw [hfirst, ← hnxt, hsucc]
        ring
      have hpred : (t : Int) - 1 = ((t - 1 : Nat) : Int) := by omega
      rw [if_pos hsyn, hpred, ← hfirst]
      exact trimLead_outcome (by omega) hnxt'
    · have hfirst : seg.first = seg.seq := if_neg hsyn
      have hflags : ({ seg.flags with syn := false } : Flags) = seg.flags := by
        rw [← eq_false_of_ne_true hsyn]
      have hout := trimLead_outcome hlt (by rw [hfirst, hnxt] : seg.first + _ = tp.rcvNxt)
      rw [hflags, hfirst] at hout
      rw [if_neg hsyn]
      exact hout

/-- The second trimming takes data off the end, and then the FIN as well. -/
theorem trimTail_outcome {wnd : Nat} {r : Pcb × Ti} (h : trimTail tp ti wnd = some r) :
    r.2 = ti ∨ ∃ m, r.2 = { ti with
      data := ti.data.take m, flags := { ti.flags with psh := false, fin := false } } := by
  simp only [trimTail] at h
  split at h
  · split at h
    · split at h
      · rw [← some.inj h]
        exact .inr ⟨_, rfl⟩
      · cases h
    · rw [← some.inj h]
      exact .inr ⟨_, rfl⟩
  · rw [← some.inj h]
    exact .inl rfl

theorem trimmed_outcome (h : trimmed cfg tp seg = some ti) :
    ∃ head, HeadOutcome tp seg head ∧ (ti = head ∨ ∃ m, ti = { head with
      data := head.data.take m, flags := { head.flags with psh := false, fin := false } }) := by
  simp only [trimmed] at h
  split at h
  · cases h
  · obtain ⟨r, hr, rfl⟩ := map_eq_some_iff.mp h
    exact ⟨_, trimHead_outcome, trimTail_outcome hr⟩

/-- What is left in order, without a SYN: the data from `rcv_nxt` on, or a part of it from there
when the FIN is gone. -/
theorem trimmed_inOrder (h : trimmed cfg tp seg = some ti) (hsyn : ti.flags.syn = false)
    (hseq : ti.seq = tp.rcvNxt) : (ti.data = [] ∧ ti.flags.fin = false) ∨
    ∃ t, t ≤ seg.data.length ∧ (seg.first - tp.rcvNxt).toInt = -(t : Int) ∧
      ti.data <+: seg.data.drop t ∧
      (ti.flags.fin = true → seg.flags.fin = true ∧ ti.data = seg.data.drop t) := by
  obtain ⟨head, hhead, htail⟩ := trimmed_outcome h
  cases hhead with
  | ahead =>
    have hstart (hs : seg.flags.syn = false) (hq : seg.seq = tp.rcvNxt) :
        (seg.first - tp.rcvNxt).toInt = -((0 : Nat) : Int) := by
      rw [Seg.first, hs, hq, if_neg Bool.false_ne_true, sub_self]
      rfl
    rcases htail with rfl | ⟨m, rfl⟩
    · exact .inr ⟨0, Nat.zero_le _, hstart hsyn hseq, prefix_rfl, fun hfin => ⟨hfin, rfl⟩⟩
    · exact .inr ⟨0, Nat.zero_le _, hstart hsyn hseq, take_prefix .., nofun⟩
  | gone hdata hfin =>
    rcases htail with rfl | ⟨m, rfl⟩
    · exact .inl ⟨hdata, hfin⟩
    · exact .inl ⟨by rw [hdata, take_nil], rfl⟩
  | @cut t hle hfirst =>
    rcases htail with rfl | ⟨m, rfl⟩
    · exact .inr ⟨t, hle, hfirst, prefix_rfl, fun hfin => ⟨hfin, rfl⟩⟩
    · exact .inr ⟨t, hle, hfirst, take_prefix .., nofun⟩

/-- A FIN that is left out of order is that of a segment ahead. -/
theorem trimmed_ahead (h : trimmed cfg tp seg = some ti) (hsyn : ti.flags.syn = false)
    (hseq : ti.seq ≠ tp.rcvNxt) (hfin : ti.flags.fin = true) :
    seg.flags.fin = true ∧ seg.first ≠ tp.rcvNxt ∧ (tp.rcvNxt - seg.first).toInt ≤ 0 := by
  obtain ⟨head, hhead, htail⟩ := trimmed_outcome h
  cases hhead with
  | ahead hahead =>
    rcases htail with rfl | ⟨m, rfl⟩
    · have hfirst : seg.first = seg.seq := by rw [Seg.first, hsyn, if_neg Bool.false_ne_true]
      rw [hfirst]
      exact ⟨hfin, hseq, hahead⟩
    · cases hfin
  | gone hdata hfin' =>
    rcases htail with rfl | ⟨m, rfl⟩
    · exact absurd (hfin'.symm.trans hfin) Bool.false_ne_true
    · cases hfin
  | cut =>
    rcases htail with rfl | ⟨m, rfl⟩
    · exact absurd rfl hseq
    · cases hfin

end

end Tcp

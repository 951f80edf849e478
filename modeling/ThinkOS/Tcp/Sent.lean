import ThinkOS.Tcp.Ack
import ThinkOS.Tcp.Output

/-!
# What `tcp_output` sends

A pass of `tcp_output` sends nothing, or a segment of no more bytes than the queue has behind
`snd_off`; with a window that is just used up it may start again at `snd_una` before.
-/

namespace Tcp

open Lib BitVec

/-- The window is used up, and bytes behind it were sent: `snd_nxt` goes back to `snd_una`. -/
def Out.rewound (o : Out) : Out :=
  { o with tp := { o.tp with sndOff := 0 }, nxt := o.tp.sndSeq }

/-- The flags of a segment in this state: SYN as the state has it, FIN only if the state has it. -/
def Flags.Of (flags : Flags) (s : TcpState) : Prop :=
  flags.syn = (outFlags s).syn ∧ (flags.fin = true → (outFlags s).fin = true)

/-- The ends of a pass that begins with `snd_nxt` at `x` behind `snd_una`. -/
inductive PassOutcome (cfg : Config) (o : Out) (x : Nat) : Out × Bool → Prop
  | kept : PassOutcome cfg o x (o, false)
  | rewound (hlen : o.tp.sndQ.length < x) (hwnd : o.tp.sndWnd.toNat = x) :
      PassOutcome cfg o x (o.rewound, false)
  | sent {l : Nat} {flags : Flags} {again : Bool}
      (hstay : o.tp.sndQ.length < x → o.tp.sndWnd.toNat ≠ x) (hlen : l ≤ o.tp.sndQ.length - x)
      (hflags : flags.Of o.tp.tState) (hagain : again = true → x < o.tp.sndQ.length) :
      PassOutcome cfg o x (outSent cfg o l flags, again)
  | resent {flags : Flags} (hlen : o.tp.sndQ.length < x) (hwnd : o.tp.sndWnd.toNat = x)
      (hflags : flags.Of o.tp.tState) : PassOutcome cfg o x (outSent cfg o.rewound 0 flags, false)

section
variable {cfg : Config} {o : Out} {x : Nat}

theorem outLen_outcome (hnxt : o.nxt = o.tp.sndSeq + BitVec.ofNat 32 x) (hx : x < 2 ^ 31) :
    (outLen o = (o.rewound, 0) ∧ o.tp.sndQ.length < x ∧ o.tp.sndWnd.toNat = x) ∨
    ∃ l : Nat, outLen o = (o, (l : Int)) ∧ l ≤ o.tp.sndQ.length - x ∧
      (o.tp.sndQ.length < x → o.tp.sndWnd.toNat ≠ x) := by
  have hoff : (o.nxt - o.tp.sndSeq).toInt = x := by rw [hnxt, toInt_add_sub hx]
  simp only [outLen, hoff]
  split
  · split
    · exact .inl ⟨rfl, by omega, by omega⟩
    · exact .inr ⟨0, rfl, Nat.zero_le _, by omega⟩
  · refine .inr ⟨(min ((o.tp.sndWnd.toNat : Int) - x) (o.tp.sndQ.length - x)).toNat, ?_, by omega,
      by omega⟩
    rw [Int.toNat_of_nonneg (by omega)]

theorem outCut_outcome (cfg : Config) (tMaxseg : Nat) (flags : Flags) (l : Nat) :
    ∃ (l' : Nat) (cut : Bool), outCut cfg tMaxseg flags l = ((l' : Int), cut) ∧ l' ≤ l ∧
      l' ≤ cfg.mtu - 40 ∧ (cut = true → 0 < l) := by
  have hmtu : ∃ m : Nat, (if 40 + (l : Int) > cfg.mtu then ((cfg.mtu - 40 : Nat) : Int) else l) = m ∧
      m ≤ l ∧ m ≤ cfg.mtu - 40 := by
    split
    · exact ⟨cfg.mtu - 40, rfl, by omega, Nat.le_refl _⟩
    · exact ⟨l, rfl, Nat.le_refl l, by omega⟩
  obtain ⟨m, hm, hle, hle'⟩ := hmtu
  simp only [outCut, hm]
  generalize (if flags.syn = true then 4 else 0) = optlen
  split
  case isFalse => exact ⟨m, false, rfl, hle, hle', nofun⟩
  case isTrue h =>
    exact ⟨tMaxseg - optlen, true, by rw [Int.ofNat_sub h.1], by omega, by omega, by omega⟩

/-- What is sent is a part of what there is to send, and fits into a packet of the interface. -/
theorem outChoice_outcome {idle : Bool} {qRem : Int} {l : Nat} {ok : Bool} {c : Int × Flags × Bool}
    (h : outChoice cfg idle o qRem l ok = some c) :
    ∃ l' : Nat, c.1 = l' ∧ l' ≤ l ∧ l' ≤ cfg.mtu - 40 ∧ c.2.1.Of o.tp.tState ∧
      (c.2.2 = true → 0 < l) := by
  have hseg : ∃ m : Nat, (if (l : Int) > o.tp.tMaxseg then (o.tp.tMaxseg : Int) else l) = m ∧
      m ≤ l := by
    split
    · exact ⟨o.tp.tMaxseg, rfl, by omega⟩
    · exact ⟨l, rfl, Nat.le_refl l⟩
  obtain ⟨m, hm, hle⟩ := hseg
  simp only [outChoice, hm] at h
  set flags := if seqLt (o.nxt + BitVec.ofInt 32 m)
      (o.tp.sndSeq + BitVec.ofNat 32 o.tp.sndQ.length) = true
    then { outFlags o.tp.tState with fin := false } else outFlags o.tp.tState with hdef
  have hflags : flags.Of o.tp.tState := by
    rw [hdef]
    split
    · exact ⟨rfl, by rintro ⟨⟩⟩
    · exact ⟨rfl, id⟩
  split at h
  case isFalse => cases h
  case isTrue =>
    obtain ⟨l', cut, hcut, hle', hmtu, hpos⟩ := outCut_outcome cfg o.tp.tMaxseg flags m
    rw [hcut] at h
    rw [← Option.some.inj h]
    refine ⟨l', rfl, Nat.le_trans hle' hle, hmtu, hflags, fun h => ?_⟩
    rcases (Bool.or_eq_true _ _).mp h with halot | hcut'
    · have := of_decide_eq_true halot
      omega
    · have := hpos hcut'
      omega

/-- A segment begins at `snd_nxt` and goes no further than the queue; one that follows a rewinding is
empty. -/
theorem outEmit_outcome {idle ok again : Bool} {e : Emitted}
    (hnxt : o.nxt = o.tp.sndSeq + BitVec.ofNat 32 x) (hx : x < 2 ^ 31)
    (h : outEmit cfg idle o ok = some (e, again)) :
    ∃ l : Nat, e.off = x ∧ e.len = l ∧ l ≤ cfg.mtu - 40 ∧ e.flags.Of o.tp.tState ∧
      ((e.out = o.rewound ∧ o.tp.sndQ.length < x ∧ o.tp.sndWnd.toNat = x ∧ l = 0 ∧ again = false) ∨
      (e.out = o ∧ (o.tp.sndQ.length < x → o.tp.sndWnd.toNat ≠ x) ∧ l ≤ o.tp.sndQ.length - x ∧
        (again = true → x < o.tp.sndQ.length))) := by
  simp only [outEmit, Option.map_eq_some_iff] at h
  obtain ⟨c, hc, heq⟩ := h
  obtain ⟨rfl, rfl⟩ := Prod.mk.inj heq
  have hoff : (o.nxt - o.tp.sndSeq).toInt = x := by rw [hnxt, toInt_add_sub hx]
  rcases outLen_outcome hnxt hx with ⟨hlen, hL, hwnd⟩ | ⟨l, hlen, hle, hstay⟩
  · rw [hlen] at hc ⊢
    obtain ⟨l', hl', hle, hmtu, hflags, hagain⟩ := outChoice_outcome (l := 0) hc
    refine ⟨l', hoff, hl', hmtu, hflags, .inl ⟨rfl, hL, hwnd, Nat.le_zero.mp hle, ?_⟩⟩
    exact Bool.eq_false_of_not_eq_true fun h => absurd (hagain h) (Nat.lt_irrefl 0)
  · rw [hlen] at hc ⊢
    obtain ⟨l', hl', hle', hmtu, hflags, hagain⟩ := outChoice_outcome hc
    refine ⟨l', hoff, hl', hmtu, hflags, .inr ⟨rfl, hstay, Nat.le_trans hle' hle, fun h => ?_⟩⟩
    have := hagain h
    omega

theorem outPass_outcome (idle ok : Bool) (hnxt : o.nxt = o.tp.sndSeq + BitVec.ofNat 32 x)
    (hx : x < 2 ^ 31) : PassOutcome cfg o x (outPass cfg idle o ok) := by
  unfold outPass
  split
  · rename_i e again h
    obtain ⟨l, -, hl, -, hflags, ⟨ho, hL, hwnd, hzero, hagain⟩ | ⟨ho, hstay, hle, hagain⟩⟩ :=
      outEmit_outcome hnxt hx h
    · rw [ho, hl, hzero, hagain]
      exact .resent hL hwnd hflags
    · rw [ho, hl]
      exact .sent hstay hle hflags hagain
  · rcases outLen_outcome hnxt hx with ⟨hlen, hL, hwnd⟩ | ⟨l, hlen, -⟩
    · rw [hlen]
      exact .rewound hL hwnd
    · rw [hlen]
      exact .kept

end

/-! ## The counters behind a segment -/

/-- How far behind `snd_una` a segment of `l` bytes at `x` ends: a FIN that is sent once more at
`y`, the highest number, does not count again. -/
def outEnd (sentfin : Bool) (flags : Flags) (x y l : Nat) : Nat :=
  x + l + flags.syn.toNat + (flags.fin && !(sentfin && decide (x = y))).toNat

/-- Behind a segment of `l` bytes that ends at `z`, when `snd_max` was `y`. -/
def Pcb.sent (cfg : Config) (tp : Pcb) (flags : Flags) (y z l : Nat) : Pcb :=
  { tp with
    sndOff := BitVec.ofNat 16 z
    sndMax := BitVec.ofNat 16 (max z y)
    wrapped := tp.wrapped || decide (65536 ≤ z) || decide (65536 ≤ max z y)
    sentfin := tp.sentfin || flags.fin
    top := if l ≠ 0 ∨ flags.syn = true ∨ flags.fin = true then max tp.top (tp.base + z) else tp.top
    rcvAdvWnd := outWindow cfg tp
    acknow := false
    delack := false }

section
variable {cfg : Config} {o : Out} {x y : Nat}

theorem outEnd_le (sentfin : Bool) (flags : Flags) (x y l : Nat) :
    outEnd sentfin flags x y l ≤ x + l + 2 := by
  have hsyn := Bool.toNat_le flags.syn
  have hfin := Bool.toNat_le (flags.fin && !(sentfin && decide (x = y)))
  rw [outEnd]
  omega

theorem outNxt_eq (flags : Flags) (l : Nat) (hnxt : o.nxt = o.tp.sndSeq + BitVec.ofNat 32 x)
    (hmax : o.max = o.tp.sndSeq + BitVec.ofNat 32 y) (hx : x < 65537) (hy : y < 65537) :
    outNxt o l flags = o.tp.sndSeq + BitVec.ofNat 32 (outEnd o.tp.sentfin flags x y l) := by
  have hsame : o.nxt = o.max ↔ x = y := by
    rw [hnxt, hmax]
    refine ⟨fun h => ?_, fun h => by rw [h]⟩
    have hnat := congrArg BitVec.toNat (add_left_cancel h)
    rw [toNat_ofNat, toNat_ofNat] at hnat
    omega
  have hone : BitVec.ofNat 32 1 = 1 := rfl
  have hzero : BitVec.ofNat 32 0 = 0 := rfl
  simp only [outNxt, hsame, outEnd, ofInt_natCast]
  rw [hnxt]
  cases flags.fin <;> cases flags.syn <;> cases o.tp.sentfin <;> by_cases h : x = y <;>
    simp only [h, ofNat_add, hone, hzero, Bool.toNat, Bool.false_eq_true, and_true, and_false,
      if_true, if_false, decide_true, decide_false, Bool.and_true,
      Bool.and_false, Bool.not_true, Bool.not_false, cond_true, cond_false] <;>
    ring

theorem outSent_eq (cfg : Config) (o : Out) {l : Nat} (flags : Flags)
    (hnxt : o.nxt = o.tp.sndSeq + BitVec.ofNat 32 x) (hmax : o.max = o.tp.sndSeq + BitVec.ofNat 32 y)
    (hx : x < 65537) (hy : y < 65537) (hl : l < 65536) : outSent cfg o l flags =
      { tp := o.tp.sent cfg flags y (outEnd o.tp.sentfin flags x y l) l
        nxt := o.tp.sndSeq + BitVec.ofNat 32 (outEnd o.tp.sentfin flags x y l)
        max := o.tp.sndSeq + BitVec.ofNat 32 (max (outEnd o.tp.sentfin flags x y l) y) } := by
  have hz := outEnd_le o.tp.sentfin flags x y l
  have hend := outNxt_eq flags l hnxt hmax hx hy
  set z := outEnd o.tp.sentfin flags x y l
  have htop : (if seqGt (o.tp.sndSeq + BitVec.ofNat 32 z) o.max = true
      then o.tp.sndSeq + BitVec.ofNat 32 z else o.max) =
        o.tp.sndSeq + BitVec.ofNat 32 (max z y) := by
    rw [hmax]
    simp only [seqGt, toInt_add_sub_add o.tp.sndSeq (by omega : z < 2 ^ 31) (by omega : y < 2 ^ 31),
      decide_eq_true_eq]
    split
    · rw [Nat.max_eq_left (by omega)]
    · rw [Nat.max_eq_right (by omega)]
  have hcancel (k : Nat) : o.tp.sndSeq + BitVec.ofNat 32 k - o.tp.sndSeq = BitVec.ofNat 32 k :=
    add_sub_cancel_left ..
  have hnat (k : Nat) (hk : k < 2 ^ 32) : (BitVec.ofNat 32 k).toNat = k := by
    rw [toNat_ofNat, Nat.mod_eq_of_lt hk]
  have hset (k : Nat) : (BitVec.ofNat 32 k).setWidth 16 = BitVec.ofNat 16 k := by
    rw [setWidth_ofNat_of_le (by decide)]
  simp only [outSent, hend, htop, Pcb.setSnd, Pcb.sent, hcancel, hset, sub_self,
    hnat z (by omega), hnat (max z y) (by omega), Int.natCast_eq_zero, ne_eq]
  rfl

end

end Tcp

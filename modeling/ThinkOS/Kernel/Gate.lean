import ThinkOS.Kernel.Object

/-!
# Gates

The services of thinkos_gate.c. A gate has two bits in a word shared by sixteen gates:
bit 0, the gate is signaled, and bit 1, the gate is locked (a thread is inside). The
handlers are written on the words, with the masks of the source; `gateSignaled` and
`gateLocked` read the two bits of one gate, and the lemmas of the second section say what
each mask does to them.
-/

namespace ThinkOS

open Lib BitVec Function

namespace Kernel

section
variable [Config] (k : Kernel) (self : Nat) (wq : Word)

def gateIdx : Option Nat := objIdx gateBase gateMax k.gateAlloc wq

/-- The word of gate `idx` and the position of its bits there. -/
def gates (idx : Nat) : Word := k.gate (idx / 16)
def gateShift (idx : Nat) : Nat := idx % 16 * 2

def setGates (idx : Nat) (w : Word) : Kernel :=
  { k with gate := Function.update k.gate (idx / 16) w }

/-- `(gates >> idx) & 3` -/
def gateState (idx : Nat) : Word := (k.gates idx >>> gateShift idx) &&& 3#32

def gateSignaled (idx : Nat) : Bool := k.gate.rd (idx * 2)
def gateLocked (idx : Nat) : Bool := k.gate.rd (idx * 2 + 1)

def gateAllocSvc : Kernel :=
  match bmpAlloc k.gateAlloc gateMax with
  | some idx =>
    { k with
      gateAlloc := k.gateAlloc.wr idx true
      gate := (k.gate.wr (idx * 2) false).wr (idx * 2 + 1) false }.arg0 self
      (BitVec.ofNat 32 (idx + gateBase))
  | none => k.arg0 self ENOMEM

def gateFreeSvc : Kernel :=
  let idx := (wq - BitVec.ofNat 32 gateBase).toNat
  if idx ≥ gateMax then k.arg0 self EINVAL
  else { k with gateAlloc := k.gateAlloc.wr idx false }

/-- Close and lock the gate. -/
def gateEnter (idx : Nat) : Kernel :=
  k.setGates idx ((k.gates idx &&& ~~~(3#32 <<< gateShift idx)) ||| (2#32 <<< gateShift idx))

def gateWaitSvc : Kernel :=
  match k.gateIdx wq with
  | none => k.arg0 self EINVAL
  | some idx =>
    if k.gateState idx = 1 then (k.gateEnter idx).arg0 self 0
    else k.waitBlock self wq.toNat true none

/-- Unlike `gate_wait`, it returns success when the gate is signaled and locked. -/
def gateTimedwaitSvc (ms : Word) : Kernel :=
  match k.gateIdx wq with
  | none => k.arg0 self EINVAL
  | some idx =>
    if k.gateState idx = 3 then k.arg0 self 0
    else if k.gateState idx = 1 then (k.gateEnter idx).arg0 self 0
    else k.waitBlock self wq.toNat true (some ms)

/-- A signaled and locked gate lets its first waiter in, or is unlocked when there is none. -/
def gateAdmit (idx wq : Nat) : Kernel :=
  let th := k.q.wqHead wq
  if th = threadNull then k.setGates idx (k.gates idx &&& ~~~(2#32 <<< gateShift idx))
  else (k.setGates idx (k.gates idx &&& ~~~(1#32 <<< gateShift idx))).wakeup wq th

/-- The pending signal is looked up in bit 3 of the word, whatever the gate. -/
def gateExitSvc (opn : Word) : Kernel :=
  match k.gateIdx wq with
  | none => k.arg0 self EINVAL
  | some idx =>
    if k.gate.rd (idx * 2 + 1) = false then k.arg0 self EPERM
    else
      let k := k.arg0 self 0
      if opn = 0 ∧ k.gates idx &&& (1#32 <<< 3) = 0 then
        k.setGates idx (k.gates idx &&& ~~~(2#32 <<< gateShift idx))
      else
        let k := if opn = 0 then k else k.setGates idx (k.gates idx ||| (1#32 <<< gateShift idx))
        if k.q.wqHead wq.toNat = threadNull then k.gateAdmit idx wq.toNat
        else (k.gateAdmit idx wq.toNat).deferSched

/-- `__thinkos_gate_open_i` -/
def gateOpenI (wq : Nat) : Kernel :=
  let idx := wq - gateBase
  if k.gates idx &&& (2#32 <<< gateShift idx) ≠ 0 then
    k.setGates idx (k.gates idx ||| (1#32 <<< gateShift idx))
  else (k.setGates idx (k.gates idx ||| (3#32 <<< gateShift idx))).gateAdmit idx wq

/-- `cm3_except13_isr` -/
def gateOpenIsr (wq : Nat) : Kernel := (k.gateOpenI wq).preempt

def gateOpenSvc : Kernel :=
  match k.gateIdx wq with
  | none => k.arg0 self EINVAL
  | some _ => ((k.arg0 self 0).gateOpenI wq.toNat).deferSched

def gateCloseSvc : Kernel :=
  match k.gateIdx wq with
  | none => k.arg0 self EINVAL
  | some idx =>
    let k := k.arg0 self 0
    { k with gate := k.gate.wr (idx * 2) false }

end

section
variable [Config] {idx b g : Nat} {k : Kernel} {wq : Word}

/-! ## The bits of one gate -/

omit [Config] in
theorem rd_gate (k : Kernel) (g : Nat) (hb : b < 2) :
    k.gate.rd (g * 2 + b) = (k.gates g).getLsbD (g % 16 * 2 + b) := by
  unfold Bitmap.rd gates
  rw [show (g * 2 + b) / 32 = g / 16 by omega, show (g * 2 + b) % 32 = g % 16 * 2 + b by omega]

omit [Config] in
theorem rd_setGates {w : Word} (hb : b < 2) : (k.setGates idx w).gate.rd (g * 2 + b) =
      if g / 16 = idx / 16 then w.getLsbD (g % 16 * 2 + b) else k.gate.rd (g * 2 + b) := by
  rw [rd_gate _ _ hb]
  show (update k.gate (idx / 16) w (g / 16)).getLsbD _ = _
  by_cases h : g / 16 = idx / 16
  · rw [h, update_self, if_pos rfl]
  · rw [update_of_ne h, if_neg h, rd_gate _ _ hb]
    rfl

omit [Config] in
theorem rd_clearGate (k : Kernel) (idx : Nat) (m : Word) (hm : m.toNat < 4) (g : Nat) (hb : b < 2) :
    (k.setGates idx (k.gates idx &&& ~~~(m <<< gateShift idx))).gate.rd (g * 2 + b) =
      (k.gate.rd (g * 2 + b) && !(decide (g = idx) && m.getLsbD b)) := by
  rw [rd_setGates hb, rd_gate k g hb]
  unfold gates gateShift
  by_cases h : g / 16 = idx / 16
  · have hlt : g % 16 * 2 + b < 32 := by omega
    rw [if_pos h, h, BitVec.getLsbD_and, BitVec.getLsbD_not, getLsbD_fieldMask hm hb hlt]
    simp only [hlt, decide_true, Bool.true_and]
    rw [show decide (g % 16 = idx % 16) = decide (g = idx) by
      rw [decide_eq_decide]
      omega]
  · rw [if_neg h]
    simp [show g ≠ idx by rintro rfl; exact h rfl]

omit [Config] in
theorem rd_raiseGate {w m : Word} (hm : m.toNat < 4) (hb : b < 2) :
    (k.setGates idx (w ||| m <<< gateShift idx)).gate.rd (g * 2 + b) =
      ((k.setGates idx w).gate.rd (g * 2 + b) || (decide (g = idx) && m.getLsbD b)) := by
  rw [rd_setGates hb, rd_setGates hb]
  unfold gateShift
  by_cases h : g / 16 = idx / 16
  · have hlt : g % 16 * 2 + b < 32 := by omega
    rw [if_pos h, if_pos h, getLsbD_or, getLsbD_fieldMask hm hb hlt]
    rw [show decide (g % 16 = idx % 16) = decide (g = idx) by
      rw [decide_eq_decide]
      omega]
  · rw [if_neg h, if_neg h]
    simp [show g ≠ idx by rintro rfl; exact h rfl]

omit [Config] in
theorem setGates_gates : k.setGates idx (k.gates idx) = k := by
  unfold setGates gates
  rw [update_eq_self]

omit [Config] in
theorem rd_signalGate (k : Kernel) (idx : Nat) (m : Word) (hm : m.toNat < 4) (g : Nat)
    (hb : b < 2) : (k.setGates idx (k.gates idx ||| m <<< gateShift idx)).gate.rd (g * 2 + b) =
      (k.gate.rd (g * 2 + b) || (decide (g = idx) && m.getLsbD b)) := by
  rw [rd_raiseGate hm hb, setGates_gates]

omit [Config] in
theorem rd_gateEnter (k : Kernel) (idx g : Nat) (hb : b < 2) :
    (k.gateEnter idx).gate.rd (g * 2 + b) =
      if g = idx then decide (b = 1) else k.gate.rd (g * 2 + b) := by
  unfold gateEnter
  rw [rd_raiseGate (by decide) hb, rd_clearGate _ _ _ (by decide) _ hb]
  obtain rfl | rfl : b = 0 ∨ b = 1 := by omega
  · by_cases h : g = idx <;> simp [h]
  · by_cases h : g = idx <;> simp [h]

omit [Config] in
theorem gateLocked_iff (k : Kernel) (idx : Nat) :
    k.gates idx &&& (2#32 <<< gateShift idx) ≠ 0 ↔ k.gateLocked idx = true := by
  have hs : (2#32 <<< gateShift idx : Word) = 1#32 <<< (idx % 16 * 2 + 1) := by
    rw [Nat.add_comm, shiftLeft_add]
    rfl
  unfold gateLocked
  rw [rd_gate _ _ (by decide), hs, Ne, show (0 : Word) = 0#32 from rfl,
    and_one_shiftLeft_eq_zero_iff (by omega)]
  simp

omit [Config] in
theorem gateState_eq : k.gateState idx =
      BitVec.ofNat 32 ((k.gateSignaled idx).toNat + 2 * (k.gateLocked idx).toNat) := by
  have h0 : k.gateSignaled idx = (k.gates idx >>> gateShift idx).getLsbD 0 := by
    rw [BitVec.getLsbD_ushiftRight]
    exact rd_gate k idx (b := 0) (by decide)
  have h1 : k.gateLocked idx = (k.gates idx >>> gateShift idx).getLsbD 1 := by
    rw [BitVec.getLsbD_ushiftRight]
    exact rd_gate k idx (b := 1) (by decide)
  unfold gateState
  rw [h0, h1]
  generalize k.gates idx >>> gateShift idx = x
  apply BitVec.eq_of_getLsbD_eq
  intro i hi
  rw [BitVec.getLsbD_and]
  obtain rfl | rfl | h : i = 0 ∨ i = 1 ∨ 2 ≤ i := by omega
  · cases x.getLsbD 0 <;> cases x.getLsbD 1 <;> rfl
  · cases x.getLsbD 0 <;> cases x.getLsbD 1 <;> rfl
  · have hz : ∀ n : Nat, n < 4 → (BitVec.ofNat 32 n).getLsbD i = false := by
      intro n hn
      rw [← BitVec.testBit_toNat]
      apply Nat.testBit_lt_two_pow
      calc (BitVec.ofNat 32 n).toNat ≤ n := by simp; omega
        _ < 2 ^ 2 := hn
        _ ≤ 2 ^ i := Nat.pow_le_pow_right (by decide) h
    rw [hz 3 (by decide), Bool.and_false, hz]
    have := Bool.toNat_le (x.getLsbD 0)
    have := Bool.toNat_le (x.getLsbD 1)
    omega

omit [Config] in
theorem gateState_eq_one_iff (k : Kernel) (idx : Nat) :
    k.gateState idx = 1 ↔ k.gateSignaled idx = true ∧ k.gateLocked idx = false := by
  rw [gateState_eq]
  cases k.gateSignaled idx <;> cases k.gateLocked idx <;> decide

omit [Config] in
theorem gateState_eq_three_iff :
    k.gateState idx = 3 ↔ k.gateSignaled idx = true ∧ k.gateLocked idx = true := by
  rw [gateState_eq]
  cases k.gateSignaled idx <;> cases k.gateLocked idx <;> decide

/-! ## Their effect on the queues -/

theorem gate_fits : gateBase + gateMax < 2 ^ 32 := by
  have := Config.wqLst_fits
  unfold gateBase flagBase eventBase semBase condBase mutexBase
  omega

theorem gateIdx_eq_some (h : k.gateIdx wq = some g) :
    wq.toNat = gateBase + g ∧ g < gateMax ∧ k.gateAlloc.rd g = true :=
  objIdx_eq_some gate_fits h

theorem isObj_gate (h : g < gateMax) : Queues.IsObj (gateBase + g) := by
  unfold Queues.IsObj wqPaused joinBase gateBase flagBase eventBase semBase condBase
  omega

section
variable {S : Nat → Prop} {self : Nat}

theorem raised_gate {gate : Bitmap} (hS : idx < gateMax → S (gateBase + idx))
    (hg : ∀ g b, b < 2 → g ≠ idx → gate.rd (g * 2 + b) = k.gate.rd (g * 2 + b)) :
    Raised S self k { k with gate := gate } := by
  refine .of_kept Kept.fields rfl rfl
    { Within.refl (k := k) with gate := fun g hlt hn => ⟨fun b hb => ?_, rfl⟩ }
  exact hg g b hb fun he => hn (he ▸ hS (he ▸ hlt))

theorem raised_clearGate {m : Word} (hm : m.toNat < 4) (hS : S (gateBase + idx)) :
    Raised S self k (k.setGates idx (k.gates idx &&& ~~~(m <<< gateShift idx))) := by
  refine raised_gate (fun _ => hS) fun g b hb hne => ?_
  have h := rd_clearGate k idx m hm g hb
  rwa [decide_eq_false hne, Bool.false_and, Bool.not_false, Bool.and_true] at h

theorem raised_signalGate {m : Word} (hm : m.toNat < 4) (hS : S (gateBase + idx)) :
    Raised S self k (k.setGates idx (k.gates idx ||| m <<< gateShift idx)) := by
  refine raised_gate (fun _ => hS) fun g b hb hne => ?_
  have h := rd_signalGate k idx m hm g hb
  rwa [decide_eq_false hne, Bool.false_and, Bool.or_false] at h

theorem raised_gateEnter (hS : S (gateBase + idx)) : Raised S self k (k.gateEnter idx) := by
  refine raised_gate (fun _ => hS) fun g b hb hne => ?_
  have h := rd_gateEnter k idx g hb
  rwa [if_neg hne] at h

omit [Config] in
theorem rd_wrGate (gate : Bitmap) (v : Bool) {c : Nat} (hc : c < 2) (hb : b < 2) (hne : g ≠ idx) :
    (gate.wr (idx * 2 + c) v).rd (g * 2 + b) = gate.rd (g * 2 + b) := by
  rw [Bitmap.rd_wr, if_neg (by omega)]

theorem gateAllocSvc_raised (hS : ∀ g, g < gateMax → S (gateBase + g)) :
    Raised S self k (k.gateAllocSvc self) := by
  unfold gateAllocSvc
  split
  · rename_i idx _
    refine Raised.trans ?_ raised_arg0
    refine (raised_gateAlloc (hS idx) true).trans ?_
    refine raised_gate (hS idx) fun g b hb hne => ?_
    rw [rd_wrGate _ _ (by decide) hb hne]
    exact rd_wrGate (c := 0) _ _ (by decide) hb hne
  · exact raised_arg0

theorem gateFreeSvc_raised (hS : ∀ g, g < gateMax → wq.toNat = gateBase + g → S (gateBase + g)) :
    Raised S self k (k.gateFreeSvc self wq) := by
  simp only [gateFreeSvc]
  split
  · exact raised_arg0
  · rename_i h
    exact raised_gateAlloc (fun hlt => hS _ hlt (handle_eq gate_fits h)) false

theorem gateAdmit_raised (hlt : idx < gateMax) (hS : S (gateBase + idx)) :
    Raised S self k (k.gateAdmit idx (gateBase + idx)) := by
  simp only [gateAdmit]
  split
  · exact raised_clearGate (by decide) hS
  · rename_i h
    exact (raised_clearGate (by decide) hS).trans
      (raised_wake (k := k.setGates idx _) (isObj_gate hlt) hS h 0)

theorem gateOpenI_raised (hlt : idx < gateMax) (hS : S (gateBase + idx)) :
    Raised S self k (k.gateOpenI (gateBase + idx)) := by
  simp only [gateOpenI, Nat.add_sub_cancel_left]
  split
  · exact raised_signalGate (by decide) hS
  · exact (raised_signalGate (by decide) hS).trans (gateAdmit_raised hlt hS)

section
variable (hs : self < 32) (hS : ∀ g, k.gateIdx wq = some g → S (gateBase + g))
include hS

theorem gateExitSvc_raised {opn : Word} : Raised S self k (k.gateExitSvc self wq opn) := by
  refine raised_idx fun g h => ?_
  obtain ⟨hwq, hlt, -⟩ := gateIdx_eq_some h
  replace hS := hS g h
  rw [hwq]
  split
  · exact raised_arg0
  · refine (raised_arg0 (v := 0)).trans ?_
    generalize k.arg0 self 0 = k
    simp only
    split
    · exact raised_clearGate (by decide) hS
    · generalize hk : (if opn = 0 then k else _) = k1
      have h1 : Raised S self k k1 := by
        subst hk
        split
        · exact .refl k
        · exact raised_signalGate (by decide) hS
      split
      · exact h1.trans (gateAdmit_raised hlt hS)
      · exact (h1.trans (gateAdmit_raised hlt hS)).trans raised_deferSched

theorem gateOpenSvc_raised : Raised S self k (k.gateOpenSvc self wq) := by
  refine raised_idx fun g h => ?_
  obtain ⟨hwq, hlt, -⟩ := gateIdx_eq_some h
  replace hS := hS g h
  rw [hwq]
  exact (raised_arg0.trans (gateOpenI_raised hlt hS)).trans raised_deferSched

theorem gateCloseSvc_raised : Raised S self k (k.gateCloseSvc self wq) := by
  refine raised_idx fun g h => ?_
  exact raised_arg0.trans (raised_gate (fun _ => hS g h) fun i b hb hne =>
    rd_wrGate (c := 0) _ _ (by decide) hb hne)

include hs

theorem gateWaitSvc_served : Served S self k (k.gateWaitSvc self wq) := by
  refine served_idx fun g h => ?_
  obtain ⟨hwq, hlt, -⟩ := gateIdx_eq_some h
  split
  · exact ((raised_gateEnter (hS g h)).trans raised_arg0).served
  · exact waitBlock_served k self _ _ _ hs (hwq ▸ isObj_gate hlt) (hwq ▸ hS g h)

theorem gateTimedwaitSvc_served {ms : Word} :
    Served S self k (k.gateTimedwaitSvc self wq ms) := by
  refine served_idx fun g h => ?_
  obtain ⟨hwq, hlt, -⟩ := gateIdx_eq_some h
  split
  · exact raised_arg0.served
  · split
    · exact ((raised_gateEnter (hS g h)).trans raised_arg0).served
    · exact waitBlock_served k self _ _ _ hs (hwq ▸ isObj_gate hlt) (hwq ▸ hS g h)

end

end

end

end Kernel

end ThinkOS

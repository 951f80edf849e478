import ThinkOS.Kernel.Object

/-!
# Event sets

The services of thinkos_event.c. `ev_raise` refuses an event number above 31;
`ev_mask` and `ev_clear` do not, and reach through the bit-band alias whatever bit lies
that far from their own word. The model follows such an access as long as it stays in
`ev[]` and marks it as a fault beyond.
-/

namespace ThinkOS

open Lib

namespace Kernel

section
variable [Config] (k : Kernel) (self : Nat) (wq : Word)

def evIdx : Option Nat := objIdx eventBase eventMax k.evAlloc wq

def evPend (no : Nat) : Word := k.ev (2 * no)
def evMask (no : Nat) : Word := k.ev (2 * no + 1)

def setEvWord (i : Nat) (w : Word) : Kernel := { k with ev := Function.update k.ev i w }

/-- Position in `ev[]` of bit `ev` counted from word `i`; alias addresses wrap after `2 ^ 30` bits. -/
def evOff (i : Nat) (ev : Word) : Nat := (32 * i + ev.toNat) % 2 ^ 30

/-- `__bit_mem_wr` on a word of `ev[]`. -/
def evBitWr (i : Nat) (ev : Word) (v : Bool) : Kernel :=
  if evOff i ev < 64 * eventMax then { k with ev := k.ev.wr (evOff i ev) v }
  else { k with fault := true }

def evAllocSvc : Kernel :=
  match bmpAlloc k.evAlloc eventMax with
  | some idx =>
    (({ k with evAlloc := k.evAlloc.wr idx true }.setEvWord (2 * idx + 1) (BitVec.allOnes 32)).setEvWord
      (2 * idx) 0).arg0 self (BitVec.ofNat 32 (idx + eventBase))
  | none => k.arg0 self ENOMEM

def evFreeSvc : Kernel :=
  let idx := (wq - BitVec.ofNat 32 eventBase).toNat
  if idx ≥ eventMax then k.arg0 self EINVAL
  else { k with evAlloc := k.evAlloc.wr idx false }

def evWaitSvc : Kernel :=
  match k.evIdx wq with
  | none => k.arg0 self EINVAL
  | some no =>
    let ev := lowBit (k.evPend no &&& k.evMask no)
    if ev < 32 then
      (k.setEvWord (2 * no) (k.evPend no &&& ~~~(1#32 <<< ev))).arg0 self (BitVec.ofNat 32 ev)
    else k.waitBlock self wq.toNat true none

def evTimedwaitSvc (ms : Word) : Kernel :=
  match k.evIdx wq with
  | none => k.arg0 self EINVAL
  | some no =>
    let ev := lowBit (k.evPend no &&& k.evMask no)
    if ev < 32 then
      (k.setEvWord (2 * no) (k.evPend no &&& ~~~(1#32 <<< ev))).arg0 self (BitVec.ofNat 32 ev)
    else k.waitBlock self wq.toNat true (some ms)

/-- `__thinkos_ev_raise_i`, for an event number below 32. -/
def evRaiseI (wq : Nat) (ev : Word) : Kernel :=
  let no := wq - eventBase
  if k.ev.rd (evOff (2 * no + 1) ev) = false then k.evBitWr (2 * no) ev true
  else
    let th := k.q.wqHead wq
    if th = threadNull then k.evBitWr (2 * no) ev true else k.wakeupReturn wq th ev

/-- `cm3_except9_isr` -/
def evRaiseIsr (wq : Nat) (ev : Word) : Kernel := (k.evRaiseI wq ev).preempt

def evRaiseSvc (ev : Word) : Kernel :=
  if ev.toNat > 31 then k.arg0 self EINVAL
  else
    match k.evIdx wq with
    | none => k.arg0 self EINVAL
    | some _ => ((k.arg0 self 0).evRaiseI wq.toNat ev).deferSched

/-- A shift by a register takes its low byte, and a count of 32 or more gives zero. -/
def evShl (ev : Word) : Word := 1#32 <<< (ev.toNat % 256)

def evMaskSvc (ev val : Word) : Kernel :=
  match k.evIdx wq with
  | none => k.arg0 self EINVAL
  | some no =>
    let k := k.arg0 self 0
    if val = 0 then k.evBitWr (2 * no + 1) ev false
    else if k.evMask no &&& evShl ev ≠ 0 then k
    else if ¬ evOff (2 * no) ev < 64 * eventMax then { k with fault := true }
    else if k.ev.rd (evOff (2 * no) ev) = false then
      k.setEvWord (2 * no + 1) (k.evMask no ||| evShl ev)
    else
      let th := k.q.wqHead wq.toNat
      if th = threadNull then k.evBitWr (2 * no + 1) ev true
      else
        (((k.evBitWr (2 * no) ev false).evBitWr (2 * no + 1) ev true).wakeupReturn wq.toNat th
          ev).deferSched

def evClearSvc (ev : Word) : Kernel :=
  match k.evIdx wq with
  | none => k.arg0 self EINVAL
  | some no => (k.arg0 self 0).evBitWr (2 * no) ev false

end

section
variable [Config] {k : Kernel} {wq : Word} {e : Nat}

/-! ## Their effect on the queues -/

theorem evIdx_eq_some (h : k.evIdx wq = some e) :
    wq.toNat = eventBase + e ∧ e < eventMax ∧ k.evAlloc.rd e = true :=
  objIdx_eq_some (by
    have := Config.wqLst_fits
    unfold eventBase semBase condBase mutexBase
    omega) h

theorem isObj_event (h : e < eventMax) : Queues.IsObj (eventBase + e) := by
  unfold Queues.IsObj wqPaused joinBase gateBase flagBase eventBase semBase condBase
  omega

section
variable {S : Nat → Prop} {self : Nat} {ev : Word}

theorem raised_setEvWord {i : Nat} {w : Word} : Raised S self k (k.setEvWord i w) := raised_fields

theorem raised_evBitWr (k : Kernel) (self i : Nat) (ev : Word) (v : Bool) :
    Raised S self k (k.evBitWr i ev v) := by
  unfold evBitWr
  split
  · exact raised_fields
  · exact raised_fields

theorem q_evBitWr {i : Nat} {v : Bool} : (k.evBitWr i ev v).q = k.q := by
  unfold evBitWr
  split <;> rfl

theorem evAllocSvc_raised : Raised S self k (k.evAllocSvc self) := by
  unfold evAllocSvc
  split
  · exact ((raised_fields.trans raised_setEvWord).trans raised_setEvWord).trans
      raised_arg0
  · exact raised_arg0

theorem evFreeSvc_raised : Raised S self k (k.evFreeSvc self wq) := by
  simp only [evFreeSvc]
  split
  · exact raised_arg0
  · exact raised_fields

theorem evWait_served (ms : Option Word) (hs : self < 32)
    (hS : ∀ e, k.evIdx wq = some e → S (eventBase + e)) : Served S self k (match k.evIdx wq with
      | none => k.arg0 self EINVAL
      | some e =>
        let ev := lowBit (k.evPend e &&& k.evMask e)
        if ev < 32 then
          (k.setEvWord (2 * e) (k.evPend e &&& ~~~(1#32 <<< ev))).arg0 self (BitVec.ofNat 32 ev)
        else k.waitBlock self wq.toNat true ms) := by
  refine served_idx fun e h => ?_
  obtain ⟨hwq, hlt, -⟩ := evIdx_eq_some h
  simp only
  split
  · exact (raised_setEvWord.trans raised_arg0).served
  · exact waitBlock_served k self _ _ _ hs (hwq ▸ isObj_event hlt) (hwq ▸ hS e h)

theorem evRaiseI_raised (k : Kernel) (self wq : Nat) (ev : Word) (hwq : Queues.IsObj wq)
    (hS : S wq) : Raised S self k (k.evRaiseI wq ev) := by
  simp only [evRaiseI]
  split
  · exact raised_evBitWr _ _ _ _ _
  · split
    · exact raised_evBitWr _ _ _ _ _
    · rename_i h
      exact raised_wake hwq hS h ev

theorem evRaiseSvc_raised (hS : ∀ e, k.evIdx wq = some e → S (eventBase + e)) :
    Raised S self k (k.evRaiseSvc self wq ev) := by
  unfold evRaiseSvc
  split
  · exact raised_arg0
  · split
    · exact raised_arg0
    · rename_i e h
      obtain ⟨hwq, hlt, -⟩ := evIdx_eq_some h
      exact (raised_arg0.trans (evRaiseI_raised _ self _ _ (hwq ▸ isObj_event hlt)
        (hwq ▸ hS e h))).trans raised_deferSched

theorem evMaskSvc_raised {val : Word} (hS : ∀ e, k.evIdx wq = some e → S (eventBase + e)) :
    Raised S self k (k.evMaskSvc self wq ev val) := by
  refine raised_idx fun e h => ?_
  obtain ⟨hwq, hlt, -⟩ := evIdx_eq_some h
  replace hS : S wq.toNat := hwq ▸ hS e h
  refine (raised_arg0 (v := 0)).trans ?_
  generalize k.arg0 self 0 = k
  simp only
  split
  · exact raised_evBitWr _ _ _ _ _
  · split
    · exact .refl k
    · split
      · exact raised_fields
      · split
        · exact raised_setEvWord
        · split
          · exact raised_evBitWr _ _ _ _ _
          · rename_i hne
            have hbits := (raised_evBitWr (S := S) k self (2 * e) ev false).trans
              (raised_evBitWr _ self (2 * e + 1) ev true)
            have hq : ((k.evBitWr (2 * e) ev false).evBitWr (2 * e + 1) ev true).q = k.q := by
              rw [q_evBitWr, q_evBitWr]
            rw [← hq] at hne ⊢
            exact (hbits.trans (raised_wake (hwq ▸ isObj_event hlt) hS hne ev)).trans
              raised_deferSched

theorem evClearSvc_raised : Raised S self k (k.evClearSvc self wq ev) := by
  exact raised_idx fun _ _ => raised_arg0.trans (raised_evBitWr _ _ _ _ _)

end

end

end Kernel

end ThinkOS

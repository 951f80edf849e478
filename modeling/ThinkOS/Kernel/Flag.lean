import ThinkOS.Kernel.Object

/-!
# Flags

The services of thinkos_flag.c: the give/take family, in which a give wakes one waiter
or sets the flag, and the watch family, in which a set wakes every waiter. `flag_take`
and `flag_timedtake` enter the queue without publishing the caller's context pointer.
-/

namespace ThinkOS

open Lib

namespace Kernel

section
variable [Config] (k : Kernel) (self : Nat) (wq : Word)

def flagIdx : Option Nat := objIdx flagBase flagMax k.flagAlloc wq

def setFlag (idx : Nat) (v : Bool) : Kernel := { k with flag := k.flag.wr idx v }

def flagAllocSvc : Kernel :=
  match bmpAlloc k.flagAlloc flagMax with
  | some idx =>
    ({ k with flagAlloc := k.flagAlloc.wr idx true }.setFlag idx false).arg0 self
      (BitVec.ofNat 32 (idx + flagBase))
  | none => k.arg0 self ENOMEM

def flagFreeSvc : Kernel :=
  let idx := (wq - BitVec.ofNat 32 flagBase).toNat
  if idx ≥ flagMax then k.arg0 self EINVAL
  else { k with flagAlloc := k.flagAlloc.wr idx false }

/-! ## Give and take -/

def flagTakeSvc : Kernel :=
  match k.flagIdx wq with
  | none => k.arg0 self EINVAL
  | some idx =>
    if k.flag.rd idx then (k.setFlag idx false).arg0 self 0
    else k.waitBlock self wq.toNat false none

def flagTimedtakeSvc (ms : Word) : Kernel :=
  match k.flagIdx wq with
  | none => k.arg0 self EINVAL
  | some idx =>
    if k.flag.rd idx then (k.setFlag idx false).arg0 self 0
    else k.waitBlock self wq.toNat false (some ms)

/-- `__thinkos_flag_give_i` -/
def flagGiveI (wq : Nat) : Kernel :=
  let th := k.q.wqHead wq
  if th = threadNull then k.setFlag (wq - flagBase) true else k.wakeup wq th

/-- `cm3_except10_isr` -/
def flagGiveIsr (wq : Nat) : Kernel := (k.flagGiveI wq).preempt

def flagGiveSvc : Kernel :=
  match k.flagIdx wq with
  | none => k.arg0 self EINVAL
  | some _ => ((k.arg0 self 0).flagGiveI wq.toNat).deferSched

/-! ## Watch -/

def flagValSvc : Kernel :=
  match k.flagIdx wq with
  | none => k.arg0 self EINVAL
  | some idx => k.arg0 self (BitVec.ofNat 32 (k.flag.rd idx).toNat)

def flagClrSvc : Kernel :=
  match k.flagIdx wq with
  | none => k.arg0 self EINVAL
  | some idx => (k.arg0 self 0).setFlag idx false

def flagSetSvc : Kernel :=
  match k.flagIdx wq with
  | none => k.arg0 self EINVAL
  | some idx =>
    let k := (k.arg0 self 0).setFlag idx true
    if k.q.wqHead wq.toNat ≠ threadNull then (k.wakeAll wq.toNat 0).deferSched else k

def flagWatchSvc : Kernel :=
  match k.flagIdx wq with
  | none => k.arg0 self EINVAL
  | some idx =>
    let k := k.arg0 self 0
    if k.flag.rd idx then k else ((k.wqInsert wq.toNat self).suspend self).deferSched

def flagTimedwatchSvc (ms : Word) : Kernel :=
  match k.flagIdx wq with
  | none => k.arg0 self EINVAL
  | some idx =>
    let k := k.arg0 self 0
    if k.flag.rd idx then k
    else (((k.arg0 self ETIMEDOUT).tmdwqInsert wq.toNat self ms).suspend self).deferSched

end

section
variable [Config] {k : Kernel} {wq : Word} {f : Nat}

/-! ## Their effect on the queues -/

theorem flagIdx_eq_some (h : k.flagIdx wq = some f) :
    wq.toNat = flagBase + f ∧ f < flagMax ∧ k.flagAlloc.rd f = true :=
  objIdx_eq_some (by
    have := Config.wqLst_fits
    unfold flagBase eventBase semBase condBase mutexBase
    omega) h

theorem isObj_flag (h : f < flagMax) : Queues.IsObj (flagBase + f) := by
  unfold Queues.IsObj wqPaused joinBase gateBase flagBase eventBase semBase condBase
  omega

section
variable {S : Nat → Prop} {self : Nat}

theorem raised_setFlag {idx : Nat} {v : Bool} : Raised S self k (k.setFlag idx v) := raised_fields

theorem flagAllocSvc_raised : Raised S self k (k.flagAllocSvc self) := by
  unfold flagAllocSvc
  split
  · exact (raised_fields.trans raised_setFlag).trans raised_arg0
  · exact raised_arg0

theorem flagFreeSvc_raised : Raised S self k (k.flagFreeSvc self wq) := by
  simp only [flagFreeSvc]
  split
  · exact raised_arg0
  · exact raised_fields

theorem flagGiveI_raised (k : Kernel) (self wq : Nat) (hwq : Queues.IsObj wq) (hS : S wq) :
    Raised S self k (k.flagGiveI wq) := by
  simp only [flagGiveI]
  split
  · exact raised_setFlag
  · rename_i h
    exact raised_wake hwq hS h 0

theorem flagValSvc_raised : Raised S self k (k.flagValSvc self wq) := by
  exact raised_idx fun _ _ => raised_arg0

theorem flagClrSvc_raised : Raised S self k (k.flagClrSvc self wq) := by
  exact raised_idx fun _ _ => raised_arg0.trans raised_setFlag

section
variable (hs : self < 32) (hS : ∀ f, k.flagIdx wq = some f → S (flagBase + f))
include hS

theorem flagGiveSvc_raised : Raised S self k (k.flagGiveSvc self wq) := by
  refine raised_idx fun f h => ?_
  obtain ⟨hwq, hlt, -⟩ := flagIdx_eq_some h
  exact (raised_arg0.trans (flagGiveI_raised _ self _ (hwq ▸ isObj_flag hlt)
    (hwq ▸ hS f h))).trans raised_deferSched

theorem flagSetSvc_raised : Raised S self k (k.flagSetSvc self wq) := by
  refine raised_idx fun f h => ?_
  obtain ⟨hwq, hlt, -⟩ := flagIdx_eq_some h
  have hset : Raised S self k ((k.arg0 self 0).setFlag f true) :=
    raised_arg0.trans raised_setFlag
  simp only
  split
  · exact (hset.trans (wakeAll_raised _ self _ 0 (hwq ▸ isObj_flag hlt) (hwq ▸ hS f h))).trans
      raised_deferSched
  · exact hset

include hs

theorem flagTake_served {ms : Option Word} : Served S self k (match k.flagIdx wq with
      | none => k.arg0 self EINVAL
      | some f =>
        if k.flag.rd f then (k.setFlag f false).arg0 self 0 else k.waitBlock self wq.toNat false ms) := by
  refine served_idx fun f h => ?_
  obtain ⟨hwq, hlt, -⟩ := flagIdx_eq_some h
  split
  · exact (raised_setFlag.trans raised_arg0).served
  · exact waitBlock_served k self _ _ _ hs (hwq ▸ isObj_flag hlt) (hwq ▸ hS f h)

theorem flagWatchSvc_served : Served S self k (k.flagWatchSvc self wq) := by
  refine served_idx fun f h => ?_
  obtain ⟨hwq, hlt, -⟩ := flagIdx_eq_some h
  simp only
  split
  · exact raised_arg0.served
  · exact Served.of_block false ((Kept.arg0 _ _ _).trans Kept.fields) rfl
      (.inl (hwq ▸ isObj_flag hlt)) rfl
      ((Within.arg0 _ _).trans (.insert _ false _ hs (hwq ▸ hS f h)))

theorem flagTimedwatchSvc_served {ms : Word} :
    Served S self k (k.flagTimedwatchSvc self wq ms) := by
  refine served_idx fun f h => ?_
  obtain ⟨hwq, hlt, -⟩ := flagIdx_eq_some h
  simp only
  split
  · exact raised_arg0.served
  · exact Served.of_block true
      (((Kept.arg0 _ _ _).trans (.arg0 _ _ _)).trans Kept.fields) rfl
      (.inl (hwq ▸ isObj_flag hlt)) rfl
      (((Within.arg0 _ _).trans (.arg0 _ _)).trans (.insert _ true _ hs (hwq ▸ hS f h)))

end

end

end

end Kernel

end ThinkOS

import ThinkOS.Kernel.Object

/-!
# Semaphores

The services of thinkos_semaphore.c, each run without interruption: the exclusive
accesses succeed the first time and the roll-back branches are not taken. Interrupt
handlers come between two services, never inside one.
-/

namespace ThinkOS

open Lib

namespace Kernel

section
variable [Config] (k : Kernel) (self : Nat) (wq : Word)

def semIdx : Option Nat := objIdx semBase semaphoreMax k.semAlloc wq

def setSemVal (sem : Nat) (v : Word) : Kernel :=
  { k with semVal := Function.update k.semVal sem v }

def semAllocSvc (value : Word) : Kernel :=
  match bmpAlloc k.semAlloc semaphoreMax with
  | some idx =>
    ({ k with semAlloc := k.semAlloc.wr idx true }.setSemVal idx value).arg0 self
      (BitVec.ofNat 32 (idx + semBase))
  | none => k.arg0 self ENOMEM

def semFreeSvc : Kernel :=
  let idx := (wq - BitVec.ofNat 32 semBase).toNat
  if idx ≥ semaphoreMax then k.arg0 self EINVAL
  else { k with semAlloc := k.semAlloc.wr idx false }

def semInitSvc (value : Word) : Kernel :=
  match k.semIdx wq with
  | none => k.arg0 self EINVAL
  | some sem => (k.setSemVal sem value).arg0 self 0

def semTrywaitSvc : Kernel :=
  match k.semIdx wq with
  | none => k.arg0 self EINVAL
  | some sem =>
    if k.semVal sem ≠ 0 then (k.setSemVal sem (k.semVal sem - 1)).arg0 self 0
    else k.arg0 self EAGAIN

def semWaitSvc : Kernel :=
  match k.semIdx wq with
  | none => k.arg0 self EINVAL
  | some sem =>
    if k.semVal sem ≠ 0 then (k.setSemVal sem (k.semVal sem - 1)).arg0 self 0
    else k.waitBlock self wq.toNat true none

def semTimedwaitSvc (ms : Word) : Kernel :=
  match k.semIdx wq with
  | none => k.arg0 self EINVAL
  | some sem =>
    if k.semVal sem ≠ 0 then (k.setSemVal sem (k.semVal sem - 1)).arg0 self 0
    else k.waitBlock self wq.toNat true (some ms)

/-- `__thinkos_sem_post_i` -/
def semPostI (wq : Nat) : Kernel :=
  let th := k.q.wqHead wq
  if th = threadNull then
    let sem := wq - semBase
    k.setSemVal sem (k.semVal sem + 1)
  else k.wakeup wq th

/-- `cm3_except7_isr`, the post of an interrupt handler. -/
def semPostIsr (wq : Nat) : Kernel := (k.semPostI wq).preempt

def semPostSvc : Kernel :=
  match k.semIdx wq with
  | none => k.arg0 self EINVAL
  | some _ => ((k.arg0 self 0).semPostI wq.toNat).deferSched

end

section
variable [Config] {s : Nat} {k : Kernel} {wq : Word}

/-! ## Their effect on the queues -/

theorem sem_fits : semBase + semaphoreMax < 2 ^ 32 := by
  have := Config.wqLst_fits
  unfold semBase condBase mutexBase
  omega

theorem semIdx_eq_some (h : k.semIdx wq = some s) :
    wq.toNat = semBase + s ∧ s < semaphoreMax ∧ k.semAlloc.rd s = true :=
  objIdx_eq_some sem_fits h

theorem isObj_sem (h : s < semaphoreMax) : Queues.IsObj (semBase + s) := by
  unfold Queues.IsObj wqPaused joinBase gateBase flagBase eventBase semBase condBase
  omega

section
variable {S : Nat → Prop} {self : Nat}

theorem raised_setSemVal {sem : Nat} (hS : sem < semaphoreMax → S (semBase + sem)) {v : Word} :
    Raised S self k (k.setSemVal sem v) := by
  refine .of_kept Kept.fields rfl rfl
    { Within.refl (k := k) with sem := fun i hlt hi => ⟨?_, rfl⟩ }
  have hne : i ≠ sem := fun he => hi (he ▸ hS (he ▸ hlt))
  exact Function.update_of_ne hne ..

theorem semAllocSvc_raised {v : Word} (hS : ∀ s, s < semaphoreMax → S (semBase + s)) :
    Raised S self k (k.semAllocSvc self v) := by
  unfold semAllocSvc
  split
  · exact ((raised_semAlloc (hS _) true).trans (raised_setSemVal (hS _))).trans
      raised_arg0
  · exact raised_arg0

theorem semFreeSvc_raised (hS : ∀ s, s < semaphoreMax → wq.toNat = semBase + s → S (semBase + s)) :
    Raised S self k (k.semFreeSvc self wq) := by
  simp only [semFreeSvc]
  split
  · exact raised_arg0
  · rename_i h
    exact raised_semAlloc (fun hlt => hS _ hlt (handle_eq sem_fits h)) false

/-- Taking a unit, the common first branch of the three waits. -/
theorem raised_semTake (hS : S (semBase + s)) :
    Raised S self k ((k.setSemVal s (k.semVal s - 1)).arg0 self 0) :=
  (raised_setSemVal (fun _ => hS)).trans raised_arg0

theorem semPostI_raised (hs : s < semaphoreMax) (hS : S (semBase + s)) :
    Raised S self k (k.semPostI (semBase + s)) := by
  simp only [semPostI]
  split
  · rw [Nat.add_sub_cancel_left]
    exact raised_setSemVal (fun _ => hS)
  · rename_i h
    exact raised_wake (isObj_sem hs) hS h 0

section
variable (hs : self < 32) (hS : ∀ s, k.semIdx wq = some s → S (semBase + s))
include hS

theorem semInitSvc_raised {v : Word} : Raised S self k (k.semInitSvc self wq v) := by
  refine raised_idx fun s h => ?_
  exact (raised_setSemVal (fun _ => hS s h)).trans raised_arg0

theorem semTrywaitSvc_raised : Raised S self k (k.semTrywaitSvc self wq) := by
  unfold semTrywaitSvc
  split
  · exact raised_arg0
  · split
    · exact raised_semTake (hS _ ‹_›)
    · exact raised_arg0

theorem semPostSvc_raised : Raised S self k (k.semPostSvc self wq) := by
  refine raised_idx fun s h => ?_
  obtain ⟨hwq, hlt, -⟩ := semIdx_eq_some h
  rw [hwq]
  exact (raised_arg0.trans (semPostI_raised hlt (hS s h))).trans raised_deferSched

include hs in
theorem semWait_served {ms : Option Word} : Served S self k (match k.semIdx wq with
      | none => k.arg0 self EINVAL
      | some s =>
        if k.semVal s ≠ 0 then (k.setSemVal s (k.semVal s - 1)).arg0 self 0
        else k.waitBlock self wq.toNat true ms) := by
  refine served_idx fun s h => ?_
  obtain ⟨hwq, hlt, -⟩ := semIdx_eq_some h
  split
  · exact (raised_semTake (hS s h)).served
  · exact waitBlock_served k self _ _ _ hs (hwq ▸ isObj_sem hlt) (hwq ▸ hS s h)

end

end

end

end Kernel

end ThinkOS

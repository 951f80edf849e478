import ThinkOS.Kernel.Pause

/-!
# Threads

Creation (thinkos_thread.c), exit and termination (thinkos_exit.c), cancellation
(thinkos_cancel.c), join (thinkos_join.c), sleeping (thinkos_sleep.c), interrupt waits
(thinkos_irq.c) and critical sections (thinkos_svc.c).

A thread that calls `exit` with nobody joined on it waits in the canceled queue; a join
moves it to ready, and it then runs `__thinkos_thread_exit`, which terminates it.
-/

namespace ThinkOS

open Lib Queues

/-- `struct thinkos_thread_init`, without the entry point. -/
structure ThreadInit where
  arg : Word
  stackPtr : Nat
  stackSize : BitVec 16
  priority : BitVec 8
  id : BitVec 7
  paused : Bool
  deriving DecidableEq, Repr

/-- `sizeof(struct thinkos_context)` -/
def sizeofContext : Nat := 64

def schedLimitMin : Word := 1#32
def schedLimitMax : BitVec 8 := 32#8

/-- `thinkos_alloc_lo`: the lowest clear bit at or above `start`. -/
def allocLo (w : Word) (start : Nat) : Option Nat :=
  let idx := lowBit (~~~(w >>> start)) + start
  if idx ≥ 32 then none else some idx

/-- `thinkos_alloc_hi`: the highest clear bit at or below `start`. -/
def allocHi (w : Word) (start : Nat) : Option Nat :=
  let start := min start 31
  let z := leadingZeros (~~~(w <<< (31 - start)))
  if start < z then none else some (start - z)

theorem allocLo_eq_some {w : Word} {start i : Nat} (h : allocLo w start = some i) :
    i < 32 ∧ w.getLsbD i = false := by
  simp only [allocLo] at h
  split at h
  · cases h
  · rename_i hlt
    cases h
    have hl : lowBit (~~~(w >>> start)) < 32 := by omega
    have hb := getLsbD_lowBit hl
    rw [BitVec.getLsbD_not, BitVec.getLsbD_ushiftRight, Nat.add_comm] at hb
    simp only [hl, decide_true, Bool.true_and, Bool.not_eq_true'] at hb
    exact ⟨by omega, hb⟩

theorem allocHi_eq_some {w : Word} {start i : Nat} (h : allocHi w start = some i) :
    i < 32 ∧ w.getLsbD i = false := by
  simp only [allocHi] at h
  split at h
  · cases h
  · rename_i hlt
    cases h
    generalize hz : leadingZeros (~~~(w <<< (31 - min start 31))) = z at hlt
    have hb := getLsbD_leadingZeros (~~~(w <<< (31 - min start 31))) (by omega)
    rw [hz, BitVec.getLsbD_not, BitVec.getLsbD_shiftLeft] at hb
    have h1 : 32 - 1 - z < 32 := by omega
    have h2 : ¬ 32 - 1 - z < 31 - min start 31 := by omega
    have h3 : 32 - 1 - z - (31 - min start 31) = min start 31 - z := by omega
    simp only [h1, h2, h3, decide_true, decide_false, Bool.not_false, Bool.true_and,
      Bool.not_eq_true'] at hb
    exact ⟨by omega, hb⟩

namespace Kernel

section
variable [Config] (k : Kernel) (self : Nat)

/-! ## Creation -/

/-- The slot a creation takes; `id` counts from one, and zero asks for any slot. -/
def threadSlot (id : BitVec 7) : Option Nat :=
  if id.toNat ≥ threadsMax + 1 then allocHi (k.thAlloc 0) threadsMax
  else
    let target := id.toNat - 1
    match allocLo (k.thAlloc 0) target with
    | some th => some th
    | none => allocHi (k.thAlloc 0) target

theorem threadSlot_eq_some {k : Kernel} {id : BitVec 7} {th : Nat}
    (h : k.threadSlot id = some th) : th < 32 ∧ (k.thAlloc 0).getLsbD th = false := by
  simp only [threadSlot] at h
  split at h
  · exact allocHi_eq_some h
  · split at h
    · rename_i hl
      cases h
      exact allocLo_eq_some hl
    · exact allocHi_eq_some h

/-- `__thinkos_thread_init` -/
def threadInit (th sp : Nat) (arg : Word) : Kernel :=
  let sp := sp / 8 * 8 - sizeofContext
  { k with
    stack := storeFrame k.stack th sp { r0 := arg, pc := .user }
    ctx := Function.update k.ctx th (some sp)
    q := k.q.bitWr wqPaused th true }

/-- The slot is marked as used before the stack size is checked. -/
def threadCreateSvc (init : ThreadInit) : Kernel :=
  match k.threadSlot init.id with
  | none => k.arg0 self EINVAL
  | some th =>
    let k := { k with thAlloc := k.thAlloc.wr th true }
    if init.stackSize.toNat < sizeofContext then k.arg0 self EINVAL
    else
      let pri := if init.priority > schedLimitMax then schedLimitMax else init.priority
      let limit := if k.schedLimit < pri.setWidth 32 then pri.setWidth 32 else k.schedLimit
      let k := { k with
        schedPri := Function.update k.schedPri th pri
        schedLimit := limit
        schedVal := Function.update k.schedVal th ((limit / 2#32).setWidth 8) }
      let k := k.threadInit th (init.stackPtr + init.stackSize.toNat) init.arg
      let k := if init.paused then k else (k.threadResume th).deferSched
      k.arg0 self (BitVec.ofNat 32 (th + 1))

/-! ## Exit and termination -/

/-- The schedule limit grows to the priority of every other thread that has a context. -/
def schedLimitEval (th : Nat) : Word :=
  (List.range threadsMax).foldl
    (fun limit j =>
      if j = th then limit
      else if k.ctx j = none then limit
      else if limit < (k.schedPri j).setWidth 32 then (k.schedPri j).setWidth 32 else limit)
    k.schedLimit

/-- `__thinkos_thread_abort` -/
def threadAbort (th : Nat) : Kernel :=
  let k := { k with
    schedLimit := k.schedLimitEval th
    thAlloc := k.thAlloc.wr th false
    active := if th = k.active then threadVoid else k.active
    ctx := Function.update k.ctx th none }
  (k.suspend th).deferSched

/-- The part of `thinkos_terminate_svc` before the abort: the thread leaves the queue its status
names and the time-share queue, and the threads joined on it return its code. A timed waiter
stays in the clock queue. -/
def threadDetach (th : Nat) (code : Word) : Kernel :=
  let stat := k.q.thStat th
  let k := { k with
    q := ((k.q.bitWr wqTmshare th false).setStat th 0).bitWr (stat / 2) th false }
  let wq := joinBase + th
  if k.q.wqHead wq ≠ threadNull then (k.wakeAll wq code).deferSched else k

def terminateSvc (thread code : Word) : Kernel :=
  let th := targetId self thread
  if th ≥ threadsMax ∨ k.thAlloc.rd th = false then k.arg0 self EINVAL
  else (k.threadDetach th code).threadAbort th

/-- The caller resumes in `__thinkos_thread_exit`. -/
def framePcExit : Kernel :=
  { k with stack := storeFrame k.stack self k.psp { k.stack self k.psp with pc := .threadExit } }

/-- `thinkos_exit_svc`; the caller's frame keeps the exit code in `r0`. -/
def exitSvc : Kernel :=
  let k :=
    if k.q.wqLst (joinBase + self) = 0 then ((k.wqInsert wqCanceled self).suspend self).deferSched
    else k
  k.framePcExit self

/-- The scheduler is not asked for, also when a thread cancels itself. -/
def cancelSvc (thread code : Word) : Kernel :=
  let th := targetId self thread
  if th ≥ threadsMax ∨ k.thAlloc.rd th = false then k.arg0 self EINVAL
  else
    let q := k.q.bitWr (k.q.thStat th / 2) th false
    let q := q.wqInsert wqCanceled th
    let k := { k with q := (q.bitWr wqTmshare th false).bitWr wqClock th false }
    ((k.ctxPcExit th).ctxR0 th code).arg0 self 0

def joinSvc (thread : Word) : Kernel :=
  let th := (thread - 1).toNat
  if th ≥ threadsMax ∨ k.thAlloc.rd th = false then k.arg0 self EINVAL
  else
    let q :=
      if k.q.mem wqCanceled th then (k.q.bitWr wqCanceled th false).bitWr wqReady th true else k.q
    let k := { k with q := q.wqInsert (joinBase + th) self }
    ((k.suspend self).deferSched).arg0 self (-1)

/-! ## Sleeping, interrupts, critical sections -/

def sleepSvc (ms : Word) : Kernel :=
  let k := { k with
    clock := Function.update k.clock self (k.ticks + ms)
    q := (k.q.bitWr wqClock self true).setStat self (2 * wqClock + 1) }
  (k.suspend self).deferSched

def alarmSvc (ms : Word) : Kernel :=
  let k := { k with
    clock := Function.update k.clock self ms
    q := (k.q.bitWr wqClock self true).setStat self (2 * wqClock + 1) }
  (k.suspend self).deferSched

def irqWaitSvc (irq : Word) : Kernel :=
  if irq.toNat ≥ irqMax then k.arg0 self EINVAL
  else
    let k := (k.arg0 self 0).suspend self
    { k with irqTh := Function.update k.irqTh irq.toNat self }.deferSched

/-- `cm3_default_isr` -/
def defaultIsr (irq : Nat) : Kernel :=
  { k with
    irqTh := Function.update k.irqTh irq threadIdle
    q := k.q.bitWr wqReady (k.irqTh irq) true }.preempt

def criticalEnterSvc : Kernel :=
  let k := { k with criticalCnt := k.criticalCnt + 1 }
  if k.criticalCnt ≠ 0 then { k with pendsv := false } else k

def criticalExitSvc : Kernel :=
  if k.criticalCnt = 0 then k.arg0 self EFAULT
  else
    let k := { k with criticalCnt := k.criticalCnt - 1 }
    if k.criticalCnt = 0 then k.deferSched else k

end

section
variable [Config]

theorem isObj_join {th : Nat} (h : th < threadsMax) : Queues.IsObj (joinBase + th) := by
  have := wq_bases
  unfold Queues.IsObj wqPaused
  omega

section
variable {S : Nat → Prop} {self : Nat}

theorem Served.of_sleep {k : Kernel} {clock : Nat → Word} (hs : self < 32) :
    Served S self k (({ k with
      clock := clock
      q := (k.q.bitWr wqClock self true).setStat self (2 * wqClock + 1) }.suspend
        self).deferSched) := by
  refine Served.of_block true Kept.fields rfl (.inr ⟨rfl, rfl⟩) (enqueue_clock hs) ?_
  refine .queues (fun w t _ ht hne => ?_) (fun t hne => ?_) fun _ w ho _ => ?_
  · rw [mem_setStat, mem_bitWr hs ht, if_neg fun h => hne h.2]
  · rw [thStat_setStat, if_neg hne, thStat_bitWr]
  · rw [mem_setStat, mem_bitWr hs hs, if_neg]
    have := Queues.clock_lt_obj ho
    omega

theorem sleepSvc_served {k : Kernel} {ms : Word} (hs : self < 32) :
    Served S self k (k.sleepSvc self ms) := .of_sleep hs

theorem alarmSvc_served {k : Kernel} {ms : Word} (hs : self < 32) :
    Served S self k (k.alarmSvc self ms) := .of_sleep hs

end

end

end Kernel

end ThinkOS
